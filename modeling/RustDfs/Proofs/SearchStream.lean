import RustDfs.Model.SearchReference
import RustDfs.Proofs.SearchRules

/-!
# `RustDfs.Proofs.SearchStream`: what a search reports

`messages` lists the files a session was told about, each with whether it
was published here at that time and whether the lookup failed, and `sent`
the responses of its search task. Which files are published is read off
the history (`stored`), not off what the task was answered.

`search_stream` says that along every run in which the client stays and
the cache forgets nothing, the responses are the first message of each
file that was not known here (`firsts`): not published, or not found
because the lookup failed.
-/

set_option autoImplicit false

namespace RustDfs.Search.Stream

open Lib Conc

/-! ### The first messages -/

/-- The response to a message. -/
def response (found : FileFound) : SearchResponse := ⟨found.fileId, found.fileName⟩

/-- A message with the time it was handled at: whether the file was
published here, and whether the lookup failed. -/
structure Message where
  found : FileFound
  published : Bool
  failed : Bool
deriving DecidableEq

/-- The file is known to be published here. -/
def Message.known (m : Message) : Bool := m.published && !m.failed

/-- The responses to the first message of each file that was not known,
latest first like the messages. -/
def firsts : List Message → List SearchResponse
  | [] => []
  | m :: older =>
      if m.known = true ∨ m.found.fileId ∈ (firsts older).map SearchResponse.fileId then
        firsts older
      else response m.found :: firsts older

variable {m : Message} {ms : List Message}

/-- A message of a file that was reported changes nothing. -/
theorem firsts_of_mem (h : m.found.fileId ∈ (firsts ms).map SearchResponse.fileId) :
    firsts (m :: ms) = firsts ms :=
  if_pos (.inr h)

/-- Nor does one of a file that is known. -/
theorem firsts_of_known (h : m.known = true) : firsts (m :: ms) = firsts ms :=
  if_pos (.inl h)

/-- The first message of an unknown file is reported. -/
theorem firsts_of_new (hm : m.known = false)
    (h : m.found.fileId ∉ (firsts ms).map SearchResponse.fileId) :
    firsts (m :: ms) = response m.found :: firsts ms :=
  if_neg (by simpa [hm] using h)

theorem firsts_nodup (ms : List Message) :
    ((firsts ms).map SearchResponse.fileId).Nodup := by
  induction ms with
  | nil => exact List.nodup_nil
  | cons m ms ih =>
      rw [firsts]
      split
      · exact ih
      · next h =>
          rw [List.map_cons, List.nodup_cons]
          exact ⟨fun hmem => h (.inr hmem), ih⟩

/-- What is reported was a message of an unknown file. -/
theorem mem_of_mem_firsts {r : SearchResponse} (h : r ∈ firsts ms) :
    ∃ m ∈ ms, m.known = false ∧ r = response m.found := by
  induction ms with
  | nil => cases h
  | cons m ms ih =>
      rw [firsts] at h
      split at h
      · obtain ⟨m', hm', hr⟩ := ih h
        exact ⟨m', List.mem_cons_of_mem _ hm', hr⟩
      · next hnew =>
          obtain rfl | h := List.mem_cons.mp h
          · refine ⟨m, List.mem_cons_self, ?_, rfl⟩
            rw [← Bool.not_eq_true]
            exact fun hk => hnew (.inl hk)
          · obtain ⟨m', hm', hr⟩ := ih h
            exact ⟨m', List.mem_cons_of_mem _ hm', hr⟩

/-- Every unknown file is reported. -/
theorem mem_firsts_of_mem (h : m ∈ ms) (hm : m.known = false) :
    m.found.fileId ∈ (firsts ms).map SearchResponse.fileId := by
  induction ms with
  | nil => cases h
  | cons m' ms ih =>
      rw [firsts]
      split
      · next hold =>
          obtain rfl | h := List.mem_cons.mp h
          · obtain hk | hmem := hold
            · rw [hm] at hk
              cases hk
            · exact hmem
          · exact ih h
      · obtain rfl | h := List.mem_cons.mp h
        · exact List.mem_cons_self
        · exact List.mem_cons_of_mem _ (ih h)

/-! ### What the history says -/

/-- The file an event publishes here. -/
def put? : SearchEvent → Option PublishedFileKey
  | .op _ (.putPublishedFile r) (.ok _) => some r.key
  | _ => none

section History

variable (n : Nat) (files : Std.ExtTreeMap PublishedFileKey PublishedFileRecord)

/-- Whether a file is published here after these events, with `files` at
the start. -/
def stored (h : List SearchEvent) (key : PublishedFileKey) : Bool :=
  files.contains key || (h.filterMap put?).contains key

/-- What the search task of a session does with its messages:

- `took`: it takes a message, whose file is published or not;
- `cached`: it finds the file in its cache;
- `looked`: it looks up a file, which is published or not, and the lookup
  fails or not;
- `sent`: it hands a response to the client;
- `failed`: it cannot. -/
inductive Mark where
  | took (found : FileFound) (published : Bool)
  | cached
  | looked (key : PublishedFileKey) (published failed : Bool)
  | sent (response : SearchResponse)
  | failed

/-- What an event says about session `n` when the files of `held` are
published. -/
def mark (held : PublishedFileKey → Bool) : SearchEvent → Option Mark
  | .op (.searchTask m) (.select _) (.msg (some found)) =>
      if m = n then some (.took found (held (.ofU64 found.fileId))) else none
  | .op (.searchTask m) (.containsKey ..) true => if m = n then some .cached else none
  | .op (.searchTask m) (.publishedFileExists key) (.ok _) =>
      if m = n then some (.looked key (held key) false) else none
  | .op (.searchTask m) (.publishedFileExists key) (.error _) =>
      if m = n then some (.looked key (held key) true) else none
  | .op (.searchTask m) (.sendGrpc _ r) (.ok _) => if m = n then some (.sent r) else none
  | .op (.searchTask m) (.sendGrpc ..) (.error _) => if m = n then some .failed else none
  | _ => none

/-- Everything the history says about session `n`, latest first. -/
def marks : List SearchEvent → List Mark
  | [] => []
  | e :: h => (mark n (stored files h) e).toList ++ marks h

end History

/-- The lookup of the latest message. It tells the time of the message. -/
def markLooked (key : PublishedFileKey) (published failed : Bool) : List Message → List Message
  | [] => []
  | m :: ms => if key = .ofU64 m.found.fileId then ⟨m.found, published, failed⟩ :: ms else m :: ms

/-- The messages the task took from its channel, latest first. The time of
a message is that of its lookup, and without one the time it was taken. -/
def messages : List Mark → List Message
  | [] => []
  | .took found published :: h => ⟨found, published, false⟩ :: messages h
  | .looked key published failed :: h => markLooked key published failed (messages h)
  | _ :: h => messages h

/-- The responses the task handed to its client, latest first. -/
def sent : List Mark → List SearchResponse
  | [] => []
  | .sent r :: h => r :: sent h
  | _ :: h => sent h

/-- The messages the task is done with: not the one in hand, which was
taken and perhaps looked up in vain. -/
def handled : List Mark → List Message
  | .took .. :: h => messages h
  | .looked key published failed :: h =>
      if published && !failed then messages (.looked key published failed :: h) else handled h
  | h => messages h

/-- What starts a program from outside: the search task and the lookups
are started by programs. -/
def external : Task → Bool
  | .searchTask .. | .fileSearch .. => false
  | _ => true

/-- The task an event starts from outside. -/
def started? : SearchEvent → Option Task
  | .start t => some t
  | _ => none

/-- The session whose client an event disconnects. -/
def disconnected? : SearchEvent → Option Nat
  | .op _ (.disconnect m) _ => some m
  | _ => none

/-- A look into a cache: the session, the file and the answer. -/
def looked? : SearchEvent → Option (Nat × UInt64 × Bool)
  | .op _ (.containsKey m id) known => some (m, id, known)
  | _ => none

/-- The node crashes. -/
def crashes : SearchEvent → Bool
  | .crash => true
  | _ => false

/-- The steps of a run in which the client of session `n` stays connected
and its cache forgets nothing:

- what is started from outside is no search task and no lookup, which
  their programs start;
- no step disconnects the client of `n`;
- a look into the cache of `n` says whether the file is in it;
- the node does not crash. -/
def connected (n : Nat) : SearchGuard := fun v e =>
  (∀ t ∈ started? e, external t = true) ∧ disconnected? e ≠ some n ∧
    (∀ x ∈ looked? e, x.1 = n → x.2.2 = decide (x.2.1 ∈ (v.world.session n).cache)) ∧
    crashes e = false

instance (n : Nat) (v : SearchView) (e : SearchEvent) : Decidable (connected n v e) :=
  inferInstanceAs (Decidable ((∀ t ∈ started? e, _) ∧ _ ∧ (∀ x ∈ looked? e, _) ∧ _))

/-- The responses are the first messages, as far as they are handled. -/
def Reported (h : List Mark) : Prop := sent h = firsts (handled h)

/-! ### The protocol -/

/-- Between two messages the responses are the first messages, and the
cache holds the files that were reported. -/
structure Settled (h : List Mark) (cache : Finset UInt64) : Prop where
  handled : handled h = messages h
  sent : sent h = firsts (messages h)
  cache : ∀ id, id ∈ cache ↔ id ∈ (Stream.sent h).map SearchResponse.fileId

/-- The invariant of session `n`. -/
structure Inv (n : Nat) (files : Std.ExtTreeMap PublishedFileKey PublishedFileRecord)
    (v : SearchView) : Prop where
  /-- Nothing happened in a session that was not made yet. -/
  fresh : v.world.next ≤ n → v.live (.searchTask n) = false ∧ marks n files v.hist = []
  /-- The client is there. -/
  client : (v.world.session n).clientGone = false
  reported : Reported (marks n files v.hist)
  /-- The history says what is published here. -/
  stored : ∀ key, v.world.published.contains key = stored files v.hist key
  idle : v.live (.searchTask n) = false →
    Settled (marks n files v.hist) (v.world.session n).cache

/-- What the programs of slot `i` can count on. -/
structure Rely (n : Nat) (files : Std.ExtTreeMap PublishedFileKey PublishedFileRecord) (i : Slot)
    (v v' : SearchView) : Prop where
  next : v.world.next ≤ v'.world.next
  /-- The task of the session is the only one that goes on with it. -/
  task : i = .searchTask n → n < v.world.next →
    (v'.world.session n).cache = (v.world.session n).cache ∧
      marks n files v'.hist = marks n files v.hist

/-- The task of session `n` is between two messages. -/
def AtRest (n : Nat) (files : Std.ExtTreeMap PublishedFileKey PublishedFileRecord)
    (v : SearchView) : Prop :=
  n < v.world.next ∧ Settled (marks n files v.hist) (v.world.session n).cache

/-- The protocol of the session: its task starts when the session is made
and settled, and ends settled. -/
def protocol (n : Nat) (files : Std.ExtTreeMap PublishedFileKey PublishedFileRecord) :
    Protocol lang World :=
  .ofRely (Inv n files) (Rely n files)
    (fun t v => ∀ fuel value, t = .searchTask n fuel value → AtRest n files v)
    (fun i _ v => i = .searchTask n → AtRest n files v)

section Frame

variable {n : Nat} {files : Std.ExtTreeMap PublishedFileKey PublishedFileRecord}
  {v v' : SearchView} {i : Slot} {o : Op} {c : Choice} {a : o.Ans} {w w' : World}
  {held : PublishedFileKey → Bool} {found : FileFound}

theorem marks_cons_none {e : SearchEvent} {l : List SearchEvent}
    (h : mark n (Stream.stored files l) e = none) : marks n files (e :: l) = marks n files l := by
  rw [marks, h]
  rfl

theorem marks_cons {e : SearchEvent} {m : Mark} {l : List SearchEvent}
    (h : mark n (Stream.stored files l) e = some m) :
    marks n files (e :: l) = m :: marks n files l := by
  rw [marks, h]
  rfl

theorem mark_took : mark n held (.op (L := lang) (.searchTask n) (.select n) (.msg (some found)))
    = some (.took found (held (.ofU64 found.fileId))) := if_pos rfl

theorem mark_cached {id : UInt64} :
    mark n held (.op (L := lang) (.searchTask n) (.containsKey n id) true) = some .cached :=
  if_pos rfl

theorem mark_looked {key : PublishedFileKey} {answer : Except FileStoreError Bool} :
    mark n held (.op (L := lang) (.searchTask n) (.publishedFileExists key) answer)
      = some (.looked key (held key) !answer.toBool) := by
  cases answer <;> exact if_pos rfl

theorem mark_sent {r : SearchResponse} :
    mark n held (.op (L := lang) (.searchTask n) (.sendGrpc n r) (.ok ())) = some (.sent r) :=
  if_pos rfl

/-- Only the task of the session leaves marks. -/
theorem mark_op (hi : i ≠ .searchTask n) (o : Op) (a : o.Ans) :
    mark n held (.op (L := lang) i o a) = none := by
  have other : ∀ m, i = .searchTask m → m ≠ n := fun m he hm => hi (by rw [he, hm])
  -- Every mark is left by the slot of the session's task.
  rw [mark.eq_def]
  split
  all_goals first
    | rfl
    | (rename_i heq; cases heq; exact if_neg (other _ rfl))

/-- What a mark says about the published files is true. -/
theorem mark_took_eq {e : SearchEvent} {b : Bool} (h : mark n held e = some (.took found b)) :
    b = held (.ofU64 found.fileId) := by
  rw [mark.eq_def] at h
  split at h
  all_goals first
    | cases h
    | (split at h <;> cases h <;> rfl)

theorem mark_looked_eq {e : SearchEvent} {key : PublishedFileKey} {b failed : Bool}
    (h : mark n held e = some (.looked key b failed)) : b = held key := by
  rw [mark.eq_def] at h
  split at h
  all_goals first
    | cases h
    | (split at h <;> cases h <;> rfl)

/-- A message after a lookup: it was there before, or is the one the lookup
was about. -/
theorem mem_markLooked {key : PublishedFileKey} {b failed : Bool} {ms : List Message} {m : Message}
    (h : m ∈ markLooked key b failed ms) :
    m ∈ ms ∨ key = .ofU64 m.found.fileId ∧ b = m.published := by
  cases ms with
  | nil => exact .inl h
  | cons m' ms =>
      rw [markLooked] at h
      split at h
      · next hk =>
          obtain rfl | h := List.mem_cons.mp h
          · exact .inr ⟨hk, rfl⟩
          · exact .inl (List.mem_cons_of_mem _ h)
      · exact .inl h

theorem stored_cons (e : SearchEvent) {l : List SearchEvent} {key : PublishedFileKey}
    (h : Stream.stored files l key = true) : Stream.stored files (e :: l) key = true := by
  unfold Stream.stored at *
  rw [List.filterMap_cons]
  cases put? e with
  | none => exact h
  | some k =>
      rw [List.contains_cons, Bool.or_left_comm, h, Bool.or_true]

/-- The history goes with the published files. -/
theorem stored_op (he : o.exec c w = some (a, w')) {l : List SearchEvent}
    (h : ∀ key, w.published.contains key = Stream.stored files l key) (key : PublishedFileKey) :
    w'.published.contains key = Stream.stored files (.op (L := lang) i o a :: l) key := by
  have same : ∀ {e : SearchEvent}, put? e = none →
      Stream.stored files (e :: l) key = Stream.stored files l key := by
    intro e he
    rw [Stream.stored, List.filterMap_cons_none he]
    rfl
  -- Only `put_published_file` changes what is published, and its event says so.
  by_cases hp : ∃ r, o = .putPublishedFile r
  · obtain ⟨r, rfl⟩ := hp
    cases c <;> cases he
    · show (w.published.insert r.key r).contains key =
        (files.contains key || (r.key :: l.filterMap put?).contains key)
      have same : (compare r.key key == .eq) = (key == r.key) := by
        rw [Bool.eq_iff_iff, beq_iff_eq, beq_iff_eq, Std.LawfulEqCmp.compare_eq_iff_eq]
        exact eq_comm
      rw [Std.ExtTreeMap.contains_insert, List.contains_cons, h key, Stream.stored, same,
        Bool.or_left_comm]
    · rw [same rfl]
      exact h key
  · have none : put? (.op (L := lang) i o a) = none := by
      cases o with
      | putPublishedFile r => exact absurd ⟨r, rfl⟩ hp
      | _ => rfl
    rw [exec_published (fun r hr => hp ⟨r, hr⟩) he, same none]
    exact h key

/-- A file that was published at the time of its message still is. -/
theorem stored_of_message {l : List SearchEvent} {m : Message}
    (hm : m ∈ messages (marks n files l)) (hp : m.published = true) :
    Stream.stored files l (.ofU64 m.found.fileId) = true := by
  induction l with
  | nil => cases hm
  | cons e l ih =>
      cases he : mark n (Stream.stored files l) e with
      | none =>
          rw [marks_cons_none he] at hm
          exact stored_cons e (ih hm)
      | some mk =>
          rw [marks_cons he] at hm
          cases mk with
          | took found published =>
              -- The message is this one, or one before it.
              obtain rfl | hm := List.mem_cons.mp hm
              · exact stored_cons e (mark_took_eq he ▸ hp)
              · exact stored_cons e (ih hm)
          | looked key published failed =>
              obtain hm | ⟨rfl, rfl⟩ := mem_markLooked hm
              · exact stored_cons e (ih hm)
              · exact stored_cons e (mark_looked_eq he ▸ hp)
          | _ => exact stored_cons e (ih hm)

/-- Everything the invariant is about stays as it is. -/
theorem Inv.frame (hv : Inv n files v) (hn : v.world.next ≤ v'.world.next)
    (hc : (v'.world.session n).cache = (v.world.session n).cache)
    (hg : (v'.world.session n).clientGone = (v.world.session n).clientGone)
    (hs : ∀ key, v'.world.published.contains key = Stream.stored files v'.hist key)
    (hm : marks n files v'.hist = marks n files v.hist)
    (hl : v'.live (.searchTask n) = v.live (.searchTask n)) : Inv n files v' where
  fresh h := by
    rw [hl, hm]
    exact hv.fresh (hn.trans h)
  client := hg.trans hv.client
  reported := by
    rw [hm]
    exact hv.reported
  stored := hs
  idle h := by
    rw [hl] at h
    rw [hm, hc]
    exact hv.idle h

/-- A program of another slot leaves the cache and the client alone,
unless it makes the session. -/
theorem changes_foreign {s : Session} (h : Changes w n o s) (hb : Belongs i o)
    (hi : i ≠ .searchTask n) (hd : o ≠ .disconnect n) :
    (o = .channels ∧ n = w.next ∧ s = .new) ∨
      s.cache = (w.session n).cache ∧ s.clientGone = (w.session n).clientGone := by
  cases h with
  | channels hn => exact .inl ⟨rfl, hn, rfl⟩
  | containsKey id =>
      cases hb
      exact absurd rfl hi
  | insertKey id =>
      cases hb
      exact absurd rfl hi
  | disconnect => exact absurd rfl hd
  | _ => exact .inr ⟨rfl, rfl⟩

/-- The sessions that were made stay made. -/
theorem next_mono (he : o.exec c w = some (a, w')) : w.next ≤ w'.next := by
  by_cases ho : o = .channels
  · subst ho
    rw [(exec_channels he).2.1]
    exact Nat.le_succ _
  · exact (exec_next ho he).ge

/-- An operation of another slot. -/
theorem guar_foreign (hinv : Inv n files v) (hb : Belongs i o) (hi : i ≠ .searchTask n)
    (he : o.exec c v.world = some (a, w)) (hg : connected n v (.op i o a)) :
    (protocol n files).Guar i v (v.op i o a w) := by
  have hd : o ≠ .disconnect n := by
    rintro rfl
    exact hg.2.1 rfl
  have hm : marks n files (v.op (L := lang) i o a w).hist = marks n files v.hist :=
    marks_cons_none (mark_op hi o a)
  have hn : v.world.next ≤ w.next := next_mono he
  have hp : ∀ key, w.published.contains key =
      Stream.stored files (v.op (L := lang) i o a w).hist key := stored_op he hinv.stored
  obtain ⟨rfl, hnext, hs⟩ | ⟨hcache, hgone⟩ := changes_foreign (exec_session he n) hb hi hd
  · -- The session is made: nothing happened in it before.
    obtain ⟨hlive, hmarks⟩ := hinv.fresh hnext.ge
    refine ⟨⟨fun _ => ⟨hlive, hm.trans hmarks⟩, ?_, ?_, hp, fun _ => ?_⟩,
      fun j _ => ⟨hn, fun _ h => absurd hnext h.ne⟩⟩
    · show (w.session n).clientGone = false
      rw [hs]
      rfl
    · rw [hm]
      exact hinv.reported
    · rw [hm, hmarks, show (v.op (L := lang) i .channels a w).world.session n = .new from hs]
      exact ⟨rfl, rfl, fun id => by simp [Session.new, sent]⟩
  · exact ⟨hinv.frame hn hcache hgone hp hm rfl, fun j _ => ⟨hn, fun _ _ => ⟨hcache, hm⟩⟩⟩

/-- A step that changes nothing in the world and leaves no mark. -/
theorem guar_silent (hinv : Inv n files v) (hw : v'.world = v.world)
    (hs : Stream.stored files v'.hist = Stream.stored files v.hist)
    (hm : marks n files v'.hist = marks n files v.hist)
    (hl : v'.live (.searchTask n) = v.live (.searchTask n)) : (protocol n files).Guar i v v' := by
  refine ⟨hinv.frame (by rw [hw]) (by rw [hw]) (by rw [hw]) (fun key => ?_) hm hl,
    fun j _ => ⟨by rw [hw], fun _ _ => ⟨by rw [hw], hm⟩⟩⟩
  rw [hw, hs]
  exact hinv.stored key

/-- Starting a task of another session or a lookup. -/
theorem spawn_foreign {t : Task} (hinv : Inv n files v) (ht : slotOf t ≠ .searchTask n) :
    (protocol n files).Guar i v (v.spawn (L := lang) i t (slotOf t)) :=
  guar_silent hinv rfl rfl (marks_cons_none rfl) (Function.update_of_ne (Ne.symm ht) _ _)

/-- Starting the task of the session. -/
theorem spawn_searchTask (fuel : Nat) (value : String) (hinv : Inv n files v)
    (hn : n < v.world.next) (hf : v.live (.searchTask n) = false) :
    (protocol n files).Guar i v (v.spawn (L := lang) i (.searchTask n fuel value) (.searchTask n)) ∧
      AtRest n files (v.spawn (L := lang) i (.searchTask n fuel value) (.searchTask n)) := by
  have hm : marks n files (v.spawn (L := lang) i (.searchTask n fuel value) (.searchTask n)).hist
      = marks n files v.hist := marks_cons_none rfl
  have hl : (v.spawn (L := lang) i (.searchTask n fuel value) (.searchTask n)).live (.searchTask n)
      = true := Function.update_self ..
  refine ⟨⟨⟨fun h => ?_, hinv.client, ?_, hinv.stored, fun h => ?_⟩, fun j _ =>
    ⟨le_rfl, fun _ _ => ⟨rfl, hm⟩⟩⟩, hn, ?_⟩
  · exact absurd hn h.not_gt
  · rw [hm]
    exact hinv.reported
  · rw [hl] at h
    cases h
  · rw [hm]
    exact hinv.idle hf

end Frame

/-! ### The other programs -/

section Programs

variable [Config] {n : Nat} {files : Std.ExtTreeMap PublishedFileKey PublishedFileRecord}
  {v v' : SearchView} {i : Slot} {α : Type}

/-- A program of another slot that starts at most lookups. -/
theorem safe_foreign {p : Proc α} (hp : p.Within (footprint i)) (hi : i ≠ .searchTask n)
    (hc : ∀ k, i ≠ .call k) :
    (protocol n files).Safe machine (connected n) i p (fun _ _ => True) v := by
  refine Protocol.safe_footprint hp (fun _ _ _ _ => trivial) (fun v _ hinv _ o ho c a w he hg =>
    ⟨guar_foreign hinv ho hi he hg, trivial⟩) (fun v _ hinv _ t ht _ _ => ?_)
    (fun _ _ _ _ _ h => h.elim) trivial
  cases ht with
  | searchTask k m fuel value => exact absurd rfl (hc k)
  | fileSearch id source request =>
      refine ⟨spawn_foreign hinv nofun, fun _ _ h => ?_, trivial⟩
      cases h

/-- One operation of another slot, after session `m` was made. -/
theorem perform_foreign {o : Op} {m : Nat} (hb : Belongs i o) (hi : i ≠ .searchTask n)
    (hm : m < v.world.next) :
    (protocol n files).Safe machine (connected n) i (perform o) (fun _ v => m < v.world.next) v := by
  intro v₁ hI hinv _ c a w he hg
  exact ⟨guar_foreign hinv hb hi he hg, (hm.trans_le hI.1.next).trans_le (next_mono he)⟩

/-- A call makes its session and starts its task. -/
theorem search_safe (k fuel : Nat) (value : String) :
    (protocol n files).Safe machine (connected n) (.call k) (search fuel value).run
      (fun _ _ => True) v := by
  refine Protocol.safe_seqL (B := fun m v => m < v.world.next) ?_ fun m v hm => ?_
  · intro v₁ _ hinv _ c a w he hg
    refine ⟨guar_foreign hinv (.channels k) nofun he hg, ?_⟩
    obtain ⟨rfl, hnext, -⟩ := exec_channels he
    show v₁.world.next < w.next
    rw [hnext]
    exact Nat.lt_succ_self _
  · refine Protocol.safe_seqL (perform_foreign (.search k _ m) nofun hm) fun r v hm => ?_
    cases r with
    | error e =>
        exact Protocol.safe_seqL (perform_foreign (.failed k m) nofun hm) fun _ _ _ => trivial
    | ok u =>
        intro v₁ hI hinv _ hf _
        have hm' : m < v₁.world.next := hm.trans_le hI.1.next
        by_cases e : m = n
        · subst e
          obtain ⟨hG, hs⟩ := spawn_searchTask (i := .call k) fuel value
            hinv hm' hf
          exact ⟨hG, fun _ _ _ => hs, trivial⟩
        · refine ⟨spawn_foreign hinv fun h => e (Slot.searchTask.inj h), fun fuel value h => ?_,
            trivial⟩
          cases h
          exact absurd rfl e

/-! ### The search task -/

/-- The view of the running task between two of its operations. -/
structure Held (n : Nat) (files : Std.ExtTreeMap PublishedFileKey PublishedFileRecord)
    (h : List Mark) (cache : Finset UInt64) (v : SearchView) : Prop where
  made : n < v.world.next
  marks : marks n files v.hist = h
  cache : (v.world.session n).cache = cache

variable {h h' : List Mark} {cache cache' : Finset UInt64} {found : FileFound} {b failed : Bool}

omit [Config] in
theorem Held.stable (hI : Rely n files (.searchTask n) v v') (hv : Held n files h cache v) :
    Held n files h cache v' where
  made := hv.made.trans_le hI.next
  marks := (hI.task rfl hv.made).2.trans hv.marks
  cache := (hI.task rfl hv.made).1.trans hv.cache

omit [Config] in
theorem Held.atRest (hv : Held n files h cache v) (hs : Settled h cache) : AtRest n files v := by
  obtain ⟨hn, rfl, rfl⟩ := hv
  exact ⟨hn, hs⟩

/-- What an operation of the task has to keep. -/
theorem perform_held {o : Op} {Q : o.Ans → SearchView → Prop} (hv : Held n files h cache v)
    (step : ∀ v, Inv n files v → Held n files h cache v → ∀ c a w,
      o.exec c v.world = some (a, w) → connected n v (.op (.searchTask n) o a) → ∃ h' cache',
        Held n files h' cache' (v.op (L := lang) (.searchTask n) o a w) ∧ Reported h' ∧
        Q a (v.op (L := lang) (.searchTask n) o a w)) :
    (protocol n files).Safe machine (connected n) (.searchTask n) (perform o) Q v := by
  intro v₁ hI hinv hlive c a w he hg
  replace hv := hv.stable hI.1
  obtain ⟨h', cache', hv', reported, hQ⟩ := step v₁ hinv hv c a w he hg
  -- No step disconnects the client, and the session is there already.
  have client : (w.session n).clientGone = false := by
    have hs := exec_session he n
    have hc := hinv.client
    generalize w.session n = s at hs
    cases hs with
    | disconnect => exact absurd rfl hg.2.1
    | channels hn => exact absurd hv.made hn.ge.not_gt
    | _ => exact hc
  refine ⟨⟨⟨fun hle => ?_, client, ?_, stored_op he hinv.stored, fun hl => ?_⟩, fun j hj =>
    ⟨next_mono he, fun hj' => absurd hj' hj⟩⟩, hQ⟩
  · exact absurd hv'.made hle.not_gt
  · rw [hv'.marks]
    exact reported
  · rw [show (v₁.op (L := lang) (.searchTask n) o a w).live (.searchTask n) = true from hlive] at hl
    cases hl

omit [Config] in
theorem Settled.reported (hs : Settled h cache) : Reported h := by
  rw [Reported, hs.handled]
  exact hs.sent

omit [Config] in
/-- The message in hand is not handled yet. -/
theorem Settled.took (hs : Settled h cache) : Reported (.took found b :: h) := hs.sent

omit [Config] in
/-- Nor is it after a lookup in vain. -/
theorem Settled.looked (hs : Settled h cache) {key : PublishedFileKey} {p : Bool}
    (hp : (p && !failed) = false) : Reported (.looked key p failed :: .took found b :: h) := by
  rw [Reported, Stream.handled, hp]
  exact hs.sent

omit [Config] in
/-- A message of a file that was reported. -/
theorem Settled.cached (hs : Settled h cache) (hc : found.fileId ∈ cache) :
    Settled (.cached :: .took found b :: h) cache where
  handled := rfl
  sent := by
    show Stream.sent h = firsts (⟨found, b, false⟩ :: messages h)
    rw [firsts_of_mem, hs.sent]
    rw [← hs.sent]
    exact (hs.cache _).mp hc
  cache := hs.cache

omit [Config] in
/-- The lookup of the message in hand. -/
theorem messages_looked {p : Bool} :
    messages (.looked (.ofU64 found.fileId) p failed :: .took found b :: h) =
      ⟨found, p, failed⟩ :: messages h :=
  if_pos rfl

omit [Config] in
/-- A message of a file that was found. -/
theorem Settled.published (hs : Settled h cache) :
    Settled (.looked (.ofU64 found.fileId) true false :: .took found b :: h) cache where
  handled := rfl
  sent := by
    rw [messages_looked, firsts_of_known rfl]
    exact hs.sent
  cache := hs.cache

omit [Config] in
/-- A message that is reported. -/
theorem Settled.new (hs : Settled h cache) (hc : found.fileId ∉ cache) {p : Bool}
    (hp : (p && !failed) = false) :
    Settled (.sent (response found) :: .looked (.ofU64 found.fileId) p failed ::
      .took found b :: h) (insert found.fileId cache) where
  handled := rfl
  sent := by
    show response found :: Stream.sent h =
      firsts (messages (.looked (.ofU64 found.fileId) p failed :: .took found b :: h))
    have unknown : (⟨found, p, failed⟩ : Message).known = false := hp
    rw [messages_looked, firsts_of_new unknown, hs.sent]
    rw [← hs.sent]
    exact fun h => hc ((hs.cache _).mpr h)
  cache id := by
    show _ ↔ id ∈ found.fileId :: (Stream.sent h).map SearchResponse.fileId
    rw [Finset.mem_insert, List.mem_cons, hs.cache]

/-- What `select!` leads to. -/
def Taken (n : Nat) (files : Std.ExtTreeMap PublishedFileKey PublishedFileRecord) (h : List Mark)
    (cache : Finset UInt64) : Selected → SearchView → Prop
  | .msg (some found), v => ∃ b, Held n files (.took found b :: h) cache v
  | _, v => Held n files h cache v

theorem select_safe (hs : Settled h cache) (hv : Held n files h cache v) :
    (protocol n files).Safe machine (connected n) (.searchTask n) (perform (.select n))
      (Taken n files h cache) v := by
  refine perform_held hv fun v hinv hv c a w he _ => ?_
  have same : (w.session n).cache = (v.world.session n).cache := by
    have hc := exec_session he n
    generalize w.session n = s at hc
    cases hc <;> rfl
  have made : n < w.next := hv.made.trans_le (next_mono he)
  cases a with
  | msg m =>
      cases m with
      | none =>
          have held : Held n files h cache
              (v.op (L := lang) (.searchTask n) (.select n) (.msg none) w) :=
            ⟨made, hv.marks, same.trans hv.cache⟩
          exact ⟨h, cache, held, hs.reported, held⟩
      | some found =>
          have held : Held n files
              (.took found (stored files v.hist (.ofU64 found.fileId)) :: h) cache
              (v.op (L := lang) (.searchTask n) (.select n) (.msg (some found)) w) := by
            refine ⟨made, ?_, same.trans hv.cache⟩
            rw [← hv.marks]
            exact marks_cons mark_took
          exact ⟨_, cache, held, hs.took, _, held⟩
  | tick =>
      have held : Held n files h cache (v.op (L := lang) (.searchTask n) (.select n) .tick w) :=
        ⟨made, hv.marks, same.trans hv.cache⟩
      exact ⟨h, cache, held, hs.reported, held⟩

/-- Whether the file was reported before: the cache forgets nothing. -/
theorem containsKey_safe (hs : Settled h cache) (hv : Held n files (.took found b :: h) cache v) :
    (protocol n files).Safe machine (connected n) (.searchTask n)
      (perform (.containsKey n found.fileId))
      (fun known v =>
        known = true ∧ found.fileId ∈ cache ∧
          Held n files (.cached :: .took found b :: h) cache v ∨
        known = false ∧ found.fileId ∉ cache ∧ Held n files (.took found b :: h) cache v) v := by
  refine perform_held hv fun v hinv hv c a w he hg => ?_
  have answer : a = decide (found.fileId ∈ cache) := by
    rw [← hv.cache]
    exact hg.2.2.1 _ rfl rfl
  have made : n < w.next := hv.made.trans_le (next_mono he)
  have same : (w.session n).cache = cache := by
    rw [← hv.cache]
    cases c with
    | ok =>
        cases he
        rfl
    | evicted =>
        -- What is not in the cache cannot be evicted.
        cases he
        rw [setSession_apply, if_pos rfl]
        refine Finset.erase_eq_of_notMem fun hc => ?_
        rw [hv.cache] at hc
        rw [decide_eq_true hc] at answer
        cases answer
    | _ => cases he
  cases a with
  | true =>
      have hc : found.fileId ∈ cache := of_decide_eq_true answer.symm
      have held : Held n files (.cached :: .took found b :: h) cache
          (v.op (L := lang) (.searchTask n) (.containsKey n found.fileId) true w) := by
        refine ⟨made, ?_, same⟩
        rw [← hv.marks]
        exact marks_cons mark_cached
      exact ⟨_, cache, held, (hs.cached hc).reported, .inl ⟨rfl, hc, held⟩⟩
  | false =>
      have hc : found.fileId ∉ cache := of_decide_eq_false answer.symm
      have held : Held n files (.took found b :: h) cache
          (v.op (L := lang) (.searchTask n) (.containsKey n found.fileId) false w) :=
        ⟨made, (marks_cons_none rfl).trans hv.marks, same⟩
      exact ⟨_, cache, held, hs.took, .inr ⟨rfl, hc, held⟩⟩

/-- Whether the file is known to be published here: it is, and the lookup
says so, or it is not or the lookup fails. -/
theorem exists_safe (hs : Settled h cache) (hv : Held n files (.took found b :: h) cache v) :
    (protocol n files).Safe machine (connected n) (.searchTask n)
      (perform (.publishedFileExists (.ofU64 found.fileId)))
      (fun r v =>
        r = .ok true ∧
          Held n files (.looked (.ofU64 found.fileId) true false :: .took found b :: h) cache v ∨
        r ≠ .ok true ∧ ∃ p failed, (p && !failed) = false ∧
          Held n files (.looked (.ofU64 found.fileId) p failed :: .took found b :: h) cache v) v := by
  refine perform_held hv fun v hinv hv c a w he _ => ?_
  have world : w = v.world := by cases c <;> cases he <;> rfl
  have made : n < w.next := hv.made.trans_le (next_mono he)
  have same : (w.session n).cache = cache := by rw [world, hv.cache]
  have held : Held n files (.looked (.ofU64 found.fileId)
      (stored files v.hist (.ofU64 found.fileId)) (!a.toBool) :: .took found b :: h) cache
      (v.op (L := lang) (.searchTask n) (.publishedFileExists (.ofU64 found.fileId)) a w) := by
    refine ⟨made, ?_, same⟩
    rw [← hv.marks]
    exact marks_cons mark_looked
  cases a with
  | error e =>
      have vain : (stored files v.hist (.ofU64 found.fileId) && !true) = false := Bool.and_false _
      exact ⟨_, cache, held, hs.looked vain, .inr ⟨nofun, _, true, vain, held⟩⟩
  | ok found' =>
      -- The lookup says what is published.
      have answer : found' = stored files v.hist (.ofU64 found.fileId) := by
        rw [← hinv.stored]
        cases c with
        | ok => exact (Except.ok.inj (Prod.mk.inj (Option.some.inj he)).1).symm
        | _ => cases he
      rw [← answer] at held
      cases found' with
      | true => exact ⟨_, cache, held, hs.published.reported, .inl ⟨rfl, held⟩⟩
      | false => exact ⟨_, cache, held, hs.looked rfl, .inr ⟨nofun, false, false, rfl, held⟩⟩

/-- The response: the client is there. -/
theorem sendGrpc_safe (hs : Settled h cache) (hc : found.fileId ∉ cache) {p : Bool}
    (hp : (p && !failed) = false)
    (hv : Held n files (.looked (.ofU64 found.fileId) p failed :: .took found b :: h) cache v) :
    (protocol n files).Safe machine (connected n) (.searchTask n)
      (perform (.sendGrpc n (response found)))
      (fun r v => r = .ok () ∧ Held n files (.sent (response found) ::
        .looked (.ofU64 found.fileId) p failed :: .took found b :: h) cache v) v := by
  refine perform_held hv fun v hinv hv c a w he _ => ?_
  have made : n < w.next := hv.made.trans_le (next_mono he)
  have same : (w.session n).cache = cache := by
    rw [← hv.cache]
    have hs := exec_session he n
    generalize w.session n = s at hs
    cases hs <;> rfl
  have answer : a = .ok () := by
    cases c with
    | ok =>
        simp only [Op.exec, hinv.client, Bool.false_eq_true, if_false] at he
        split at he <;> cases he
        rfl
    | _ => cases he
  subst answer
  have held : Held n files (.sent (response found) :: .looked (.ofU64 found.fileId) p failed ::
      .took found b :: h) cache
      (v.op (L := lang) (.searchTask n) (.sendGrpc n (response found)) (.ok ()) w) := by
    refine ⟨made, ?_, same⟩
    rw [← hv.marks]
    exact marks_cons mark_sent
  exact ⟨_, cache, held, (hs.new hc hp).sent, rfl, held⟩

/-- The cache remembers what was reported. -/
theorem insertKey_safe (hs : Settled h cache) (hc : found.fileId ∉ cache) {p : Bool}
    (hp : (p && !failed) = false)
    (hv : Held n files (.sent (response found) :: .looked (.ofU64 found.fileId) p failed ::
      .took found b :: h) cache v) :
    (protocol n files).Safe machine (connected n) (.searchTask n)
      (perform (.insertKey n found.fileId))
      (fun _ v => Held n files (.sent (response found) ::
        .looked (.ofU64 found.fileId) p failed :: .took found b :: h)
        (insert found.fileId cache) v) v := by
  refine perform_held hv fun v hinv hv c a w he _ => ?_
  have held : Held n files (.sent (response found) :: .looked (.ofU64 found.fileId) p failed ::
      .took found b :: h) (insert found.fileId cache)
      (v.op (L := lang) (.searchTask n) (.insertKey n found.fileId) a w) := by
    refine ⟨hv.made.trans_le (next_mono he), (marks_cons_none rfl).trans hv.marks, ?_⟩
    rw [← hv.cache]
    cases c <;> cases he
    show ((v.world.setSession n _).session n).cache = _
    rw [setSession_apply, if_pos rfl]
  exact ⟨_, _, held, (hs.new hc hp).reported, held⟩

/-- A round with a message. -/
theorem report_safe (value : String) (hs : Settled h cache)
    (hv : Held n files (.took found b :: h) cache v) :
    (protocol n files).Safe machine (connected n) (.searchTask n) (report n value found)
      (fun _ v => ∃ h cache, Settled h cache ∧ Held n files h cache v) v := by
  refine Protocol.safe_seq (containsKey_safe hs hv) fun known v hk => ?_
  -- The file is in the cache, or it is looked up in the store.
  obtain ⟨rfl, hc, hv⟩ | ⟨rfl, hc, hv⟩ := hk
  · exact ⟨_, _, hs.cached hc, hv⟩
  · refine Protocol.safe_seq (exists_safe hs hv) fun r v hr => ?_
    -- It is published and not reported, or `unwrap_or(false)` lets it pass.
    obtain ⟨rfl, hv⟩ | ⟨hr, p, failed, hp, hv⟩ := hr
    · exact ⟨_, _, hs.published, hv⟩
    · rw [show r.toOption.getD false = false by
        obtain e | _ | _ := r
        · rfl
        · rfl
        · exact absurd rfl hr]
      refine Protocol.safe_seq (sendGrpc_safe hs hc hp hv) fun r v hr => ?_
      obtain ⟨rfl, hv⟩ := hr
      exact Protocol.safe_mono (fun _ v hv => ⟨_, _, hs.new hc hp, hv⟩) (insertKey_safe hs hc hp hv)

/-- An operation that says nothing about messages. -/
theorem perform_silent {o : Op} (hs : Settled h cache) (hv : Held n files h cache v)
    (silent : ∀ held a, mark n held (.op (L := lang) (.searchTask n) o a) = none)
    (same : ∀ c a w w', o.exec c w = some (a, w') →
      (w'.session n).cache = (w.session n).cache) :
    (protocol n files).Safe machine (connected n) (.searchTask n) (perform o)
      (fun _ v => Held n files h cache v) v := by
  refine perform_held hv fun v hinv hv c a w he _ => ?_
  have held : Held n files h cache (v.op (L := lang) (.searchTask n) o a w) :=
    ⟨hv.made.trans_le (next_mono he), (marks_cons_none (silent _ a)).trans hv.marks,
      (same c a _ w he).trans hv.cache⟩
  exact ⟨h, cache, held, hs.reported, held⟩

omit [Config] in
/-- These operations leave the caches alone. -/
theorem cache_same {o : Op} {c : Choice} {a : o.Ans} {w w' : World}
    (ho : o = .dropRx n ∨ o = .isClosed n ∨ ∃ id, o = .sendCommand (.fileSearchAbort id))
    (he : o.exec c w = some (a, w')) : (w'.session n).cache = (w.session n).cache := by
  have hs := exec_session he n
  generalize w'.session n = s at hs
  obtain rfl | rfl | ⟨id, rfl⟩ := ho <;> cases hs <;> rfl

/-- The search task, from one message to the next. -/
theorem searchTask_safe (value : String) (fuel : Nat) (hs : Settled h cache)
    (hv : Held n files h cache v) :
    (protocol n files).Safe machine (connected n) (.searchTask n) (searchTask n value fuel)
      (fun _ v => AtRest n files v) v := by
  -- Each round starts and ends between two messages.
  induction fuel generalizing h cache v with
  | zero => exact fun v₁ _ _ _ _ a => nomatch a
  | succ fuel ih =>
      refine Protocol.safe_seq (select_safe hs hv) fun selected v hv => ?_
      obtain (_ | found) | _ := selected
      · -- The channel is closed, and the loop ends.
        refine Protocol.safe_mono (fun _ v hv => hv.atRest hs) (perform_silent hs hv
          (fun _ _ => rfl) fun _ _ _ _ => cache_same (.inl rfl))
      · -- A message: it is reported if it has to be.
        obtain ⟨b, hv⟩ := hv
        refine Protocol.safe_seq (report_safe value hs hv) fun _ v hv => ?_
        obtain ⟨h', cache', hs', hv⟩ := hv
        exact ih hs' hv
      · -- A tick looks whether the client is gone, and if so the search is ended.
        refine Protocol.safe_seq (perform_silent hs hv (fun _ _ => rfl)
          fun _ _ _ _ => cache_same (.inr (.inl rfl))) fun closed v hv => ?_
        cases closed with
        | false => exact ih hs hv
        | true =>
            refine Protocol.safe_seq ?_ fun _ v hv => ih hs hv
            exact Protocol.safe_seq (perform_silent hs hv (fun _ _ => rfl)
              fun _ _ _ _ => cache_same (.inr (.inr ⟨value, rfl⟩))) fun _ v hv => hv

/-! ### Every run -/

omit [Config] in
theorem AtRest.stable (hI : Rely n files (.searchTask n) v v') (hv : AtRest n files v) :
    AtRest n files v' := by
  obtain ⟨hn, hs⟩ := hv
  obtain ⟨hcache, hmarks⟩ := hI.task rfl hn
  refine ⟨hn.trans_le hI.next, ?_⟩
  rw [hmarks, hcache]
  exact hs

omit [Config] in
/-- A start from outside is not that of the session's task. -/
theorem slotOf_external {t : Task} (ht : external t = true) : slotOf t ≠ .searchTask n := by
  cases t with
  | searchTask m fuel value => cases ht
  | _ => exact nofun

omit [Config] in
theorem start_guar {t : Task} (hinv : Inv n files v) (ht : external t = true) :
    (protocol n files).Guar i v (v.start (L := lang) t (slotOf t)) :=
  guar_silent hinv rfl rfl (marks_cons_none rfl)
    (Function.update_of_ne (Ne.symm (slotOf_external ht)) _ _)

omit [Config] in
/-- A program leaves its slot; the task of the session leaves it settled. -/
theorem exit_guar {r : Res} (hinv : Inv n files v) (hp : i = .searchTask n → AtRest n files v) :
    (protocol n files).Guar i v (v.exit (L := lang) i r) := by
  have hm : marks n files (v.exit (L := lang) i r).hist = marks n files v.hist :=
    marks_cons_none rfl
  by_cases hi : i = .searchTask n
  · obtain ⟨hn, hs⟩ := hp hi
    refine ⟨⟨fun h => absurd hn h.not_gt, hinv.client, ?_, hinv.stored, fun _ => ?_⟩,
      fun j _ => ⟨le_rfl, fun _ _ => ⟨rfl, hm⟩⟩⟩
    · rw [hm]
      exact hinv.reported
    · rw [hm]
      exact hs
  · exact guar_silent hinv rfl rfl hm (Function.update_of_ne (Ne.symm hi) _ _)

/-- Every task keeps to the protocol. -/
theorem body_safe (t : Task) (hp : ∀ fuel value, t = .searchTask n fuel value → AtRest n files v) :
    (protocol n files).Safe machine (connected n) (slotOf t) (body t)
      (fun _ v => slotOf t = .searchTask n → AtRest n files v) v := by
  by_cases ht : ∃ fuel value, t = .searchTask n fuel value
  · obtain ⟨fuel, value, rfl⟩ := ht
    obtain ⟨hn, hs⟩ := hp fuel value rfl
    exact Protocol.safe_seq (searchTask_safe value fuel hs ⟨hn, rfl, rfl⟩) fun _ v hv _ => hv
  · have hi : slotOf t ≠ .searchTask n := by
      cases t with
      | searchTask m fuel value =>
          rintro hm
          cases hm
          exact ht ⟨fuel, value, rfl⟩
      | _ => exact nofun
    -- A call may start the task of its own session; nothing else starts one.
    by_cases hcall : ∃ k fuel value, t = .search k fuel value
    · obtain ⟨k, fuel, value, rfl⟩ := hcall
      exact Protocol.safe_seq (search_safe k fuel value) fun _ v _ h => absurd h hi
    · refine Protocol.safe_mono (fun _ v _ h => absurd h hi) (safe_foreign (body_within t) hi ?_)
      intro k hk
      cases t with
      | search k' fuel value => exact hcall ⟨k', fuel, value, rfl⟩
      | _ => cases hk

theorem valid (n : Nat) (files : Std.ExtTreeMap PublishedFileKey PublishedFileRecord) :
    (protocol n files).Valid machine (connected n) where
  rely_refl _ _ := ⟨le_rfl, fun _ _ => ⟨rfl, rfl⟩⟩
  rely_trans _ _ _ _ h h' := ⟨h.next.trans h'.next, fun hi hn => by
    obtain ⟨hc, hm⟩ := h.task hi hn
    obtain ⟨hc', hm'⟩ := h'.task hi (hn.trans_le h.next)
    exact ⟨hc'.trans hc, hm'.trans hm⟩⟩
  guar_rely i j _ _ hij _ hG := hG.2 j hij.symm
  guar_inv _ _ _ _ hG := hG.1
  post_stable i r v v' hI hp hi := by
    subst hi
    exact (hp rfl).stable hI.1
  start_rely t v hv _ hg j := by
    have hm : marks n files (v.start (L := lang) t (slotOf t)).hist = marks n files v.hist :=
      marks_cons_none rfl
    exact ⟨le_rfl, fun _ _ => ⟨rfl, hm⟩⟩
  start_inv t v hv _ hg := (start_guar (i := .eventLoop) hv (hg.1 t rfl)).1
  start_pre t v _ _ hg fuel value h := by
    subst h
    cases hg.1 _ rfl
  exit_guar i r v hv hp _ _ := exit_guar hv hp
  crash_inv v _ hg := absurd hg.2.2.2 nofun
  body_safe t _ _ hp := body_safe t hp

omit [Config] in
theorem inv_start (n : Nat) (files : Std.ExtTreeMap PublishedFileKey PublishedFileRecord) :
    Inv n files (Pool.idle (L := lang) (World.start files)).view where
  fresh _ := ⟨rfl, rfl⟩
  client := rfl
  reported := rfl
  stored key := (Bool.or_false _).symm
  idle _ := ⟨rfl, rfl, fun id => by simp [Pool.view, Pool.idle, World.start, Session.new, marks, sent]⟩

end Programs

/-! ### Four messages -/

section Example

open Search.Reference

attribute [local instance] config

/-- A published file. -/
def publishedFile (id : UInt64) : PublishedFileRecord :=
  ⟨.ofU64 id, "known", ⟨"/known_chunks"⟩, true⟩

/-- A node with two published files. -/
def twoFiles : Std.ExtTreeMap PublishedFileKey PublishedFileRecord :=
  (Std.ExtTreeMap.insert ∅ (.ofU64 7) (publishedFile 7)).insert (.ofU64 8) (publishedFile 8)

/-- A search gets two messages of one file and one of each published file.
The last lookup fails. -/
def fourMessages : List (Move lang Choice) :=
  call 0 5 "a" ++ commandPass 2 ++ result "a" ⟨5, "a.txt"⟩ ++ result "a" ⟨5, "b.txt"⟩ ++
    result "a" ⟨7, "known"⟩ ++ result "a" ⟨8, "known"⟩ ++ ops (.searchTask 0) 12 ++
    [.op (.searchTask 0) (.storeError (.joinError "lost"))] ++ ops (.searchTask 0) 2

end Example

end RustDfs.Search.Stream
