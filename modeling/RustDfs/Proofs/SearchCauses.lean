import RustDfs.Conc.Flow
import RustDfs.Conc.Solo
import RustDfs.Proofs.SearchRules

/-!
# `RustDfs.Proofs.SearchCauses`: why something happens in a search

`Cause` says of each event that passes something on what must have
happened before it in its slot: a response comes from a message that was
taken, a message from a result that arrived, a result from a record that
matched. `justified` shows it of every slot in every run, program by
program.

Between slots things go through four places of the world: the command
channel, the map of sessions, the channels of the sessions and the
published files. Each of them is a `Flow`.
-/

set_option autoImplicit false

namespace RustDfs.Search.Causes

open Lib Std Conc Prog

abbrev SearchPool := Pool lang World

/-! ### Within a slot -/

section Causes

variable [Config]

/-- The lookup `id` for a request of `source` streamed this record, and it
matches. -/
def Found (id : Nat) (source : PeerId) (request : FileSearchRequest) (record : PublishedFileRecord)
    (h : List SearchEvent) : Prop :=
  (∃ e ∈ h, Begins (L := lang) (.fileSearch id source request) e) ∧
    (∃ records, .op (.fileSearch id) .streamPublishedFiles records ∈ h ∧ record ∈ records) ∧
    Matches (Config.toLowercase request.searchValue) record

/-- What comes before an event in slot `i`. -/
def Cause (i : Slot) : SearchEvent → List SearchEvent → Prop
  | .op _ (.sendCommand (.fileSearch request n)) _, h => ∃ k fuel value e before,
      i = .call k ∧ h = .op i .channels n :: e :: before ∧ Begins (L := lang) (.search k fuel value) e ∧
        request = ⟨value, value⟩
  | .op _ (.sendCommand (.fileSearchResult source result)) _, h => ∃ id request record,
      i = .fileSearch id ∧ Found id source request record h ∧
        result = ⟨request.sessionId, ⟨record.key.toU64, record.originalFileName⟩⟩
  | .op _ (.publish topic data) _, h => ∃ request n,
      .op .eventLoop .recvCommand (.fileSearch request n) ∈ h ∧
        Config.fileSearchTopic = some topic ∧ Config.requests.toVec 0 request = .ok data
  | .op _ (.insertSession id n) _, h => ∃ request topic data,
      .op .eventLoop .recvCommand (.fileSearch request n) ∈ h ∧ request.sessionId = id ∧
        .op .eventLoop (.publish topic data) (.ok ()) ∈ h ∧
        Config.fileSearchTopic = some topic ∧ Config.requests.toVec 0 request = .ok data
  | .op _ (.sendRequest peer result) _, h =>
      .op .eventLoop .recvCommand (.fileSearchResult peer result) ∈ h
  | .op _ (.sendFound n found) _, h => ∃ peer channel id,
      .op .eventLoop .selectNextSome (.fileSearchResult peer ⟨id, found⟩ channel) ∈ h ∧
        .op .eventLoop (.getSession id) (some n) ∈ h
  | .op _ (.sendGrpc n response) _, h => ∃ found,
      .op i (.select n) (.msg (some found)) ∈ h ∧ response = ⟨found.fileId, found.fileName⟩
  | .spawn _ (.fileSearch id source request), h => i = .eventLoop → ∃ origin topic data,
      .op .eventLoop .selectNextSome (.gossip source origin id topic data) ∈ h ∧
        Config.fileSearchTopic = some topic ∧ Config.requests.fromSlice data = .ok request
  | _, _ => True

variable {h : List SearchEvent} {e : SearchEvent}

/-! ### The programs -/

/-- A call. -/
theorem search_follows {k fuel : Nat} {value : String} (hb : Begins (L := lang) (.search k fuel value) e)
    (hj : Justified (Cause (.call k)) (e :: h)) :
    (search fuel value).run.Follows (Justified (Cause (.call k))) (.call k) (fun _ => Justified (Cause (.call k)))
      (e :: h) := by
  refine follows_seqL (B := fun n h' => Justified (Cause (.call k)) h' ∧
    h' = .op (L := lang) (.call k) .channels n :: e :: h)
    (follows_just hj (fun _ => trivial) fun n hj => ⟨hj, rfl⟩) fun n h' hb => ?_
  obtain ⟨hj, hh⟩ := hb
  refine follows_seqL (follows_just hj (fun _ => ⟨k, fuel, value, e, h, rfl, hh, hb, rfl⟩)
    fun _ hj => hj) fun r h' hj => ?_
  cases r with
  | error _ =>
      exact follows_seqL (follows_just hj (fun _ => trivial) fun _ hj => hj) fun _ _ hj => hj
  | ok _ => exact ⟨⟨trivial, hj⟩, trivial, hj⟩

/-- The abort a search task sends. -/
theorem sendAbort_follows {i : Slot} {value : String} (hj : Justified (Cause i) h) :
    (sendAbort value).Follows (Justified (Cause i)) i (fun _ => Justified (Cause i)) h :=
  follows_seq (follows_just hj (fun _ => trivial) fun _ hj => hj) fun _ _ hj => hj

/-- A message in hand. -/
theorem report_follows {n : Nat} {value : String} {found : FileFound} (hj : Justified (Cause (.searchTask n)) h)
    (taken : .op (.searchTask n) (.select n) (.msg (some found)) ∈ h) :
    (report n value found).Follows (Justified (Cause (.searchTask n))) (.searchTask n) (fun _ => Justified (Cause (.searchTask n)))
      h := by
  refine follows_seq (B := fun _ h => Justified (Cause (.searchTask n)) h ∧
    .op (.searchTask n) (.select n) (.msg (some found)) ∈ h)
    (follows_just hj (fun _ => trivial) fun _ hj => ⟨hj, List.mem_cons_of_mem _ taken⟩)
    fun reported h hb => ?_
  obtain ⟨hj, taken⟩ := hb
  cases reported with
  | true => exact hj
  | false =>
      refine follows_seq (B := fun _ h => Justified (Cause (.searchTask n)) h ∧
        .op (.searchTask n) (.select n) (.msg (some found)) ∈ h)
        (follows_just hj (fun _ => trivial) fun _ hj => ⟨hj, List.mem_cons_of_mem _ taken⟩)
        fun known h hb => ?_
      obtain ⟨hj, taken⟩ := hb
      split
      · exact hj
      · refine follows_seq (follows_just hj (fun _ => ⟨found, taken, rfl⟩) fun _ hj => hj)
          fun r h hj => ?_
        cases r with
        | error _ => exact sendAbort_follows hj
        | ok _ => exact follows_just hj (fun _ => trivial) fun _ hj => hj

/-- A search task. -/
theorem searchTask_follows (n : Nat) (value : String) (fuel : Nat) (hj : Justified (Cause (.searchTask n)) h) :
    (searchTask n value fuel).Follows (Justified (Cause (.searchTask n))) (.searchTask n) (fun _ => Justified (Cause (.searchTask n)))
      h := by
  induction fuel generalizing h with
  | zero => exact fun x => nomatch x
  | succ fuel ih =>
      refine follows_seq (B := fun selected h => Justified (Cause (.searchTask n)) h ∧
        .op (.searchTask n) (.select n) selected ∈ h)
        (follows_just hj (fun _ => trivial) fun _ hj => ⟨hj, List.mem_cons_self⟩)
        fun selected h hb => ?_
      obtain ⟨hj, taken⟩ := hb
      cases selected with
      | msg found =>
          cases found with
          | none => exact follows_just hj (fun _ => trivial) fun _ hj => hj
          | some found => exact follows_seq (report_follows hj taken) fun _ _ hj => ih hj
      | tick =>
          refine follows_seq (follows_just hj (fun _ => trivial) fun _ hj => hj)
            fun closed h hj => ?_
          cases closed with
          | false => exact ih hj
          | true => exact follows_seq (sendAbort_follows hj) fun _ _ hj => ih hj

/-- A command in hand. -/
theorem handleCommand_follows {command : P2pCommand} (hj : Justified (Cause .eventLoop) h)
    (received : .op .eventLoop .recvCommand command ∈ h) :
    (handleCommand command).Follows (Justified (Cause .eventLoop)) .eventLoop (fun _ => Justified (Cause .eventLoop)) h := by
  have drop : ∀ {n h}, Justified (Cause .eventLoop) h → (perform (.dropTx n)).Follows (Justified (Cause .eventLoop))
      .eventLoop (fun _ => Justified (Cause .eventLoop)) h :=
    fun hj => follows_just hj (fun _ => trivial) fun _ hj => hj
  cases command with
  | fileSearch request n =>
      simp only [handleCommand]
      split
      · next topic htopic =>
          split
          · next data hdata =>
              refine follows_seq (B := fun r h => Justified (Cause .eventLoop) h ∧
                .op .eventLoop .recvCommand (.fileSearch request n) ∈ h ∧
                .op .eventLoop (.publish topic data) r ∈ h)
                (follows_just hj (fun _ => ⟨request, n, received, htopic, hdata⟩)
                  fun _ hj => ⟨hj, List.mem_cons_of_mem _ received, List.mem_cons_self⟩)
                fun r h hb => ?_
              obtain ⟨hj, received, published⟩ := hb
              cases r with
              | error _ => exact drop hj
              | ok _ =>
                  exact follows_just hj (fun _ => ⟨request, topic, data, received, rfl, published,
                    htopic, hdata⟩) fun _ hj => hj
          · exact drop hj
      · exact drop hj
  | fileSearchAbort id => exact follows_just hj (fun _ => trivial) fun _ hj => hj
  | fileSearchResult peer result => exact follows_just hj (fun _ => received) fun _ hj => hj
  | other => exact hj

/-- A swarm event in hand. -/
theorem handleSwarmEvent_follows {event : SwarmEvent} (hj : Justified (Cause .eventLoop) h)
    (arrived : .op .eventLoop .selectNextSome event ∈ h) :
    (handleSwarmEvent event).Follows (Justified (Cause .eventLoop)) .eventLoop (fun _ => Justified (Cause .eventLoop))
      h := by
  cases event with
  | fileSearchResult peer request channel =>
      refine follows_seq (B := fun _ h => Justified (Cause .eventLoop) h ∧
        .op .eventLoop .selectNextSome (.fileSearchResult peer request channel) ∈ h)
        (follows_just hj (fun _ => trivial) fun _ hj => ⟨hj, List.mem_cons_of_mem _ arrived⟩)
        fun _ h hb => ?_
      obtain ⟨hj, arrived⟩ := hb
      refine follows_seq (B := fun entry h => Justified (Cause .eventLoop) h ∧
        .op .eventLoop .selectNextSome (.fileSearchResult peer request channel) ∈ h ∧
        .op .eventLoop (.getSession request.sessionId) entry ∈ h)
        (follows_just hj (fun _ => trivial) fun _ hj =>
          ⟨hj, List.mem_cons_of_mem _ arrived, List.mem_cons_self⟩)
        fun entry h hb => ?_
      obtain ⟨hj, arrived, looked⟩ := hb
      cases entry with
      | none => exact hj
      | some n =>
          refine follows_seq (follows_just hj (fun _ => ⟨peer, channel, _, arrived, looked⟩)
            fun _ hj => hj) fun r h hj => ?_
          cases r with
          | error _ => exact follows_just hj (fun _ => trivial) fun _ hj => hj
          | ok _ => exact hj
  | gossip source origin id topic data =>
      simp only [handleSwarmEvent, gossipsub]
      split
      · next topic' htopic =>
          split
          · next e =>
              subst e
              split
              · next request hrequest =>
                  have cause : Cause .eventLoop (.spawn .eventLoop (.fileSearch id source request))
                      h := fun _ => ⟨origin, topic, data, arrived, htopic, hrequest⟩
                  exact ⟨⟨cause, hj⟩, cause, hj⟩
              · exact hj
          · exact hj
      · exact hj
  | other => exact hj

/-- A lookup goes through its records. -/
theorem fileSearchEach_follows {id : Nat} {source : PeerId} {request : FileSearchRequest}
    (records : List PublishedFileRecord) (hj : Justified (Cause (.fileSearch id)) h)
    (found : ∀ record ∈ records, Matches (Config.toLowercase request.searchValue) record →
      Found id source request record h) :
    (fileSearchEach source request records).Follows (Justified (Cause (.fileSearch id))) (.fileSearch id)
      (fun _ => Justified (Cause (.fileSearch id))) h := by
  have keeps : ∀ {records : List PublishedFileRecord} {e : SearchEvent} {h : List SearchEvent},
      (∀ record ∈ records, Matches (Config.toLowercase request.searchValue) record →
        Found id source request record h) →
      ∀ record ∈ records, Matches (Config.toLowercase request.searchValue) record →
        Found id source request record (e :: h) := by
    intro records e h hf record hr hm
    obtain ⟨⟨b, hb, begins⟩, ⟨rs, stream, mem⟩, matched⟩ := hf record hr hm
    exact ⟨⟨b, List.mem_cons_of_mem _ hb, begins⟩, ⟨rs, List.mem_cons_of_mem _ stream, mem⟩, matched⟩
  induction records generalizing h with
  | nil => exact hj
  | cons record records ih =>
      refine follows_seq (B := fun _ h => Justified (Cause (.fileSearch id)) h ∧ ∀ r ∈ record :: records,
        Matches (Config.toLowercase request.searchValue) r → Found id source request r h)
        (follows_just hj (fun _ => trivial) fun _ hj => ⟨hj, keeps found⟩)
        fun item h hb => ?_
      obtain ⟨hj, found⟩ := hb
      cases item with
      | error _ => exact hj
      | ok _ =>
          show (if _ then _ else _ : Proc Unit).Follows _ _ _ _
          split
          · next hm =>
              refine follows_seq (B := fun _ h => Justified (Cause (.fileSearch id)) h ∧ ∀ r ∈ record :: records,
                Matches (Config.toLowercase request.searchValue) r → Found id source request r h)
                (follows_just hj
                  (fun _ => ⟨id, request, record, rfl, found record List.mem_cons_self hm, rfl⟩)
                  fun _ hj => ⟨hj, keeps found⟩) fun r h hb => ?_
              obtain ⟨hj, found⟩ := hb
              cases r with
              | error _ => exact hj
              | ok _ => exact ih hj fun r hr => found r (List.mem_cons_of_mem _ hr)
          · exact ih hj fun r hr => found r (List.mem_cons_of_mem _ hr)

/-- A start has its cause where it was made. -/
theorem cause_of_begins {i : Slot} {t : Task} (hb : Begins (L := lang) t e) (hi : slotOf t = i)
    (h : List SearchEvent) : Cause i e h := by
  cases hb with
  | start => trivial
  | spawn j =>
      cases t with
      | fileSearch id source request =>
          intro hloop
          rw [hloop] at hi
          cases hi
      | _ => trivial

/-- A task. -/
theorem body_follows {t : Task} (hb : Begins (L := lang) t e)
    (hj : Justified (Cause (slotOf t)) (e :: h)) :
    (body t).Follows (Justified (Cause (slotOf t))) (slotOf t)
      (fun _ => Justified (Cause (slotOf t))) (e :: h) := by
  have ended : ∀ {α : Type} {i : Slot} {p : Proc α} {h : List SearchEvent},
      p.Follows (Justified (Cause i)) i (fun _ => Justified (Cause i)) h →
      (ending p).Follows (Justified (Cause i)) i (fun _ => Justified (Cause i)) h :=
    fun hp => follows_seq hp fun _ _ hj => hj
  have one : ∀ {i : Slot} {o : Op} {h : List SearchEvent}, (∀ a h, Cause i (.op i o a) h) →
      Justified (Cause i) h →
      (ending (perform o)).Follows (Justified (Cause i)) i (fun _ => Justified (Cause i)) h :=
    fun ho hj => ended (follows_just hj (fun a => ho a _) fun _ hj => hj)
  cases t with
  | search k fuel value => exact follows_seq (search_follows hb hj) fun _ _ hj => hj
  | searchTask n fuel value => exact ended (searchTask_follows n value fuel hj)
  | swarmEvent =>
      refine ended (follows_seq (B := fun event h => Justified (Cause .eventLoop) h ∧
        .op .eventLoop .selectNextSome event ∈ h)
        (follows_just hj (fun _ => trivial) fun _ hj => ⟨hj, List.mem_cons_self⟩)
        fun event h hb => ?_)
      exact handleSwarmEvent_follows hb.1 hb.2
  | command =>
      refine ended (follows_seq (B := fun command h => Justified (Cause .eventLoop) h ∧
        .op .eventLoop .recvCommand command ∈ h)
        (follows_just hj (fun _ => trivial) fun _ hj => ⟨hj, List.mem_cons_self⟩)
        fun command h hb => ?_)
      exact handleCommand_follows hb.1 hb.2
  | fileSearch id source request =>
      refine ended (follows_seq (B := fun records h => Justified (Cause (.fileSearch id)) h ∧
        e ∈ h ∧ .op (.fileSearch id) .streamPublishedFiles records ∈ h)
        (follows_just hj (fun _ => trivial) fun records hj =>
          ⟨hj, List.mem_cons_of_mem _ List.mem_cons_self, List.mem_cons_self⟩)
        fun records h hs => ?_)
      obtain ⟨hj, began, streamed⟩ := hs
      exact fileSearchEach_follows records hj fun record hr hm =>
        ⟨⟨e, began, hb⟩, ⟨records, streamed, hr⟩, hm⟩
  | readResponse n => exact one (fun _ _ => trivial) hj
  | disconnect n => exact one (fun _ _ => trivial) hj
  | sendCommand k => exact one (fun _ _ => trivial) hj
  | putPublishedFile k record => exact one (fun _ _ => trivial) hj

/-- In every run the events of a slot have their causes there. -/
theorem justified {g : SearchGuard} {w : World} {p : SearchPool}
    (hr : Reach machine g (.idle w) p) (i : Slot) :
    Justified (Cause i) (own slotOf i p.hist) :=
  justified_of_reach (fun _ _ h hb hi => cause_of_begins hb hi h) (fun _ => trivial)
    (fun t e h hi hb hj => by
      subst hi
      exact body_follows hb hj) hr

/-- An operation of the beginning of a run has its cause before it in the
same slot. -/
theorem cause_of_mem_suffix {g : SearchGuard} {w : World} {p : SearchPool}
    (hr : Reach machine g (.idle w) p) {h : List SearchEvent} (hs : h <:+ p.hist) {i : Slot}
    {o : Op} {a : o.Ans} (ho : .op i o a ∈ h) :
    ∃ before, .op i o a :: before <:+ own slotOf i h ∧ Cause i (.op i o a) before := by
  obtain ⟨before, there⟩ := suffix_of_mem (List.mem_filter.mpr
    ⟨ho, show Event.ownBy slotOf i (.op (L := lang) i o a) = true from decide_eq_true rfl⟩)
  exact ⟨before, there, (justified hr i).of_suffix (there.trans (own_suffix hs))⟩

theorem cause_of_mem {g : SearchGuard} {w : World} {p : SearchPool}
    (hr : Reach machine g (.idle w) p) {i : Slot} {o : Op} {a : o.Ans}
    (ho : .op i o a ∈ p.hist) :
    ∃ before, .op i o a :: before <:+ own slotOf i p.hist ∧ Cause i (.op i o a) before :=
  cause_of_mem_suffix hr List.suffix_rfl ho

end Causes

/-! ### Between slots -/

section Flows

/-- A command is sent, and received. -/
def Sends : SearchEvent → P2pCommand → Prop
  | .op _ (.sendCommand c) (.ok _), x => x = c
  | _, _ => False

def Receives : SearchEvent → P2pCommand → Prop
  | .op _ .recvCommand c, x => x = c
  | _, _ => False

/-- A session is put under its id, and looked up. -/
def Inserts : SearchEvent → String × Nat → Prop
  | .op _ (.insertSession id n) _, x => x = (id, n)
  | _, _ => False

def LooksUp : SearchEvent → String × Nat → Prop
  | .op _ (.getSession id) (some n), x => x = (id, n)
  | _, _ => False

/-- A message is sent to a session, and taken by its task. -/
def Tells : SearchEvent → Nat × FileFound → Prop
  | .op _ (.sendFound n found) (.ok _), x => x = (n, found)
  | _, _ => False

def Takes : SearchEvent → Nat × FileFound → Prop
  | .op _ (.select n) (.msg (some found)), x => x = (n, found)
  | _, _ => False

/-- A record is stored, and streamed. -/
def Stores : SearchEvent → PublishedFileRecord → Prop
  | .op _ (.putPublishedFile r) (.ok _), x => x = r
  | _, _ => False

def Streams : SearchEvent → PublishedFileRecord → Prop
  | .op _ .streamPublishedFiles records, x => x ∈ records
  | _, _ => False

/-- The record is in the database. -/
def Stored (w : World) (r : PublishedFileRecord) : Prop := ∃ k : PublishedFileKey, w.published[k]? = some r

variable {o : Op} {c : Choice} {w w' : World} {a : o.Ans} {i : Slot}

theorem exec_sendFound (w : World) (n : Nat) (found : FileFound) :
    Op.exec (.sendFound n found) .ok w =
      if (w.session n).rxGone then some (.error (), w)
      else if (w.session n).found.length < SESSION_CAPACITY then
        some (.ok (), w.setSession n
          { w.session n with found := (w.session n).found ++ [found] })
      else none := rfl

theorem exec_sendCommand (w : World) (cmd : P2pCommand) :
    Op.exec (.sendCommand cmd) .ok w =
      if w.commands.length < COMMANDS_CAPACITY then
        some (.ok (), { w with commands := w.commands ++ [cmd] })
      else none := rfl

/-- A receive takes the first command. -/
theorem exec_recvCommand {a : P2pCommand} (he : Op.exec .recvCommand c w = some (a, w')) :
    w.commands = a :: w'.commands := by
  obtain ⟨next, session, sessions, commands, published⟩ := w
  cases c with
  | ok =>
      cases commands with
      | nil => cases he
      | cons cmd cmds =>
          cases he
          rfl
  | _ => cases he

theorem setEntry_sessions (w : World) (id : String) (x : Option Nat) :
    (w.setEntry id x).sessions = Function.update w.sessions id x := rfl

/-- The map of sessions holds what was inserted. -/
theorem sessions_of_exec (he : o.exec c w = some (a, w')) {x : String × Nat}
    (hx : w'.sessions x.1 = some x.2) :
    w.sessions x.1 = some x.2 ∨ Inserts (.op (L := lang) i o a) x := by
  by_cases hi : ∃ id n, o = .insertSession id n
  · obtain ⟨id, n, rfl⟩ := hi
    cases c <;> cases he
    rw [setEntry_sessions, Function.update_apply] at hx
    split at hx
    · next e =>
        cases hx
        exact .inr (Prod.ext e rfl)
    · exact .inl hx
  by_cases hr : ∃ id, o = .removeSession id
  · obtain ⟨id, rfl⟩ := hr
    cases c <;> cases he
    rw [setEntry_sessions, Function.update_apply] at hx
    split at hx
    · cases hx
    · exact .inl hx
  · rw [exec_sessions (fun id n h => hi ⟨id, n, h⟩) (fun id h => hr ⟨id, h⟩) he] at hx
    exact .inl hx

/-- The channel of a session holds what was sent. -/
theorem found_of_exec (he : o.exec c w = some (a, w')) {x : Nat × FileFound}
    (hx : x.2 ∈ (w'.session x.1).found) :
    x.2 ∈ (w.session x.1).found ∨ Tells (.op (L := lang) i o a) x := by
  by_cases hs : ∃ n found, o = .sendFound n found
  · obtain ⟨n, found, rfl⟩ := hs
    cases c with
    | ok =>
        rw [exec_sendFound] at he
        split at he
        · cases he
          exact .inl hx
        · split at he <;> cases he
          rw [setSession_apply] at hx
          split at hx
          · next e =>
              rw [e]
              obtain hx | hx := List.mem_append.mp hx
              · exact .inl hx
              · exact .inr (Prod.ext e (List.mem_singleton.mp hx))
          · exact .inl hx
    | _ => cases he
  · -- every other operation leaves the messages alone or takes them away
    have changes := exec_session he x.1
    generalize w'.session x.1 = s at changes hx
    cases changes with
    | channels => cases hx
    | dropRx => cases hx
    | sendFound found => exact absurd ⟨_, _, rfl⟩ hs
    | select found rest h =>
        rw [h]
        exact .inl (List.mem_cons_of_mem _ hx)
    | _ => exact .inl hx

/-- The command channel holds what was sent. -/
theorem commands_of_exec (he : o.exec c w = some (a, w')) {x : P2pCommand}
    (hx : x ∈ w'.commands) : x ∈ w.commands ∨ Sends (.op (L := lang) i o a) x := by
  by_cases hs : ∃ cmd, o = .sendCommand cmd
  · obtain ⟨cmd, rfl⟩ := hs
    cases c with
    | ok =>
        rw [exec_sendCommand] at he
        split at he <;> cases he
        obtain hx | hx := List.mem_append.mp hx
        · exact .inl hx
        · exact .inr (List.mem_singleton.mp hx)
    | closed =>
        cases he
        exact .inl hx
    | _ => cases he
  by_cases hr : o = .recvCommand
  · subst hr
    rw [exec_recvCommand he]
    exact .inl (List.mem_cons_of_mem _ hx)
  · rw [exec_commands (fun cmd h => hs ⟨cmd, h⟩) hr he] at hx
    exact .inl hx

/-- The database holds what was stored. -/
theorem stored_of_exec (he : o.exec c w = some (a, w')) {x : PublishedFileRecord}
    (hx : Stored w' x) : Stored w x ∨ Stores (.op (L := lang) i o a) x := by
  obtain ⟨k, hk⟩ := hx
  by_cases hp : ∃ r, o = .putPublishedFile r
  · obtain ⟨r, rfl⟩ := hp
    cases c <;> cases he
    · change (w.published.insert r.key r)[k]? = some x at hk
      rw [ExtTreeMap.getElem?_insert] at hk
      split at hk
      · cases hk
        exact .inr rfl
      · exact .inl ⟨k, hk⟩
    · exact .inl ⟨k, hk⟩
  · rw [exec_published (fun r h => hp ⟨r, h⟩) he] at hk
    exact .inl ⟨k, hk⟩

variable [Config]

/-- The command channel. -/
theorem commands : Flow (L := lang) machine (fun w x => x ∈ w.commands) Sends Receives where
  put _ _ _ _ _ _ _ he hx := commands_of_exec he hx
  get i o c a w w' x he hx := by
    cases o <;> first | exact hx.elim | skip
    cases hx
    rw [exec_recvCommand he]
    exact List.mem_cons_self
  idle e x he hx := by cases he <;> exact hx
  crash w x hx := by cases hx
  crashed x hx := hx

/-- The map of sessions. -/
theorem sessions : Flow (L := lang) machine (fun w (x : String × Nat) => w.sessions x.1 = some x.2)
    Inserts LooksUp where
  put _ _ _ _ _ _ _ he hx := sessions_of_exec he hx
  get i o c a w w' x he hx := by
    cases o <;> first | exact hx.elim | skip
    cases a with
    | none => exact hx.elim
    | some n =>
        cases hx
        cases c with
        | ok => exact (Prod.mk.inj (Option.some.inj he)).1
        | _ => cases he
  idle e x he hx := by cases he <;> exact hx
  crash w x hx := by cases hx
  crashed x hx := hx

/-- The channels of the sessions. -/
theorem messages : Flow (L := lang) machine
    (fun w (x : Nat × FileFound) => x.2 ∈ (w.session x.1).found) Tells Takes where
  put _ _ _ _ _ _ _ he hx := found_of_exec he hx
  get i o c a w w' x he hx := by
    cases o <;> first | exact hx.elim | skip
    cases a with
    | tick => exact hx.elim
    | msg found =>
        cases found with
        | none => exact hx.elim
        | some found =>
            cases hx
            cases c <;> simp only [machine, Op.exec, reduceCtorEq] at he
            · split at he
              · next h =>
                  cases he
                  rw [h]
                  exact List.mem_cons_self
              · split at he <;> cases he
            · cases he
  idle e x he hx := by cases he <;> exact hx
  crash w x hx := hx
  crashed x hx := hx

/-- The published files. -/
theorem records : Flow (L := lang) machine Stored Stores Streams where
  put _ _ _ _ _ _ _ he hx := stored_of_exec he hx
  get i o c a w w' x he hx := by
    cases o <;> first | exact hx.elim | skip
    cases c with
    | ok =>
        cases he
        obtain ⟨⟨k, r⟩, hmem, e⟩ := List.mem_map.mp hx
        cases e
        exact ⟨k, ExtTreeMap.mem_toList_iff_getElem?_eq_some.mp hmem⟩
    | _ => cases he
  idle e x he hx := by cases he <;> exact hx
  crash w x hx := hx
  crashed x hx := hx

end Flows

end RustDfs.Search.Causes
