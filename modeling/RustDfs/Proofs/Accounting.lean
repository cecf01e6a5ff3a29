import Mathlib.Data.Finset.Union
import RustDfs.Proofs.RejectedChunks

/-!
# `RustDfs.Proofs.Accounting`: what a download run adds up to

`download` starts a task for every chunk it does not hold and takes their
results in the order they come. `Outcome` is what a task ends with, and
an assignment of outcomes to chunks is all that counts: `accounted` says
that `download` comes to its end, that every order of the results is
taken in one of its runs, and what a run adds up to: the tasks, the
record, the answer and the stored record are given in terms of the
assignment, so no order of completion shows.

The inductions are over the tasks that are left (`runs_joinChunks`) and
over the order of their results (`exists_joinChunks`).
-/

set_option autoImplicit false

namespace RustDfs.Accounting

open Lib Conc Prog Std FileDownloadService RejectedChunks

/-! ### Outcomes -/

/-- How a chunk task can end: with its chunk, without one, or with an
error or a panic. -/
inductive Outcome where
  | got
  | missing
  | failed (e : TaskError)
deriving DecidableEq

/-- The result of the task of chunk `c`. -/
def Outcome.res (c : Nat) : Outcome → Res
  | .got => .chunk (.ok (some c))
  | .missing => .chunk (.ok none)
  | .failed e => .chunk (.error e)

/-- The task failed or panicked. -/
def Outcome.isFailed : Outcome → Bool
  | .failed _ => true
  | _ => false

/-- The tasks that are started in a run. -/
def spawned (l : List (Deed lang Choice)) : List Task :=
  l.filterMap fun
    | .spawn t => some t
    | _ => none

/-- The slots whose results are taken in a run, in this order. -/
def awaited (l : List (Deed lang Choice)) : List Slot :=
  l.filterMap fun
    | .await j _ => some j
    | _ => none

/-- A record that could not be stored. -/
def putError : Deed lang Choice → Bool
  | .op (.store (.putPendingDownload _)) _ (.error _) => true
  | _ => false

/-- The records stored in a run are stored without an error. -/
def AllPut (l : List (Deed lang Choice)) : Prop := ∀ d ∈ l, putError d = false

/-- What a download awaits is the result of a task of the file `id`, and
the task ends with its outcome. -/
def Ends (id : UInt64) (outcome : Nat → Outcome) : Deed lang Choice → Prop
  | .await (.chunk id' c) res => id' = id ∧ res = (outcome c).res c
  | .await _ _ => False
  | _ => True

/-- What is left open in a run: the answers of the store and the order of
the results. No file operation fails, and every task ends with its
outcome. -/
def Expected (id : UInt64) (outcome : Nat → Outcome) (d : Deed lang Choice) : Prop :=
  fileError d = false ∧ Ends id outcome d

section Sums

variable (r : PendingDownloadRecord) (n : Nat) (outcome : Nat → Outcome)

/-- The chunks of `0..n` the record does not hold. -/
def left : List Nat := (List.range n).filter (· ∉ r.downloadedChunks)

/-- The record with the chunks of `cs` that were got. -/
def addGot (cs : List Nat) : PendingDownloadRecord :=
  { r with
    downloadedChunks := r.downloadedChunks ∪ (cs.filter fun c => outcome c = .got).toFinset }

/-- What a run adds up to:

- `tasks`: the tasks it starts are one for each chunk that is left, and no
  others;
- `joined`: it takes the result of each of them once;
- `record`: it ends with the record and the chunks that were got;
- `failed`: it ends with an error if a task failed or panicked;
- `ended`: otherwise it says whether the record holds all chunks;
- `stored`: the stored record is the one it ends with, if no record failed
  to be stored and a chunk was got. -/
structure Accounted (l : List (Deed lang Choice)) (x : Except String Bool × PendingDownloadRecord)
    (w' : World) : Prop where
  tasks : spawned l = (left r n).map fun c => .chunk ⟨r.key.toU64, c, r.chunksDir⟩
  joined : (awaited l).Perm ((left r n).map fun c => .chunk r.key.toU64 c)
  record : x.2 = addGot r outcome (left r n)
  failed : (∃ c ∈ left r n, (outcome c).isFailed) → ∃ e, x.1 = .error e
  ended : (¬ ∃ c ∈ left r n, (outcome c).isFailed) →
    x.1 = .ok (decide ((addGot r outcome (left r n)).downloadedChunks = Finset.range n))
  stored : AllPut l → (∃ c ∈ left r n, outcome c = .got) →
    w'.store.pending[r.key]? = some (addGot r outcome (left r n))

end Sums

/-! ### The chunks that are left -/

section Proofs

variable {r : PendingDownloadRecord} {outcome : Nat → Outcome} {w w' : World}
  {l l₁ l₂ : List (Deed lang Choice)}

theorem spawned_append : spawned (l₁ ++ l₂) = spawned l₁ ++ spawned l₂ := List.filterMap_append

theorem awaited_append : awaited (l₁ ++ l₂) = awaited l₁ ++ awaited l₂ := List.filterMap_append

theorem addGot_nil : addGot r outcome [] = r := by
  simp [addGot]

/-- The order in which chunks are added does not matter. -/
theorem addGot_erase {cs : List Nat} {c : Nat} (hc : c ∈ cs) :
    addGot (addGot r outcome [c]) outcome (cs.erase c) = addGot r outcome cs := by
  -- Both sides add the same set of chunks.
  have chunks : (cs.filter fun c => outcome c = .got).toFinset
      = ([c].filter fun c => outcome c = .got).toFinset ∪
        ((cs.erase c).filter fun c => outcome c = .got).toFinset := by
    rw [← List.toFinset_append, ← List.filter_append]
    exact List.toFinset_eq_of_perm _ _ ((List.perm_cons_erase hc).filter _)
  simp only [addGot, chunks, Finset.union_assoc]

theorem addGot_of_none {cs : List Nat} (h : ∀ c ∈ cs, outcome c ≠ .got) :
    addGot r outcome cs = r := by
  have none : cs.filter (fun c => outcome c = .got) = [] :=
    List.filter_eq_nil_iff.mpr fun c hc => by simpa using h c hc
  simp [addGot, none]

theorem nodup_left (n : Nat) : (left r n).Nodup := List.nodup_range.filter _

theorem erase_slot (id : UInt64) (cs : List Nat) (c : Nat) :
    (cs.map (Slot.chunk id)).erase (.chunk id c) = (cs.erase c).map (.chunk id) :=
  (List.map_erase (fun _ _ h => (Slot.chunk.inj h).2) cs).symm

theorem mem_left {n c : Nat} : c ∈ left r n ↔ c < n ∧ c ∉ r.downloadedChunks := by
  simp [Accounting.left]

/-- What is got is among the chunks that are left, so as many chunks as
there are proofs are all of them. -/
theorem full_addGot {n : Nat} (hr : r.downloadedChunks ⊆ Finset.range n) :
    ((addGot r outcome (left r n)).downloadedChunks.card == n)
      = decide ((addGot r outcome (left r n)).downloadedChunks = Finset.range n) := by
  have within : (addGot r outcome (left r n)).downloadedChunks ⊆ Finset.range n := by
    refine Finset.union_subset hr fun c hc => ?_
    have hleft := (List.mem_filter.mp (List.mem_toFinset.mp hc)).1
    exact Finset.mem_range.mpr (mem_left.mp hleft).1
  rw [Bool.beq_eq_decide_eq, decide_eq_decide]
  constructor
  · intro hcard
    exact Finset.eq_of_subset_of_card_le within (by rw [hcard, Finset.card_range])
  · intro h
    rw [h, Finset.card_range]

/-- The parts of a run with every record stored. -/
theorem AllPut.parts {d : Deed lang Choice} (h : AllPut (d :: (l₁ ++ l₂))) :
    AllPut l₁ ∧ AllPut l₂ :=
  ⟨fun d hd => h d (List.mem_cons_of_mem _ (List.mem_append_left _ hd)),
    fun d hd => h d (List.mem_cons_of_mem _ (List.mem_append_right _ hd))⟩

/-- Operations start nothing and wait for nothing. -/
theorem of_ops {O : Op → Prop} (h : ∀ d ∈ l, d.Within (.ops O)) :
    spawned l = [] ∧ awaited l = [] := by
  constructor
  · refine List.filterMap_eq_nil_iff.mpr fun d hd => ?_
    cases d with
    | spawn t => exact (h _ hd).elim
    | _ => rfl
  · refine List.filterMap_eq_nil_iff.mpr fun d hd => ?_
    cases d with
    | await j r => exact (h _ hd).elim
    | _ => rfl

variable [Platform]

/-- The tasks a download starts. -/
theorem runs_spawnChunks {cs : List Nat} {js : List Slot}
    (h : (spawnChunks r cs).Runs Op.exec w l js w') :
    w' = w ∧ js = (cs.filter (· ∉ r.downloadedChunks)).map (.chunk r.key.toU64) ∧
      spawned l = (cs.filter (· ∉ r.downloadedChunks)).map
        (fun c => .chunk ⟨r.key.toU64, c, r.chunksDir⟩) ∧ awaited l = [] := by
  induction cs generalizing l js with
  | nil =>
      obtain ⟨rfl, rfl, rfl⟩ := runs_ret.mp h
      exact ⟨rfl, rfl, rfl, rfl⟩
  | cons c cs ih =>
      unfold spawnChunks at h
      split at h
      · next hc =>
          -- A chunk that is held gets no task.
          rw [List.filter_cons_of_neg (by simpa using hc)]
          exact ih h
      · next hc =>
          -- The task of this chunk is started, then those of the rest.
          rw [List.filter_cons_of_pos (by simpa using hc)]
          cases h with
          | @spawn _ _ _ _ l _ h =>
              replace h : (spawnChunks r cs >>= fun slots =>
                pure (.chunk r.key.toU64 c :: slots)).Runs Op.exec w l js w' := h
              obtain ⟨l₁, js', w₁, l₂, h₁, h₂, rfl⟩ := runs_bind.mp h
              obtain ⟨rfl, rfl, rfl⟩ := runs_ret.mp h₂
              obtain ⟨rfl, rfl, hspawned, hawaited⟩ := ih h₁
              rw [List.append_nil]
              refine ⟨rfl, rfl, ?_, hawaited⟩
              exact congrArg (_ :: ·) hspawned

/-- Taking the result of the task of a chunk that is not held yet. -/
theorem runs_recordChunk {c : Nat} {e : Option String}
    {x : PendingDownloadRecord × Option String} (hc : c ∉ r.downloadedChunks)
    (h : (recordChunk r e ((outcome c).res c)).Runs Op.exec w l x w') :
    x.1 = addGot r outcome [c] ∧ (x.2 = none ↔ e = none ∧ (outcome c).isFailed = false) ∧
      spawned l = [] ∧ awaited l = [] ∧
      (AllPut l → (outcome c = .got → w'.store.pending[r.key]? = some x.1) ∧
        (outcome c ≠ .got → w'.store.pending = w.store.pending)) := by
  unfold recordChunk at h
  cases ho : outcome c with
  | got =>
      simp only [ho, Outcome.res, if_neg hc] at h
      -- `put_pending_download` stores the record, or leaves the store alone.
      obtain ⟨l₁, y, w₁, l₂, h₁, h₂, rfl⟩ := runs_bind.mp h
      obtain ⟨rfl, rfl, rfl⟩ := runs_ret.mp h₂
      obtain ⟨ch, he, rfl⟩ := runs_perform.mp h₁
      have record : r.insertChunk c = addGot r outcome [c] := by
        simp [addGot, ho, PendingDownloadRecord.insertChunk]
      refine ⟨record, ⟨fun h => ⟨h, rfl⟩, And.left⟩, rfl, rfl, fun hput => ⟨fun _ => ?_, ?_⟩⟩
      · obtain ⟨rfl, rfl⟩ | ⟨err, rfl, rfl⟩ := exec_store he
        · show (w.store.pending.insert r.key (r.insertChunk c))[r.key]? = _
          rw [get_put, if_pos rfl]
        · cases hput _ List.mem_cons_self
      · exact fun hne => absurd rfl hne
  | missing =>
      simp only [ho, Outcome.res] at h
      obtain ⟨rfl, rfl, rfl⟩ := runs_ret.mp h
      have record : r = addGot r outcome [c] := by simp [addGot, ho]
      exact ⟨record, ⟨fun h => ⟨h, rfl⟩, And.left⟩, rfl, rfl, fun _ => ⟨nofun, fun _ => rfl⟩⟩
  | failed err =>
      simp only [ho, Outcome.res] at h
      obtain ⟨rfl, rfl, rfl⟩ := runs_ret.mp h
      have record : r = addGot r outcome [c] := by simp [addGot, ho]
      -- The first error is kept, so from here on there is one.
      have some : e.or (some err.text) ≠ none := by cases e <;> nofun
      exact ⟨record, ⟨fun h => absurd h some, fun h => nomatch h.2⟩, rfl, rfl,
        fun _ => ⟨nofun, fun _ => rfl⟩⟩

/-- The results of the tasks that are left, in any order. -/
theorem runs_joinChunks {cs : List Nat} (hcs : cs.Nodup) (hnew : ∀ c ∈ cs, c ∉ r.downloadedChunks)
    {e : Option String} {x : PendingDownloadRecord × Option String}
    (hends : ∀ d ∈ l, Ends r.key.toU64 outcome d)
    (h : (joinChunks cs.length (cs.map (.chunk r.key.toU64)) r e).Runs Op.exec w l x w') :
    x.1 = addGot r outcome cs ∧
      (x.2 = none ↔ e = none ∧ ∀ c ∈ cs, (outcome c).isFailed = false) ∧
      spawned l = [] ∧ (awaited l).Perm (cs.map (.chunk r.key.toU64)) ∧
      (AllPut l → ((∃ c ∈ cs, outcome c = .got) → w'.store.pending[r.key]? = some x.1) ∧
        ((∀ c ∈ cs, outcome c ≠ .got) → w'.store.pending = w.store.pending)) := by
  -- Every result changes the record and may add an error, so both are general.
  induction hn : cs.length generalizing cs r e w l with
  | zero =>
      obtain rfl : cs = [] := List.length_eq_zero_iff.mp hn
      obtain ⟨rfl, rfl, rfl⟩ := runs_ret.mp h
      exact ⟨addGot_nil.symm, ⟨fun h => ⟨h, nofun⟩, And.left⟩, rfl, .refl _,
        fun _ => ⟨nofun, fun _ => rfl⟩⟩
  | succ k ih =>
      rw [hn] at h
      cases h with
      | @await _ _ j res _ _ l _ hj h =>
          -- The result that comes first is that of some task that is left.
          obtain ⟨c, hc, rfl⟩ := List.mem_map.mp hj
          obtain ⟨-, rfl⟩ := hends _ List.mem_cons_self
          obtain ⟨l₁, y, w₁, l₂, h₁, h₂, rfl⟩ := runs_bind.mp h
          have tail : ∀ d ∈ l₂, Ends r.key.toU64 outcome d := fun d hd =>
            hends d (List.mem_cons_of_mem _ (List.mem_append_right _ hd))
          obtain ⟨record, error, hs₁, ha₁, put₁⟩ := runs_recordChunk (hnew c hc) h₁
          obtain ⟨r₁, e₁⟩ := y
          obtain rfl : r₁ = addGot r outcome [c] := record
          -- The rest of the tasks, from the record with this chunk.
          have length : (cs.erase c).length = k := by
            rw [List.length_erase_of_mem hc, hn]
            rfl
          have fresh : ∀ c' ∈ cs.erase c, c' ∉ (addGot r outcome [c]).downloadedChunks := by
            intro c' hc' hmem
            obtain ⟨ne, hin⟩ := (hcs.mem_erase_iff).mp hc'
            obtain hold | hgot := Finset.mem_union.mp hmem
            · exact hnew c' hin hold
            · have := (List.mem_filter.mp (List.mem_toFinset.mp hgot)).1
              exact ne (List.mem_singleton.mp this)
          dsimp only at h₂
          rw [erase_slot, ← length] at h₂
          obtain ⟨record, error', hs₂, ha₂, put₂⟩ :=
            ih (hcs.erase c) fresh tail h₂ length
          -- What holds of all tasks holds of this one and of the rest.
          have split : cs.Perm (c :: cs.erase c) := List.perm_cons_erase hc
          have all : ∀ {P : Nat → Prop}, (∀ c' ∈ cs, P c') ↔ P c ∧ ∀ c' ∈ cs.erase c, P c' := by
            intro P
            rw [← List.forall_mem_cons]
            exact ⟨fun h c' hc' => h c' (split.mem_iff.mpr hc'),
              fun h c' hc' => h c' (split.mem_iff.mp hc')⟩
          refine ⟨record.trans (addGot_erase hc), ?_, ?_, ?_,
            fun hput => ⟨fun hgot => ?_, fun hnone => ?_⟩⟩
          · rw [error', error, all, and_assoc]
          · show spawned (l₁ ++ l₂) = []
            rw [spawned_append, hs₁, hs₂]
            rfl
          · show (Slot.chunk r.key.toU64 c :: awaited (l₁ ++ l₂)).Perm _
            rw [awaited_append, ha₁, List.nil_append]
            exact (ha₂.cons _).trans (split.map _).symm
          · obtain ⟨hput₁, hput₂⟩ := hput.parts
            by_cases later : ∃ c' ∈ cs.erase c, outcome c' = .got
            · exact (put₂ hput₂).1 later
            · -- The last chunk that was got is this one.
              have nothing : ∀ c' ∈ cs.erase c, outcome c' ≠ .got := fun c' hc' hg =>
                later ⟨c', hc', hg⟩
              have now : outcome c = .got := by
                obtain ⟨c', hc', hg⟩ := hgot
                obtain rfl | hin := List.mem_cons.mp (split.mem_iff.mp hc')
                · exact hg
                · exact absurd hg (nothing c' hin)
              rw [(put₂ hput₂).2 nothing, record, addGot_of_none nothing]
              exact (put₁ hput₁).1 now
          · obtain ⟨hput₁, hput₂⟩ := hput.parts
            rw [all] at hnone
            rw [(put₂ hput₂).2 hnone.2, (put₁ hput₁).2 hnone.1]

/-- A run of `download` with a metadata that is read. -/
theorem runs_download {m : FileMetadata} {data : Bytes}
    (hdata : w.fs.bytes (loc (metadataPath r.chunksDir)) = some data)
    (hm : Platform.decodeMetadata data = .ok m)
    (hr : r.downloadedChunks ⊆ Finset.range m.merkleProofs.length)
    {x : Except String Bool × PendingDownloadRecord}
    (h : (download r).Runs Op.exec w l x w') (hl : ∀ d ∈ l, Expected r.key.toU64 outcome d) :
    Accounted r m.merkleProofs.length outcome l x w' := by
  obtain ⟨l₁, y, w₁, l₂, h₁, h₂, rfl⟩ := runs_bind.mp h
  have read := runs_readMetadata hdata hm h₁ fun d hd =>
    (hl d (List.mem_append_left _ hd)).1
  -- Reading the metadata starts no task and waits for none.
  have only : (readMetadata r.chunksDir).run.Within (.ops fun _ => True) :=
    readMetadata_within trivial
  obtain ⟨hs₁, ha₁⟩ := of_ops (h₁.within only)
  obtain ⟨rfl, rfl⟩ := read
  obtain ⟨l₃, js, w₂, l₄, h₃, h₄, rfl⟩ := runs_bind.mp h₂
  obtain ⟨rfl, rfl, hs₃, ha₃⟩ := runs_spawnChunks h₃
  obtain ⟨l₅, y, w₃, l₆, h₅, h₆, rfl⟩ := runs_bind.mp h₄
  rw [List.length_map] at h₅
  have hends : ∀ d ∈ l₅, Ends r.key.toU64 outcome d := fun d hd =>
    (hl d (List.mem_append_right _ (List.mem_append_right _ (List.mem_append_left _ hd)))).2
  obtain ⟨record, error, hs₅, ha₅, put⟩ := runs_joinChunks (nodup_left m.merkleProofs.length)
    (fun c hc => (mem_left.mp hc).2) hends h₅
  obtain ⟨r', e⟩ := y
  obtain rfl : r' = addGot r outcome (left r m.merkleProofs.length) := record
  -- The answer depends on nothing but whether an error was kept.
  have last : l₆ = [] ∧ w' = w₃ ∧ x.2 = addGot r outcome (left r m.merkleProofs.length) ∧
      (∀ err, e = some err → x.1 = .error err) ∧
      (e = none → x.1 = .ok ((addGot r outcome (left r m.merkleProofs.length)).downloadedChunks.card
        == m.merkleProofs.length)) := by
    cases e with
    | none =>
        obtain ⟨rfl, rfl, rfl⟩ := runs_ret.mp h₆
        exact ⟨rfl, rfl, rfl, nofun, fun _ => rfl⟩
    | some err =>
        obtain ⟨rfl, rfl, rfl⟩ := runs_ret.mp h₆
        exact ⟨rfl, rfl, rfl, fun _ h => by cases h; rfl, nofun⟩
  obtain ⟨rfl, rfl, hrecord, herror, hok⟩ := last
  refine ⟨?_, ?_, hrecord, ?_, ?_, ?_⟩
  · rw [spawned_append, spawned_append, spawned_append, hs₁, hs₃, hs₅]
    exact List.append_nil _
  · rw [awaited_append, awaited_append, awaited_append, ha₁, ha₃, List.nil_append, List.nil_append]
    exact (List.append_nil (awaited l₅)).symm ▸ ha₅
  · rintro ⟨c, hc, hfailed⟩
    cases e with
    | some e => exact ⟨e, herror e rfl⟩
    | none =>
        have calm := (error.mp rfl).2 c hc
        rw [hfailed] at calm
        cases calm
  · intro hcalm
    have none : e = none := error.mpr ⟨rfl, fun c hc => by
      by_contra hfailed
      exact hcalm ⟨c, hc, by simpa using hfailed⟩⟩
    rw [hok none, full_addGot hr]
  · intro hput hgot
    refine (put fun d hd => hput d ?_).1 hgot
    exact List.mem_append_right _ (List.mem_append_right _ (List.mem_append_left _ hd))

/-! ### The runs there are -/

/-- What must be possible for a run: `read`, `put`, `start` and `join` are
the four things a download does. -/
structure Allows (id : UInt64) (outcome : Nat → Outcome) (allowed : Deed lang Choice → Prop) :
    Prop where
  calm : ∀ d, allowed d → fileError d = false
  read : ∀ p bs, allowed (.op (.fs (.read p)) .ok (.ok bs))
  put : ∀ r w, ∃ c x w', Op.exec (.store (.putPendingDownload r)) c w = some (x, w') ∧
    allowed (.op (.store (.putPendingDownload r)) c x)
  start : ∀ t, allowed (.spawn t)
  join : ∀ c, allowed (.await (.chunk id c) ((outcome c).res c))

section Runs

variable {allowed : Deed lang Choice → Prop} {id : UInt64}

theorem returns_recordChunk (ha : Allows id outcome allowed) (r : PendingDownloadRecord)
    (e : Option String) (result : Res) (w : World) :
    (recordChunk r e result).Returns Op.exec allowed w := by
  unfold recordChunk
  split
  · split
    · trivial
    · exact returns_bind (returns_perform (ha.put _ w)) fun _ _ _ _ _ => trivial
  · trivial
  · trivial

theorem returns_spawnChunks (ha : Allows id outcome allowed) (r : PendingDownloadRecord)
    (cs : List Nat) (w : World) : (spawnChunks r cs).Returns Op.exec allowed w :=
  returns_of_within (F := ⟨fun _ => False, fun _ => True, fun _ => False⟩)
    (spawnChunks_within r cs fun _ _ _ => trivial) (Joins.spawnChunks_joins r cs)
    (fun _ h => h.elim) (fun t _ => ha.start t) fun _ h => h.elim

theorem returns_joinChunks (ha : Allows id outcome allowed) (cs : List Nat)
    (r : PendingDownloadRecord) (e : Option String) (w : World) :
    (joinChunks cs.length (cs.map (.chunk id)) r e).Returns Op.exec allowed w := by
  induction hn : cs.length generalizing cs r e w with
  | zero => trivial
  | succ n ih =>
      obtain ⟨c, hc⟩ := List.exists_mem_of_length_pos (by omega : 0 < cs.length)
      -- Some task is left, and whichever ends first, the loop goes on.
      refine ⟨⟨_, List.mem_map_of_mem hc, _, ha.join c⟩, fun j hj result _ => ?_⟩
      refine returns_bind (returns_recordChunk ha r e result w) fun _ x w₁ _ _ => ?_
      obtain ⟨c', hc', rfl⟩ := List.mem_map.mp hj
      rw [erase_slot]
      exact ih _ _ _ _ (by rw [List.length_erase_of_mem hc', hn]; rfl)

/-- The results of tasks are taken in every order they may come in. -/
theorem exists_joinChunks (ha : Allows id outcome allowed) {order cs : List Nat}
    (horder : order.Perm cs) (r : PendingDownloadRecord) (e : Option String) (w : World) :
    ∃ l x w', (joinChunks cs.length (cs.map (.chunk id)) r e).Runs Op.exec w l x w' ∧
      (∀ d ∈ l, allowed d) ∧ awaited l = order.map (.chunk id) := by
  -- The tasks end in this order, so the one at its head is taken first.
  induction order generalizing cs r e w with
  | nil =>
      obtain rfl := horder.nil_eq
      exact ⟨[], _, _, .ret, fun d hd => absurd hd List.not_mem_nil, rfl⟩
  | cons c order ih =>
      -- The rest of the order is one of the tasks that are left then.
      obtain ⟨hc, rest⟩ := List.cons_perm_iff_perm_erase.mp horder
      have first : (recordChunk r e ((outcome c).res c)).Returns Op.exec allowed w :=
        returns_recordChunk ha r e _ w
      obtain ⟨l₁, y, w₁, h₁, hl₁⟩ := first.exists_runs
      obtain ⟨l₂, x, w₂, h₂, hl₂, ha₂⟩ := ih rest y.1 y.2 w₁
      have length : cs.length = (cs.erase c).length + 1 := by
        rw [List.length_erase_of_mem hc]
        have := List.length_pos_of_mem hc
        omega
      refine ⟨.await (.chunk id c) ((outcome c).res c) :: (l₁ ++ l₂), x, w₂, ?_, ?_, ?_⟩
      · rw [length]
        refine .await (List.mem_map_of_mem hc) (runs_bind.mpr ⟨l₁, y, w₁, l₂, h₁, ?_, rfl⟩)
        rw [erase_slot]
        exact h₂
      · refine List.forall_mem_cons.mpr ⟨ha.join c, fun d hd => ?_⟩
        exact (List.mem_append.mp hd).elim (hl₁ d) (hl₂ d)
      · have none : awaited l₁ = [] := (of_ops (h₁.within (recordChunk_within r e _))).2
        show Slot.chunk id c :: awaited (l₁ ++ l₂) = _
        rw [awaited_append, none, ha₂]
        rfl

variable {m : FileMetadata} {data : Bytes}

theorem returns_read (ha : Allows id outcome allowed)
    (hdata : w.fs.bytes (loc (metadataPath r.chunksDir)) = some data) :
    (readMetadata r.chunksDir).run.Returns Op.exec allowed w := by
  have read : (FsOp.read (metadataPath r.chunksDir)).run w.fs = some (data, w.fs) :=
    Option.map_eq_some_iff.mpr ⟨data, hdata, rfl⟩
  refine returns_bindA (returns_perform ⟨.ok, _, _, exec_fs_run read, ha.read _ _⟩)
    fun l bs w' _ _ => ?_
  split <;> trivial

/-- A download with a metadata that is read comes to its end. -/
theorem returns_download (ha : Allows r.key.toU64 outcome allowed)
    (hdata : w.fs.bytes (loc (metadataPath r.chunksDir)) = some data)
    (hm : Platform.decodeMetadata data = .ok m) : (download r).Returns Op.exec allowed w := by
  refine returns_bind (returns_read ha hdata) fun l x w₁ h hl => ?_
  obtain ⟨rfl, rfl⟩ := runs_readMetadata hdata hm h fun d hd => ha.calm d (hl d hd)
  refine returns_bind (returns_spawnChunks ha r _ _) fun l js w₂ h _ => ?_
  obtain ⟨-, rfl, -⟩ := runs_spawnChunks h
  rw [List.length_map]
  refine returns_bind (returns_joinChunks ha _ r none _) fun l x w₃ _ _ => ?_
  obtain ⟨r', e⟩ := x
  cases e <;> trivial

/-- And it has a run for every order of the results. -/
theorem exists_download (ha : Allows r.key.toU64 outcome allowed)
    (hdata : w.fs.bytes (loc (metadataPath r.chunksDir)) = some data)
    (hm : Platform.decodeMetadata data = .ok m) {order : List Nat}
    (horder : order.Perm (left r m.merkleProofs.length)) :
    ∃ l x w', (download r).Runs Op.exec w l x w' ∧ (∀ d ∈ l, allowed d) ∧
      awaited l = order.map (.chunk r.key.toU64) := by
  obtain ⟨l₁, y, w₁, h₁, hl₁⟩ := (returns_read ha hdata).exists_runs
  obtain ⟨rfl, rfl⟩ := runs_readMetadata hdata hm h₁ fun d hd => ha.calm d (hl₁ d hd)
  have none : awaited l₁ = [] :=
    (of_ops (h₁.within (readMetadata_within (F := .ops fun _ => True) trivial))).2
  obtain ⟨l₂, js, w₂, h₂, hl₂⟩ :=
    (returns_spawnChunks ha r (List.range m.merkleProofs.length) w₁).exists_runs
  obtain ⟨rfl, rfl, -, none'⟩ := runs_spawnChunks h₂
  obtain ⟨l₃, ⟨r', e⟩, w₃, h₃, hl₃, order_taken⟩ := exists_joinChunks ha horder r .none w₂
  rw [← List.length_map (Slot.chunk r.key.toU64)] at h₃
  have run : ∃ x, (download r).Runs Op.exec w₂ (l₁ ++ (l₂ ++ (l₃ ++ []))) x w₃ := by
    cases e <;> exact ⟨_, runs_bind.mpr ⟨l₁, _, w₂, _, h₁, runs_bind.mpr
      ⟨l₂, _, w₂, _, h₂, runs_bind.mpr ⟨l₃, _, w₃, [], h₃, .ret, rfl⟩, rfl⟩, rfl⟩⟩
  obtain ⟨x, run⟩ := run
  refine ⟨_, x, w₃, run, ?_, ?_⟩
  · intro d hd
    simp only [List.mem_append, List.append_nil] at hd
    exact hd.elim (hl₁ d) fun hd => hd.elim (hl₂ d) (hl₃ d)
  · rw [awaited_append, awaited_append, none, none', List.append_nil]
    exact order_taken

end Runs

/-- A download with a metadata that is read comes to its end, whatever the
store answers and in whatever order the results come. Every order has a
run. All runs with the same outcomes end with the same record, the same
kind of answer and the same stored record. -/
theorem accounted {m : FileMetadata} {data : Bytes}
    (hdata : w.fs.bytes (loc (metadataPath r.chunksDir)) = some data)
    (hm : Platform.decodeMetadata data = .ok m)
    (hr : r.downloadedChunks ⊆ Finset.range m.merkleProofs.length) :
    (download r).Returns Op.exec (Expected r.key.toU64 outcome) w ∧
    (∀ order : List Nat, order.Perm (left r m.merkleProofs.length) →
      ∃ l x w', (download r).Runs Op.exec w l x w' ∧
        (∀ d ∈ l, Expected r.key.toU64 outcome d) ∧ AllPut l ∧
        awaited l = order.map fun c => .chunk r.key.toU64 c) ∧
    ∀ l x w', (download r).Runs Op.exec w l x w' →
      (∀ d ∈ l, Expected r.key.toU64 outcome d) →
      Accounted r m.merkleProofs.length outcome l x w' := by
  have expected : Allows r.key.toU64 outcome (Expected r.key.toU64 outcome) := by
    refine ⟨fun _ h => h.1, fun _ _ => ⟨rfl, trivial⟩, fun r w => ?_, fun _ => ⟨rfl, trivial⟩,
      fun _ => ⟨rfl, rfl, rfl⟩⟩
    obtain ⟨c, x, w', he⟩ := Joins.prompt_store (.putPendingDownload r) w
    exact ⟨c, x, w', he, rfl, trivial⟩
  -- The store may answer every put with `Ok`.
  have put : Allows r.key.toU64 outcome fun d =>
      Expected r.key.toU64 outcome d ∧ putError d = false :=
    ⟨fun _ h => h.1.1, fun _ _ => ⟨⟨rfl, trivial⟩, rfl⟩,
      fun _ _ => ⟨.ok, _, _, rfl, ⟨rfl, trivial⟩, rfl⟩, fun _ => ⟨⟨rfl, trivial⟩, rfl⟩, fun _ => ⟨⟨rfl, rfl, rfl⟩, rfl⟩⟩
  refine ⟨returns_download expected hdata hm, fun order horder => ?_,
    fun l x w' run hl => runs_download hdata hm hr run hl⟩
  obtain ⟨l, x, w', run, hl, taken⟩ := exists_download put hdata hm horder
  exact ⟨l, x, w', run, fun d hd => (hl d hd).1, fun d hd => (hl d hd).2, taken⟩

end Proofs

section Example

open Reference

attribute [local instance] platform

/-- Three chunks. -/
def threeChunks : FileMetadata := metadataOf "f" [[7], [8], [9]]

/-- The first one is recorded. -/
def firstRecorded : PendingDownloadRecord :=
  { pendingDownload threeChunks with downloadedChunks := {0} }

/-- A node that has saved the metadata. -/
def saved : World :=
  newWorld (files [([], .dir), (["src"], .dir), (["src", "f_chunks"], .dir),
    (["src", "f_chunks", ".metadata"], .file threeChunks.toBytes)]) 3

/-- The task of the second chunk panics, the third chunk arrives. -/
def outcomes : Nat → Outcome := fun c => if c = 2 then .got else .failed .panicked

/-- The result of the third chunk is taken first. The chunk is recorded
and stored, and the download ends with an error. -/
theorem accounted_threeChunks :
    ∃ l x w', (download firstRecorded).Runs Op.exec saved l x w' ∧
      awaited l = [.chunk firstRecorded.key.toU64 2, .chunk firstRecorded.key.toU64 1] ∧
      (∃ e, x.1 = .error e) ∧ x.2.downloadedChunks = {0, 2} ∧
      w'.store.pending[firstRecorded.key]? = some x.2 := by
  have place : loc (metadataPath firstRecorded.chunksDir) = ["src", "f_chunks", ".metadata"] := by
    decide +kernel
  have read : saved.fs.bytes (loc (metadataPath firstRecorded.chunksDir))
      = some threeChunks.toBytes := by
    rw [place]
    rfl
  have decoded : Platform.decodeMetadata threeChunks.toBytes = .ok threeChunks :=
    platform.decode_toBytes _
  obtain ⟨-, orders, sum⟩ := @accounted _ outcomes _ _ _ _ read decoded (by decide +kernel)
  have order : [2, 1].Perm (left firstRecorded threeChunks.merkleProofs.length) := by decide +kernel
  obtain ⟨l, x, w', run, hl, hput, taken⟩ := orders [2, 1] order
  have sum := sum l x w' run hl
  refine ⟨l, x, w', run, taken, sum.failed ⟨1, by decide +kernel, rfl⟩, ?_, ?_⟩
  · rw [sum.record]
    decide +kernel
  · rw [sum.stored hput ⟨2, by decide +kernel, rfl⟩, sum.record]

end Example

end RustDfs.Accounting
