import RustDfs.Model.Reference
import RustDfs.Proofs.NodeCauses

/-!
# `RustDfs.Proofs.Remembered`: no file is forgotten

The database only ever forgets a job or a pending download for a
published record of the same key. `remembered` shows it of any two states
of a run, with crashes and failures of the database in between.

The two deletions come after the published record of the key was stored
in the same slot (`Causes.Cause`), and nothing deletes published records
(`Kept`). So whatever happens between the two writes, one of the two
records is there.
-/

set_option autoImplicit false

namespace RustDfs.Remembered

open Lib Std Conc Causes

/-- Nothing that stands in the first store is forgotten in the second.
- `published`: what was published still is,
- `pending`, `jobs`: what was pending or queued still is, or was
  published. -/
structure Remembers (s s' : Store) : Prop where
  published : ∀ k : PublishedFileKey, k ∈ s.published → k ∈ s'.published
  pending : ∀ k : PublishedFileKey, k ∈ s.pending → k ∈ s'.pending ∨ k ∈ s'.published
  jobs : ∀ k : PublishedFileKey, k ∈ s.jobs → k ∈ s'.jobs ∨ k ∈ s'.published

theorem Remembers.refl (s : Store) : Remembers s s :=
  ⟨fun _ h => h, fun _ => .inl, fun _ => .inl⟩

theorem Remembers.trans {s s' s'' : Store} (h : Remembers s s') (h' : Remembers s' s'') :
    Remembers s s'' where
  published k hk := h'.published k (h.published k hk)
  pending k hk := by
    obtain hk | hk := h.pending k hk
    · exact h'.pending k hk
    · exact .inr (h'.published k hk)
  jobs k hk := by
    obtain hk | hk := h.jobs k hk
    · exact h'.jobs k hk
    · exact .inr (h'.published k hk)

section Proof

variable [Platform] {w w' : World} {o : Op} {c : Choice} {a : o.Ans} {p p' : NodePool}
  {e : NodeEvent}

/-- The key of the record an operation deletes. -/
def deletes? : Op → Option PublishedFileKey
  | .store (.deletePendingDownload k) => some k
  | .store (.deleteFileMetadata k) => some k
  | _ => none

/-- An operation forgets nothing, if what it deletes is published. -/
theorem remembers_of_exec (he : o.exec c w = some (a, w'))
    (hd : ∀ k, deletes? o = some k → k ∈ w.store.published) :
    Remembers w.store w'.store := by
  by_cases hw : o.writesStore = false
  · rw [exec_store_eq he hw]
    exact .refl _
  cases o with
  | store o =>
      obtain ⟨-, rfl⟩ | ⟨_, -, rfl⟩ := exec_store he
      · cases o with
        | putPublishedFile r =>
            exact ⟨fun k hk => ExtTreeMap.mem_insert.mpr (.inr hk), fun _ => .inl, fun _ => .inl⟩
        | putPendingDownload r =>
            exact ⟨fun _ hk => hk, fun k hk => .inl (ExtTreeMap.mem_insert.mpr (.inr hk)),
              fun _ => .inl⟩
        | putFileMetadata m =>
            exact ⟨fun _ hk => hk, fun _ => .inl,
              fun k hk => .inl (ExtTreeMap.mem_insert.mpr (.inr hk))⟩
        | deletePendingDownload k =>
            refine ⟨fun _ hk => hk, fun k' hk' => ?_, fun _ => .inl⟩
            by_cases same : k = k'
            · subst same
              exact .inr (hd k rfl)
            · exact .inl (ExtTreeMap.mem_erase.mpr ⟨by simpa using same, hk'⟩)
        | deleteFileMetadata k =>
            refine ⟨fun _ hk => hk, fun _ => .inl, fun k' hk' => ?_⟩
            by_cases same : k = k'
            · subst same
              exact .inr (hd k rfl)
            · exact .inl (ExtTreeMap.mem_erase.mpr ⟨by simpa using same, hk'⟩)
        | _ => exact .refl _
      · exact .refl _
  | _ => exact absurd rfl hw

/-- What was published is in the database. -/
def Kept (w : World) (h : List NodeEvent) : Prop :=
  ∀ i r, HasPublished i r h → r.key ∈ w.store.published

omit [Platform] in
theorem Kept.cons {h : List NodeEvent} (hk : Kept w h)
    (hp : ∀ k : PublishedFileKey, k ∈ w.store.published → k ∈ w'.store.published)
    (he : ∀ i r, e = .op i (.store (.putPublishedFile r)) (.ok ()) → r.key ∈ w'.store.published) :
    Kept w' (e :: h) := by
  intro i r hr
  obtain now | before := List.mem_cons.mp hr
  · exact he i r now.symm
  · exact hp _ (hk i r before)

/-- No operation deletes published records. -/
theorem published_of_exec (he : o.exec c w = some (a, w')) (k : PublishedFileKey)
    (hk : k ∈ w.store.published) : k ∈ w'.store.published := by
  by_cases hw : o.writesStore = false
  · rw [exec_store_eq he hw]
    exact hk
  cases o with
  | store o =>
      obtain ⟨-, rfl⟩ | ⟨_, -, rfl⟩ := exec_store he
      · cases o with
        | putPublishedFile r => exact ExtTreeMap.mem_insert.mpr (.inr hk)
        | _ => exact hk
      · exact hk
  | _ => exact absurd rfl hw

theorem kept {g : NodeGuard} : Invariant (L := lang) machine g Kept where
  op v i o c a w hk he _ := by
    refine hk.cons (published_of_exec he) fun j r hput => ?_
    cases hput
    obtain ⟨-, rfl⟩ | ⟨_, e, -⟩ := exec_store he
    · exact ExtTreeMap.mem_insert_self
    · cases e
  idle w e h he hk := hk.cons (fun _ hk => hk) fun j r hput => by
    subst hput
    cases he
  crash w h hk := hk.cons (fun _ hk => hk) fun j r hput => by cases hput

/-- What was published in a run is in the database. -/
theorem kept_of_reach {g : NodeGuard} (hr : Reach machine g (.idle w) p) : Kept p.world p.hist :=
  kept.of_reach (fun _ _ h => by cases h) hr

/-- The key of what a run deletes was published. -/
theorem published_of_deletes {g : NodeGuard} {i : Slot} {k : PublishedFileKey}
    (hr : Reach machine g (.idle w) p) (hr' : Reach machine g (.idle w) p')
    (hh : p'.hist = .op i o a :: p.hist) (hd : deletes? o = some k) :
    k ∈ p.world.store.published := by
  have mem : .op i o a ∈ p'.hist := hh ▸ List.mem_cons_self
  obtain ⟨before, hbefore, cause⟩ := cause_of_mem hr' mem
  have published : ∃ r, r.key = k ∧ HasPublished i r before := by
    unfold deletes? at hd
    split at hd
    · cases hd
      exact cause
    · cases hd
      exact cause
    · cases hd
  obtain ⟨r, rfl, put⟩ := published
  have put : HasPublished i r p'.hist := subset_of_own hbefore put
  unfold HasPublished at put
  rw [hh] at put
  obtain now | earlier := List.mem_cons.mp put
  · cases now
    cases hd
  · exact kept_of_reach hr i r earlier

/-- One step forgets nothing. -/
theorem remembers_of_step {g : NodeGuard} (hr : Reach machine g (.idle w) p)
    (hs : Step machine g p e p') : Remembers p.world.store p'.world.store := by
  have hr' := hr.step hs
  cases hs with
  | op hi he hg =>
      exact remembers_of_exec he fun k hd => published_of_deletes hr hr' rfl hd
  | _ => exact .refl _

/-- In a run nothing is forgotten. -/
theorem remembered (hr : Reach machine environment (.idle w) p)
    (hr' : Reach machine environment p p') : Remembers p.world.store p'.world.store := by
  induction hr' with
  | refl => exact .refl _
  | step hmid hs ih => exact ih.trans (remembers_of_step (hr.trans hmid) hs)

end Proof

/-! ### A completed download -/

section Example

open Reference

attribute [local instance] platform

/-- The download of the file is accepted. -/
def accepted : List (Move lang Choice) := acceptOnly oneByte

/-- Its chunk arrives, the file is put together and published, and the
node crashes. -/
def completedThenCrash : List (Move lang Choice) :=
  tickStream ++ tickStart ++ openDownload oneByte.key 1 ++
    askChunk oneByte.key 0 ++ askProvider 1 (.fileDownload (.response 0 (.success [7]))) ++
    saveChunk oneByte.key 0 ++ commandPass 2 ++ recordChunk oneByte.key 0 ++
    complete oneByte.key 1 ++ [.crash]

/-- The accepted download is not pending any more after the crash, and
not forgotten. -/
theorem remembered_completed :
    ∃ p p', Reach machine environment (.idle (emptyDir 1)) p ∧ Reach machine environment p p' ∧
      oneByte.key ∈ p.world.store.pending ∧ oneByte.key ∉ p'.world.store.pending ∧
      Remembers p.world.store p'.world.store := by
  have run : ∃ p p', Reach machine environment (.idle (emptyDir 1)) p ∧
      Reach machine environment p p' ∧
      (oneByte.key ∈ p.world.store.pending ∧ oneByte.key ∉ p'.world.store.pending) :=
    exists_reaches_of_runScript accepted completedThenCrash (by decide +kernel)
  obtain ⟨p, p', hp, hp', before, after⟩ := run
  exact ⟨p, p', hp, hp', before, after, remembered hp hp'⟩

end Example

end RustDfs.Remembered
