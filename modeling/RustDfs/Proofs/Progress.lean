import RustDfs.Model.Reference
import RustDfs.Proofs.Calls

/-!
# `RustDfs.Proofs.Progress`: recorded chunks stay recorded

A tick reads the pending records as they were when its stream was made
and starts a download for each that has no live task. A record it starts
a download for may be older than the stored one: another download of the
key recorded chunks and ended after the stream was made. The new download
carries the old record along, and what it stores lacks those chunks
(`progress_lost`).

`progress_kept` is the other side: when every download is started from a
record that has all the chunks stored for its key at that moment, the
stored chunks of a key never become fewer until its record is deleted.

`Below` carries the argument: what is stored for the key of a download is
contained in the record the download carries along. Only the download of
a key stores chunks for it, so this is stable.
-/

set_option autoImplicit false

namespace RustDfs.Progress

open Lib Conc Std

/-- From `p` to `p'` no chunk recorded for `k` gets lost, if no record of
`k` is deleted in between. -/
def KeepsProgress (k : PublishedFileKey) (p p' : NodePool) : Prop :=
  deletions k p'.hist = deletions k p.hist →
    ∀ s ∈ p.world.store.pending[k]?, ∃ s' ∈ p'.world.store.pending[k]?,
      s.downloadedChunks ⊆ s'.downloadedChunks

instance (k : PublishedFileKey) (p p' : NodePool) : Decidable (KeepsProgress k p p') :=
  inferInstanceAs (Decidable (_ → ∀ s ∈ p.world.store.pending[k]?,
    ∃ s' ∈ p'.world.store.pending[k]?, _))

/-- The runs of downloads: a call is accepted only for a key without a
pending record. -/
def downloading : NodeGuard := fun v e =>
  environment v e ∧ ∀ x ∈ stored? e, v.world.store.pending[x.2.key]? = none

/-- A download is started from a record with all the chunks stored for
its key. -/
def UpToDate (v : NodeView) (e : NodeEvent) : Prop :=
  ∀ r ∈ started? e, ∀ s ∈ v.world.store.pending[r.key]?, s.downloadedChunks ⊆ r.downloadedChunks

/-- The guard of the runs in which no progress is lost: a call is accepted
only for a key without a pending record, and a download is started from a
record with all the chunks that are stored for its key by then. -/
def upToDate : NodeGuard := fun v e => downloading v e ∧ UpToDate v e

instance (v : NodeView) (e : NodeEvent) : Decidable (downloading v e) :=
  inferInstanceAs (Decidable (_ ∧ ∀ x ∈ stored? e, _))

instance (v : NodeView) (e : NodeEvent) : Decidable (upToDate v e) :=
  inferInstanceAs (Decidable (_ ∧ ∀ r ∈ started? e, ∀ s ∈ v.world.store.pending[r.key]?, _))

/-! ### The protocol -/

/-- Every chunk stored for `k` is in `cs`. -/
def Below (k : PublishedFileKey) (cs : Finset Nat) (v : NodeView) : Prop :=
  ∀ s, v.world.store.pending[k]? = some s → s.downloadedChunks ⊆ cs

/-- No stored chunk gets lost without a deletion. -/
def Growth (v v' : NodeView) : Prop :=
  ∀ k, deletions k v'.hist = deletions k v.hist → ∀ s, v.world.store.pending[k]? = some s →
    ∃ s', v'.world.store.pending[k]? = some s' ∧ s.downloadedChunks ⊆ s'.downloadedChunks

/-- What the download in a slot counts on: nobody else stores chunks for
its key. -/
def KeepsBelow (i : Slot) (v v' : NodeView) : Prop :=
  ∀ k, i = .download k → ∀ cs, Below k cs v → Below k cs v'

/-- The protocol of downloading. -/
def protocol : Protocol lang World where
  Inv _ := True
  Rely := KeepsBelow
  Guar i v v' := (∀ j, j ≠ i → KeepsBelow j v v') ∧ Growth v v'
  Pre t v := ∀ r, t = .download r → Below r.key r.downloadedChunks v
  Post _ _ _ := True

section Frame

variable {v v' : NodeView}

/-- Who leaves the pending records alone keeps everything. -/
theorem Below.frame {k : PublishedFileKey} {cs : Finset Nat} (h : Below k cs v)
    (hp : v'.world.store.pending = v.world.store.pending) : Below k cs v' := by
  intro s hs
  rw [hp] at hs
  exact h s hs

theorem Growth.frame (hp : v'.world.store.pending = v.world.store.pending) : Growth v v' := by
  intro k _ s hs
  rw [← hp] at hs
  exact ⟨s, hs, Finset.Subset.refl _⟩

theorem guar_frame (i : Slot) (hp : v'.world.store.pending = v.world.store.pending) :
    protocol.Guar i v v' :=
  ⟨fun _ _ _ _ _ h => h.frame hp, .frame hp⟩

/-- Storing a record with all the chunks stored for its key so far. -/
theorem guar_put {i : Slot} {r : PendingDownloadRecord}
    (hp : v'.world.store.pending = v.world.store.pending.insert r.key r)
    (hi : ∀ j, j ≠ i → j = .download r.key → r.downloadedChunks = ∅)
    (hr : Below r.key r.downloadedChunks v) : protocol.Guar i v v' := by
  refine ⟨fun j hj k hk cs hb s hs => ?_, fun k _ s hs => ?_⟩
  · rw [hp, get_put] at hs
    split at hs
    · next heq =>
        subst heq
        cases hs
        rw [hi j hj hk]
        exact Finset.empty_subset cs
    · exact hb s hs
  · rw [hp, get_put]
    split
    · next heq =>
        subst heq
        exact ⟨r, rfl, hr s hs⟩
    · exact ⟨s, hs, Finset.Subset.refl _⟩

/-- Deleting a record. -/
theorem guar_delete {i j : Slot} {k : PublishedFileKey}
    (hp : v'.world.store.pending = v.world.store.pending.erase k)
    (hh : v'.hist = .op (L := lang) j (.store (.deletePendingDownload k)) (.ok ()) :: v.hist) :
    protocol.Guar i v v' := by
  refine ⟨fun j _ k' _ cs hb s hs => ?_, fun k' hd s hs => ?_⟩
  · rw [hp, get_delete] at hs
    split at hs
    · cases hs
    · exact hb s hs
  · rw [hp, get_delete]
    split
    · next heq =>
        subst heq
        rw [hh] at hd
        have : deletions k (.op (L := lang) j (.store (.deletePendingDownload k)) (.ok ()) :: v.hist)
            = deletions k v.hist + 1 := by simp [deletions, deleted?]
        omega
    · exact ⟨s, hs, Finset.Subset.refl _⟩

end Frame

/-! ### The programs -/

section Proof

variable [Platform]

/-- An operation that writes no pending record. -/
theorem guar_op {v : NodeView} {i : Slot} {o : Op} {a : o.Ans} {c : Choice} {w : World}
    (he : o.exec c v.world = some (a, w)) (ho : o.writesPending = false) :
    protocol.Guar i v (v.op i o a w) :=
  guar_frame i (exec_pending_eq he ho)

/-- A program that writes no pending record is safe and keeps what its
slot counts on. -/
theorem safe_frame {α : Type} {F : Footprint lang} {p : Proc α} {i : Slot} {v : NodeView}
    {A : NodeView → Prop} (hp : p.Within F) (hop : ∀ o, F.op o → o.writesPending = false)
    (stable : ∀ v v', KeepsBelow i v v' → A v → A v') (hv : A v) :
    protocol.Safe machine upToDate i p (fun _ v => A v) v := by
  have frame : ∀ v v' : NodeView, v'.world.store.pending = v.world.store.pending →
      A v → A v' := fun v v' hp h => stable v v' (fun _ _ _ h => h.frame hp) h
  refine Protocol.safe_footprint hp (fun v v' hi h => stable v v' hi.1 h) ?_ ?_ ?_ hv
  · intro v hv _ _ o ho c a w he _
    have hp := exec_pending_eq he (hop o ho)
    exact ⟨guar_frame i hp, frame v _ hp hv⟩
  · intro v hv _ _ t ht _ hg
    refine ⟨guar_frame i rfl, ?_, frame v _ rfl hv⟩
    intro r hr s hs
    subst hr
    exact hg.2 r rfl s hs
  · intro v hv _ _ j _ _ r _ _
    exact ⟨guar_frame i rfl, frame v _ rfl hv⟩

/-- A call stores a record without chunks, where none is pending. -/
theorem downloadFile_safe (n : Nat) (request : DownloadFileRequest) (v : NodeView) :
    protocol.Safe machine upToDate (.call n) (downloadFile request).run (fun _ _ => True) v := by
  have quiet : ∀ {α : Type} {p : Proc α} {v : NodeView}, p.Within (.ops PrepareOp) →
      protocol.Safe machine upToDate (.call n) p (fun _ _ => True) v := fun hp =>
    safe_frame hp (by rintro _ (⟨_ | _ | _⟩ | ⟨_ | _⟩ | _) <;> rfl) (fun _ _ _ _ => trivial)
      trivial
  refine Protocol.safe_seqE (quiet (storeOrInternal_within (.publishedFileExists _)))
    (fun published v _ => ?_) (fun _ _ _ => trivial)
  split
  · trivial
  refine Protocol.safe_seqE (quiet (storeOrInternal_within (.pendingDownloadExists _)))
    (fun pending v _ => ?_) (fun _ _ _ => trivial)
  split
  · trivial
  refine Protocol.safe_seqE (quiet (fetchMetadata_within request))
    (fun m v _ => ?_) (fun _ _ _ => trivial)
  refine Protocol.safe_seqE (Protocol.safe_ends (prepareDownload_ends _ m)
    (quiet (prepareDownload_within _ m))) (fun r v hr => ?_) (fun _ _ _ => trivial)
  have empty : r.downloadedChunks = ∅ := hr.1 r rfl
  intro v₁ _ _ _ c a w he hg
  obtain ⟨rfl, rfl⟩ | ⟨err, rfl, rfl⟩ := exec_store he
  · have free : v₁.world.store.pending[r.key]? = none := hg.1.2 (n, r) rfl
    refine ⟨guar_put rfl (fun _ _ _ => empty) fun s hs => ?_, trivial⟩
    rw [free] at hs
    cases hs
  · exact ⟨guar_frame _ rfl, trivial⟩

open FileDownloadService

/-- Recording a chunk: what is stored for the key stays below the record
the download carries along. -/
theorem recordChunk_safe {k : PublishedFileKey} {r : PendingDownloadRecord} (hk : r.key = k)
    (e : Option String) (result : Res) {v : NodeView} (hv : Below k r.downloadedChunks v) :
    protocol.Safe machine upToDate (.download k) (recordChunk r e result)
      (fun x v => x.1.key = k ∧ Below k x.1.downloadedChunks v) v := by
  unfold recordChunk
  split
  · next c =>
      split
      · exact ⟨hk, hv⟩
      · intro v₁ hi _ _ c' a w he _
        subst hk
        have below : Below r.key (r.insertChunk c).downloadedChunks v₁ := by
          intro s hs
          have hsub : s.downloadedChunks ⊆ r.downloadedChunks :=
            hi.1 r.key rfl r.downloadedChunks hv s hs
          exact hsub.trans (Finset.subset_insert c _)
        obtain ⟨rfl, rfl⟩ | ⟨err, rfl, rfl⟩ := exec_store he
        · refine ⟨guar_put rfl (fun j hj h => absurd h hj) below, rfl, fun s hs => ?_⟩
          replace hs : (v₁.world.store.pending.insert r.key (r.insertChunk c))[r.key]? = some s := hs
          rw [get_put, if_pos rfl] at hs
          cases hs
          exact Finset.Subset.refl _
        · exact ⟨guar_frame _ rfl, rfl, below⟩
  · exact ⟨hk, hv⟩
  · exact ⟨hk, hv⟩

/-- Joining the chunk tasks. The induction is on the tasks left; the
record grows along. -/
theorem joinChunks_safe {k : PublishedFileKey} (n : Nat) (js : List Slot)
    {r : PendingDownloadRecord} (hk : r.key = k) (e : Option String) {v : NodeView}
    (hv : Below k r.downloadedChunks v) :
    protocol.Safe machine upToDate (.download k) (joinChunks n js r e)
      (fun x v => x.1.key = k ∧ Below k x.1.downloadedChunks v) v := by
  induction n generalizing js r e v with
  | zero => exact ⟨hk, hv⟩
  | succ n ih =>
      intro v₁ hi _ _ j _ _ result _ _
      refine ⟨guar_frame _ rfl, ?_⟩
      have below : Below k r.downloadedChunks (v₁.await (L := lang) (.download k) j result) :=
        hi.1 k rfl r.downloadedChunks hv
      exact Protocol.safe_seq (recordChunk_safe hk e result below) fun x v hx => ih _ hx.1 _ hx.2

/-- What writes no pending record. -/
def quiet : Footprint lang := ⟨fun o => o.writesPending = false, fun _ => True, fun _ => True⟩

/-- A quiet program leaves the record of its download as large as it is. -/
theorem safe_quiet {α : Type} {p : Proc α} {k : PublishedFileKey} {cs : Finset Nat}
    {v : NodeView} (hp : p.Within quiet) (hv : Below k cs v) :
    protocol.Safe machine upToDate (.download k) p (fun _ v => Below k cs v) v :=
  safe_frame hp (fun _ h => h) (fun _ _ hk h => hk k rfl cs h) hv

/-- A download. -/
theorem download_safe {k : PublishedFileKey} {r : PendingDownloadRecord} (hk : r.key = k)
    {v : NodeView} (hv : Below k r.downloadedChunks v) :
    protocol.Safe machine upToDate (.download k) (download r) (fun x _ => x.2.key = k) v := by
  refine Protocol.safe_seq (safe_quiet (readMetadata_within rfl) hv) fun m v hv => ?_
  split
  · exact hk
  · have spawn : ∀ cs, (spawnChunks r cs).Within quiet := fun cs =>
      spawnChunks_within r cs fun _ _ _ => trivial
    refine Protocol.safe_seq (safe_quiet (spawn _) hv) fun js v hv => ?_
    refine Protocol.safe_seq (joinChunks_safe _ js hk none hv) fun (r', e) v hr => ?_
    cases e <;> exact hr.1

/-- Completing a download: the one thing it does to pending records is a
deletion. -/
theorem processCompleted_safe {i : Slot} (r : PendingDownloadRecord) (v : NodeView) :
    protocol.Safe machine upToDate i (processCompleted r).run (fun _ _ => True) v := by
  have frame : ∀ {α : Type} {p : Proc α} {v : NodeView} {O : Op → Prop}, p.Within (.ops O) →
      (∀ o, O o → o.writesPending = false) →
      protocol.Safe machine upToDate i p (fun _ _ => True) v := fun hp hO =>
    safe_frame hp hO (fun _ _ _ _ => trivial) trivial
  refine Protocol.safe_seqA (frame (restoreOriginalFile_within r)
    (by rintro _ (_ | _ | _ | ⟨_ | _⟩ | _) <;> rfl)) (fun m v _ => ?_) (fun _ _ _ => trivial)
  refine Protocol.safe_seqA (B := fun _ _ => True) ?_ (fun _ v _ => ?_) (fun _ _ _ => trivial)
  · intro v₁ _ _ _ c a w he _
    exact ⟨guar_op he rfl, trivial⟩
  refine Protocol.safe_seqA (B := fun _ _ => True) ?_ (fun _ v _ => ?_) (fun _ _ _ => trivial)
  · intro v₁ _ _ _ c a w he _
    obtain ⟨rfl, rfl⟩ | ⟨err, rfl, rfl⟩ := exec_store he
    · exact ⟨guar_delete rfl rfl, trivial⟩
    · exact ⟨guar_frame i rfl, trivial⟩
  refine Protocol.safe_seqL (B := fun _ _ => True) ?_ fun sent v _ => ?_
  · intro v₁ _ _ _ c a w he _
    exact ⟨guar_op (c := c) he rfl, trivial⟩
  · cases sent <;> trivial

/-- A download task. -/
theorem downloadTask_safe {r : PendingDownloadRecord} {v : NodeView}
    (hv : Below r.key r.downloadedChunks v) :
    protocol.Safe machine upToDate (.download r.key) (downloadTask r) (fun _ _ => True) v := by
  refine Protocol.safe_seq (download_safe rfl hv) fun (completed, r') v _ => ?_
  have remove : ∀ v, protocol.Safe machine upToDate (.download r.key)
      (sync (.removeActive r'.key) >>= fun _ => pure Res.unit) (fun _ _ => True) v := by
    intro v v₁ _ _ _ c a w he _
    exact ⟨guar_op (c := c) he rfl, trivial⟩
  dsimp only
  split
  · exact Protocol.safe_seq (processCompleted_safe r' v) fun _ v _ => remove v
  · exact remove v

/-- Every task keeps to the protocol. -/
theorem body_safe (t : Task) (v : NodeView) (hv : protocol.Pre t v) :
    protocol.Safe machine upToDate (slotOf t) (body t) (fun _ _ => True) v := by
  by_cases hc : ∃ n request, t = .downloadFile n request
  · obtain ⟨n, request, rfl⟩ := hc
    exact Protocol.safe_seq (downloadFile_safe n request v) fun _ _ _ => trivial
  by_cases hd : ∃ r, t = .download r
  · obtain ⟨r, rfl⟩ := hd
    exact downloadTask_safe (hv r rfl)
  refine safe_frame (body_within t) (fun o ho => ?_) (fun _ _ _ _ => trivial) trivial
  by_contra h
  obtain ⟨k, hk⟩ := Option.isSome_iff_exists.mp (Bool.eq_true_of_not_eq_false h)
  obtain h | ⟨r, hr, -⟩ := of_pendingKey ho hk
  · exact hc h
  · exact hd ⟨r, hr⟩

theorem valid : protocol.Valid machine upToDate where
  rely_refl _ _ _ _ _ h := h
  rely_trans _ _ _ _ h₁ h₂ k hk cs h := h₂ k hk cs (h₁ k hk cs h)
  guar_rely i j _ _ hij _ hG := hG.1 j hij.symm
  guar_inv _ _ _ _ _ := trivial
  post_stable _ _ _ _ _ _ := trivial
  start_rely _ _ _ _ _ _ _ _ _ h := h
  start_inv _ _ _ _ _ := trivial
  start_pre t v _ _ hg r ht := by
    subst ht
    have hext := hg.1.1.1
    cases hext
  exit_guar i _ _ _ _ _ _ := guar_frame i rfl
  crash_inv _ _ _ := trivial
  body_safe t v _ ht := body_safe t v ht

/-- In every run in which each download is started from a record with all
the chunks stored for its key, recorded chunks stay recorded. -/
theorem progress_kept {w : World} {p p' : NodePool} (h : Reach machine upToDate (.idle w) p)
    (h' : Reach machine upToDate p p') (k : PublishedFileKey) : KeepsProgress k p p' := by
  intro hd s hs
  let A : NodeView → Prop := fun v => deletions k p.hist ≤ deletions k v.hist ∧
    (deletions k v.hist = deletions k p.hist → ∃ s', v.world.store.pending[k]? = some s' ∧
      s.downloadedChunks ⊆ s'.downloadedChunks)
  have kept : A p'.view := by
    refine valid.keeps_of_reach trivial h h' ?_ (fun _ _ _ h => h) (fun _ _ h => ?_)
      ⟨Nat.le_refl _, fun _ => ⟨s, hs, Finset.Subset.refl _⟩⟩
    · intro i v v' hist hG hA
      have hle : deletions k v.hist ≤ deletions k v'.hist := deletions_le hist
      refine ⟨hA.1.trans hle, fun hd => ?_⟩
      have same : deletions k v.hist = deletions k p.hist := by
        have := hA.1
        omega
      obtain ⟨s₁, hs₁, hsub₁⟩ := hA.2 same
      obtain ⟨s₂, hs₂, hsub₂⟩ := hG.2 k (hd.trans same.symm) s₁ hs₁
      exact ⟨s₂, hs₂, hsub₁.trans hsub₂⟩
    · exact h
  exact kept.2 hd

end Proof

/-! ### An old record -/

section Example

open Reference

attribute [local instance] platform

/-- The key of that file. -/
def fileKey : PublishedFileKey := twoChunks.key

/-- The first download of the file has got chunk 0, and not chunk 1. -/
def halfDone : List (Move lang Choice) :=
  acceptOnly twoChunks ++ tickStream ++ tickStart ++ openDownload fileKey 2 ++
    askChunk fileKey 0 ++ askProvider 1 (.fileDownload (.response 0 (.success [7]))) ++
    saveChunk fileKey 0 ++ commandPass 2 ++ askChunk fileKey 1 ++ noProvider 2 ++
    missChunk fileKey 1

/-- The second tick makes its stream before chunk 0 is recorded. -/
def recorded : List (Move lang Choice) :=
  halfDone ++ tickStream ++ recordChunk fileKey 0

/-- When the first download has ended, the tick starts a second one from
the record of its stream. It gets chunk 1 and records it. -/
def fromOldRecord : List (Move lang Choice) :=
  endDownload fileKey 1 ++ tickStart ++ openDownload fileKey 2 ++
    askChunk fileKey 1 ++ askProvider 3 (.fileDownload (.response 1 (.success [8]))) ++
    saveChunk fileKey 1 ++ recordChunk fileKey 1

/-- Chunk 0 was recorded and is lost. -/
theorem progress_lost :
    ∃ p p', Reach machine downloading (.idle (emptyDir 2)) p ∧ Reach machine downloading p p' ∧
      ¬ KeepsProgress fileKey p p' :=
  exists_reaches_of_runScript recorded fromOldRecord (by decide +kernel)

/-- The first download ends before the second tick makes its stream. -/
def inTurn : List (Move lang Choice) :=
  halfDone ++ recordChunk fileKey 0 ++ endDownload fileKey 1

/-- The second download gets the missing chunk. -/
def fromNewRecord : List (Move lang Choice) :=
  tickStream ++ tickStart ++ openDownload fileKey 1 ++ askChunk fileKey 1 ++
    askProvider 3 (.fileDownload (.response 1 (.success [8]))) ++ saveChunk fileKey 1 ++
    recordChunk fileKey 1

/-- The chunks stored for the file. -/
def storedChunks (p : NodePool) : Option (Finset Nat) :=
  (p.world.store.pending[fileKey]?).map PendingDownloadRecord.downloadedChunks

/-- A second download started from the stored record adds to it. -/
theorem progress_kept_inTurn :
    ∃ p p', Reach machine upToDate (.idle (emptyDir 2)) p ∧ Reach machine upToDate p p' ∧
      storedChunks p = some {0} ∧ storedChunks p' = some {0, 1} ∧ KeepsProgress fileKey p p' := by
  have run : ∃ p p', Reach machine upToDate (.idle (emptyDir 2)) p ∧ Reach machine upToDate p p' ∧
      storedChunks p = some {0} ∧ storedChunks p' = some {0, 1} :=
    exists_reaches_of_runScript inTurn fromNewRecord (by decide +kernel)
  obtain ⟨p, p', h, h', hs, hs'⟩ := run
  exact ⟨p, p', h, h', hs, hs', progress_kept h h' fileKey⟩

end Example

end RustDfs.Progress
