import RustDfs.Model.Reference
import RustDfs.Proofs.Calls

/-!
# `RustDfs.Proofs.Completed`: a completed download stays completed

A download that has all its chunks publishes its file and deletes its
pending record. A tick whose stream was made before the deletion still
holds the record, and starts another download from it once the first one
has left the active downloads. That download asks for chunks again and
stores the record again (`resurrected`).

`completed_stays` is the other side: in the runs in which downloads of a
key are started only while a record of the key is pending, its pending
record is gone for good after the deletion and no chunk of the file is
asked for any more.

The invariant `Gone` ties the deletion to the chunk tasks: they live only
as long as their download does, and the download deletes the record when
it has waited for all of them (`Waiting`).
-/

set_option autoImplicit false

namespace RustDfs.Completed

open Lib Conc Std

/-- A chunk task asking the event loop for its chunk. -/
def requested? : NodeEvent → Option FileChunkRequest
  | .op _ (.chan (.sendCommand (.requestFileChunk request _))) (.ok _) => some request
  | _ => none

/-- The chunks of `k` that were asked for after its record was deleted. -/
def lateRequests (k : PublishedFileKey) : List NodeEvent → List FileChunkRequest
  | [] => []
  | e :: h =>
      match requested? e with
      | some request =>
          if request.fileId = k.toU64 ∧ deletions k h ≠ 0 then request :: lateRequests k h
          else lateRequests k h
      | none => lateRequests k h

/-- What holds of a completed download of `k`.
- `gone`: once its record was deleted, none is pending for `k`,
- `quiet`: no chunk of `k` was asked for after that. -/
structure StaysCompleted (k : PublishedFileKey) (v : NodeView) : Prop where
  gone : deletions k v.hist ≠ 0 → v.world.store.pending[k]? = none
  quiet : lateRequests k v.hist = []

theorem staysCompleted_iff (k : PublishedFileKey) (v : NodeView) :
    StaysCompleted k v ↔ (deletions k v.hist ≠ 0 → v.world.store.pending[k]? = none) ∧
      lateRequests k v.hist = [] :=
  ⟨fun h => ⟨h.gone, h.quiet⟩, fun h => ⟨h.1, h.2⟩⟩

instance (k : PublishedFileKey) (v : NodeView) : Decidable (StaysCompleted k v) :=
  decidable_of_iff' _ (staysCompleted_iff k v)

/-- The runs in which a download of `k` is accepted once: a call stores a
record for `k` only when no call has stored one before. -/
def acceptedOnce (k : PublishedFileKey) : NodeGuard := fun v e =>
  environment v e ∧ ∀ x ∈ stored? e, x.2.key = k → storedBy k v.hist = []

/-- A download of `k` is started only while `k` is pending. -/
def StillPending (k : PublishedFileKey) (v : NodeView) (e : NodeEvent) : Prop :=
  ∀ r ∈ started? e, r.key = k → v.world.store.pending[k]? ≠ none

/-- The guard of the runs in which `k` stays completed: a download of `k` is
accepted once, and its task is started only while `k` is pending. -/
def stillPending (k : PublishedFileKey) : NodeGuard := fun v e =>
  acceptedOnce k v e ∧ StillPending k v e

instance (k : PublishedFileKey) (v : NodeView) (e : NodeEvent) :
    Decidable (acceptedOnce k v e) :=
  inferInstanceAs (Decidable (_ ∧ ∀ x ∈ stored? e, _))

instance (k : PublishedFileKey) (v : NodeView) (e : NodeEvent) :
    Decidable (stillPending k v e) :=
  inferInstanceAs (Decidable (_ ∧ ∀ r ∈ started? e, _))

variable {k : PublishedFileKey}

/-! ### The protocol -/

/-- The invariant. -/
structure Gone (k : PublishedFileKey) (v : NodeView) : Prop where
  /-- What is pending was accepted. -/
  origin : v.world.store.pending[k]? ≠ none → storedBy k v.hist ≠ []
  /-- What was deleted was accepted, is not pending, and nothing works on
  it any more. -/
  accepted : deletions k v.hist ≠ 0 → storedBy k v.hist ≠ []
  gone : deletions k v.hist ≠ 0 → v.world.store.pending[k]? = none
  idle : deletions k v.hist ≠ 0 → ∀ c, v.live (.chunk k.toU64 c) = false
  /-- A chunk task lives only while its download does. -/
  owner : ∀ c, v.live (.chunk k.toU64 c) = true → v.live (.download k) = true
  /-- No chunk was asked for after the deletion. -/
  quiet : lateRequests k v.hist = []

/-- What the download of `k` counts on: nobody else deletes its record or
starts its chunk tasks. -/
def Alone (k : PublishedFileKey) (i : Slot) (v v' : NodeView) : Prop :=
  i = .download k → deletions k v'.hist = deletions k v.hist ∧
    (storedBy k v.hist ≠ [] → storedBy k v'.hist ≠ []) ∧
    ∀ c, v'.live (.chunk k.toU64 c) = true → v.live (.chunk k.toU64 c) = true

/-- What the download of `k` knows while it waits for the slots `js`. -/
structure Waiting (k : PublishedFileKey) (js : List Slot) (v : NodeView) : Prop where
  pending : deletions k v.hist = 0
  accepted : storedBy k v.hist ≠ []
  among : ∀ c, v.live (.chunk k.toU64 c) = true → .chunk k.toU64 c ∈ js

/-- The protocol of a download that completes. -/
def protocol (k : PublishedFileKey) : Protocol lang World :=
  .ofRely (Gone k) (Alone k)
    (fun t v => ∀ r, t = .download r → r.key = k → Waiting k [] v)
    (fun i _ v => i = .download k → ∀ c, v.live (.chunk k.toU64 c) = false)

theorem Waiting.stable {js : List Slot} {v v' : NodeView} (h : Waiting k js v)
    (ha : Alone k (.download k) v v') : Waiting k js v' where
  pending := (ha rfl).1.trans h.pending
  accepted := (ha rfl).2.1 h.accepted
  among c hc := h.among c ((ha rfl).2.2 c hc)

/-! ### Events -/

theorem storedBy_ne_nil {e : NodeEvent} {h : List NodeEvent} (hs : storedBy k h ≠ []) :
    storedBy k (e :: h) ≠ [] := by
  obtain ⟨n, hn⟩ := List.exists_mem_of_ne_nil _ hs
  exact List.ne_nil_of_mem (mem_storedBy_cons hn e)

theorem deletions_cons_of_ne {e : NodeEvent} (he : deleted? e ≠ some k) (h : List NodeEvent) :
    deletions k (e :: h) = deletions k h := by
  unfold deletions
  rw [List.filterMap_cons]
  cases hd : deleted? e with
  | none => rfl
  | some k' =>
      rw [List.count_cons_of_ne]
      intro hk
      exact he (hd.trans (congrArg some hk))

/-- Nothing is asked for by an event that asks for no chunk of `k`, or
when nothing was deleted. -/
theorem lateRequests_cons {e : NodeEvent} {h : List NodeEvent} (hq : lateRequests k h = [])
    (he : ∀ request, requested? e = some request → request.fileId = k.toU64 →
      deletions k h = 0) : lateRequests k (e :: h) = [] := by
  unfold lateRequests
  split
  · next request hr =>
      rw [if_neg]
      · exact hq
      · rintro ⟨hid, hd⟩
        exact hd (he request hr hid)
  · exact hq

theorem pendingKey_of_deleted {i : Slot} {o : Op} {a : o.Ans}
    (h : deleted? (.op (L := lang) i o a) = some k) : o.pendingKey = some k := by
  unfold deleted? at h
  split at h
  · next heq =>
      cases heq
      exact h
  · cases h

theorem requestedFile_of_requested {i : Slot} {o : Op} {a : o.Ans} {request : FileChunkRequest}
    (h : requested? (.op (L := lang) i o a) = some request) :
    o.requestedFile = some request.fileId := by
  unfold requested? at h
  split at h
  · next heq =>
      cases heq
      cases h
      rfl
  · cases h

/-- An event that deletes nothing of `k`, asks for none of its chunks and
starts none of its chunk tasks is within the guarantee of every slot. -/
theorem guar_frame {i : Slot} {v v' : NodeView} {e : NodeEvent} (hv : Gone k v)
    (hh : v'.hist = e :: v.hist)
    (hp : v'.world.store.pending[k]? = v.world.store.pending[k]?)
    (hd : deleted? e ≠ some k)
    (hr : ∀ request, requested? e = some request → request.fileId = k.toU64 →
      deletions k v.hist = 0)
    (hl : ∀ c, v'.live (.chunk k.toU64 c) = true → v.live (.chunk k.toU64 c) = true)
    (ho : ∀ c, v'.live (.chunk k.toU64 c) = true → v.live (.download k) = true →
      v'.live (.download k) = true) :
    (protocol k).Guar i v v' := by
  have same : deletions k v'.hist = deletions k v.hist := by
    rw [hh]
    exact deletions_cons_of_ne hd v.hist
  have stored : storedBy k v.hist ≠ [] → storedBy k v'.hist ≠ [] := by
    rw [hh]
    exact storedBy_ne_nil
  refine ⟨⟨fun h => ?_, fun h => ?_, fun h => ?_, fun h c => ?_, fun c hc => ?_, ?_⟩, ?_⟩
  · rw [hp] at h
    exact stored (hv.origin h)
  · rw [same] at h
    exact stored (hv.accepted h)
  · rw [same] at h
    rw [hp]
    exact hv.gone h
  · rw [same] at h
    by_contra hc
    have := hl c (Bool.eq_true_of_not_eq_false hc)
    rw [hv.idle h c] at this
    cases this
  · exact ho c hc (hv.owner c (hl c hc))
  · rw [hh]
    exact lateRequests_cons hv.quiet hr
  · exact fun _ _ _ => ⟨same, stored, hl⟩

section Proof

variable [Platform]

/-- An operation that changes no pending record of `k` and asks for one
of its chunks only before the deletion. -/
theorem guar_op {i : Slot} {v : NodeView} {o : Op} {a : o.Ans} {c : Choice} {w : World}
    (hv : Gone k v) (he : o.exec c v.world = some (a, w)) (ho : o.pendingKey ≠ some k)
    (hr : o.requestedFile = some k.toU64 → deletions k v.hist = 0) :
    (protocol k).Guar i v (v.op i o a w) := by
  refine guar_frame hv rfl (exec_pending_get he ho) (fun h => ho (pendingKey_of_deleted h)) ?_
    (fun _ h => h) (fun _ _ h => h)
  intro request hreq hid
  exact hr ((requestedFile_of_requested hreq).trans (congrArg some hid))

omit [Platform] in
/-- Another slot, `j`, becomes occupied. -/
theorem guar_occupy {i j : Slot} {v v' : NodeView} {e : NodeEvent} (hv : Gone k v)
    (hh : v'.hist = e :: v.hist) (hw : v'.world = v.world)
    (hl : v'.live = Function.update v.live j true)
    (hd : deleted? e = none) (hr : requested? e = none) (hj : ∀ c, j ≠ .chunk k.toU64 c) :
    (protocol k).Guar i v v' := by
  refine guar_frame hv hh (by rw [hw]) (by rw [hd]; nofun) (by rw [hr]; nofun)
    (fun c hc => ?_) (fun _ _ h => ?_)
  · rwa [hl, Function.update_of_ne (hj c).symm] at hc
  · rw [hl]
    by_cases hjk : .download k = j
    · rw [hjk, Function.update_self]
    · rwa [Function.update_of_ne hjk]

omit [Platform] in
/-- Slot `j`, which is not the download of `k`, becomes free. -/
theorem guar_free {i j : Slot} {v v' : NodeView} {e : NodeEvent} (hv : Gone k v)
    (hh : v'.hist = e :: v.hist) (hw : v'.world = v.world)
    (hl : v'.live = Function.update v.live j false)
    (hd : deleted? e = none) (hr : requested? e = none) (hj : j ≠ .download k) :
    (protocol k).Guar i v v' := by
  refine guar_frame hv hh (by rw [hw]) (by rw [hd]; nofun) (by rw [hr]; nofun)
    (fun c hc => ?_) (fun _ _ h => ?_)
  · rw [hl] at hc
    by_cases hjc : .chunk k.toU64 c = j
    · rw [hjc, Function.update_self] at hc
      cases hc
    · rwa [Function.update_of_ne hjc] at hc
  · rw [hl, Function.update_of_ne hj.symm]
    exact h

/-! ### The programs of other files -/

/-- A program that has nothing to do with `k`, or asks for its chunks
from one of its chunk slots. -/
theorem safe_foreign {α : Type} {F : Footprint lang} {p : Proc α} {i : Slot} {v : NodeView}
    (hp : p.Within F) (hop : ∀ o, F.op o → o.pendingKey ≠ some k)
    (hreq : ∀ o, F.op o → o.requestedFile = some k.toU64 → ∃ c, i = .chunk k.toU64 c)
    (hsp : ∀ t, F.spawn t → ∀ c, slotOf t ≠ .chunk k.toU64 c)
    (haw : ∀ j, F.await j → j ≠ .download k) :
    (protocol k).Safe machine (stillPending k) i p (fun _ _ => True) v := by
  refine Protocol.safe_footprint hp (fun _ _ _ _ => trivial) ?_ ?_ ?_ trivial
  · intro v _ hinv hl o ho c a w he _
    refine ⟨guar_op hinv he (hop o ho) fun hreq' => ?_, trivial⟩
    obtain ⟨c, rfl⟩ := hreq o ho hreq'
    by_contra hd
    have := hinv.idle hd c
    rw [hl] at this
    cases this
  · intro v _ hinv _ t ht hf hg
    refine ⟨guar_occupy hinv rfl rfl rfl rfl rfl (hsp t ht), ?_, trivial⟩
    rintro r rfl rfl
    -- The guard says the record is pending, so it was accepted and not deleted.
    have pending : v.world.store.pending[r.key]? ≠ none := hg.2 r rfl rfl
    refine ⟨?_, storedBy_ne_nil (hinv.origin pending), fun c hc => ?_⟩
    · by_contra hd
      exact pending (hinv.gone hd)
    · have hc' : v.live (.chunk r.key.toU64 c) = true := hc
      have := hinv.owner c hc'
      rw [show v.live (.download r.key) = false from hf] at this
      cases this
  · intro v _ hinv _ j hj _ r _ _
    exact ⟨guar_free hinv rfl rfl rfl rfl rfl (haw j hj), trivial⟩

/-! ### The calls -/

/-- A call stores its record only when none of its key was stored, so
nothing was deleted yet. -/
theorem guar_put {n : Nat} {r : PendingDownloadRecord} {v : NodeView} (hv : Gone k v)
    (hg : ∀ x ∈ stored? (.op (L := lang) (.call n) (.store (.putPendingDownload r)) (.ok ())),
      x.2.key = k → storedBy k v.hist = []) :
    (protocol k).Guar (.call n) v
      (v.op (L := lang) (.call n) (.store (.putPendingDownload r)) (.ok ())
        { v.world with store := (StoreOp.run v.world.store (.putPendingDownload r)).2 }) := by
  by_cases hk : r.key = k
  · have free : deletions k v.hist = 0 := by
      by_contra hd
      exact hv.accepted hd (hg (n, r) rfl hk)
    have now : storedBy k (.op (L := lang) (.call n) (.store (.putPendingDownload r)) (.ok ()) ::
        v.hist) = n :: storedBy k v.hist := if_pos hk
    refine ⟨⟨fun _ => ?_, fun _ => ?_, fun h => absurd free h, fun h => absurd free h,
      hv.owner, hv.quiet⟩, fun _ _ _ => ⟨rfl, storedBy_ne_nil, fun _ h => h⟩⟩
    · show storedBy k (_ :: v.hist) ≠ []
      rw [now]
      exact List.cons_ne_nil _ _
    · show storedBy k (_ :: v.hist) ≠ []
      rw [now]
      exact List.cons_ne_nil _ _
  · have run : Op.exec (.store (.putPendingDownload r)) .ok v.world = some (.ok (),
        { v.world with store := (StoreOp.run v.world.store (.putPendingDownload r)).2 }) := rfl
    exact guar_op hv run (fun h => hk (Option.some.inj h)) nofun

theorem downloadFile_safe (n : Nat) (request : DownloadFileRequest) (v : NodeView) :
    (protocol k).Safe machine (stillPending k) (.call n) (downloadFile request).run
      (fun _ _ => True) v := by
  have foreign : ∀ {α : Type} {p : Proc α} {v : NodeView}, p.Within (.ops PrepareOp) →
      (protocol k).Safe machine (stillPending k) (.call n) p (fun _ _ => True) v := fun hp =>
    safe_foreign hp (by rintro _ (⟨_ | _ | _⟩ | ⟨_ | _⟩ | _) <;> nofun)
      (by rintro _ (⟨_ | _ | _⟩ | ⟨_ | _⟩ | _) <;> nofun) (fun _ h => h.elim) (fun _ h => h.elim)
  refine Protocol.safe_seqE (foreign (storeOrInternal_within (.publishedFileExists _)))
    (fun published v _ => ?_) (fun _ _ _ => trivial)
  split
  · trivial
  refine Protocol.safe_seqE (foreign (storeOrInternal_within (.pendingDownloadExists _)))
    (fun pending v _ => ?_) (fun _ _ _ => trivial)
  split
  · trivial
  refine Protocol.safe_seqE (foreign (fetchMetadata_within request))
    (fun m v _ => ?_) (fun _ _ _ => trivial)
  refine Protocol.safe_seqE (foreign (prepareDownload_within _ m))
    (fun r v _ => ?_) (fun _ _ _ => trivial)
  intro v₁ _ hinv _ c a w he hg
  obtain ⟨rfl, rfl⟩ | ⟨err, rfl, rfl⟩ := exec_store he
  · exact ⟨guar_put hinv hg.1.2, trivial⟩
  · refine ⟨guar_frame hinv rfl rfl ?_ ?_ (fun _ h => h) (fun _ _ h => h), trivial⟩
    · nofun
    · nofun

/-! ### The download of `k` -/

open FileDownloadService

/-- A program of the download that leaves its record alone keeps what the
download knows. -/
theorem safe_waiting {α : Type} {O : Op → Prop} {p : Proc α} {v : NodeView} {js : List Slot}
    (hp : p.Within (.ops O)) (hop : ∀ o, O o → o.pendingKey ≠ some k)
    (hreq : ∀ o, O o → o.requestedFile = none) (hv : Waiting k js v) :
    (protocol k).Safe machine (stillPending k) (.download k) p (fun _ v => Waiting k js v) v := by
  refine Protocol.safe_within hp (fun _ _ hi h => h.stable hi.1)
    (fun v hv hinv _ o ho c a w he _ => ?_) hv
  refine ⟨guar_op hinv he (hop o ho) (by rw [hreq o ho]; nofun), ?_, storedBy_ne_nil hv.accepted,
    hv.among⟩
  show deletions k (_ :: v.hist) = 0
  rw [deletions_cons_of_ne fun h => hop o ho (pendingKey_of_deleted h)]
  exact hv.pending

/-- The download starts its chunk tasks. The induction is on the chunks;
the slots started so far grow along. -/
theorem spawnChunks_safe {r : PendingDownloadRecord} (hk : r.key = k) (cs : List Nat)
    {js : List Slot} {v : NodeView} (hv : Waiting k js v) :
    (protocol k).Safe machine (stillPending k) (.download k) (spawnChunks r cs)
      (fun js' v => Waiting k (js ++ js') v) v := by
  induction cs generalizing js v with
  | nil =>
      rw [← List.append_nil js] at hv
      exact hv
  | cons c cs ih =>
      unfold spawnChunks
      split
      · exact ih hv
      · intro v₁ hi hinv hl _ _
        have waiting : Waiting k js v₁ := hv.stable hi.1
        subst hk
        have grown : Waiting r.key (js ++ [.chunk r.key.toU64 c])
            (v₁.spawn (L := lang) (.download r.key) (.chunk ⟨r.key.toU64, c, r.chunksDir⟩)
              (.chunk r.key.toU64 c)) := by
          refine ⟨waiting.pending, storedBy_ne_nil waiting.accepted, fun c' hc' => ?_⟩
          by_cases hc : c' = c
          · subst hc
            exact List.mem_append_right _ List.mem_cons_self
          · have live : v₁.live (.chunk r.key.toU64 c') = true := by
              rwa [show (v₁.spawn (L := lang) _ _ _).live = Function.update v₁.live
                (.chunk r.key.toU64 c) true from rfl, Function.update_of_ne (by simp [hc])] at hc'
            exact List.mem_append_left _ (waiting.among c' live)
        have running : Function.update v₁.live (.chunk r.key.toU64 c) true (.download r.key) = true := by
          have ne : Slot.download r.key ≠ .chunk r.key.toU64 c := by simp
          rw [Function.update_of_ne ne]
          exact hl
        refine ⟨⟨⟨fun h => storedBy_ne_nil (hinv.origin h), fun h => absurd waiting.pending h,
          fun h => absurd waiting.pending h, fun h => absurd waiting.pending h,
          fun _ _ => running, hinv.quiet⟩, fun j hj h => absurd h hj⟩, (by intro k h; cases h), ?_⟩
        show (protocol r.key).Safe machine _ _ (spawnChunks r cs >>= _) _ _
        refine Protocol.safe_seq (ih grown) fun js' v hv => ?_
        rw [List.append_assoc] at hv
        exact hv

/-- The download records a chunk. -/
theorem recordChunk_safe {r : PendingDownloadRecord} (hk : r.key = k) (e : Option String)
    (result : Res) {js : List Slot} {v : NodeView} (hv : Waiting k js v) :
    (protocol k).Safe machine (stillPending k) (.download k) (recordChunk r e result)
      (fun x v => x.1.key = k ∧ Waiting k js v) v := by
  unfold recordChunk
  split
  · next c =>
      split
      · exact ⟨hk, hv⟩
      · intro v₁ hi hinv _ c' a w he _
        have waiting : Waiting k js v₁ := hv.stable hi.1
        obtain ⟨rfl, rfl⟩ | ⟨err, rfl, rfl⟩ := exec_store he
        · have kept : storedBy k v₁.hist ≠ [] := waiting.accepted
          exact ⟨⟨⟨fun _ => kept, fun h => absurd waiting.pending h,
            fun h => absurd waiting.pending h, fun h => absurd waiting.pending h, hinv.owner,
            hinv.quiet⟩, fun j hj h => absurd h hj⟩, hk, waiting.pending, kept, waiting.among⟩
        · refine ⟨guar_frame hinv rfl rfl nofun nofun (fun _ h => h) (fun _ _ h => h), hk, ?_⟩
          exact ⟨waiting.pending, waiting.accepted, waiting.among⟩
  · exact ⟨hk, hv⟩
  · exact ⟨hk, hv⟩

/-- The download waits for its chunk tasks. The induction is on the tasks
left; when none is left, none is live. -/
theorem joinChunks_safe (n : Nat) {js : List Slot} (hn : js.length = n)
    (hjs : ∀ j ∈ js, ∃ c, j = .chunk k.toU64 c) {r : PendingDownloadRecord} (hk : r.key = k)
    (e : Option String) {v : NodeView} (hv : Waiting k js v) :
    (protocol k).Safe machine (stillPending k) (.download k) (joinChunks n js r e)
      (fun x v => x.1.key = k ∧ Waiting k [] v) v := by
  induction n generalizing js r e v with
  | zero =>
      rw [List.length_eq_zero_iff.mp hn] at hv
      exact ⟨hk, hv⟩
  | succ n ih =>
      intro v₁ hi hinv _ j hj _ result _ _
      have waiting : Waiting k js v₁ := hv.stable hi.1
      obtain ⟨c, rfl⟩ := hjs j hj
      refine ⟨guar_free hinv rfl rfl rfl rfl rfl nofun, ?_⟩
      have fewer : Waiting k (js.erase (.chunk k.toU64 c))
          (v₁.await (L := lang) (.download k) (.chunk k.toU64 c) result) := by
        refine ⟨waiting.pending, storedBy_ne_nil waiting.accepted, fun c' hc' => ?_⟩
        replace hc' : Function.update v₁.live (.chunk k.toU64 c) false (.chunk k.toU64 c') = true :=
          hc'
        by_cases hc : c' = c
        · subst hc
          rw [Function.update_self] at hc'
          cases hc'
        · have ne : Slot.chunk k.toU64 c' ≠ .chunk k.toU64 c := by simp [hc]
          rw [Function.update_of_ne ne] at hc'
          exact (List.mem_erase_of_ne ne).mpr (waiting.among c' hc')
      have length : (js.erase (.chunk k.toU64 c)).length = n := by
        rw [List.length_erase_of_mem hj, hn]
        rfl
      refine Protocol.safe_seq (recordChunk_safe hk e result fewer) fun x v hx => ?_
      exact ih length (fun j hj => hjs j (List.mem_of_mem_erase hj)) hx.1 _ hx.2

/-- A download: at its end no chunk task is live. -/
theorem download_safe {r : PendingDownloadRecord} (hk : r.key = k) {v : NodeView}
    (hv : Waiting k [] v) :
    (protocol k).Safe machine (stillPending k) (.download k) (download r)
      (fun x v => x.2.key = k ∧ Waiting k [] v) v := by
  have read : (readMetadata r.chunksDir).run.Within
      (.ops fun o => o = Op.fs (.read (metadataPath r.chunksDir))) := readMetadata_within rfl
  refine Protocol.safe_seq (safe_waiting read (by rintro _ rfl; nofun) (by rintro _ rfl; rfl) hv)
    fun m v hv => ?_
  split
  · exact ⟨hk, hv⟩
  · refine Protocol.safe_seq (Protocol.safe_ends (spawnChunks_ends r _)
      (spawnChunks_safe hk _ hv)) fun js v hjs => ?_
    obtain ⟨slots, hv⟩ := hjs
    rw [hk] at slots
    refine Protocol.safe_seq (joinChunks_safe js.length rfl slots hk none hv) fun (r', e) v hr => ?_
    cases e <;> exact hr

/-- Nothing works on the chunks of `k`. -/
def Idle (k : PublishedFileKey) (v : NodeView) : Prop := ∀ c, v.live (.chunk k.toU64 c) = false

omit [Platform] in
theorem Waiting.idle {v : NodeView} (h : Waiting k [] v) : Idle k v := by
  intro c
  by_contra hc
  exact List.not_mem_nil (h.among c (Bool.eq_true_of_not_eq_false hc))

omit [Platform] in
theorem Idle.stable {v v' : NodeView} (h : Idle k v) (ha : Alone k (.download k) v v') :
    Idle k v' := by
  intro c
  by_contra hc
  have := (ha rfl).2.2 c (Bool.eq_true_of_not_eq_false hc)
  rw [h c] at this
  cases this

/-- One more operation of the download, after its chunk tasks. -/
theorem safe_idle {α : Type} {o : Op} {f : o.Ans → α} {v : NodeView}
    (ho : o.pendingKey = none) (hr : o.requestedFile = none) (hv : Idle k v) :
    (protocol k).Safe machine (stillPending k) (.download k)
      (Prog.op (L := lang) o fun a => .ret (f a)) (fun _ v => Idle k v) v := by
  intro v₁ hi hinv _ c a w he _
  have idle : Idle k v₁ := hv.stable hi.1
  exact ⟨guar_op hinv he (by rw [ho]; nofun) (by rw [hr]; nofun), idle⟩

/-- Deleting the record when no chunk task is live any more. -/
theorem deletePendingDownload_safe {v : NodeView} (hv : Waiting k [] v) :
    (protocol k).Safe machine (stillPending k) (.download k)
      (store (.deletePendingDownload k)).run (fun _ v => Idle k v) v := by
  intro v₁ hi hinv _ c a w he _
  have waiting : Waiting k [] v₁ := hv.stable hi.1
  obtain ⟨rfl, rfl⟩ | ⟨err, rfl, rfl⟩ := exec_store he
  · have gone : (v₁.world.store.pending.erase k)[k]? = none := by
      rw [get_delete, if_pos rfl]
    have kept : ∀ e, storedBy k (e :: v₁.hist) ≠ [] := fun e => storedBy_ne_nil waiting.accepted
    exact ⟨⟨⟨fun _ => kept _, fun _ => kept _, fun _ => gone, fun _ => waiting.idle, hinv.owner,
      lateRequests_cons hinv.quiet nofun⟩, fun j hj h => absurd h hj⟩, waiting.idle⟩
  · exact ⟨guar_frame hinv rfl rfl nofun nofun (fun _ h => h) (fun _ _ h => h), waiting.idle⟩

/-- Completing the download. -/
theorem processCompleted_safe {r : PendingDownloadRecord} (hk : r.key = k) {v : NodeView}
    (hv : Waiting k [] v) :
    (protocol k).Safe machine (stillPending k) (.download k) (processCompleted r).run
      (fun _ v => Idle k v) v := by
  refine Protocol.safe_seqA (safe_waiting (restoreOriginalFile_within r)
    (by rintro _ (_ | _ | _ | ⟨_ | _⟩ | _) <;> nofun)
    (by rintro _ (_ | _ | _ | ⟨_ | _⟩ | _) <;> rfl) hv)
    (fun m v hv => ?_) (fun _ _ hv => hv.idle)
  have put : ∀ record : PublishedFileRecord, (store (.putPublishedFile record)).run.Within
      (.ops fun o => o = Op.store (.putPublishedFile record)) := fun _ => store_within rfl
  refine Protocol.safe_seqA (safe_waiting (put _) (by rintro _ rfl; nofun)
    (by rintro _ rfl; rfl) hv) (fun _ v hv => ?_) (fun _ _ hv => hv.idle)
  subst hk
  refine Protocol.safe_seqA (deletePendingDownload_safe hv) (fun _ v hv => ?_)
    (fun _ _ hv => hv)
  refine Protocol.safe_seqL (safe_idle rfl rfl hv) fun sent v hv => ?_
  cases sent <;> exact hv

/-- The download task of `k`. -/
theorem downloadTask_safe {r : PendingDownloadRecord} (hk : r.key = k) {v : NodeView}
    (hv : Waiting k [] v) :
    (protocol k).Safe machine (stillPending k) (.download k) (downloadTask r)
      (fun _ v => Idle k v) v := by
  refine Protocol.safe_seq (download_safe hk hv) fun (completed, r') v hr => ?_
  obtain ⟨hk', hv⟩ := hr
  dsimp only
  split
  · exact Protocol.safe_seq (processCompleted_safe hk' hv) fun _ v hv => safe_idle rfl rfl hv
  · exact safe_idle rfl rfl hv.idle

/-! ### The runs of the node -/

/-- A task other than the download of `k`. -/
theorem other_safe {t : Task} (hd : ¬ ∃ r, t = .download r ∧ r.key = k) (v : NodeView) :
    (protocol k).Safe machine (stillPending k) (slotOf t) (body t) (fun _ _ => True) v := by
  by_cases hc : ∃ n request, t = .downloadFile n request
  · obtain ⟨n, request, rfl⟩ := hc
    exact Protocol.safe_seq (downloadFile_safe n request v) fun _ _ _ => trivial
  refine safe_foreign (body_within t) (fun o ho h => ?_) (fun o ho h => ?_) (fun t' ht' c h => ?_)
    fun j hj h => ?_
  · obtain h | h := of_pendingKey ho h
    · exact hc h
    · exact hd h
  · obtain ⟨d, rfl, hid⟩ := of_requestedFile ho h
    exact ⟨d.chunkId, by rw [← hid]; rfl⟩
  · obtain ⟨r, rfl⟩ | ⟨r, rfl, c', dir, rfl⟩ := of_spawn ht'
    · cases h
    · obtain ⟨same, -⟩ := Slot.chunk.inj h
      exact hd ⟨r, rfl, Octets.toU64_inj.mp same⟩
  · obtain ⟨r, rfl, c, rfl⟩ := of_await hj
    cases h

/-- Every task keeps to the protocol. -/
theorem body_safe (t : Task) (v : NodeView) (hv : (protocol k).Pre t v) :
    (protocol k).Safe machine (stillPending k) (slotOf t) (body t)
      ((protocol k).Post (slotOf t)) v := by
  by_cases hd : ∃ r, t = .download r ∧ r.key = k
  · obtain ⟨r, rfl, rfl⟩ := hd
    exact Protocol.safe_mono (fun _ _ h _ => h) (downloadTask_safe rfl (hv r rfl rfl))
  · refine Protocol.safe_mono (fun _ _ _ h => ?_) (other_safe hd v)
    cases t <;> cases h
    exact absurd ⟨_, rfl, rfl⟩ hd

omit [Platform] in
/-- Starting an external task starts no chunk task. -/
theorem start_guar {v : NodeView} {t : Task} (hv : Gone k v) (ht : t.external = true) (j : Slot) :
    Gone k (v.start t (slotOf t)) ∧ Alone k j v (v.start t (slotOf t)) := by
  have slot : ∀ c, slotOf t ≠ .chunk k.toU64 c := by
    intro c h
    cases t <;> first | cases h | cases ht
  have guar : (protocol k).Guar (.eventLoop) v (v.start t (slotOf t)) :=
    guar_occupy hv rfl rfl rfl rfl rfl slot
  refine ⟨guar.1, fun hj => ?_⟩
  exact guar.2 (.download k) nofun rfl

omit [Platform] in
/-- A slot whose program leaves. When it is the download of `k`, no chunk
task is live. -/
theorem exit_guar {v : NodeView} {i : Slot} {r : Res} (hv : Gone k v)
    (hp : (protocol k).Post i r v) : (protocol k).Guar i v (v.exit i r) := by
  by_cases hi : i = .download k
  · subst hi
    have idle : ∀ c, Function.update v.live (.download k) false (.chunk k.toU64 c) = false := by
      intro c
      have ne : Slot.chunk k.toU64 c ≠ .download k := nofun
      rw [Function.update_of_ne ne]
      exact hp rfl c
    refine ⟨⟨fun h => storedBy_ne_nil (hv.origin h), fun h => storedBy_ne_nil (hv.accepted h),
      hv.gone, fun _ => idle, fun c hc => ?_, hv.quiet⟩, fun j hj h => absurd h hj⟩
    rw [show (v.exit (L := lang) (.download k) r).live (.chunk k.toU64 c) = false from idle c] at hc
    cases hc
  · exact guar_free hv rfl rfl rfl rfl rfl hi

theorem valid : (protocol k).Valid machine (stillPending k) where
  rely_refl _ _ _ := ⟨rfl, fun h => h, fun _ h => h⟩
  rely_trans _ _ _ _ h₁ h₂ hi :=
    ⟨(h₂ hi).1.trans (h₁ hi).1, fun h => (h₂ hi).2.1 ((h₁ hi).2.1 h),
      fun c h => (h₁ hi).2.2 c ((h₂ hi).2.2 c h)⟩
  guar_rely i j _ _ hij _ hG := hG.2 j hij.symm
  guar_inv _ _ _ _ hG := hG.1
  post_stable i _ v v' hi hp h := by
    subst h
    have idle : Idle k v := hp rfl
    exact idle.stable hi.1
  start_rely t v hv _ hg j := (start_guar hv hg.1.1.1 j).2
  start_inv t v hv _ hg := (start_guar hv hg.1.1.1 .eventLoop).1
  start_pre t v _ _ hg r ht := by
    subst ht
    have hext := hg.1.1.1
    cases hext
  exit_guar i r v hv hp _ hg := exit_guar hv hp
  crash_inv v hv _ :=
    { origin := fun h => storedBy_ne_nil (hv.origin h)
      accepted := fun h => storedBy_ne_nil (hv.accepted h)
      gone := hv.gone
      idle := fun _ _ => rfl
      owner := nofun
      quiet := hv.quiet }
  body_safe t v _ ht := body_safe t v ht

omit [Platform] in
theorem gone_idle {w : World} (hw : w.Initial) : Gone k (Pool.idle (L := lang) w).view where
  origin h := by
    refine absurd ?_ h
    show w.store.pending[k]? = none
    rw [hw.pending]
    simp
  accepted h := absurd rfl h
  gone h := absurd rfl h
  idle h := absurd rfl h
  owner := nofun
  quiet := rfl

/-- In every run in which a download of `k` is accepted once, and started
only while `k` is pending, `k` stays completed. -/
theorem completed_stays {w : World} {p : NodePool} (hw : w.Initial)
    (h : Reach machine (stillPending k) (.idle w) p) : StaysCompleted k p.view := by
  obtain ⟨hinv, -⟩ := valid.holds_of_reach (gone_idle hw) h
  exact ⟨hinv.gone, hinv.quiet⟩

end Proof

/-! ### An old record -/

section Example

open Reference

attribute [local instance] platform

theorem emptyDir_initial : (emptyDir 2).Initial := ⟨rfl, rfl, rfl, rfl, rfl, rfl, rfl⟩

/-- The key of that file. -/
def fileKey : PublishedFileKey := oneByte.key

/-- The chunk arrives. -/
def arrived : List (Move lang Choice) :=
  acceptOnly oneByte ++ tickStream ++ tickStart ++ openDownload fileKey 1 ++
    askChunk fileKey 0 ++ askProvider 1 (.fileDownload (.response 0 (.success [7]))) ++
    saveChunk fileKey 0 ++ commandPass 2

/-- A tick makes its stream before the download completes, and starts
another download from it afterwards. -/
def startedAgain : List (Move lang Choice) :=
  arrived ++ tickStream ++ recordChunk fileKey 0 ++ complete fileKey 1 ++ tickStart ++
    openDownload fileKey 1 ++ askChunk fileKey 0

/-- The completed download asks for its chunk again. -/
theorem resurrected :
    ∃ p, Reach machine (acceptedOnce fileKey) (.idle (emptyDir 2)) p ∧
      ¬ StaysCompleted fileKey p.view :=
  exists_reach_of_runScript startedAgain (by decide +kernel)

/-- The download completes before the next tick makes its stream. -/
def inTurn : List (Move lang Choice) :=
  arrived ++ recordChunk fileKey 0 ++ complete fileKey 1 ++ tickStream ++
    [.exit .eventLoop]

/-- A download that completes between two ticks stays completed. -/
theorem completed_stays_inTurn :
    ∃ p, Reach machine (stillPending fileKey) (.idle (emptyDir 2)) p ∧
      deletions fileKey p.hist = 1 ∧ StaysCompleted fileKey p.view := by
  have run : ∃ p, Reach machine (stillPending fileKey) (.idle (emptyDir 2)) p ∧
      deletions fileKey p.hist = 1 :=
    exists_reach_of_runScript inTurn (by decide +kernel)
  obtain ⟨p, hp, hd⟩ := run
  exact ⟨p, hp, hd, completed_stays emptyDir_initial hp⟩

end Example

end RustDfs.Completed
