import RustDfs.Model.Reference
import RustDfs.Proofs.Calls

/-!
# `RustDfs.Proofs.SingleDownload`: at most one accepted download a file

`download_file` looks whether the id is published or pending, asks a peer
for the metadata, prepares the chunk directory, and then stores its
record without looking again. Two calls that both pass the check are both
accepted, and the second record replaces the first
(`accepted_twice`).

`accepted_once` is the other side: when no call stores a record whose key
already has one, and the metadata a call for the id received has the key
of the id, then at most one call for the id is accepted and no record of
its key is overwritten by a call, whatever the calls, the downloads, the
publications and the crashes do in between.

`Taken` is what carries the argument: once a call has stored the record
of the key, the key is pending or published for ever, since a download
publishes its file before it deletes the pending record.
-/

set_option autoImplicit false

namespace RustDfs.SingleDownload

open Lib Conc Std

/-- The call was started for this file id. -/
def AsksFor (id : UInt64) (n : Nat) (h : List NodeEvent) : Prop :=
  ∃ request ∈ requestOf n h, request.fileId = id

instance (id : UInt64) (n : Nat) (h : List NodeEvent) : Decidable (AsksFor id n h) :=
  inferInstanceAs (Decidable (∃ request ∈ requestOf n h, _))

/-- The key is pending or published. -/
def Taken (k : PublishedFileKey) (s : Store) : Prop :=
  s.pending[k]?.isSome ∨ s.published[k]?.isSome

instance (k : PublishedFileKey) (s : Store) : Decidable (Taken k s) :=
  inferInstanceAs (Decidable (_ ∨ _))

/-- What holds of the calls for `id`.
- `accepted`: at most one of them is accepted,
- `stored`: at most one record is stored under its key by the calls. -/
structure AtMostOnce (id : UInt64) (v : NodeView) : Prop where
  accepted : ∀ e ∈ v.hist, ∀ e' ∈ v.hist, ∀ n ∈ accepted? e, ∀ n' ∈ accepted? e',
    AsksFor id n v.hist → AsksFor id n' v.hist → n = n'
  stored : (storedBy (.ofU64 id) v.hist).length ≤ 1

theorem atMostOnce_iff (id : UInt64) (v : NodeView) :
    AtMostOnce id v ↔ (∀ e ∈ v.hist, ∀ e' ∈ v.hist, ∀ n ∈ accepted? e, ∀ n' ∈ accepted? e',
      AsksFor id n v.hist → AsksFor id n' v.hist → n = n') ∧
      (storedBy (.ofU64 id) v.hist).length ≤ 1 :=
  ⟨fun h => ⟨h.accepted, h.stored⟩, fun h => ⟨h.1, h.2⟩⟩

instance (id : UInt64) (v : NodeView) : Decidable (AtMostOnce id v) :=
  decidable_of_iff' _ (atMostOnce_iff id v)

/-- The step is no race for `id`. If a call stores a record here,
- then for the key of `id` only when it is not taken, that is when `id` is
  neither pending nor published,
- and if the call was for `id`, then the record has the key of `id`: the
  metadata the peer sent belongs to it. -/
def StoresFirst (id : UInt64) (v : NodeView) (e : NodeEvent) : Prop :=
  ∀ x ∈ stored? e,
    (x.2.key = .ofU64 id → ¬ Taken (.ofU64 id) v.world.store) ∧
      (AsksFor id x.1 v.hist → x.2.key = .ofU64 id)

/-- The guard of the runs in which `id` is accepted once: no step is a race
for `id`. -/
def unraced (id : UInt64) : NodeGuard := fun v e => environment v e ∧ StoresFirst id v e

instance (id : UInt64) (v : NodeView) (e : NodeEvent) : Decidable (unraced id v e) :=
  inferInstanceAs (Decidable (_ ∧ ∀ x ∈ stored? e, _))

section Proof

variable [Platform] {id : UInt64}

/-! ### The protocol -/

/-- The invariant of the store and the history. -/
structure Once (id : UInt64) (v : NodeView) : Prop where
  /-- Calls stored at most one record under the key. -/
  stored : (storedBy (.ofU64 id) v.hist).length ≤ 1
  /-- After that the key is taken. -/
  taken : storedBy (.ofU64 id) v.hist ≠ [] → Taken (.ofU64 id) v.world.store
  /-- What an accepted call was asked for is known. -/
  known : ∀ e ∈ v.hist, ∀ n, accepted? e = some n → ∃ request, requestOf n v.hist = some request
  /-- An accepted call for `id` stored a record under the key. -/
  accepted : ∀ e ∈ v.hist, ∀ n, accepted? e = some n → AsksFor id n v.hist →
    n ∈ storedBy (.ofU64 id) v.hist

/-- What never gets lost: requests, the published record, and that the
key is taken. -/
structure Grows (id : UInt64) (v v' : NodeView) : Prop where
  requests : ∀ n request, requestOf n v.hist = some request → requestOf n v'.hist = some request
  published : v.world.store.published[Octets.ofU64 id]?.isSome →
    v'.world.store.published[Octets.ofU64 id]?.isSome
  taken : Taken (.ofU64 id) v.world.store → Taken (.ofU64 id) v'.world.store

omit [Platform] in
theorem Grows.refl (v : NodeView) : Grows id v v :=
  ⟨fun _ _ h => h, fun h => h, fun h => h⟩

omit [Platform] in
theorem Grows.trans {v₁ v₂ v₃ : NodeView} (h₁ : Grows id v₁ v₂) (h₂ : Grows id v₂ v₃) :
    Grows id v₁ v₃ where
  requests n r h := h₂.requests n r (h₁.requests n r h)
  published h := h₂.published (h₁.published h)
  taken h := h₂.taken (h₁.taken h)

/-- The protocol: everyone counts on what never gets lost. -/
def protocol (id : UInt64) : Protocol lang World :=
  .ofRely (Once id) (fun _ v v' => Grows id v v')
    (fun t v => ∀ n request, t = .downloadFile n request → requestOf n v.hist = some request)
    (fun i r v => ∀ n, i = .call n → r = .accepted (.ok ()) →
      ∃ request, requestOf n v.hist = some request ∧
        (request.fileId = id → n ∈ storedBy (.ofU64 id) v.hist))

/-! ### Events that accept nothing -/

omit [Platform] in
/-- An event that stores and accepts nothing keeps the invariant when
nothing gets lost. -/
theorem Once.cons {v v' : NodeView} {e : NodeEvent} (hv : Once id v)
    (hh : v'.hist = e :: v.hist) (hs : stored? e = none) (ha : accepted? e = none)
    (hg : Grows id v v') : Once id v' where
  stored := by
    rw [hh, storedBy_of_not_stored hs]
    exact hv.stored
  taken h := by
    rw [hh, storedBy_of_not_stored hs] at h
    exact hg.taken (hv.taken h)
  known e' he' n hn := by
    rw [hh] at he'
    obtain rfl | he' := List.mem_cons.mp he'
    · rw [ha] at hn
      cases hn
    · obtain ⟨request, hr⟩ := hv.known e' he' n hn
      exact ⟨request, hg.requests n request hr⟩
  accepted e' he' n hn hid := by
    rw [hh] at he'
    obtain rfl | he' := List.mem_cons.mp he'
    · rw [ha] at hn
      cases hn
    · obtain ⟨request, hr⟩ := hv.known e' he' n hn
      obtain ⟨request', hr', rfl⟩ := hid
      have heq : request' = request :=
        Option.some.inj (hr'.symm.trans (hg.requests n request hr))
      subst heq
      rw [hh, storedBy_of_not_stored hs]
      exact hv.accepted e' he' n hn ⟨request', hr, rfl⟩

/-- An operation of slot `i` that neither deletes a pending record nor is
a call's storing of its record. -/
def Plain (i : Slot) (o : Op) : Prop :=
  (∀ k, o ≠ .store (.deletePendingDownload k)) ∧
    (i.isCall = true → ∀ r, o ≠ .store (.putPendingDownload r))

omit [Platform] in
theorem plain_of_not_call {i : Slot} {o : Op} (hi : i.isCall = false)
    (ho : ∀ k, o ≠ .store (.deletePendingDownload k)) : Plain i o := by
  refine ⟨ho, fun h => ?_⟩
  rw [hi] at h
  cases h

omit [Platform] in
theorem stored?_of_plain {i : Slot} {o : Op} (ho : Plain i o) (a : o.Ans) :
    stored? (.op (L := lang) i o a) = none := by
  unfold stored?
  split
  · next h =>
      cases h
      exact absurd rfl (ho.2 rfl _)
  · rfl

omit [Platform] in
theorem stored?_failed (i : Slot) (o : StoreOp) (err : FileStoreError) :
    stored? (.op (L := lang) i (.store o) (.error err)) = none := by
  unfold stored?
  split
  · next h => cases h
  · rfl

/-- Only a deletion makes a key free again. -/
theorem taken_of_plain {o : Op} {a : o.Ans} {c : Choice} {w w' : World}
    {k : PublishedFileKey} (ho : ∀ k, o ≠ .store (.deletePendingDownload k))
    (he : o.exec c w = some (a, w')) :
    (w.store.published[k]?.isSome → w'.store.published[k]?.isSome) ∧
      (Taken k w.store → Taken k w'.store) := by
  by_cases hw : o.writesStore = false
  · rw [exec_store_eq he hw]
    exact ⟨fun h => h, fun h => h⟩
  · cases o with
    | store o =>
        obtain ⟨-, rfl⟩ | ⟨err, -, rfl⟩ := exec_store he
        · cases o with
          | putPublishedFile r =>
              have put : w.store.published[k]?.isSome →
                  (w.store.published.insert r.key r)[k]?.isSome := by
                intro h
                rw [get_put]
                split
                · rfl
                · exact h
              exact ⟨put, fun h => h.imp (fun h => h) put⟩
          | putPendingDownload r =>
              refine ⟨fun h => h, fun h => h.imp (fun h => ?_) fun h => h⟩
              show (w.store.pending.insert r.key r)[k]?.isSome
              rw [get_put]
              split
              · rfl
              · exact h
          | deletePendingDownload k => exact absurd rfl (ho k)
          | _ => exact ⟨fun h => h, fun h => h⟩
        · exact ⟨fun h => h, fun h => h⟩
    | _ => exact absurd rfl hw

omit [Platform] in
/-- What an event that loses nothing in the database lets happen. -/
theorem Grows.event {v v' : NodeView} {e : NodeEvent} (hg : environment v e)
    (hh : v'.hist = e :: v.hist)
    (hs : (v.world.store.published[Octets.ofU64 id]?.isSome →
        v'.world.store.published[Octets.ofU64 id]?.isSome) ∧
      (Taken (.ofU64 id) v.world.store → Taken (.ofU64 id) v'.world.store)) :
    Grows id v v' where
  requests n request hr := by
    rw [hh]
    exact requestOf_cons hg hr
  published := hs.1
  taken := hs.2

/-- A plain operation is within the guarantee of its slot. -/
theorem guar_plain {v : NodeView} {i : Slot} {o : Op} {a : o.Ans} {c : Choice} {w : World}
    (hv : Once id v) (ho : Plain i o) (he : o.exec c v.world = some (a, w))
    (hg : environment v (.op i o a)) : (protocol id).Guar i v (v.op i o a w) := by
  have grows : Grows id v (v.op i o a w) := .event hg rfl (taken_of_plain ho.1 he)
  exact ⟨hv.cons rfl (stored?_of_plain ho a) rfl grows, fun _ _ => grows⟩

omit [Platform] in
/-- A failed database operation is within the guarantee of its slot. -/
theorem guar_failed {v : NodeView} (hv : Once id v) {i : Slot} {o : StoreOp}
    {err : FileStoreError} (hg : environment v (.op (L := lang) i (.store o) (.error err))) :
    (protocol id).Guar i v (v.op (L := lang) i (.store o) (.error err) v.world) := by
  have grows : Grows id v (v.op (L := lang) i (.store o) (.error err) v.world) :=
    .event hg rfl ⟨fun h => h, fun h => h⟩
  exact ⟨hv.cons rfl (stored?_failed i o err) rfl grows, fun _ _ => grows⟩

/-- A program of plain operations that starts no call is safe, and keeps
what cannot get lost. -/
theorem safe_plain {α : Type} {F : Footprint lang} {p : Proc α} {i : Slot} {v : NodeView}
    {A : NodeView → Prop} (hp : p.Within F) (hop : ∀ o, F.op o → Plain i o)
    (hsp : ∀ t, F.spawn t → t.external = false)
    (hA : ∀ v v', Grows id v v' → A v → A v') (hv : A v) :
    (protocol id).Safe machine (unraced id) i p (fun _ v => A v) v := by
  refine Protocol.safe_footprint hp (fun v v' hi h => hA v v' hi.1 h) ?_ ?_ ?_ hv
  · intro v hv hinv _ o ho c a w he hg
    refine ⟨guar_plain hinv (hop o ho) he hg.1, hA v _ ?_ hv⟩
    exact .event hg.1 rfl (taken_of_plain (hop o ho).1 he)
  · intro v hv hinv _ t ht _ hg
    have grows : Grows id v (v.spawn i t (slotOf t)) :=
      .event hg.1 rfl ⟨fun h => h, fun h => h⟩
    refine ⟨⟨hinv.cons rfl rfl rfl grows, fun _ _ => grows⟩, ?_, hA v _ grows hv⟩
    intro n request h
    have hext := hsp t ht
    rw [h] at hext
    cases hext
  · intro v hv hinv _ j _ _ r _ hg
    have grows : Grows id v (v.await (L := lang) i j r) :=
      .event hg.1 rfl ⟨fun h => h, fun h => h⟩
    exact ⟨⟨hinv.cons rfl rfl rfl grows, fun _ _ => grows⟩, hA v _ grows hv⟩

/-! ### The calls -/

omit [Platform] in
theorem plain_prepare {i : Slot} : ∀ o, PrepareOp o → Plain i o := by
  rintro _ (⟨_ | _ | _⟩ | ⟨_ | _⟩ | _) <;> exact ⟨nofun, fun _ => nofun⟩

/-- The event of call `n` that stores `r`. -/
def putEvent (n : Nat) (r : PendingDownloadRecord) : NodeEvent :=
  .op (.call n) (.store (.putPendingDownload r)) (.ok ())

omit [Platform] in
theorem storedBy_putEvent {k : PublishedFileKey} (n : Nat) (r : PendingDownloadRecord)
    (h : List NodeEvent) :
    storedBy k (putEvent n r :: h) = if r.key = k then n :: storedBy k h else storedBy k h :=
  rfl

/-- A call that stores a record where the guard lets it. -/
theorem put_guar {v : NodeView} {n : Nat} {r : PendingDownloadRecord} (hv : Once id v)
    (hg : unraced id v (putEvent n r)) :
    (protocol id).Guar (.call n) v ⟨{ v.world with store := (StoreOp.run v.world.store
      (.putPendingDownload r)).2 }, putEvent n r :: v.hist, v.live⟩ := by
  have run : Op.exec (.store (.putPendingDownload r)) .ok v.world = some (.ok (),
      { v.world with store := (StoreOp.run v.world.store (.putPendingDownload r)).2 }) := rfl
  have grows : Grows id v ⟨{ v.world with store := (StoreOp.run v.world.store
      (.putPendingDownload r)).2 }, putEvent n r :: v.hist, v.live⟩ :=
    .event hg.1 rfl (taken_of_plain (by intro k h; cases h) run)
  refine ⟨?_, fun _ _ => grows⟩
  by_cases hk : r.key = .ofU64 id
  -- nothing was stored under the key, by what the guard asks for
  · have free : storedBy (.ofU64 id) v.hist = [] := by
      by_contra h
      exact (hg.2 (n, r) rfl).1 hk (hv.taken h)
    have one : storedBy (.ofU64 id) (putEvent n r :: v.hist) = [n] := by
      rw [storedBy_putEvent, if_pos hk, free]
    refine ⟨by rw [one]; exact Nat.le_refl 1, fun _ => .inl ?_, ?_, ?_⟩
    · show (v.world.store.pending.insert r.key r)[Octets.ofU64 id]?.isSome
      rw [get_put, if_pos hk]
      rfl
    · intro e he m hm
      obtain rfl | he := List.mem_cons.mp he
      · cases hm
      · exact hv.known e he m hm
    · intro e he m hm hid
      obtain rfl | he := List.mem_cons.mp he
      · cases hm
      · have := hv.accepted e he m hm hid
        rw [free] at this
        cases this
  -- a record of another file
  · have same : storedBy (.ofU64 id) (putEvent n r :: v.hist) = storedBy (.ofU64 id) v.hist := by
      rw [storedBy_putEvent, if_neg hk]
    refine ⟨by rw [same]; exact hv.stored, fun h => grows.taken (hv.taken (same ▸ h)), ?_, ?_⟩
    · intro e he m hm
      obtain rfl | he := List.mem_cons.mp he
      · cases hm
      · exact hv.known e he m hm
    · intro e he m hm hid
      rw [same]
      obtain rfl | he := List.mem_cons.mp he
      · cases hm
      · exact hv.accepted e he m hm hid

/-- What an accepted call leaves behind. -/
def Accepted (id : UInt64) (n : Nat) (request : DownloadFileRequest) (v : NodeView) : Prop :=
  requestOf n v.hist = some request ∧ (request.fileId = id → n ∈ storedBy (.ofU64 id) v.hist)

/-- A call that is accepted for `id` has stored its record under the key
of `id`. -/
theorem downloadFile_safe {n : Nat} {request : DownloadFileRequest} {v : NodeView}
    (hv : requestOf n v.hist = some request) :
    (protocol id).Safe machine (unraced id) (.call n) (downloadFile request).run
      (fun r v => r = .ok () → Accepted id n request v) v := by
  have plain : ∀ {α : Type} {p : Proc α} {v : NodeView}, p.Within (.ops PrepareOp) →
      requestOf n v.hist = some request → (protocol id).Safe machine (unraced id) (.call n) p
        (fun _ v => requestOf n v.hist = some request) v := fun hp hv =>
    safe_plain hp plain_prepare (fun _ h => h.elim) (fun _ _ hg => hg.requests n request) hv
  refine Protocol.safe_seqE (plain (storeOrInternal_within (.publishedFileExists _)) hv)
    (fun published v hv => ?_) (fun _ _ _ h => by cases h)
  split
  · exact fun h => by cases h
  refine Protocol.safe_seqE (plain (storeOrInternal_within (.pendingDownloadExists _)) hv)
    (fun pending v hv => ?_) (fun _ _ _ h => by cases h)
  split
  · exact fun h => by cases h
  refine Protocol.safe_seqE (plain (fetchMetadata_within request) hv)
    (fun m v hv => ?_) (fun _ _ _ h => by cases h)
  refine Protocol.safe_seqE (plain (prepareDownload_within _ m) hv)
    (fun r v hv => ?_) (fun _ _ _ h => by cases h)
  intro v₁ hi hinv _ c a w he hg
  have hr : requestOf n v₁.hist = some request := hi.1.requests n request hv
  obtain ⟨rfl, rfl⟩ | ⟨err, rfl, rfl⟩ := exec_store he
  · refine ⟨put_guar hinv hg, fun _ => ⟨hr, fun hid => ?_⟩⟩
    have hk := (hg.2 (n, r) rfl).2 ⟨request, hr, hid⟩
    show n ∈ storedBy (.ofU64 id) (putEvent n r :: v₁.hist)
    rw [storedBy_putEvent, if_pos hk]
    exact List.mem_cons_self
  · exact ⟨guar_failed hinv hg.1, fun h => by cases h⟩

/-! ### The downloads -/

omit [Platform] in
theorem plain_download {i : Slot} (hi : i.isCall = false) {k : PublishedFileKey} :
    ∀ o, DownloadOp k o → Plain i o := by
  intro o ho
  refine plain_of_not_call hi fun k h => ?_
  subst h
  cases ho

omit [Platform] in
theorem plain_restore {i : Slot} : ∀ o, RestoreOp o → Plain i o := by
  rintro _ (_ | _ | _ | ⟨_ | _⟩ | _) <;> exact ⟨nofun, fun _ => nofun⟩

/-- The record of a download is published. -/
def Published (id : UInt64) (r : PendingDownloadRecord) (v : NodeView) : Prop :=
  r.key = .ofU64 id → v.world.store.published[Octets.ofU64 id]?.isSome

/-- Publishing the file of a download. -/
theorem putPublishedFile_safe {i : Slot} (hi : i.isCall = false) (r : PendingDownloadRecord)
    (m : FileMetadata) (v : NodeView) :
    (protocol id).Safe machine (unraced id) i (store (.putPublishedFile
      ⟨r.key, r.originalFileName, r.chunksDir, m.isPublic⟩)).run
      (fun a v => a = .ok () → Published id r v) v := by
  intro v₁ _ hinv _ c a w he hg
  refine ⟨guar_plain hinv (plain_of_not_call hi fun k h => by cases h) he hg.1, ?_⟩
  obtain ⟨rfl, rfl⟩ | ⟨err, rfl, rfl⟩ := exec_store he
  · intro _ hk
    show (v₁.world.store.published.insert r.key _)[Octets.ofU64 id]?.isSome
    rw [get_put, if_pos hk]
    rfl
  · exact fun h => by cases h

/-- Deleting the pending record frees nothing, since the file is
published. -/
theorem deletePendingDownload_safe {i : Slot} {r : PendingDownloadRecord} {v : NodeView}
    (hv : Published id r v) :
    (protocol id).Safe machine (unraced id) i (store (.deletePendingDownload r.key)).run
      (fun _ _ => True) v := by
  intro v₁ hi hinv _ c a w he hg
  have published : Published id r v₁ := fun hk => hi.1.published (hv hk)
  obtain ⟨rfl, rfl⟩ | ⟨err, rfl, rfl⟩ := exec_store he
  · have grows : Grows id v₁ (v₁.op (L := lang) i (.store (.deletePendingDownload r.key)) (.ok ())
        { v₁.world with store := (StoreOp.run v₁.world.store
          (.deletePendingDownload r.key)).2 }) := by
      refine .event hg.1 rfl ⟨fun h => h, fun h => ?_⟩
      by_cases hk : r.key = .ofU64 id
      · exact .inr (published hk)
      · refine h.imp (fun h => ?_) fun h => h
        show (v₁.world.store.pending.erase r.key)[Octets.ofU64 id]?.isSome
        rw [get_delete, if_neg hk]
        exact h
    have quiet : stored? (.op (L := lang) i (.store (.deletePendingDownload r.key)) (.ok ()))
        = none := by
      unfold stored?
      split
      · next h => cases h
      · rfl
    exact ⟨⟨hinv.cons rfl quiet rfl grows, fun _ _ => grows⟩, trivial⟩
  · exact ⟨guar_failed hinv hg.1, trivial⟩

/-- A download publishes its file before it deletes the pending record. -/
theorem processCompleted_safe {i : Slot} (hi : i.isCall = false) (r : PendingDownloadRecord)
    (v : NodeView) :
    (protocol id).Safe machine (unraced id) i (FileDownloadService.processCompleted r).run
      (fun _ _ => True) v := by
  have plain : ∀ {α : Type} {p : Proc α} {v : NodeView} {O : Op → Prop}, p.Within (.ops O) →
      (∀ o, O o → Plain i o) →
      (protocol id).Safe machine (unraced id) i p (fun _ _ => True) v := fun hp hO =>
    safe_plain hp hO (fun _ h => h.elim) (fun _ _ _ _ => trivial) trivial
  refine Protocol.safe_seqA (plain (restoreOriginalFile_within r) plain_restore)
    (fun m v _ => ?_) (fun _ _ _ => trivial)
  refine Protocol.safe_seqA (putPublishedFile_safe hi r m v)
    (fun _ v hv => ?_) (fun _ _ _ => trivial)
  refine Protocol.safe_seqA (deletePendingDownload_safe (hv rfl))
    (fun _ v _ => ?_) (fun _ _ _ => trivial)
  refine Protocol.safe_seqL (plain (chan_within (O := fun o => ∃ c, o = .chan c) ⟨_, rfl⟩) ?_)
    fun sent v _ => ?_
  · rintro _ ⟨c, rfl⟩
    exact plain_of_not_call hi fun k h => by cases h
  · cases sent <;> trivial

/-- A download task. -/
theorem downloadTask_safe (r : PendingDownloadRecord) (v : NodeView) :
    (protocol id).Safe machine (unraced id) (.download r.key) (FileDownloadService.downloadTask r)
      (fun _ _ => True) v := by
  have download : (protocol id).Safe machine (unraced id) (.download r.key)
      (FileDownloadService.download r) (fun _ _ => True) v := by
    refine safe_plain (download_within r) (plain_download rfl) ?_ (fun _ _ _ _ => trivial) trivial
    rintro _ ⟨c, dir, rfl⟩
    rfl
  refine Protocol.safe_seq download fun (completed, r') v _ => ?_
  have remove : ∀ v, (protocol id).Safe machine (unraced id) (.download r.key)
      (sync (.removeActive r'.key) >>= fun _ => pure Res.unit) (fun _ _ => True) v := by
    intro v v₁ _ hinv _ c a w he hg
    exact ⟨guar_plain (c := c) hinv (plain_of_not_call rfl fun k h => by cases h) he hg.1, trivial⟩
  dsimp only
  split
  · exact Protocol.safe_seq (processCompleted_safe rfl r' v) fun _ v _ => remove v
  · exact remove v

/-! ### The runs of the node -/

omit [Platform] in
/-- The tasks that neither accept nor complete a download are plain. -/
theorem plain_footprint {t : Task} (hc : ∀ n request, t ≠ .downloadFile n request)
    (hd : ∀ r, t ≠ .download r) {o : Op} (ho : t.footprint.op o) : Plain (slotOf t) o := by
  have none : ∀ k, o.pendingKey ≠ some k := by
    intro k h
    obtain ⟨n, request, rfl⟩ | ⟨r, rfl, -⟩ := of_pendingKey ho h
    · exact hc n request rfl
    · exact hd r rfl
  refine ⟨fun k h => ?_, fun _ r h => ?_⟩
  · subst h
    exact none k rfl
  · subst h
    exact none r.key rfl

/-- Every task keeps to the protocol. -/
theorem body_safe (t : Task) (v : NodeView) (hv : (protocol id).Pre t v) :
    (protocol id).Safe machine (unraced id) (slotOf t) (body t)
      ((protocol id).Post (slotOf t)) v := by
  by_cases hc : ∃ n request, t = .downloadFile n request
  · obtain ⟨n, request, rfl⟩ := hc
    refine Protocol.safe_seq (downloadFile_safe (hv n request rfl)) fun a v ha => ?_
    intro n' hn hr
    cases hn
    cases hr
    exact ⟨request, ha rfl⟩
  · replace hc : ∀ n request, t ≠ .downloadFile n request := fun n request h => hc ⟨n, request, h⟩
    have safe : (protocol id).Safe machine (unraced id) (slotOf t) (body t)
        (fun _ _ => True) v := by
      by_cases hd : ∃ r, t = .download r
      · obtain ⟨r, rfl⟩ := hd
        exact downloadTask_safe r v
      · exact safe_plain (body_within t) (fun o => plain_footprint hc fun r h => hd ⟨r, h⟩)
          (fun _ => external_of_spawn) (fun _ _ _ _ => trivial) trivial
    refine Protocol.safe_mono ?_ (Protocol.safe_ends (body_ends hc) safe)
    intro a v ha n _ hr
    exact absurd hr (ha.1 _)

omit [Platform] in
/-- A call that leaves is accepted only if it stored its record. -/
theorem exit_guar {v : NodeView} {i : Slot} {r : Res} (hv : Once id v)
    (hp : (protocol id).Post i r v) (hg : environment v (.exit i r)) :
    (protocol id).Guar i v (v.exit i r) := by
  have grows : Grows id v (v.exit (L := lang) i r) :=
    .event hg rfl ⟨fun h => h, fun h => h⟩
  have left : ∀ n, accepted? (.exit (L := lang) i r) = some n →
      ∃ request, Accepted id n request v := by
    intro n hn
    obtain ⟨hi, hr⟩ := eq_of_accepted hn
    exact hp n hi hr
  refine ⟨⟨hv.stored, hv.taken, fun e he n hn => ?_, fun e he n hn hid => ?_⟩, fun _ _ => grows⟩
  · obtain rfl | he := List.mem_cons.mp he
    · obtain ⟨request, hr, -⟩ := left n hn
      exact ⟨request, hr⟩
    · exact hv.known e he n hn
  · obtain rfl | he := List.mem_cons.mp he
    · obtain ⟨request, hr, hs⟩ := left n hn
      obtain ⟨request', hr', hid⟩ := hid
      have heq : request' = request := Option.some.inj (hr'.symm.trans hr)
      subst heq
      exact hs hid
    · exact hv.accepted e he n hn hid

theorem valid : (protocol id).Valid machine (unraced id) where
  rely_refl _ v := .refl v
  rely_trans _ _ _ _ h₁ h₂ := h₁.trans h₂
  guar_rely i j _ _ hij _ hG := hG.2 j hij.symm
  guar_inv _ _ _ _ hG := hG.1
  post_stable i r v v' hi hp n hn hr := by
    obtain ⟨request, hreq, hs⟩ := hp n hn hr
    exact ⟨request, hi.1.requests n request hreq, fun h => mem_storedBy_of_suffix hi.2 (hs h)⟩
  start_rely t v _ _ hg _ := .event hg.1 rfl ⟨fun h => h, fun h => h⟩
  start_inv t v hv _ hg := hv.cons rfl rfl rfl (.event hg.1 rfl ⟨fun h => h, fun h => h⟩)
  start_pre t v _ _ _ n request ht := by
    subst ht
    show (if n = n then some request else _) = some request
    rw [if_pos rfl]
  exit_guar i r v hv hp _ hg := exit_guar hv hp hg.1
  crash_inv v hv hg := hv.cons rfl rfl rfl (.event hg.1 rfl ⟨fun h => h, fun h => h⟩)
  body_safe t v _ ht := body_safe t v ht

omit [Platform] in
theorem once_idle (w : World) : Once id (Pool.idle (L := lang) w).view where
  stored := Nat.zero_le 1
  taken h := absurd rfl h
  known _ h := by cases h
  accepted _ h := by cases h

/-- In every run in which no call stores a record for a key that has
one, and the calls for the id got its metadata, the id is accepted at
most once. -/
theorem accepted_once {w : World} {p : NodePool}
    (h : Reach machine (unraced id) (.idle w) p) : AtMostOnce id p.view := by
  obtain ⟨hinv, -⟩ := valid.holds_of_reach (once_idle w) h
  refine ⟨fun e he e' he' n hn n' hn' hid hid' => ?_, hinv.stored⟩
  have first := hinv.accepted e he n hn hid
  have second := hinv.accepted e' he' n' hn' hid'
  match hs : storedBy (.ofU64 id) p.view.hist, hinv.stored, first, second with
  | [m], _, first, second =>
      rw [List.mem_singleton] at first second
      exact first.trans second.symm

end Proof

/-! ### Two calls at a time -/

section Example

open Reference

attribute [local instance] platform

/-- The id of that file. -/
def fileId : UInt64 := oneByte.key.toU64

/-- Both calls pass the check before either of them stores its record. -/
def bothAsk : List (Move lang Choice) :=
  ask 0 ⟨fileId, "/d"⟩ ++ ask 1 ⟨fileId, "/d"⟩ ++ answer 0 0 oneByte ++ answer 1 1 oneByte ++
    accept 0 ++ accept 1

/-- Two calls for one file, which is neither published nor pending, are
both accepted. -/
theorem accepted_twice :
    ¬ Taken (.ofU64 fileId) (emptyDir 1).store ∧
      ∃ p, Reach machine environment (.idle (emptyDir 1)) p ∧ ¬ AtMostOnce fileId p.view :=
  ⟨by decide, exists_reach_of_runScript bothAsk (by decide +kernel)⟩

/-- The second call comes when the record of the first is stored. -/
def oneAfterTheOther : List (Move lang Choice) :=
  ask 0 ⟨fileId, "/d"⟩ ++ answer 0 0 oneByte ++ accept 0 ++
    .start (.downloadFile 1 ⟨fileId, "/d"⟩) :: ops (.call 1) 2 ++ [.exit (.call 1)]

/-- Of two calls one after the other the first is accepted, and only the
first. -/
theorem accepted_once_inTurn :
    ∃ p, Reach machine (unraced fileId) (.idle (emptyDir 1)) p ∧
      storedBy (.ofU64 fileId) p.hist = [0] ∧ AtMostOnce fileId p.view := by
  have run : ∃ p, Reach machine (unraced fileId) (.idle (emptyDir 1)) p ∧
      storedBy (.ofU64 fileId) p.hist = [0] :=
    exists_reach_of_runScript oneAfterTheOther (by decide +kernel)
  obtain ⟨p, hp, hs⟩ := run
  exact ⟨p, hp, hs, accepted_once hp⟩

end Example

end RustDfs.SingleDownload
