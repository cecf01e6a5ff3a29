import RustDfs.Model.Reference
import RustDfs.Proofs.Calls

/-!
# `RustDfs.Proofs.ContentAddress`: the key a download is stored under

`download_file` looks up the id it was asked for, and stores its record
under the key of the metadata it received. Nothing compares the two, so
a peer that answers with the metadata of another file has its file
stored and later published under that file's key (`other_file_stored`).

`content_addressed` says what an accepted call did in any run: the two
lookups under the requested id, the metadata it received, and the one
record it stored. The record has the requested key exactly when the
received metadata has it.
-/

set_option autoImplicit false

namespace RustDfs.ContentAddress

open Lib Conc

/-- What counts of what a call does: the database operations that
worked, and the metadata the event loop handed to it. -/
inductive Mark where
  | store (o : StoreOp)
  | received (m : FileMetadata)
deriving DecidableEq

/-- What an event is for call `n`. -/
def mark (n : Nat) : NodeEvent → Option Mark
  | .op (.call m) (.store o) (.ok _) => if m = n then some (.store o) else none
  | .op (.call m) (.chan (.metadata (.recv _))) (.ok (some x)) =>
      if m = n then some (.received x) else none
  | _ => none

/-- What call `n` did, the latest first. -/
def marks (n : Nat) (h : List NodeEvent) : List Mark := h.filterMap (mark n)

/-- The pending record an operation stores. -/
def put? : Mark → Option PendingDownloadRecord
  | .store (.putPendingDownload r) => some r
  | _ => none

/-- The pending records call `n` stored. -/
def storedRecords (n : Nat) (h : List NodeEvent) : List PendingDownloadRecord :=
  (marks n h).filterMap put?

/-- The metadata call `n` received. -/
def received? : Mark → Option FileMetadata
  | .received m => some m
  | _ => none

/-- The call was accepted. -/
def Accepted (n : Nat) (h : List NodeEvent) : Prop := ∃ e ∈ h, accepted? e = some n

instance (n : Nat) (h : List NodeEvent) : Decidable (Accepted n h) :=
  inferInstanceAs (Decidable (∃ e ∈ h, _))

/-- Call `n` asked for `id`, and stored its record by that id. -/
structure ContentAddressed [Platform] (w : World) (n : Nat) (id : UInt64) (p : NodePool) :
    Prop where
  /-- It stored one record, under the key it was asked for. -/
  stored : ∃ r, storedRecords n p.hist = [r] ∧ r.key = .ofU64 id
  /-- Before that it looked this key up among both kinds of records. -/
  lookedUp : ∀ r before, .store (.putPendingDownload r) :: before <:+ marks n p.hist →
    .store (.publishedFileExists r.key) ∈ before ∧ .store (.pendingDownloadExists r.key) ∈ before
  /-- It left the pending records of the other keys alone. -/
  others : ∀ q q' e, Reach machine environment (.idle w) q → Step machine environment q e q' →
    Reach machine environment q' p → e.slot? = some (.call n) →
    ∀ k : PublishedFileKey, k ≠ .ofU64 id →
    q'.world.store.pending[k]? = q.world.store.pending[k]?

/-! ### What an accepted call did -/

section Proof

variable [Platform] {n : Nat} {request : DownloadFileRequest} {l : List Mark} {v v' : NodeView}
  {e : NodeEvent}

/-- The marks of an accepted call that received `m`. -/
def complete (request : DownloadFileRequest) (m : FileMetadata) : List Mark :=
  [.store (.putPendingDownload (pendingDownload (localMetadata ⟨request.downloadPath⟩ m))),
    .received m,
    .store (.pendingDownloadExists (.ofU64 request.fileId)),
    .store (.publishedFileExists (.ofU64 request.fileId))]

/-- Call `n` was started with the request and has done this much. -/
def At (n : Nat) (request : DownloadFileRequest) (l : List Mark) (v : NodeView) : Prop :=
  requestOf n v.hist = some request ∧ marks n v.hist = l

/-- Call `n` has done everything. -/
def Completed (n : Nat) (v : NodeView) : Prop :=
  ∃ request m, At n request (complete request m) v

/-- The invariant. -/
structure Sound (v : NodeView) : Prop where
  /-- A call that was not started has done nothing. -/
  fresh : ∀ n, (∀ e ∈ v.hist, startedSlot e ≠ some (.call n)) →
    v.live (.call n) = false ∧ marks n v.hist = []
  /-- A call that was accepted has done everything, and left. -/
  accepted : ∀ n, Accepted n v.hist → v.live (.call n) = false ∧ Completed n v

/-- A call counts on its own marks. -/
def Rely (i : Slot) (v v' : NodeView) : Prop :=
  ∀ n, i = .call n → ∀ request l, At n request l v → At n request l v'

/-- The protocol. -/
def protocol : Protocol lang World :=
  .ofRely Sound Rely
    (fun t v => ∀ n request, t = .downloadFile n request → At n request [] v)
    (fun i r v => ∀ n, i = .call n → r = .accepted (.ok ()) → Completed n v)

omit [Platform] in
/-- A call makes its own marks only. -/
theorem slot_of_mark {x : Mark} (h : mark n e = some x) : e.slot? = some (.call n) := by
  unfold mark at h
  split at h
  · split at h
    · next hn => exact congrArg (fun m => some (Slot.call m)) hn
    · cases h
  · split at h
    · next hn => exact congrArg (fun m => some (Slot.call m)) hn
    · cases h
  · cases h

omit [Platform] in
theorem mark_of_slot (h : e.slot? ≠ some (.call n)) : mark n e = none := by
  cases hm : mark n e with
  | none => rfl
  | some x => exact absurd (slot_of_mark hm) h

omit [Platform] in
theorem marks_cons_none (h : mark n e = none) (hist : List NodeEvent) :
    marks n (e :: hist) = marks n hist :=
  List.filterMap_cons_none h

omit [Platform] in
/-- What others do leaves the marks of a call alone. -/
theorem At.cons (hg : environment v e) (hm : mark n e = none) (hv : At n request l v)
    (hh : v'.hist = e :: v.hist) : At n request l v' := by
  refine ⟨?_, ?_⟩
  · rw [hh]
    exact requestOf_cons hg hv.1
  · rw [hh, marks_cons_none hm]
    exact hv.2

omit [Platform] in
theorem accepted_cons (ha : accepted? e = none) (hh : v'.hist = e :: v.hist)
    (h : Accepted n v'.hist) : Accepted n v.hist := by
  obtain ⟨e', he', hn⟩ := h
  rw [hh] at he'
  obtain rfl | he' := List.mem_cons.mp he'
  · rw [ha] at hn
    cases hn
  · exact ⟨e', he', hn⟩

/-- An accepted call was started. -/
theorem Sound.started (hv : Sound v) (h : Accepted n v.hist) :
    ∃ request, .start (.downloadFile n request) ∈ v.hist := by
  obtain ⟨-, request, m, hat⟩ := hv.accepted n h
  exact ⟨request, start_of_requestOf hat.1⟩

omit [Platform] in
/-- A slot that is emptied, or another one, is idle afterwards. -/
theorem idle_update {live : Slot → Bool} {i : Slot} (idle : live i = false) (j : Slot) :
    Function.update live j false i = false := by
  rw [Function.update_apply]
  split
  · rfl
  · exact idle

/-- The invariant after an event of a slot that was live, or of a new
one. -/
theorem Sound.cons (hv : Sound v) (hg : environment v e) (hh : v'.hist = e :: v.hist)
    (ha : accepted? e = none)
    (hm : ∀ n, v.live (.call n) = false → mark n e = none)
    (hl : ∀ n, v.live (.call n) = false → startedSlot e ≠ some (.call n) →
      v'.live (.call n) = false) : Sound v' where
  fresh n h := by
    rw [hh] at h
    obtain ⟨idle, none⟩ := hv.fresh n fun e' he' => h e' (List.mem_cons_of_mem _ he')
    refine ⟨hl n idle (h e List.mem_cons_self), ?_⟩
    rw [hh, marks_cons_none (hm n idle), none]
  accepted n h := by
    have before := accepted_cons ha hh h
    obtain ⟨idle, request, m, hat⟩ := hv.accepted n before
    refine ⟨hl n idle fun hs => ?_, request, m, hat.cons hg (hm n idle) hh⟩
    obtain ⟨request', start⟩ := hv.started before
    cases e with
    | start t =>
        -- the environment uses a call slot once
        have slot : slotOf t = .call n := Option.some.inj hs
        exact hg.2 (by rw [slot]; rfl) _ start (by rw [slot]; rfl)
    | _ => cases hs

omit [Platform] in
/-- What others see of an event. -/
theorem rely_cons {i : Slot} (hg : environment v e) (hh : v'.hist = e :: v.hist)
    (hs : e.slot? ≠ some i) : Rely i v v' := by
  rintro n rfl request l hv
  exact hv.cons hg (mark_of_slot hs) hh

/-- Every operation is within the guarantee of its slot. -/
theorem guar_op {i : Slot} {o : Op} {a : o.Ans} {w : World} (hv : Sound v)
    (hl : v.live i = true) (hg : environment v (.op (L := lang) i o a)) :
    protocol.Guar i v (v.op (L := lang) i o a w) := by
  refine ⟨hv.cons hg rfl rfl (fun n idle => mark_of_slot fun h => ?_) (fun _ idle _ => idle),
    fun j hj => rely_cons hg rfl fun h => hj (Option.some.inj h).symm⟩
  rw [← Option.some.inj h, hl] at idle
  cases idle

omit [Platform] in
/-- Programs start no calls. -/
theorem isCall_of_internal {t : Task} (h : t.external = false) : (slotOf t).isCall = false := by
  cases t <;> first | rfl | cases h

/-- A program that starts no call is safe. -/
theorem safe_other {α : Type} {F : Footprint lang} {p : Proc α} {i : Slot} {v : NodeView}
    (hp : p.Within F) (hsp : ∀ t, F.spawn t → t.external = false) :
    protocol.Safe machine environment i p (fun _ _ => True) v := by
  refine Protocol.safe_footprint hp (fun _ _ _ _ => trivial) ?_ ?_ ?_ trivial
  · intro v _ hinv hl o _ c a w _ hg
    exact ⟨guar_op hinv hl hg, trivial⟩
  · intro v _ hinv _ t ht _ hg
    have ext := hsp t ht
    refine ⟨⟨hinv.cons hg rfl rfl (fun _ _ => rfl) fun n idle _ => ?_,
      fun j _ => ?_⟩, ?_, trivial⟩
    · refine (Function.update_of_ne (fun h => ?_) _ _).trans idle
      have call := isCall_of_internal ext
      rw [← show Slot.call n = slotOf t from h] at call
      cases call
    · rintro n - request l hv
      exact hv.cons hg rfl rfl
    · rintro n request rfl
      cases ext
  · intro v _ hinv _ j _ _ r _ hg
    refine ⟨⟨hinv.cons hg rfl rfl (fun _ _ => rfl) fun n idle _ => idle_update idle j,
      fun j _ => ?_⟩, trivial⟩
    rintro n - request l hv
    exact hv.cons hg rfl rfl

/-! ### The calls -/

/-- An operation of a call that makes no mark. -/
def Quiet (o : Op) : Prop := ∀ n a, mark n (.op (L := lang) (.call n) o a) = none

/-- A program without marks. -/
theorem safe_quiet {α : Type} {O : Op → Prop} {p : Proc α} (hp : p.Within (.ops O))
    (hO : ∀ o, O o → Quiet o) (hv : At n request l v) :
    protocol.Safe machine environment (.call n) p (fun _ v => At n request l v) v := by
  refine Protocol.safe_within hp (fun _ _ hi => hi.1 n rfl request l) ?_ hv
  intro v hv hinv hl o ho c a w _ hg
  exact ⟨guar_op hinv hl hg, hv.cons hg (hO o ho n a) rfl⟩

/-- A database operation that works makes its mark. -/
theorem storeOrInternal_safe (o : StoreOp) (hv : At n request l v) :
    protocol.Safe machine environment (.call n) (storeOrInternal o).run
      (fun r v => ∀ a, r = .ok a → At n request (.store o :: l) v) v := by
  refine Protocol.safe_bind fun v₁ hi hinv hl c a w he hg => ⟨guar_op hinv hl hg, ?_⟩
  cases a with
  | error e => exact fun _ h => by cases h
  | ok b =>
      intro _ _
      have hat : At n request l v₁ := hi.1 n rfl request l hv
      refine ⟨requestOf_cons hg hat.1, ?_⟩
      have here : mark n (.op (L := lang) (.call n) (.store o) (.ok b)) = some (.store o) :=
        if_pos rfl
      show marks n (_ :: v₁.hist) = _
      rw [marks, List.filterMap_cons_some here]
      exact congrArg _ hat.2

omit [Platform] in
theorem quiet_ensureDir {p : PathBuf} : ∀ o, EnsureDirOp p o → Quiet o := by
  rintro _ (_ | _ | _) <;> exact fun _ _ => rfl

omit [Platform] in
theorem quiet_save {p : PathBuf} : ∀ o, SaveOp p o → Quiet o := by
  rintro _ (_ | _) <;> exact fun _ _ => rfl

theorem sendOrInternal_safe (c : P2pCommand) (message : String) (hv : At n request l v) :
    protocol.Safe machine environment (.call n) (sendOrInternal c message).run
      (fun _ v => At n request l v) v :=
  safe_quiet (O := fun o => o = .chan (.sendCommand c))
    (sendOrInternal_within (c := c) (O := fun o => o = .chan (.sendCommand c)) rfl message)
    (fun _ h => by subst h; exact fun _ _ => rfl) hv

/-- Fetching the metadata is marked with what comes in. -/
theorem fetchMetadata_safe (hv : At n request l v) :
    protocol.Safe machine environment (.call n) (fetchMetadata request).run
      (fun r v => ∀ m, r = .ok m → At n request (.received m :: l) v) v := by
  refine Protocol.safe_seqA
    (safe_quiet (ensureDirExistsOrCreate_within _) quiet_ensureDir hv)
    (fun _ v hv => ?_) (fun _ _ _ _ h => by cases h)
  refine Protocol.safe_seqL (safe_quiet (O := fun o => o = .chan (.metadata .channel))
    (chan_within rfl) (fun _ h => by subst h; exact fun _ _ => rfl) hv) fun tx v hv => ?_
  refine Protocol.safe_seqE (sendOrInternal_safe _ _ hv) (fun _ v hv => ?_)
    (fun _ _ _ _ h => by cases h)
  refine Protocol.safe_bind fun v₁ hi hinv hl c a w he hg => ⟨guar_op hinv hl hg, ?_⟩
  have hat : At n request l v₁ := hi.1 n rfl request l hv
  cases a with
  | error u => exact fun _ h => by cases h
  | ok b =>
      cases b with
      | none => exact fun _ h => by cases h
      | some m =>
          intro m' hm'
          cases hm'
          refine ⟨requestOf_cons hg hat.1, ?_⟩
          have here : mark n (.op (L := lang) (.call n) (.chan (.metadata (.recv tx)))
              (.ok (some m))) = some (.received m) := if_pos rfl
          show marks n (_ :: v₁.hist) = _
          rw [marks, List.filterMap_cons_some here]
          exact congrArg _ hat.2

/-- The record comes from the metadata. -/
theorem prepareDownload_ends (path : PathBuf) (m : FileMetadata) :
    (prepareDownload path m).run.Ends fun x =>
      ∀ r, x = .ok r → r = pendingDownload (localMetadata path m) := by
  refine Prog.ends_bindE (fun _ => nofun) fun found => ?_
  split
  · exact nofun
  · refine Prog.ends_bindE (fun _ => nofun) fun _ => ?_
    refine Prog.ends_bindE (fun _ => nofun) fun _ => ?_
    refine Prog.ends_bindE (fun _ => nofun) fun _ => ?_
    intro r hr
    cases hr
    rfl

/-- Preparing the download makes no mark. -/
theorem prepareDownload_safe (m : FileMetadata) (hv : At n request l v) :
    protocol.Safe machine environment (.call n)
      (prepareDownload ⟨request.downloadPath⟩ m).run (fun _ v => At n request l v) v := by
  refine Protocol.safe_seqA (safe_quiet (O := fun o => o = .fs (.tryExists _)) (fs_within rfl)
    (fun _ h => by subst h; exact fun _ _ => rfl) hv) (fun found v hv => ?_) (fun _ _ hv => hv)
  split
  · exact hv
  refine Protocol.safe_seqA
    (safe_quiet (ensureDirExistsOrCreate_within _) quiet_ensureDir hv)
    (fun _ v hv => ?_) (fun _ _ hv => hv)
  refine Protocol.safe_seqA (safe_quiet (saveMetadata_within _) quiet_save hv)
    (fun _ v hv => ?_) (fun _ _ hv => hv)
  exact Protocol.safe_seqE (sendOrInternal_safe _ _ hv) (fun _ _ hv => hv) (fun _ _ hv => hv)

/-- An accepted call has done everything. -/
theorem downloadFile_safe (hv : At n request [] v) :
    protocol.Safe machine environment (.call n) (downloadFile request).run
      (fun r v => r = .ok () → Completed n v) v := by
  refine Protocol.safe_seqE (storeOrInternal_safe _ hv) (fun published v hv => ?_)
    (fun _ _ _ h => by cases h)
  split
  · exact fun h => by cases h
  refine Protocol.safe_seqE (storeOrInternal_safe _ (hv published rfl)) (fun pending v hv => ?_)
    (fun _ _ _ h => by cases h)
  split
  · exact fun h => by cases h
  refine Protocol.safe_seqE (fetchMetadata_safe (hv pending rfl)) (fun m v hv => ?_)
    (fun _ _ _ h => by cases h)
  refine Protocol.safe_seqE
    (Protocol.safe_ends (prepareDownload_ends _ m) (prepareDownload_safe m (hv m rfl)))
    (fun record v hv => ?_) (fun _ _ _ h => by cases h)
  obtain rfl := hv.1 record rfl
  exact Protocol.safe_mono (fun r v hr h => ⟨request, m, hr () h⟩)
    (storeOrInternal_safe _ hv.2)

/-! ### The runs of the node -/

/-- Every task keeps to the protocol. -/
theorem body_safe (t : Task) (v : NodeView) (hv : protocol.Pre t v) :
    protocol.Safe machine environment (slotOf t) (body t) (protocol.Post (slotOf t)) v := by
  by_cases hc : ∃ n request, t = .downloadFile n request
  · obtain ⟨n, request, rfl⟩ := hc
    refine Protocol.safe_seq (downloadFile_safe (hv n request rfl)) fun a v ha => ?_
    intro n' hn hr
    cases hn
    cases hr
    exact ha rfl
  · replace hc : ∀ n request, t ≠ .downloadFile n request := fun n request h => hc ⟨n, request, h⟩
    have safe : protocol.Safe machine environment (slotOf t) (body t) (fun _ _ => True) v := by
      exact safe_other (body_within t) fun _ => external_of_spawn
    refine Protocol.safe_mono ?_ (Protocol.safe_ends (body_ends hc) safe)
    intro a v ha n _ hr
    exact absurd hr (ha.1 _)

/-- A call that leaves accepted has done everything. -/
theorem exit_guar {i : Slot} {r : Res} (hv : Sound v) (hp : protocol.Post i r v)
    (hg : environment v (.exit i r)) : protocol.Guar i v (v.exit i r) := by
  refine ⟨⟨fun n h => ?_, fun n h => ?_⟩, fun j hj => ?_⟩
  · obtain ⟨idle, none⟩ := hv.fresh n fun e he => h e (List.mem_cons_of_mem _ he)
    exact ⟨idle_update idle i, none⟩
  · obtain ⟨e, he, hn⟩ := h
    obtain rfl | he := List.mem_cons.mp he
    · obtain ⟨rfl, rfl⟩ := eq_of_accepted hn
      obtain ⟨request, m, hat⟩ := hp n rfl rfl
      exact ⟨Function.update_self .., request, m, hat.cons hg rfl rfl⟩
    · obtain ⟨idle, request, m, hat⟩ := hv.accepted n ⟨e, he, hn⟩
      exact ⟨idle_update idle i, request, m, hat.cons hg rfl rfl⟩
  · rintro n - request l hat
    exact hat.cons hg rfl rfl

theorem valid : protocol.Valid machine environment where
  rely_refl _ _ _ _ _ _ h := h
  rely_trans _ _ _ _ h₁ h₂ n hn request l h := h₂ n hn request l (h₁ n hn request l h)
  guar_rely i j _ _ hij _ hG := hG.2 j hij.symm
  guar_inv _ _ _ _ hG := hG.1
  post_stable i r v v' hi hp n hn hr := by
    obtain ⟨request, m, hat⟩ := hp n hn hr
    exact ⟨request, m, hi.1 n hn request _ hat⟩
  start_rely t v _ _ hg j n _ request l hat := hat.cons hg rfl rfl
  start_inv t v hv _ hg := hv.cons hg rfl rfl (fun _ _ => rfl) fun n idle hne =>
    (Function.update_of_ne (fun h => hne (congrArg some h.symm)) _ _).trans idle
  start_pre t v hv _ hg n request ht := by
    subst ht
    exact ⟨if_pos rfl, (hv.fresh n (hg.2 rfl)).2⟩
  exit_guar i r v hv hp _ hg := exit_guar hv hp hg
  crash_inv v hv hg := hv.cons hg rfl rfl (fun _ _ => rfl) fun _ _ _ => rfl
  body_safe t v _ ht := body_safe t v ht

theorem sound_idle (w : World) : Sound (Pool.idle (L := lang) w).view where
  fresh _ _ := ⟨rfl, rfl⟩
  accepted _ h := by
    obtain ⟨_, he, _⟩ := h
    cases he

/-- The only pending record among the marks is the one of the metadata. -/
theorem key_of_complete {m : FileMetadata} {o : StoreOp} {k : PublishedFileKey}
    (h : .store o ∈ complete request m) (ho : (Op.store o).pendingKey = some k) : k = m.key := by
  simp only [complete, List.mem_cons, Mark.store.injEq, reduceCtorEq, List.not_mem_nil,
    or_false, false_or] at h
  obtain rfl | rfl | rfl := h
  · exact (Option.some.inj ho).symm
  · cases ho
  · cases ho

/-- The lookups come before the record, which comes last. -/
theorem lookups_of_complete {m : FileMetadata} {r : PendingDownloadRecord} {before : List Mark}
    (h : .store (.putPendingDownload r) :: before <:+ complete request m) :
    r.key = m.key ∧ .store (.publishedFileExists (.ofU64 request.fileId)) ∈ before ∧
      .store (.pendingDownloadExists (.ofU64 request.fileId)) ∈ before := by
  obtain h | h := List.suffix_cons_iff.mp h
  · cases h
    exact ⟨rfl, by simp, by simp⟩
  · have late := h.mem List.mem_cons_self
    simp at late

/-- A step of a call whose marks are complete changes pending records of
one key only. -/
theorem others_kept {q q' p : NodePool} {m : FileMetadata} {k : PublishedFileKey}
    (hs : Step machine environment q e q') (h : Reach machine environment q' p)
    (hat : At n request (complete request m) p.view) (he : e.slot? = some (.call n))
    (hk : k ≠ m.key) : q'.world.store.pending[k]? = q.world.store.pending[k]? := by
  have here : e ∈ p.hist := h.hist_suffix.mem (hs.hist_eq ▸ List.mem_cons_self)
  cases hs with
  | @op i o kont c a w' _ exec _ =>
      obtain rfl : i = .call n := Option.some.inj he
      by_cases ho : o.pendingKey = some k
      -- a write under `k` that worked is among the marks, a failed one changed nothing
      · cases o with
        | store o =>
            obtain ⟨rfl, rfl⟩ | ⟨_, _, rfl⟩ := exec_store exec
            · have made : Mark.store o ∈ marks n p.hist :=
                List.mem_filterMap.mpr ⟨_, here, if_pos rfl⟩
              rw [show marks n p.hist = complete request m from hat.2] at made
              exact absurd (key_of_complete made ho) hk
            · rfl
        | _ => cases ho
      · exact exec_pending_get exec ho
  | _ => rfl

/-- An accepted call stored one record, under the key of the metadata it
received; that was the key it looked up, and so the record is addressed
by content, exactly when the metadata has the requested key. -/
theorem content_addressed {w : World} {p : NodePool}
    (h : Reach machine environment (.idle w) p) {n : Nat} (hn : Accepted n p.hist) :
    ∃ request m, requestOf n p.hist = some request ∧
      (marks n p.hist).filterMap received? = [m] ∧
      (ContentAddressed w n request.fileId p ↔ m.key = .ofU64 request.fileId) := by
  obtain ⟨hinv, -⟩ := valid.holds_of_reach (sound_idle w) h
  obtain ⟨-, request, m, hat⟩ := hinv.accepted n hn
  have done : marks n p.hist = complete request m := hat.2
  have stored : storedRecords n p.hist =
      [pendingDownload (localMetadata ⟨request.downloadPath⟩ m)] := by
    rw [storedRecords, done]
    rfl
  refine ⟨request, m, hat.1, by rw [done]; rfl, fun hc => ?_, fun hm => ⟨?_, ?_, ?_⟩⟩
  -- the stored record has the key of the metadata, whatever was asked for
  · obtain ⟨r, hr, hk⟩ := hc.stored
    rw [stored] at hr
    cases hr
    exact hk
  · exact ⟨_, stored, hm⟩
  · intro r before hs
    rw [done] at hs
    obtain ⟨key, looked⟩ := lookups_of_complete hs
    rw [key, hm]
    exact looked
  · intro q q' e hq hs hp he k hk
    exact others_kept hs hp hat he (by rwa [hm])

end Proof

/-! ### A peer that answers with another file -/

section Example

open Reference

attribute [local instance] platform

/-- Call 0 asks for the file with this id and receives the metadata of
the file of one byte. -/
def answered (id : UInt64) : List (Move lang Choice) :=
  ask 0 ⟨id, "/d"⟩ ++ answer 0 0 oneByte ++ accept 0

/-- A call for another id is accepted all the same, and its record stands
under the key of the file that came. -/
theorem other_file_stored :
    ∃ p, Reach machine environment (.idle (emptyDir 1)) p ∧ Accepted 0 p.hist ∧
      requestOf 0 p.hist = some ⟨0, "/d"⟩ ∧ ¬ ContentAddressed (emptyDir 1) 0 0 p := by
  have run : ∃ p, Reach machine environment (.idle (emptyDir 1)) p ∧
      (Accepted 0 p.hist ∧ requestOf 0 p.hist = some ⟨0, "/d"⟩ ∧
        (storedRecords 0 p.hist).all (fun r => decide (r.key ≠ .ofU64 0)) = true) :=
    exists_reach_of_runScript (answered 0) (by decide +kernel)
  obtain ⟨p, hp, hn, hr, other⟩ := run
  refine ⟨p, hp, hn, hr, fun hc => ?_⟩
  obtain ⟨r, hs, hk⟩ := hc.stored
  rw [hs] at other
  simp [hk] at other

/-- A call that receives the file it asked for. -/
theorem content_addressed_oneByte :
    ∃ p, Reach machine environment (.idle (emptyDir 1)) p ∧
      ContentAddressed (emptyDir 1) 0 oneByte.key.toU64 p := by
  have run : ∃ p, Reach machine environment (.idle (emptyDir 1)) p ∧
      (Accepted 0 p.hist ∧ requestOf 0 p.hist = some ⟨oneByte.key.toU64, "/d"⟩ ∧
        (marks 0 p.hist).filterMap received? = [oneByte]) :=
    exists_reach_of_runScript (answered oneByte.key.toU64) (by decide +kernel)
  obtain ⟨p, hp, hn, hr, hm⟩ := run
  obtain ⟨request, m, hr', hm', iff⟩ := content_addressed hp hn
  have same : request = ⟨oneByte.key.toU64, "/d"⟩ := Option.some.inj (hr'.symm.trans hr)
  have own : m = oneByte := (List.cons.inj (hm'.symm.trans hm)).1
  rw [same, own] at iff
  exact ⟨p, hp, iff.mpr (Octets.ofU64_toU64 _).symm⟩

end Example

end RustDfs.ContentAddress
