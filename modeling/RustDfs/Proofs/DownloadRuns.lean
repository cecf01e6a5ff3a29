import RustDfs.Proofs.DownloadComplete

/-!
# `RustDfs.Proofs.DownloadRuns`: the runs around a download

What the event loop serves from a pending record, the tasks that have
nothing to do with the download, and the soundness of the protocol: in
every run that leaves the download alone, `Sound` holds.
-/

set_option autoImplicit false

namespace RustDfs.Downloading

open Lib Conc Std

variable [Platform] {m : FileMetadata} {ls : List Loc} {v v' : NodeView}

/-! ### Serving a chunk -/

section Serving

open EventService

omit [Platform] in
/-- What is served anew is sent for the request the event loop is at. -/
theorem mem_served {o : Op} {a : o.Ans} {h : List NodeEvent} {x : FileChunkRequest × Bytes}
    (hx : x ∈ served (.op (L := lang) .eventLoop o a :: h)) :
    x ∈ served h ∨ (fromPending h = true ∧ chunkRequest? h = some x.1 ∧
      ∃ ch, o = .swarm (.sendResponse ch (.success x.2))) := by
  rw [served.eq_def] at hx
  split at hx
  · cases ‹_ = []›
  · next heq =>
      cases heq
      split at hx
      · next hp hr =>
          obtain rfl | hx := List.mem_cons.mp hx
          · exact .inr ⟨hp, hr, _, rfl⟩
          · exact .inl hx
      · exact .inl hx
  · next heq =>
      cases heq
      exact .inl hx

/-- The event loop serves a pending record, and the request is for a chunk
of the file. -/
def Mine (m : FileMetadata) (request : FileChunkRequest) (v : NodeView) : Prop :=
  chunkRequest? v.hist = some request ∧ fromPending v.hist = true ∧
    request.fileId = m.key.toU64

theorem Mine.of_stable {request : FileChunkRequest}
    (hi : (protocol m ls).Interferes .eventLoop v v') (h : Mine m request v') :
    Mine m request v := by
  obtain ⟨hr, hp⟩ := hi.1.request rfl
  rw [Mine, hr, hp] at h
  exact h

/-- An operation of the event loop. What it sends for a chunk of the file
passes. -/
theorem guar_loop (hls : directory m ⊆ ls) (hv : Sound m ls v) {o : Op} {a : o.Ans} {c : Choice}
    {w : World} (hl : v.live .eventLoop = true) (he : o.exec c v.world = some (a, w))
    (hg : solitary m ls v (.op .eventLoop o a)) (ho : o.pendingKey = none)
    (hsend : ∀ ch bytes, o = .swarm (.sendResponse ch (.success bytes)) →
      ∀ request, Mine m request v → Accepts m request.chunkId bytes) :
    (protocol m ls).Guar .eventLoop v (v.op .eventLoop o a w) := by
  refine guar_other hls rfl hv hl he hg (exec_pending_get he (by rw [ho]; nofun)) ?_
  intro x hx hid
  obtain hx | ⟨hp, hr, ch, rfl⟩ := mem_served hx
  · exact hv.served x hx hid
  · exact hsend ch x.2 rfl x.1 ⟨hr, hp, hid⟩

theorem sendFileResponse_safe (hls : directory m ⊆ ls) (channel : ResponseChannel)
    {response : FileResponse}
    (hv : ∀ bytes, response = .success bytes →
      ∀ request, Mine m request v → Accepts m request.chunkId bytes) :
    (protocol m ls).Safe machine (solitary m ls) .eventLoop (sendFileResponse channel response)
      (fun _ _ => True) v := by
  intro v₁ hi hinv hl c a w he hg
  refine ⟨guar_loop hls hinv hl he hg rfl ?_, trivial⟩
  rintro ch bytes h request hmine
  cases h
  exact hv bytes rfl request (hmine.of_stable hi)

/-- What a request for a chunk of the file is served from. -/
def Servable (m : FileMetadata) (chunkId : Nat) (dir : PathBuf) (v : NodeView) : Prop :=
  ∀ request, Mine m request v →
    request.chunkId = chunkId ∧ dir = m.chunksDir ∧ Settled m chunkId v

theorem Servable.stable {c : Nat} {dir : PathBuf} (h : Servable m c dir v)
    (hi : (protocol m ls).Interferes .eventLoop v v') : Servable m c dir v' := by
  intro request hmine
  obtain ⟨same, hdir, settled⟩ := h request (hmine.of_stable hi)
  exact ⟨same, hdir, hi.1.settled c settled⟩

theorem readChunk_safe (hls : directory m ⊆ ls) (channel : ResponseChannel) {c : Nat}
    {dir dir' : PathBuf} {ext : String} (hv : Servable m c dir v)
    (hm : ∀ request, Mine m request v → dir' = m.chunksDir ∧ ext = m.chunkFileExtension) :
    (protocol m ls).Safe machine (solitary m ls) .eventLoop (readChunk c channel dir' ext)
      (fun _ _ => True) v := by
  have read : (protocol m ls).Safe machine (solitary m ls) .eventLoop
      (fs (.read (dir'.join (chunkFileName c ext)))).run
      (fun x v => ∀ bytes, x = .ok bytes →
        ∀ request, Mine m request v → Accepts m request.chunkId bytes) v := by
    intro v₁ hi hinv hl ch a w he hg
    refine ⟨guar_loop hls hinv hl he hg rfl (by simp), ?_⟩
    rintro bytes rfl request hmine
    have before : Mine m request v₁ := hmine
    obtain ⟨rfl, -, settled⟩ := hv.stable hi request before
    obtain ⟨rfl, rfl⟩ := hm request (before.of_stable hi)
    obtain ⟨bs, hb, accepts, -⟩ := settled.verified
    have found : v₁.world.fs.bytes (chunkLoc m request.chunkId) = some bytes := exec_read he
    rw [hb] at found
    cases found
    exact accepts
  refine Protocol.safe_seq read ?_
  intro x v hx
  split
  · exact sendFileResponse_safe hls channel fun bytes h => by
      cases h
      exact hx _ rfl
  · exact sendFileResponse_safe hls channel (by simp)

theorem getFromChunks_safe (hls : directory m ⊆ ls) (channel : ResponseChannel) {c : Nat}
    {dir : PathBuf} (hv : Servable m c dir v) :
    (protocol m ls).Safe machine (solitary m ls) .eventLoop (getFromChunks c channel dir)
      (fun _ _ => True) v := by
  have read : (protocol m ls).Safe machine (solitary m ls) .eventLoop
      (fs (.read (metadataPath dir))).run
      (fun x v => Servable m c dir v ∧ ∀ bytes, x = .ok bytes →
        ∀ request, Mine m request v → bytes = m.toBytes) v := by
    intro v₁ hi hinv hl ch a w he hg
    replace he : Op.exec (.fs (.read (metadataPath dir))) ch v₁.world = some (a, w) := he
    have same : ∀ l, w.fs l = v₁.world.fs l := fun l => exec_fs_apply he List.not_mem_nil
    have servable := hv.stable hi
    refine ⟨guar_loop hls hinv hl he hg rfl (by simp), fun request hmine => ?_, ?_⟩
    · have before : Mine m request v₁ := hmine
      obtain ⟨hc, hdir, settled⟩ := servable request before
      exact ⟨hc, hdir, settled.verified.frame (same _) (List.suffix_cons _ _), settled.idle,
        settled.memory, fun s hs => settled.stored s ((exec_pending_get he fun h => by cases h).symm.trans hs)⟩
    · rintro bytes rfl request hmine
      have before : Mine m request v₁ := hmine
      obtain ⟨-, rfl, -⟩ := servable request before
      exact Option.some.inj ((exec_read he).symm.trans hinv.metadata)
  refine Protocol.safe_seq read ?_
  rintro x v ⟨hv, hx⟩
  split
  · next bytes =>
      split
      · next metadata hdecode =>
          split
          · exact sendFileResponse_safe hls channel (by simp)
          · refine readChunk_safe hls channel hv fun request hmine => ?_
            have read := hx bytes rfl request hmine
            subst read
            rw [Platform.decode_toBytes] at hdecode
            cases hdecode
            exact ⟨rfl, rfl⟩
      · exact sendFileResponse_safe hls channel (by simp)
  · exact sendFileResponse_safe hls channel (by simp)

/-- A request served from the pending downloads: what is recorded is
settled. -/
theorem tryFromPendingDownloads_safe (hls : directory m ⊆ ls) (request : FileChunkRequest)
    (channel : ResponseChannel) (hv : chunkRequest? v.hist = some request) :
    (protocol m ls).Safe machine (solitary m ls) .eventLoop
      (tryFromPendingDownloads request.fileId request.chunkId channel) (fun _ _ => True) v := by
  have look : (protocol m ls).Safe machine (solitary m ls) .eventLoop
      (store (.getPendingDownload (.ofU64 request.fileId))).run
      (fun x v => ∀ record, x = .ok (some record) → request.chunkId ∈ record.downloadedChunks →
        Servable m request.chunkId record.chunksDir v) v := by
    intro v₁ hi hinv hl ch a w he hg
    refine ⟨guar_loop hls hinv hl he hg rfl (by simp), ?_⟩
    obtain ⟨rfl, rfl⟩ | ⟨err, rfl, rfl⟩ := exec_store he
    · intro record hrecord hc request' hmine
      have current : chunkRequest? v₁.hist = some request := (hi.1.request rfl).1.trans hv
      obtain ⟨hr, -, hid⟩ := hmine
      obtain rfl : request = request' := Option.some.inj (current.symm.trans hr)
      have pending : v₁.world.store.pending[m.key]? = some record := by
        rw [← Octets.ofU64_toU64 m.key, ← hid]
        exact Except.ok.inj hrecord
      have settled := hinv.stored record pending _ hc
      exact ⟨rfl, hinv.record record pending, settled.verified.frame rfl (List.suffix_cons _ _),
        settled.idle, settled.memory, settled.stored⟩
    · simp
  refine Protocol.safe_seq look ?_
  intro x v hx
  split
  · exact sendFileResponse_safe hls channel (by simp)
  · next record =>
      split
      · next hc => exact getFromChunks_safe hls channel (hx record rfl hc)
      · exact sendFileResponse_safe hls channel (by simp)
  · exact sendFileResponse_safe hls channel (by simp)

/-- A request for a chunk. -/
theorem request_safe (hls : directory m ⊆ ls) (request : FileChunkRequest)
    (channel : ResponseChannel)
    (hv : chunkRequest? v.hist = some request ∧ fromPending v.hist = false) :
    (protocol m ls).Safe machine (solitary m ls) .eventLoop
      (fileDownload (.request request channel)) (fun _ _ => True) v := by
  have look : (protocol m ls).Safe machine (solitary m ls) .eventLoop
      (store (.getPublishedFile (.ofU64 request.fileId))).run
      (fun _ v => chunkRequest? v.hist = some request ∧ fromPending v.hist = false) v := by
    intro v₁ hi hinv hl ch a w he hg
    obtain ⟨hr, hp⟩ := hi.1.request rfl
    exact ⟨guar_loop hls hinv hl he hg rfl (by simp), hr.trans hv.1, hp.trans hv.2⟩
  refine Protocol.safe_seq look ?_
  rintro x v ⟨hr, hp⟩
  split
  · exact tryFromPendingDownloads_safe hls request channel hr
  · -- A published record: nothing is served from the pending one.
    refine getFromChunks_safe hls channel fun request' hmine => ?_
    have := hmine.2.1
    rw [hp] at this
    cases this
  · exact sendFileResponse_safe hls channel (by simp)

/-- The chunk request an event brings. -/
def requestIn? : SwarmEvent → Option FileChunkRequest
  | .fileDownload (.request request _) => some request
  | _ => none

/-- A pass of the event loop with a swarm event. -/
theorem swarmEvent_safe (hls : directory m ⊆ ls) (v : NodeView) :
    (protocol m ls).Safe machine (solitary m ls) .eventLoop (body .swarmEvent)
      (fun _ _ => True) v := by
  have select : (protocol m ls).Safe machine (solitary m ls) .eventLoop (swarm .selectNextSome)
      (fun event v => fromPending v.hist = false ∧ chunkRequest? v.hist = requestIn? event) v := by
    intro v₁ _ hinv hl ch a w he hg
    refine ⟨guar_loop hls hinv hl he hg rfl (by simp), rfl, ?_⟩
    cases a with
    | fileDownload event => cases event <;> rfl
    | _ => rfl
  refine Protocol.safe_seq select ?_
  rintro event v ⟨hp, hr⟩
  -- Without a chunk request nothing counts as served.
  have other : chunkRequest? v.hist = none →
      (protocol m ls).Safe machine (solitary m ls) .eventLoop (handleSwarmEvent event)
        (fun _ _ => True) v := by
    intro hnone
    refine Protocol.safe_mono (fun _ _ _ => trivial) (Protocol.safe_within
      (A := fun v => chunkRequest? v.hist = none) (handleSwarmEvent_within event) ?_ ?_ hnone)
    · intro v v' hi h
      exact (hi.1.request rfl).1.trans h
    · intro v h hinv hl o ho ch a w he hg
      refine ⟨guar_loop hls hinv hl he hg ?_ fun _ _ _ request hmine => ?_, ?_⟩
      · obtain _ | _ := ho <;> rfl
      · have := hmine.1
        rw [h] at this
        cases this
      · obtain _ | _ := ho <;> exact h
  refine Protocol.safe_seq (B := fun _ _ => True) ?_ (fun _ _ _ => trivial)
  cases event with
  | fileDownload event =>
      cases event with
      | request request channel => exact request_safe hls request channel ⟨hr, hp⟩
      | _ => exact other hr
  | _ => exact other hr

end Serving

/-! ### The other tasks -/

/-- A `download_file` call: the guard says that it is not about the file. -/
theorem downloadFile_safe (hls : directory m ⊆ ls) (n : Nat) (request : DownloadFileRequest)
    (v : NodeView) :
    (protocol m ls).Safe machine (solitary m ls) (.call n) (downloadFile request).run
      (fun _ _ => True) v := by
  have notLoop : Slot.call n ≠ .eventLoop := nofun
  have prepare : ∀ {α : Type} {p : Proc α} {v : NodeView}, p.Within (.ops PrepareOp) →
      (protocol m ls).Safe machine (solitary m ls) (.call n) p (fun _ _ => True) v := fun hp =>
    safe_other hls rfl hp (by rintro _ (⟨_ | _ | _⟩ | ⟨_ | _⟩ | _) <;> nofun)
      (fun h => absurd h notLoop) (fun _ h => h.elim) (fun _ h => h.elim)
  refine Protocol.safe_seqE (prepare (storeOrInternal_within (.publishedFileExists _))) ?_
    (fun _ _ _ => trivial)
  intro published v _
  split
  · trivial
  refine Protocol.safe_seqE (prepare (storeOrInternal_within (.pendingDownloadExists _))) ?_
    (fun _ _ _ => trivial)
  intro pending v _
  split
  · trivial
  refine Protocol.safe_seqE (prepare (fetchMetadata_within request)) ?_ (fun _ _ _ => trivial)
  intro metadata v _
  refine Protocol.safe_seqE (prepare (prepareDownload_within _ metadata)) ?_
    (fun _ _ _ => trivial)
  intro r v _ v₁ _ hinv hl c a w he hg
  have other : w.store.pending[m.key]? = v₁.world.store.pending[m.key]? := by
    obtain ⟨rfl, rfl⟩ | ⟨err, rfl, rfl⟩ := exec_store he
    · have ne : r.key ≠ m.key := hg.2.2.1 (n, r) rfl
      show (v₁.world.store.pending.insert r.key r)[m.key]? = _
      rw [get_put, if_neg ne]
    · rfl
  refine ⟨guar_other hls rfl hinv hl he hg other ?_, trivial⟩
  rw [served_op fun h => absurd h notLoop]
  exact hinv.served

/-- A task that has nothing to do with the file. -/
theorem other_safe (hls : directory m ⊆ ls) {t : Task} (hw : worksOn m.key (slotOf t) = false)
    (hs : t ≠ .swarmEvent) (hd : ∀ n request, t ≠ .downloadFile n request) (v : NodeView) :
    (protocol m ls).Safe machine (solitary m ls) (slotOf t) (body t) (fun _ _ => True) v := by
  have notOwn : ∀ r, t = .download r → r.key ≠ m.key := by
    rintro r rfl h
    exact absurd hw (by simp [slotOf, worksOn, h])
  have apart : ∀ k : PublishedFileKey, k ≠ m.key → k.toU64 ≠ m.key.toU64 := fun k h he =>
    h (Octets.toU64_inj.mp he)
  refine safe_other hls hw (body_within t) (fun o ho h => ?_) (fun hi o ho ch r h => ?_)
    (fun t' ht' => ?_) (fun j hj => ?_)
  · obtain ⟨n, request, rfl⟩ | ⟨r, rfl, h⟩ := of_pendingKey ho h
    · exact hd n request rfl
    · exact notOwn r rfl h
  · subst h
    cases t with
    | startUp => cases ho
    | swarmEvent => exact hs rfl
    | command => cases ho
    | tick => cases ho
    | publisher fuel => cases ho
    | _ => cases hi
  · obtain ⟨r, rfl⟩ | ⟨r, rfl, c, dir, rfl⟩ := of_spawn ht'
    · exact .inl ⟨r, rfl⟩
    · exact .inr ⟨_, rfl, apart _ (notOwn r rfl)⟩
  · obtain ⟨r, rfl, c, rfl⟩ := of_await hj
    exact decide_eq_false (apart _ (notOwn r rfl))

/-- Every task keeps to the protocol. -/
theorem body_safe (hdist : Distinct m) (hls : directory m ⊆ ls) (t : Task)
    (hp : Pre m t v) :
    (protocol m ls).Safe machine (solitary m ls) (slotOf t) (body t) (Post m (slotOf t)) v := by
  by_cases hw : worksOn m.key (slotOf t) = false
  · refine Protocol.safe_mono (Q := fun _ _ => True) (fun r v _ c c' hi _ => ?_) ?_
    · rw [hi] at hw
      exact absurd hw (by simp [worksOn])
    · by_cases hs : t = .swarmEvent
      · subst hs
        exact swarmEvent_safe hls v
      · by_cases hd : ∃ n request, t = .downloadFile n request
        · obtain ⟨n, request, rfl⟩ := hd
          exact Protocol.safe_seq (downloadFile_safe hls n request v) fun _ _ _ => trivial
        · exact other_safe hls hw hs (fun n request h => hd ⟨n, request, h⟩) v
  · cases t with
    | download r =>
        have hk : r.key = m.key := by simpa [slotOf, worksOn] using hw
        have ne : ∀ c, Slot.download r.key ≠ .chunk m.key.toU64 c := fun c => (by simp)
        refine Protocol.safe_mono (Q := fun _ _ => True) (fun _ _ _ c _ hi _ => absurd hi (ne c)) ?_
        show (protocol m ls).Safe machine _ (.download r.key) _ _ _
        rw [hk]
        exact downloadTask_safe hdist (hp.download r rfl hk)
    | chunk d =>
        have hid : d.fileId = m.key.toU64 := by simpa [slotOf, worksOn] using hw
        obtain ⟨hdir, hc⟩ := hp.chunk d rfl hid
        obtain ⟨fileId, c, dir⟩ := d
        obtain rfl : fileId = m.key.toU64 := hid
        obtain rfl : dir = m.chunksDir := hdir
        exact chunkTask_safe hdist hc
    | _ => exact absurd rfl hw

/-! ### Soundness -/

omit [Platform] in
theorem external_other {t : Task} (ht : t.external = true) (k : PublishedFileKey) :
    worksOn k (slotOf t) = false := by
  cases t <;> first | rfl | cases ht

theorem start_sound (hv : Sound m ls v) {t : Task} (ht : t.external = true) :
    Sound m ls (v.start t (slotOf t)) ∧ ∀ j, Rely m ls j v (v.start t (slotOf t)) :=
  guar_live (v.start t (slotOf t)) hv rfl rfl rfl (external_other ht m.key) rfl rfl rfl ⟨rfl, rfl⟩
    rfl

/-- The download leaves, or a slot that has nothing to do with it. A chunk
task waits for its download. -/
theorem exit_guar (hv : Sound m ls v) {i : Slot} {r : Res} (hk : machine.keeps i = false) :
    (protocol m ls).Guar i v (v.exit i r) := by
  by_cases hi : worksOn m.key i = false
  · obtain ⟨hs, hr⟩ := guar_live (v.exit (L := lang) i r) hv rfl rfl rfl hi rfl rfl rfl ⟨rfl, rfl⟩
      rfl
    exact ⟨hs, fun j _ => hr j⟩
  obtain rfl : i = .download m.key := by
    cases i with
    | download k => exact congrArg Slot.download (by simpa [worksOn] using hi)
    | chunk id c => cases hk
    | _ => exact absurd rfl hi
  have ended : Function.update v.live (.download m.key) false (.download m.key) = false :=
    Function.update_self ..
  have ended' : ∀ {A : Prop}, (v.exit (L := lang) (.download m.key) r).live (.download m.key) = true →
      A := fun h => by
    rw [show (v.exit (L := lang) (.download m.key) r).live (.download m.key) = false from ended] at h
    cases h
  have suffix : v.hist <:+ .exit (L := lang) (.download m.key) r :: v.hist := List.suffix_cons _ _
  have settled : ∀ c, Settled m c v → Settled m c (v.exit (L := lang) (.download m.key) r) := by
    intro c h
    have ne : Slot.chunk m.key.toU64 c ≠ .download m.key := by simp
    have idle : Function.update v.live (.download m.key) false (.chunk m.key.toU64 c) = false := by
      rw [Function.update_of_ne ne]
      exact h.idle
    exact ⟨h.verified.frame rfl suffix, idle, ended', h.stored⟩
  have whole := hv.whole (v.exit (L := lang) (.download m.key) r) rfl rfl rfl
  exact ⟨⟨hv.metadata, hv.record, fun s hs c hc => settled c (hv.stored s hs c hc), ended', ended',
      hv.served, whole.1, whole.2⟩,
    fun j hj => ⟨fun h => absurd h hj, fun h => absurd h hj, fun _ _ _ => rfl, settled,
      fun _ => ⟨rfl, rfl⟩⟩⟩

theorem crash_sound (hv : Sound m ls v) : Sound m ls (v.crash v.world.crash) := by
  have suffix : v.hist <:+ .crash (L := lang) :: v.hist := List.suffix_cons _ _
  have whole := hv.whole (v.crash (L := lang) v.world.crash) rfl rfl rfl
  refine ⟨hv.metadata, hv.record, fun s hs c hc => ?_, nofun, nofun, hv.served, whole.1, whole.2⟩
  have h := hv.stored s hs c hc
  exact ⟨h.verified.frame rfl suffix, rfl, nofun, h.stored⟩

theorem valid (hdist : Distinct m) (hls : directory m ⊆ ls) :
    (protocol m ls).Valid machine (solitary m ls) where
  rely_refl _ _ := ⟨fun _ h => ⟨h, rfl, rfl⟩, fun _ _ _ _ => rfl, fun _ _ _ => rfl, fun _ h => h,
    fun _ => ⟨rfl, rfl⟩⟩
  rely_trans i v₁ v₂ v₃ h₁ h₂ := by
    refine ⟨fun hi hl => ?_, fun hi hx l hl => ?_, fun c hc hi => ?_, fun c h => ?_, fun hi => ?_⟩
    · obtain ⟨hl₂, hm₂, hr₂⟩ := h₁.download hi hl
      obtain ⟨hl₃, hm₃, hr₃⟩ := h₂.download hi hl₂
      exact ⟨hl₃, hm₃.trans hm₂, hr₃.trans hr₂⟩
    · exact (h₂.outside hi hx l hl).trans (h₁.outside hi hx l hl)
    · exact (h₂.chunk c hc hi).trans (h₁.chunk c hc hi)
    · exact h₂.settled c (h₁.settled c h)
    · obtain ⟨hr₂, hp₂⟩ := h₁.request hi
      obtain ⟨hr₃, hp₃⟩ := h₂.request hi
      exact ⟨hr₃.trans hr₂, hp₃.trans hp₂⟩
  guar_rely i j _ _ hij _ hG := hG.2 j hij.symm
  guar_inv _ _ _ _ hG := hG.1
  post_stable i r v v' hi hp := by
    rintro c c' rfl rfl
    obtain ⟨rfl, verified⟩ := hp c c' rfl rfl
    exact ⟨rfl, onChunk_verified.stable verified.lt hi verified⟩
  start_rely t v hv _ hg := (start_sound hv hg.1.1).2
  start_inv t v hv _ hg := (start_sound hv hg.1.1).1
  start_pre t v _ _ hg := by
    have ext : t.external = true := hg.1.1
    refine ⟨?_, ?_⟩
    · rintro r rfl
      cases ext
    · rintro d rfl
      cases ext
  exit_guar i r v hv _ hk _ := exit_guar hv hk
  crash_inv v hv _ := crash_sound hv
  body_safe t _ _ hp := body_safe hdist hls t hp

theorem sound_idle {w : World} (hw : Start m w)
    (hfree : Exclusive m ls → ∀ d, destination m = some d → w.fs (loc d) = none) :
    Sound m ls (Pool.idle (L := lang) w).view where
  metadata := hw.metadata
  record s hs := by
    replace hs : w.store.pending[m.key]? = some s := hs
    rw [hw.pending] at hs
    cases hs
    rfl
  stored s hs c hc := by
    replace hs : w.store.pending[m.key]? = some s := hs
    rw [hw.pending] at hs
    cases hs
    exact absurd hc (Finset.notMem_empty _)
  memory := nofun
  complete := nofun
  served := nofun
  restored hx d hd := .inl (hfree hx d hd)
  done := by
    rintro _ _ _ ⟨e, he, -⟩
    cases he

/-- In every run that leaves the download alone the invariant holds. -/
theorem sound_of_reach (hdist : Distinct m) (hls : directory m ⊆ ls) {w : World} {p : NodePool}
    (hw : Start m w)
    (hfree : Exclusive m ls → ∀ d, destination m = some d → w.fs (loc d) = none)
    (h : Reach machine (solitary m ls) (.idle w) p) : Sound m ls p.view :=
  ((valid hdist hls).holds_of_reach (sound_idle hw hfree) h).1

end RustDfs.Downloading
