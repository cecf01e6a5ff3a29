import RustDfs.Proofs.Effects

/-!
# `RustDfs.Proofs.Tasks`: the footprint of each task

`Task.footprint` puts the footprints of the programs together, one for
each task, and `body_within` shows that every task stays within its own.
A proof about runs uses it for the tasks that have nothing to do with
what it is about.
-/

set_option autoImplicit false

namespace RustDfs

open Lib Conc Prog

/-- Publishing a file processes it and queues its metadata. -/
inductive PublishOp (path : PathBuf) : Op → Prop
  | process {o : Op} (ho : ProcessOp path o) : PublishOp path o
  | put (m : FileMetadata) : PublishOp path (.store (.putFileMetadata m))

/-- Accepting a download prepares it and stores its record. -/
inductive AcceptOp : Op → Prop
  | prepare {o : Op} (ho : PrepareOp o) : AcceptOp o
  | put (r : PendingDownloadRecord) : AcceptOp (.store (.putPendingDownload r))

/-- The publisher reads a job, provides it, stores its record and deletes
the job. -/
inductive PublisherOp : Op → Prop
  | getNextFileMetadata : PublisherOp (.store .getNextFileMetadata)
  | putRecord (k v : Bytes) : PublisherOp (.swarm (.putRecord k v))
  | startProviding (k : Bytes) : PublisherOp (.swarm (.startProviding k))
  | putPublishedFile (r : PublishedFileRecord) : PublisherOp (.store (.putPublishedFile r))
  | deleteFileMetadata (k : PublishedFileKey) : PublisherOp (.store (.deleteFileMetadata k))
  | diverge : PublisherOp .diverge

/-- A download task downloads, completes, and leaves the active
downloads. -/
inductive DownloadTaskOp (key : PublishedFileKey) : Op → Prop
  | download {o : Op} (ho : DownloadOp key o) : DownloadTaskOp key o
  | complete {o : Op} (ho : CompleteOp key o) : DownloadTaskOp key o
  | removeActive : DownloadTaskOp key (.sync (.removeActive key))

/-- What a download task does. -/
def downloadTaskFootprint (key : PublishedFileKey) : Footprint lang :=
  ⟨DownloadTaskOp key, (downloadFootprint key).spawn, (downloadFootprint key).await⟩

/-- What a task does. -/
def Task.footprint : Task → Footprint lang
  | .publishFile _ _ request => .ops (PublishOp ⟨request.filePath⟩)
  | .downloadFile _ _ => .ops AcceptOp
  | .startUp => .ops StartUpOp
  | .swarmEvent => .ops SwarmEventOp
  | .command => .ops CommandOp
  | .tick => tickFootprint
  | .publisher _ => .ops PublisherOp
  | .download r => downloadTaskFootprint r.key
  | .chunk d => .ops (ChunkOp d)
  | .writeFile _ path _ => .ops (SaveOp path)

/-- Only calls change pending records, and downloads the one of their
key. -/
theorem of_pendingKey {t : Task} {o : Op} {k : PublishedFileKey} (ho : t.footprint.op o)
    (hk : o.pendingKey = some k) :
    (∃ n request, t = .downloadFile n request) ∨ ∃ r, t = .download r ∧ r.key = k := by
  cases t with
  | publishFile n fuel request =>
      obtain ⟨_ | _ | _ | _ | ⟨_, _, _ | _⟩ | ⟨_, _ | _⟩ | _⟩ | _ := ho <;> cases hk
  | downloadFile n request => exact .inl ⟨n, request, rfl⟩
  | startUp => obtain _ | _ := ho <;> cases hk
  | swarmEvent => obtain _ | ⟨_ | _⟩ := ho <;> cases hk
  | command => obtain _ | _ := ho <;> cases hk
  | tick => obtain _ | _ := ho <;> cases hk
  | publisher fuel => obtain _ | _ := ho <;> cases hk
  | download r =>
      refine .inr ⟨r, rfl, ?_⟩
      obtain ⟨_ | ⟨r', hr⟩⟩ | ⟨⟨_ | _ | _ | ⟨_ | _⟩ | _⟩ | _ | _ | _⟩ | _ := ho <;> cases hk
      · exact hr.symm
      · rfl
  | chunk d => obtain _ | _ | _ | _ | _ | _ | _ | ⟨_, _ | _⟩ := ho <;> cases hk
  | writeFile n path bytes => obtain _ | _ := ho <;> cases hk

/-- Only the chunk tasks of a file ask for its chunks. -/
theorem of_requestedFile {t : Task} {o : Op} {id : UInt64} (ho : t.footprint.op o)
    (hid : o.requestedFile = some id) : ∃ d, t = .chunk d ∧ d.fileId = id := by
  cases t with
  | publishFile n fuel request =>
      obtain ⟨_ | _ | _ | _ | ⟨_, _, _ | _⟩ | ⟨_, _ | _⟩ | _⟩ | _ := ho <;> cases hid
  | downloadFile n request => obtain ⟨⟨_ | _ | _⟩ | ⟨_ | _⟩ | _⟩ | _ := ho <;> cases hid
  | startUp => obtain _ | _ := ho <;> cases hid
  | swarmEvent => obtain _ | ⟨_ | _⟩ := ho <;> cases hid
  | command => obtain _ | _ := ho <;> cases hid
  | tick => obtain _ | _ := ho <;> cases hid
  | publisher fuel => obtain _ | _ := ho <;> cases hid
  | download r =>
      obtain ⟨_ | _⟩ | ⟨⟨_ | _ | _ | ⟨_ | _⟩ | _⟩ | _ | _ | _⟩ | _ := ho <;> cases hid
  | chunk d =>
      obtain _ | _ | _ | _ | _ | _ | _ | ⟨_, _ | _⟩ := ho <;> cases hid
      exact ⟨d, rfl, rfl⟩
  | writeFile n path bytes => obtain _ | _ := ho <;> cases hid

/-- Only the event loop has to do with the swarm. -/
theorem of_swarm {t : Task} {o : SwarmOp} (ho : t.footprint.op (.swarm o)) :
    slotOf t = .eventLoop := by
  cases t with
  | publishFile n fuel request =>
      obtain ⟨_ | _ | _ | _ | ⟨_, _, _ | _⟩ | ⟨_, _ | _⟩ | _⟩ | _ := ho
  | downloadFile n request => obtain ⟨⟨_ | _ | _⟩ | ⟨_ | _⟩ | _⟩ | _ := ho
  | download r => obtain ⟨_ | _⟩ | ⟨⟨_ | _ | _ | ⟨_ | _⟩ | _⟩ | _ | _ | _⟩ | _ := ho
  | chunk d => obtain _ | _ | _ | _ | _ | _ | _ | ⟨_, _ | _⟩ := ho
  | writeFile n path bytes => obtain _ | _ := ho
  | _ => rfl

/-- Programs start downloads, and downloads their own chunk tasks. -/
theorem of_spawn {t t' : Task} (h : t.footprint.spawn t') :
    (∃ r, t' = .download r) ∨
      ∃ r, t = .download r ∧ ∃ c dir, t' = .chunk ⟨r.key.toU64, c, dir⟩ := by
  cases t with
  | tick => exact .inl h
  | download r => exact .inr ⟨r, rfl, h⟩
  | _ => exact h.elim

/-- No program starts what the environment starts. -/
theorem external_of_spawn {t t' : Task} (h : t.footprint.spawn t') : t'.external = false := by
  obtain ⟨r, rfl⟩ | ⟨r, -, c, dir, rfl⟩ := of_spawn h <;> rfl

/-- Downloads wait for their own chunk tasks. -/
theorem of_await {t : Task} {j : Slot} (h : t.footprint.await j) :
    ∃ r, t = .download r ∧ ∃ c, j = .chunk r.key.toU64 c := by
  cases t with
  | download r => exact ⟨r, rfl, h⟩
  | _ => exact h.elim

theorem retry_within {ε α : Type} {O : Op → Prop} {action : ExceptT ε Proc α}
    (h : action.run.Within (.ops O)) (hd : O .diverge) (fuel : Nat) :
    (EventService.retry action fuel).Within (.ops O) := by
  induction fuel with
  | zero => exact diverge_within hd
  | succ fuel ih =>
      refine within_bind h fun r => ?_
      split
      · trivial
      · exact ih

section

variable [Platform]

theorem publishFile_within (fuel : Nat) (request : PublishFileRequest) :
    (publishFile fuel request).run.Within (.ops (PublishOp ⟨request.filePath⟩)) := by
  refine within_bindE (within_adapt _
    ((processFile_within _ _ _).mono_ops fun _ => .process)) fun m => ?_
  exact within_bindE (storeOrInternal_within (.put m)) fun _ => trivial

theorem downloadFile_within (request : DownloadFileRequest) :
    (downloadFile request).run.Within (.ops AcceptOp) := by
  refine within_bindE (storeOrInternal_within
    (.prepare (.publishedFileExists _))) fun published => ?_
  split
  · trivial
  · refine within_bindE (storeOrInternal_within
      (.prepare (.pendingDownloadExists _))) fun pending => ?_
    split
    · trivial
    · refine within_bindE ((fetchMetadata_within request).mono_ops fun _ => .prepare) fun m => ?_
      refine within_bindE ((prepareDownload_within _ m).mono_ops fun _ => .prepare) fun r => ?_
      exact storeOrInternal_within (.put r)

theorem filePublish_within (fuel : Nat) (r : Except FileStoreError FileMetadata) :
    (EventService.filePublish fuel r).Within (.ops PublisherOp) := by
  unfold EventService.filePublish
  split
  · refine within_bind (retry_within (provideAll_within .putRecord .startProviding _)
      .diverge fuel) fun _ => ?_
    refine within_bind (retry_within (store_within (.putPublishedFile _)) .diverge fuel)
      fun _ => ?_
    exact retry_within (store_within (.deleteFileMetadata _)) .diverge fuel
  · trivial

theorem publisherPass_within (fuel : Nat) :
    (publisherPass fuel).Within (.ops PublisherOp) := by
  refine within_bind (store_within .getNextFileMetadata) fun r => ?_
  split
  · trivial
  · exact filePublish_within _ _
  · exact filePublish_within _ _

open FileDownloadService in
theorem downloadTask_within (r : PendingDownloadRecord) :
    (downloadTask r).Within (downloadTaskFootprint r.key) := by
  have download : (download r).Within (downloadTaskFootprint r.key) :=
    Within.mono (F := downloadFootprint r.key) (fun _ => .download) (fun _ h => h)
      (fun _ h => h) (download_within r)
  refine within_bind_ends download (download_ends r) fun (completed, r') hr => ?_
  replace hr : r'.key = r.key := hr
  rw [← hr]
  have remove : (sync (.removeActive r'.key)).Within (downloadTaskFootprint r'.key) :=
    perform_within DownloadTaskOp.removeActive
  dsimp only
  split
  · have complete : (processCompleted r').run.Within (downloadTaskFootprint r'.key) :=
      (processCompleted_within r').of_ops fun _ => .complete
    exact within_bind complete fun _ => within_bind remove fun _ => trivial
  · exact within_bind remove fun _ => trivial

/-- Every task stays within its footprint. -/
theorem body_within (t : Task) : (body t).Within t.footprint := by
  cases t with
  | publishFile n fuel request =>
      exact within_bind (publishFile_within fuel request) fun _ => trivial
  | downloadFile n request => exact within_bind (downloadFile_within request) fun _ => trivial
  | startUp => exact within_bind provideAllPublishedFiles_within fun _ => trivial
  | swarmEvent =>
      refine within_bind (swarm_within .selectNextSome) fun e => ?_
      exact within_bind ((handleSwarmEvent_within e).mono_ops fun _ => .serve) fun _ => trivial
  | command =>
      refine within_bind (chan_within .recvCommand) fun c => ?_
      exact within_bind (handleCommand_within c) fun _ => trivial
  | tick => exact within_bind workOnPendingDownloads_within fun _ => trivial
  | publisher fuel => exact within_bind (publisherPass_within fuel) fun _ => trivial
  | download r => exact downloadTask_within r
  | chunk d => exact chunkTask_within d
  | writeFile n path bytes => exact within_bind (writeFile_within path bytes) fun _ => trivial

/-- Only a `download_file` call ends as one. -/
theorem body_ends {t : Task} (ht : ∀ n request, t ≠ .downloadFile n request) :
    (body t).Ends fun r => ∀ x, r ≠ .accepted x := by
  cases t with
  | publishFile n fuel request => exact ends_bind (ends_true _) fun _ _ => nofun
  | downloadFile n request => exact absurd rfl (ht n request)
  | startUp => exact ends_bind (ends_true _) fun _ _ => nofun
  | swarmEvent =>
      exact ends_bind (ends_true _) fun _ _ => ends_bind (ends_true _) fun _ _ => nofun
  | command =>
      exact ends_bind (ends_true _) fun _ _ => ends_bind (ends_true _) fun _ _ => nofun
  | tick => exact ends_bind (ends_true _) fun _ _ => nofun
  | publisher fuel => exact ends_bind (ends_true _) fun _ _ => nofun
  | download r =>
      refine ends_bind (ends_true _) fun (completed, r') _ => ?_
      have remove : (sync (.removeActive r'.key) >>= fun _ => pure Res.unit).Ends
          fun r => ∀ x, r ≠ .accepted x := ends_bind (ends_true _) fun _ _ => nofun
      dsimp only
      split
      · exact ends_bind (ends_true _) fun _ _ => remove
      · exact remove
  | chunk d =>
      refine ends_bind (ends_true _) fun _ _ => ends_bind (ends_true _) fun _ _ => ?_
      exact ends_bind (ends_true _) fun _ _ => nofun
  | writeFile n path bytes => exact ends_bind (ends_true _) fun _ _ => nofun

end

end RustDfs
