import RustDfs.Conc.Runs
import RustDfs.Model.Node

/-!
# `RustDfs.Proofs.Joins`: nobody waits for nothing

The only wait of the source is the `join_next` loop of a download, and it
has a task to wait for in every round. So a program that waits for tasks
always waits for one (`body_joins`). Everything else below is read off
the text of the programs: they perform operations and start tasks.

Most operations are answered in every world (`Prompt`). A program that
performs no others comes to its end wherever it runs
(`returns_of_prompt`).
-/

set_option autoImplicit false

namespace RustDfs.Joins

open Lib Conc Prog

/-! ### Operations that are always answered -/

section Prompt

variable [Platform]

/-- The operation is answered in every world. -/
def Prompt (o : Op) : Prop := ∀ w, ∃ c a w', o.exec c w = some (a, w')

theorem prompt_fs (o : FsOp) : Prompt (.fs o) := fun w =>
  ⟨.ioError ⟨.other, ""⟩ 0, .error ⟨.other, ""⟩, { w with fs := o.partialEffect w.fs 0 }, rfl⟩

theorem prompt_store (o : StoreOp) : Prompt (.store o) := fun w =>
  ⟨.ok, .ok (o.run w.store).1, { w with store := (o.run w.store).2 }, rfl⟩

theorem prompt_events (o : EventOp) : Prompt (.events o) := fun w =>
  ⟨.ok, (o.exec w.events).1, { w with events := (o.exec w.events).2 }, rfl⟩

theorem prompt_swarm {o : SwarmOp} (h : ∀ s, ∃ x, o.exec .ok s = some x) :
    Prompt (.swarm o) := by
  intro w
  obtain ⟨⟨a, s⟩, hx⟩ := h w.swarm
  exact ⟨.ok, a, { w with swarm := s }, by simp only [Op.exec, hx, Option.map_some]⟩

theorem prompt_getProviders (k : Bytes) : Prompt (.swarm (.getProviders k)) :=
  prompt_swarm fun _ => ⟨_, rfl⟩

theorem prompt_sendResponse (c : ResponseChannel) (r : FileResponse) :
    Prompt (.swarm (.sendResponse c r)) :=
  prompt_swarm fun _ => ⟨_, rfl⟩

omit [Platform] in
theorem putRecord_answers (k v : Bytes) (s : Swarm) :
    ∃ x, SwarmOp.exec (.putRecord k v) .ok s = some x := by
  simp only [SwarmOp.exec]
  split
  · exact ⟨_, rfl⟩
  · split
    · exact ⟨_, rfl⟩
    · split <;> exact ⟨_, rfl⟩

omit [Platform] in
theorem startProviding_answers (k : Bytes) (s : Swarm) :
    ∃ x, SwarmOp.exec (.startProviding k) .ok s = some x := by
  simp only [SwarmOp.exec]
  split
  · exact ⟨_, rfl⟩
  · split <;> exact ⟨_, rfl⟩

/-- A program that performs such operations only comes to its end,
whatever they answer. -/
theorem returns_of_prompt {α : Type} {p : Proc α} (hp : p.Within (.ops Prompt)) (hj : p.Joins)
    (w : World) : p.Returns Op.exec (fun _ => True) w :=
  returns_of_within hp hj
    (fun _ ho w => (ho w).imp fun _ => .imp fun _ => .imp fun _ he => ⟨he, trivial⟩)
    (fun _ h => h.elim) fun _ h => h.elim

end Prompt

/-! ### Chunk directories -/

theorem store_joins (o : StoreOp) : (store o).run.Joins := joins_perform _

theorem diverge_joins {α : Type} : (diverge : Proc α).Joins := fun x => nomatch x

theorem ensureDirExistsOrCreate_joins (p : PathBuf) : (ensureDirExistsOrCreate p).run.Joins := by
  refine joins_bindE (joins_perform _) fun b => ?_
  split
  · refine joins_bindE (joins_perform _) fun t => ?_
    split <;> trivial
  · exact joins_perform _

theorem flushBuf_joins {path : PathBuf} (w : BufWriter path) : w.flushBuf.run.Joins := by
  unfold BufWriter.flushBuf
  split
  · trivial
  · exact joins_bindE (joins_perform _) fun _ => trivial

theorem writeAll_joins {path : PathBuf} (w : BufWriter path) (bs : Bytes) :
    (w.writeAll bs).run.Joins := by
  unfold BufWriter.writeAll BufWriter.makeRoom
  split
  · trivial
  · refine joins_bindE ?_ fun w => ?_
    · split
      · exact flushBuf_joins w
      · trivial
    · split
      · exact joins_bindE (joins_perform _) fun _ => trivial
      · trivial

theorem writePieces_joins {path : PathBuf} (pieces : List Bytes) (w : BufWriter path) :
    (w.writePieces pieces).run.Joins := by
  induction pieces generalizing w with
  | nil => trivial
  | cons bs pieces ih => exact joins_bindE (writeAll_joins w bs) fun w => ih w

theorem saveMetadata_joins (m : FileMetadata) : (saveMetadata m).run.Joins := by
  refine joins_bindE (joins_adapt _ (joins_perform _)) fun _ => ?_
  refine joins_bindE (joins_adapt _ (writePieces_joins _ _)) fun w => ?_
  exact joins_bindE (joins_lift (flushBuf_joins w)) fun _ => trivial

theorem writeFile_joins (p : PathBuf) (bs : Bytes) : (writeFile p bs).run.Joins :=
  joins_bindE (joins_perform _) fun _ => joins_perform _

theorem fillBuffer_joins (path : PathBuf) (offset fuel : Nat) (filled : Bytes) :
    (fillBuffer path offset fuel filled).run.Joins := by
  induction fuel generalizing filled with
  | zero => exact joins_lift diverge_joins
  | succ fuel ih =>
      unfold fillBuffer
      split
      · refine joins_bindE (joins_adapt _ (joins_perform _)) fun bs => ?_
        split
        · trivial
        · exact ih _
      · trivial

theorem fileWrite_joins {path : PathBuf} (file : Tokio.File path) (bs : Bytes) :
    (file.write bs).run.Joins := by
  unfold Tokio.File.write
  split
  · trivial
  · refine joins_bindE (joins_lift (joins_perform _)) fun r => ?_
    split <;> trivial

theorem tokioFlushBuf_joins {path : PathBuf} (w : Tokio.BufWriter path) :
    w.flushBuf.run.Joins := by
  unfold Tokio.BufWriter.flushBuf
  split
  · trivial
  · exact joins_bindE (fileWrite_joins _ _) fun _ => trivial

theorem tokioWrite_joins {path : PathBuf} (w : Tokio.BufWriter path) (bs : Bytes) :
    (w.write bs).run.Joins := by
  refine joins_bindE ?_ fun w => ?_
  · unfold Tokio.BufWriter.makeRoom
    split
    · exact tokioFlushBuf_joins w
    · trivial
  · split
    · exact joins_bindE (fileWrite_joins _ _) fun _ => trivial
    · trivial

theorem tokioWriteAll_joins {path : PathBuf} (w : Tokio.BufWriter path) (bs : Bytes) :
    (w.writeAll bs).run.Joins := by
  unfold Tokio.BufWriter.writeAll
  induction chunks Tokio.MAX_BUF_SIZE bs generalizing w with
  | nil => trivial
  | cons bs pieces ih => exact joins_bindE (tokioWrite_joins w bs) fun w => ih w

theorem tokioFlush_joins {path : PathBuf} (w : Tokio.BufWriter path) : w.flush.run.Joins := by
  refine joins_bindE (tokioFlushBuf_joins w) fun w => ?_
  unfold Tokio.File.flush
  split <;> trivial

theorem copyChunks_joins {path : PathBuf} (m : FileMetadata) (n c : Nat)
    (w : Tokio.BufWriter path) : (copyChunks m n c w).run.Joins := by
  induction n generalizing c w with
  | zero => trivial
  | succ n ih =>
      refine joins_bindE (joins_adapt _ (joins_perform _)) fun bytes => ?_
      exact joins_bindE (joins_adapt _ (tokioWriteAll_joins w _)) fun w => ih _ _

section Directories

variable [Platform]

theorem readMetadata_joins (dir : PathBuf) : (readMetadata dir).run.Joins := by
  refine joins_bindE (joins_adapt _ (joins_perform _)) fun bytes => ?_
  split <;> trivial

theorem split_joins (path dir : PathBuf) (fuel offset : Nat) (leaves : List Hash) :
    (split path dir fuel offset leaves).run.Joins := by
  induction fuel generalizing offset leaves with
  | zero => exact joins_lift diverge_joins
  | succ fuel ih =>
      refine joins_bindE (fillBuffer_joins _ _ _ _) fun bytes => ?_
      split
      · trivial
      · exact joins_bindE (joins_adapt _ (writeFile_joins _ _)) fun _ => ih _ _

theorem processFile_joins (fuel : Nat) (filePath : String) (isPublic : Bool) :
    (processFile fuel filePath isPublic).run.Joins := by
  refine joins_bindE (joins_adapt _ (joins_perform _)) fun t => ?_
  split
  · trivial
  refine joins_bindE (joins_adapt _ (joins_perform _)) fun _ => ?_
  split
  · trivial
  split
  · trivial
  refine joins_bindE (joins_adapt _ (joins_perform _)) fun _ => ?_
  refine joins_bindE (split_joins _ _ _ _ _) fun leaves => ?_
  split
  · trivial
  · exact saveMetadata_joins _

theorem restoreOriginalFile_joins (r : PendingDownloadRecord) :
    (restoreOriginalFile r).run.Joins := by
  refine joins_bindE (readMetadata_joins _) fun m => ?_
  split
  · trivial
  refine joins_bindE (joins_adapt _ (joins_perform _)) fun found => ?_
  split
  · refine joins_bindE (joins_adapt _ (joins_perform _)) fun t => ?_
    split <;> trivial
  · refine joins_bindE (joins_adapt _ (joins_perform _)) fun _ => ?_
    refine joins_bindE (copyChunks_joins _ _ _ _) fun w => ?_
    refine joins_bindE (joins_adapt _ (tokioFlush_joins w)) fun _ => ?_
    exact joins_bindE (joins_adapt _ (joins_perform _)) fun _ => trivial

end Directories

/-! ### The calls -/

theorem sendOrInternal_joins (c : P2pCommand) (message : String) :
    (sendOrInternal c message).run.Joins := by
  refine joins_bind (joins_perform _) fun r => ?_
  split <;> trivial

theorem storeOrInternal_joins (o : StoreOp) : (storeOrInternal o).run.Joins :=
  joins_adapt _ (store_joins o)

theorem fetchMetadata_joins (request : DownloadFileRequest) :
    (fetchMetadata request).run.Joins := by
  refine joins_bindE (joins_adapt _ (ensureDirExistsOrCreate_joins _)) fun _ => ?_
  refine joins_bindE (joins_lift (joins_perform _)) fun tx => ?_
  refine joins_bindE (sendOrInternal_joins _ _) fun _ => ?_
  refine joins_bindE (joins_lift (joins_perform _)) fun r => ?_
  split <;> trivial

section Calls

variable [Platform]

theorem publishFile_joins (fuel : Nat) (request : PublishFileRequest) :
    (publishFile fuel request).run.Joins := by
  refine joins_bindE (joins_adapt _ (processFile_joins _ _ _)) fun m => ?_
  exact joins_bindE (storeOrInternal_joins _) fun _ => trivial

theorem prepareDownload_joins (path : PathBuf) (m : FileMetadata) :
    (prepareDownload path m).run.Joins := by
  refine joins_bindE (joins_adapt _ (joins_perform _)) fun found => ?_
  split
  · trivial
  refine joins_bindE (joins_adapt _ (ensureDirExistsOrCreate_joins _)) fun _ => ?_
  refine joins_bindE (joins_adapt _ (saveMetadata_joins _)) fun _ => ?_
  exact joins_bindE (sendOrInternal_joins _ _) fun _ => trivial

theorem downloadFile_joins (request : DownloadFileRequest) :
    (downloadFile request).run.Joins := by
  refine joins_bindE (storeOrInternal_joins _) fun published => ?_
  split
  · trivial
  refine joins_bindE (storeOrInternal_joins _) fun pending => ?_
  split
  · trivial
  refine joins_bindE (fetchMetadata_joins request) fun m => ?_
  exact joins_bindE (prepareDownload_joins _ m) fun _ => storeOrInternal_joins _

end Calls

/-! ### The event loop -/

section EventLoop

open EventService

theorem sendFileResponse_joins (c : ResponseChannel) (r : FileResponse) :
    (sendFileResponse c r).Joins :=
  joins_bind (joins_perform _) fun _ => trivial

theorem provideFileChunk_joins (r : FileChunkRequest) : (provideFileChunk r).run.Joins :=
  joins_bindE (joins_perform _) fun _ => joins_perform _

theorem provideFileChunks_joins (id : UInt64) (cs : List Nat) :
    (provideFileChunks id cs).run.Joins := by
  induction cs with
  | nil => trivial
  | cons c cs ih => exact joins_bindE (provideFileChunk_joins _) fun _ => ih

theorem retry_joins {ε α : Type} {action : ExceptT ε Proc α} (h : action.run.Joins) (fuel : Nat) :
    (retry action fuel).Joins := by
  induction fuel with
  | zero => exact diverge_joins
  | succ fuel ih =>
      refine joins_bind h fun r => ?_
      split
      · trivial
      · exact ih

theorem handleFoundProviders_joins (id : QueryId) (ps : Finset PeerId) :
    (handleFoundProviders id ps).Joins := by
  refine joins_bind (joins_perform _) fun self => ?_
  split
  · exact joins_perform _
  split
  · exact joins_perform _
  · trivial

theorem handleAllPossibleProvidersFound_joins (id : QueryId) :
    (handleAllPossibleProvidersFound id).Joins := by
  -- a query of either kind: take it, choose a peer, ask it or give up
  refine joins_bind (joins_perform _) fun self => ?_
  split
  · refine joins_bind (joins_perform _) fun _ => joins_bind (joins_perform _) fun peer => ?_
    split
    · refine joins_bind (joins_perform _) fun _ => ?_
      exact joins_bind (joins_perform _) fun _ => joins_perform _
    · exact joins_perform _
  split
  · refine joins_bind (joins_perform _) fun _ => joins_bind (joins_perform _) fun peer => ?_
    split
    · refine joins_bind (joins_perform _) fun _ => ?_
      exact joins_bind (joins_perform _) fun _ => joins_perform _
    · exact joins_perform _
  · trivial

theorem kademlia_joins (id : QueryId) (result : QueryResult) : (kademlia id result).Joins := by
  unfold kademlia
  split
  · exact handleFoundProviders_joins _ _
  · exact handleAllPossibleProvidersFound_joins _
  · exact handleAllPossibleProvidersFound_joins _
  · trivial

theorem readChunk_joins (c : Nat) (ch : ResponseChannel) (dir : PathBuf) (ext : String) :
    (readChunk c ch dir ext).Joins := by
  refine joins_bind (joins_perform _) fun r => ?_
  split <;> exact sendFileResponse_joins _ _

variable [Platform]

theorem provideMetadata_joins (m : FileMetadata) : (provideMetadata m).run.Joins :=
  joins_bindE (joins_perform _) fun _ => joins_perform _

theorem provideAll_joins (m : FileMetadata) : (provideAll m).run.Joins :=
  joins_bindE (provideMetadata_joins m) fun _ => provideFileChunks_joins _ _

theorem provideEach_joins (rs : List PublishedFileRecord) : (provideEach rs).run.Joins := by
  induction rs with
  | nil => trivial
  | cons r rs ih =>
      refine joins_bindE (joins_adapt _ (joins_perform _)) fun _ => ?_
      refine joins_bindE (joins_lift (joins_perform _)) fun data => ?_
      split
      · split
        · exact joins_bindE (provideAll_joins _) fun _ => ih
        · exact joins_bindE trivial fun _ => ih
      · exact ih

theorem filePublish_joins (fuel : Nat) (r : Except FileStoreError FileMetadata) :
    (filePublish fuel r).Joins := by
  unfold filePublish
  split
  · refine joins_bind (retry_joins (provideAll_joins _) fuel) fun _ => ?_
    refine joins_bind (retry_joins (store_joins _) fuel) fun _ => ?_
    exact retry_joins (store_joins _) fuel
  · trivial

theorem publisherPass_joins (fuel : Nat) : (publisherPass fuel).Joins := by
  refine joins_bind (joins_perform _) fun r => ?_
  split
  · trivial
  · exact filePublish_joins _ _
  · exact filePublish_joins _ _

theorem handleCommand_joins (c : P2pCommand) : (handleCommand c).Joins := by
  unfold handleCommand
  split
  · refine joins_bind (joins_perform _) fun _ => ?_
    exact joins_bind (joins_perform _) fun _ => joins_perform _
  · refine joins_bind (joins_perform _) fun _ => ?_
    exact joins_bind (joins_perform _) fun _ => joins_perform _
  · exact joins_bind (provideMetadata_joins _) fun _ => trivial
  · exact joins_bind (provideFileChunk_joins _) fun _ => trivial

theorem handleMetadataDownloadResponse_joins (r : FileResponse)
    (s : OneshotSender (Option FileMetadata)) : (handleMetadataDownloadResponse r s).Joins := by
  unfold handleMetadataDownloadResponse
  split
  · split <;> exact joins_perform _
  · exact joins_perform _
  · exact joins_perform _

theorem metadataDownload_joins (e : RequestResponseEvent MetadataFileRequest) :
    (metadataDownload e).Joins := by
  unfold metadataDownload
  split
  · refine joins_bind (joins_perform _) fun r => ?_
    split
    · refine joins_bind (joins_perform _) fun r => ?_
      split <;> exact sendFileResponse_joins _ _
    · exact sendFileResponse_joins _ _
    · exact sendFileResponse_joins _ _
  · refine joins_bind (joins_perform _) fun self => ?_
    split
    · exact joins_bind (joins_perform _) fun _ => handleMetadataDownloadResponse_joins _ _
    · trivial
  · trivial

theorem getFromChunks_joins (c : Nat) (ch : ResponseChannel) (dir : PathBuf) :
    (getFromChunks c ch dir).Joins := by
  refine joins_bind (joins_perform _) fun r => ?_
  split
  · split
    · split
      · exact sendFileResponse_joins _ _
      · exact readChunk_joins _ _ _ _
    · exact sendFileResponse_joins _ _
  · exact sendFileResponse_joins _ _

theorem tryFromPendingDownloads_joins (id : UInt64) (c : Nat) (ch : ResponseChannel) :
    (tryFromPendingDownloads id c ch).Joins := by
  refine joins_bind (joins_perform _) fun r => ?_
  split
  · exact sendFileResponse_joins _ _
  · split
    · exact getFromChunks_joins _ _ _
    · exact sendFileResponse_joins _ _
  · exact sendFileResponse_joins _ _

theorem fileDownload_joins (e : RequestResponseEvent FileChunkRequest) :
    (fileDownload e).Joins := by
  unfold fileDownload
  split
  · refine joins_bind (joins_perform _) fun r => ?_
    split
    · exact tryFromPendingDownloads_joins _ _ _
    · exact getFromChunks_joins _ _ _
    · exact sendFileResponse_joins _ _
  · refine joins_bind (joins_perform _) fun self => ?_
    split
    · exact joins_bind (joins_perform _) fun _ => joins_perform _
    · trivial
  · trivial

theorem handleSwarmEvent_joins (e : SwarmEvent) : (handleSwarmEvent e).Joins := by
  unfold handleSwarmEvent
  split
  · exact kademlia_joins _ _
  · exact fileDownload_joins _
  · exact metadataDownload_joins _
  · trivial

end EventLoop

/-! ### The downloads -/

section Downloads

open FileDownloadService

theorem workOn_joins (rs : List PendingDownloadRecord) : (workOn rs).Joins := by
  induction rs with
  | nil => trivial
  | cons r rs ih =>
      refine joins_bind (joins_perform _) fun item => joins_bind (joins_perform _) fun n => ?_
      split
      · trivial
      split
      · refine joins_bind (joins_perform _) fun fresh => ?_
        split
        · exact ih
        · exact ih
      · exact ih

theorem spawnChunks_joins (r : PendingDownloadRecord) (cs : List Nat) :
    (spawnChunks r cs).Joins := by
  induction cs with
  | nil => trivial
  | cons c cs ih =>
      unfold spawnChunks
      split
      · exact ih
      · exact joins_bind (p := spawn _) trivial fun _ => joins_bind ih fun _ => trivial

theorem recordChunk_joins (r : PendingDownloadRecord) (e : Option String) (result : Res) :
    (recordChunk r e result).Joins := by
  unfold recordChunk
  split
  · split
    · trivial
    · exact joins_bind (joins_perform _) fun _ => trivial
  · trivial
  · trivial

/-- The loop goes on for as many rounds as there are tasks. -/
theorem joinChunks_joins (left : Nat) (slots : List Slot) (r : PendingDownloadRecord)
    (e : Option String) (hl : left = slots.length) : (joinChunks left slots r e).Joins := by
  induction left generalizing slots r e with
  | zero => trivial
  | succ left ih =>
      have some : slots ≠ [] := by
        rintro rfl
        cases hl
      refine ⟨some, fun j hj result => joins_bind (recordChunk_joins r e result) fun x => ?_⟩
      refine ih _ x.1 x.2 ?_
      rw [List.length_erase_of_mem hj, ← hl]
      rfl

variable [Platform]

theorem verifyAndSaveFileChunk_joins (d : DownloadFileChunk) (bs : Bytes) :
    (verifyAndSaveFileChunk d bs).run.Joins := by
  refine joins_bindE (joins_adapt _ (readMetadata_joins _)) fun m => ?_
  split
  · trivial
  split
  · exact joins_adapt _ (writeFile_joins _ _)
  · trivial
  · trivial

theorem downloadFileChunk_joins (d : DownloadFileChunk) : (downloadFileChunk d).run.Joins := by
  refine joins_bindE (joins_lift (joins_perform _)) fun tx => ?_
  refine joins_bindE (joins_lift (joins_perform _)) fun sent => ?_
  split
  · trivial
  refine joins_bindE (joins_lift (joins_perform _)) fun answer => ?_
  split
  · trivial
  · refine joins_bindE (verifyAndSaveFileChunk_joins d _) fun _ => ?_
    refine joins_bindE (joins_lift (joins_perform _)) fun sent => ?_
    split <;> trivial
  · trivial
  · trivial

theorem chunkTask_joins (d : DownloadFileChunk) : (chunkTask d).Joins := by
  refine joins_bind (joins_perform _) fun _ => joins_bind (downloadFileChunk_joins d) fun _ => ?_
  exact joins_bind (joins_perform _) fun _ => trivial

theorem download_joins (r : PendingDownloadRecord) : (download r).Joins := by
  refine joins_bind (readMetadata_joins _) fun m => ?_
  split
  · trivial
  refine joins_bind (spawnChunks_joins r _) fun slots => ?_
  refine joins_bind (joinChunks_joins _ _ _ _ rfl) fun x => ?_
  obtain ⟨r', e⟩ := x
  cases e <;> trivial

theorem processCompleted_joins (r : PendingDownloadRecord) : (processCompleted r).run.Joins := by
  refine joins_bindE (joins_adapt _ (restoreOriginalFile_joins r)) fun m => ?_
  refine joins_bindE (joins_adapt _ (joins_perform _)) fun _ => ?_
  refine joins_bindE (joins_adapt _ (joins_perform _)) fun _ => ?_
  refine joins_bindE (joins_lift (joins_perform _)) fun sent => ?_
  split <;> trivial

theorem downloadTask_joins (r : PendingDownloadRecord) : (downloadTask r).Joins := by
  refine joins_bind (download_joins r) fun x => ?_
  obtain ⟨completed, r'⟩ := x
  dsimp only
  split
  · refine joins_bind (processCompleted_joins r') fun _ => ?_
    exact joins_bind (joins_perform _) fun _ => trivial
  · exact joins_bind (joins_perform _) fun _ => trivial

/-- No task waits for an empty list of tasks. -/
theorem body_joins (t : Task) : (body t).Joins := by
  cases t with
  | publishFile n fuel request => exact joins_bind (publishFile_joins fuel request) fun _ => trivial
  | downloadFile n request => exact joins_bind (downloadFile_joins request) fun _ => trivial
  | startUp =>
      refine joins_bind (p := EventService.provideAllPublishedFiles.run) ?_ fun _ => trivial
      exact joins_bindE (joins_adapt _ (joins_perform _)) fun rs => provideEach_joins rs
  | swarmEvent =>
      refine joins_bind (joins_perform _) fun e => ?_
      exact joins_bind (handleSwarmEvent_joins e) fun _ => trivial
  | command =>
      refine joins_bind (joins_perform _) fun c => ?_
      exact joins_bind (handleCommand_joins c) fun _ => trivial
  | tick =>
      refine joins_bind (p := workOnPendingDownloads) ?_ fun _ => trivial
      refine joins_bind (joins_perform _) fun n => ?_
      split
      · trivial
      refine joins_bind (joins_perform _) fun r => ?_
      split
      · exact workOn_joins _
      · trivial
  | publisher fuel => exact joins_bind (publisherPass_joins fuel) fun _ => trivial
  | download r => exact downloadTask_joins r
  | chunk d => exact chunkTask_joins d
  | writeFile n path bytes => exact joins_bind (writeFile_joins path bytes) fun _ => trivial

end Downloads

end RustDfs.Joins
