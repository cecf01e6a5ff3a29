import RustDfs.Conc.Footprint
import RustDfs.Model.Node

/-!
# `RustDfs.Proofs.Footprints`: what each program can do

For each program of the node the operations it may perform, whatever it
is answered: `ServeOp` for the swarm events, `CommandOp` for the commands,
and so on. A footprint is read off the program once, here; a proof about
runs then asks only whether such operations matter to it.
-/

set_option autoImplicit false

namespace RustDfs

open Lib Conc Prog

/-! ### Single operations -/

section Primitives

variable {O : Op → Prop}

theorem fs_within {o : FsOp} (h : O (.fs o)) : (fs o).run.Within (.ops O) :=
  ⟨h, fun _ => trivial⟩

theorem store_within {o : StoreOp} (h : O (.store o)) : (store o).run.Within (.ops O) :=
  ⟨h, fun _ => trivial⟩

theorem sync_within {o : SyncOp} (h : O (.sync o)) : (sync o).Within (.ops O) :=
  ⟨h, fun _ => trivial⟩

theorem chan_within {o : ChanOp} (h : O (.chan o)) : (chan o).Within (.ops O) :=
  ⟨h, fun _ => trivial⟩

theorem swarm_within {o : SwarmOp} (h : O (.swarm o)) : (swarm o).Within (.ops O) :=
  ⟨h, fun _ => trivial⟩

theorem events_within {o : EventOp} (h : O (.events o)) : (events o).Within (.ops O) :=
  ⟨h, fun _ => trivial⟩

theorem perform_within {F : Footprint lang} {o : Op} (h : F.op o) :
    (Prog.perform (L := lang) o).Within F :=
  ⟨h, fun _ => trivial⟩

end Primitives

/-! ### Chunk directories -/

/-- Creating and writing one file. -/
inductive SaveOp (p : PathBuf) : Op → Prop
  | createFile : SaveOp p (.fs (.createFile p))
  | writeAt (offset : Nat) (bs : Bytes) : SaveOp p (.fs (.writeAt p offset bs))

/-- Making sure that a directory exists. -/
inductive EnsureDirOp (p : PathBuf) : Op → Prop
  | tryExists : EnsureDirOp p (.fs (.tryExists p))
  | metadata : EnsureDirOp p (.fs (.metadata p))
  | createDirAll : EnsureDirOp p (.fs (.createDirAll p))

theorem ensureDirExistsOrCreate_within (p : PathBuf) :
    (ensureDirExistsOrCreate p).run.Within (.ops (EnsureDirOp p)) := by
  refine within_bindE (fs_within .tryExists) fun b => ?_
  split
  · refine within_bindE (fs_within .metadata) fun t => ?_
    split <;> trivial
  · exact fs_within .createDirAll

section Saving

variable {path : PathBuf}

theorem flushBuf_within (w : BufWriter path) : w.flushBuf.run.Within (.ops (SaveOp path)) := by
  unfold BufWriter.flushBuf
  split
  · trivial
  · exact within_bindE (fs_within (.writeAt _ _)) fun _ => trivial

theorem writeAll_within (w : BufWriter path) (bs : Bytes) :
    (w.writeAll bs).run.Within (.ops (SaveOp path)) := by
  unfold BufWriter.writeAll
  split
  · trivial
  · refine within_bindE ?_ fun w => ?_
    · unfold BufWriter.makeRoom
      split
      · exact flushBuf_within w
      · trivial
    · split
      · exact within_bindE (fs_within (.writeAt _ _)) fun _ => trivial
      · trivial

theorem writePieces_within (pieces : List Bytes) (w : BufWriter path) :
    (w.writePieces pieces).run.Within (.ops (SaveOp path)) := by
  induction pieces generalizing w with
  | nil => trivial
  | cons bs pieces ih => exact within_bindE (writeAll_within w bs) fun w => ih w

end Saving

theorem saveMetadata_within (m : FileMetadata) :
    (saveMetadata m).run.Within (.ops (SaveOp (metadataPath m.chunksDir))) := by
  refine within_bindE (within_adapt _ (fs_within .createFile)) fun _ => ?_
  refine within_bindE (within_adapt _ (writePieces_within _ _)) fun w => ?_
  exact within_bindE (within_lift (flushBuf_within w)) fun _ => trivial

theorem writeFile_within (p : PathBuf) (bs : Bytes) :
    (writeFile p bs).run.Within (.ops (SaveOp p)) :=
  within_bindE (fs_within .createFile) fun _ => fs_within (.writeAt _ _)

/-- The chunk directory `process_file` uses for a path. -/
def publishDir (path : PathBuf) : Option PathBuf :=
  path.parent.bind fun containingDir =>
    path.fileName.map fun fileName => containingDir.join (chunksDirName fileName)

/-- Publishing a file reads it and writes in its chunk directory. -/
inductive ProcessOp (path : PathBuf) : Op → Prop
  | metadata : ProcessOp path (.fs (.metadata path))
  | openFile : ProcessOp path (.fs (.openFile path))
  | readAt (offset count : Nat) : ProcessOp path (.fs (.readAt path offset count))
  | createDirAll {dir : PathBuf} (h : publishDir path = some dir) :
      ProcessOp path (.fs (.createDirAll dir))
  | chunk {dir : PathBuf} (h : publishDir path = some dir) (c : Nat) {o : Op}
      (ho : SaveOp (dir.join (chunkFileName c FILE_CHUNK_EXTENSION)) o) : ProcessOp path o
  | save {dir : PathBuf} (h : publishDir path = some dir) {o : Op}
      (ho : SaveOp (metadataPath dir) o) : ProcessOp path o
  | diverge : ProcessOp path .diverge

theorem diverge_within {α : Type} {O : Op → Prop} (h : O .diverge) :
    (diverge : Proc α).Within (.ops O) :=
  ⟨h, fun x => nomatch x⟩

theorem fillBuffer_within (path : PathBuf) (offset fuel : Nat) (filled : Bytes) :
    (fillBuffer path offset fuel filled).run.Within (.ops (ProcessOp path)) := by
  induction fuel generalizing filled with
  | zero => exact within_lift (diverge_within .diverge)
  | succ fuel ih =>
      unfold fillBuffer
      split
      · refine within_bindE (within_adapt _ (fs_within (.readAt _ _))) fun bs => ?_
        split
        · trivial
        · exact ih _
      · trivial

section Processing

variable [Platform]

theorem split_within {path dir : PathBuf} (h : publishDir path = some dir) (fuel offset : Nat)
    (leaves : List Hash) :
    (split path dir fuel offset leaves).run.Within (.ops (ProcessOp path)) := by
  induction fuel generalizing offset leaves with
  | zero => exact within_lift (diverge_within .diverge)
  | succ fuel ih =>
      refine within_bindE (fillBuffer_within _ _ _ _) fun bytes => ?_
      split
      · trivial
      · refine within_bindE (within_adapt _ ?_) fun _ => ih _ _
        exact (writeFile_within _ _).mono_ops fun _ => .chunk h leaves.length

theorem processFile_within (fuel : Nat) (filePath : String) (isPublic : Bool) :
    (processFile fuel filePath isPublic).run.Within (.ops (ProcessOp ⟨filePath⟩)) := by
  refine within_bindE (within_adapt _ (fs_within .metadata)) fun t => ?_
  split
  · trivial
  · refine within_bindE (within_adapt _ (fs_within .openFile)) fun _ => ?_
    split
    · trivial
    · next containingDir hp =>
      split
      · trivial
      · next fileName hn =>
        have h : publishDir ⟨filePath⟩ = some (containingDir.join (chunksDirName fileName)) := by
          simp [publishDir, hp, hn]
        refine within_bindE (within_adapt _ (fs_within (.createDirAll h))) fun _ => ?_
        refine within_bindE (split_within h _ _ _) fun leaves => ?_
        split
        · trivial
        · refine Within.mono_ops (fun o ho => ?_) (saveMetadata_within _)
          dsimp only at ho
          exact .save h ho

end Processing

/-! ### Accepting a download -/

/-- Before it stores its record, a `download_file` call makes and fills
the chunk directory, and exchanges messages. -/
inductive PrepareOp : Op → Prop
  | ensureDir {p : PathBuf} {o : Op} (ho : EnsureDirOp p o) : PrepareOp o
  | save {p : PathBuf} {o : Op} (ho : SaveOp p o) : PrepareOp o
  | tryExists (p : PathBuf) : PrepareOp (.fs (.tryExists p))
  | publishedFileExists (k : PublishedFileKey) : PrepareOp (.store (.publishedFileExists k))
  | pendingDownloadExists (k : PublishedFileKey) : PrepareOp (.store (.pendingDownloadExists k))
  | channel : PrepareOp (.chan (.metadata .channel))
  | recv (s : OneshotSender (Option FileMetadata)) : PrepareOp (.chan (.metadata (.recv s)))
  | requestMetadata (request : MetadataFileRequest) (s : OneshotSender (Option FileMetadata)) :
      PrepareOp (.chan (.sendCommand (.requestMetadata request s)))
  | provideMetadata (m : FileMetadata) : PrepareOp (.chan (.sendCommand (.provideMetadata m)))

/-- The record a call stores has no chunk in it. -/
theorem prepareDownload_ends [Platform] (path : PathBuf) (m : FileMetadata) :
    (prepareDownload path m).run.Ends fun x => ∀ r, x = .ok r → r.downloadedChunks = ∅ := by
  refine ends_bindE (fun _ => nofun) fun found => ?_
  split
  · exact nofun
  · refine ends_bindE (fun _ => nofun) fun _ => ?_
    refine ends_bindE (fun _ => nofun) fun _ => ?_
    refine ends_bindE (fun _ => nofun) fun _ => ?_
    intro r hr
    cases hr
    rfl

theorem sendOrInternal_within {O : Op → Prop} {c : P2pCommand} (h : O (.chan (.sendCommand c)))
    (message : String) : (sendOrInternal c message).run.Within (.ops O) := by
  refine within_bind (chan_within h) fun r => ?_
  split <;> trivial

theorem storeOrInternal_within {O : Op → Prop} {o : StoreOp} (h : O (.store o)) :
    (storeOrInternal o).run.Within (.ops O) :=
  within_adapt _ (store_within h)

theorem fetchMetadata_within (request : DownloadFileRequest) :
    (fetchMetadata request).run.Within (.ops PrepareOp) := by
  refine within_bindE (within_adapt _
    ((ensureDirExistsOrCreate_within _).mono_ops fun _ => .ensureDir)) fun _ => ?_
  refine within_bindE (within_lift (chan_within .channel)) fun tx => ?_
  refine within_bindE (sendOrInternal_within (.requestMetadata _ _) _) fun _ => ?_
  refine within_bindE (within_lift (chan_within (.recv _))) fun r => ?_
  split <;> trivial

theorem prepareDownload_within [Platform] (path : PathBuf) (m : FileMetadata) :
    (prepareDownload path m).run.Within (.ops PrepareOp) := by
  refine within_bindE (within_adapt _ (fs_within (.tryExists _))) fun found => ?_
  split
  · trivial
  · refine within_bindE (within_adapt _
      ((ensureDirExistsOrCreate_within _).mono_ops fun _ => .ensureDir)) fun _ => ?_
    refine within_bindE (within_adapt _
      ((saveMetadata_within _).mono_ops fun _ => .save)) fun _ => ?_
    exact within_bindE (sendOrInternal_within (.provideMetadata _) _) fun _ => trivial

/-! ### The event loop -/

/-- Answering a request reads files and records. -/
inductive AnswerOp : Op → Prop
  | read (p : PathBuf) : AnswerOp (.fs (.read p))
  | getPublishedFile (k : PublishedFileKey) : AnswerOp (.store (.getPublishedFile k))
  | getPendingDownload (k : PublishedFileKey) : AnswerOp (.store (.getPendingDownload k))
  | sendResponse (c : ResponseChannel) (r : FileResponse) : AnswerOp (.swarm (.sendResponse c r))

/-- Handling a swarm event reads files and records, answers, and works on
the fields of the event service. -/
inductive ServeOp : Op → Prop
  | read (p : PathBuf) : ServeOp (.fs (.read p))
  | getPublishedFile (k : PublishedFileKey) : ServeOp (.store (.getPublishedFile k))
  | getPendingDownload (k : PublishedFileKey) : ServeOp (.store (.getPendingDownload k))
  | chooseRandom (ps : Finset PeerId) : ServeOp (.swarm (.chooseRandom ps))
  | sendMetadataRequest (p : PeerId) (r : MetadataFileRequest) :
      ServeOp (.swarm (.sendMetadataRequest p r))
  | sendFileRequest (p : PeerId) (r : FileChunkRequest) : ServeOp (.swarm (.sendFileRequest p r))
  | sendResponse (c : ResponseChannel) (r : FileResponse) : ServeOp (.swarm (.sendResponse c r))
  | sendMetadata (s : OneshotSender (Option FileMetadata)) (m : Option FileMetadata) :
      ServeOp (.chan (.metadata (.send s m)))
  | sendChunk (s : OneshotSender (Option FileResponse)) (r : Option FileResponse) :
      ServeOp (.chan (.chunk (.send s r)))
  | events (o : EventOp) : ServeOp (.events o)

/-- Working on the requests of this node needs peers, the fields of the
event service and the channels of the requests. -/
inductive AskOp : Op → Prop
  | chooseRandom (ps : Finset PeerId) : AskOp (.swarm (.chooseRandom ps))
  | sendMetadataRequest (p : PeerId) (r : MetadataFileRequest) :
      AskOp (.swarm (.sendMetadataRequest p r))
  | sendFileRequest (p : PeerId) (r : FileChunkRequest) : AskOp (.swarm (.sendFileRequest p r))
  | sendMetadata (s : OneshotSender (Option FileMetadata)) (m : Option FileMetadata) :
      AskOp (.chan (.metadata (.send s m)))
  | sendChunk (s : OneshotSender (Option FileResponse)) (r : Option FileResponse) :
      AskOp (.chan (.chunk (.send s r)))
  | events (o : EventOp) : AskOp (.events o)

/-- A pass of the event loop takes a swarm event and handles it. -/
inductive SwarmEventOp : Op → Prop
  | selectNextSome : SwarmEventOp (.swarm .selectNextSome)
  | serve {o : Op} (ho : ServeOp o) : SwarmEventOp o

/-- Handling a command asks for providers or provides. -/
inductive CommandOp : Op → Prop
  | recvCommand : CommandOp (.chan .recvCommand)
  | getProviders (k : Bytes) : CommandOp (.swarm (.getProviders k))
  | putRecord (k v : Bytes) : CommandOp (.swarm (.putRecord k v))
  | startProviding (k : Bytes) : CommandOp (.swarm (.startProviding k))
  | events (o : EventOp) : CommandOp (.events o)

/-- Starting up reads the published records and provides them. -/
inductive StartUpOp : Op → Prop
  | streamPublishedFiles : StartUpOp (.store .streamPublishedFiles)
  | streamItem : StartUpOp (.store .streamItem)
  | read (p : PathBuf) : StartUpOp (.fs (.read p))
  | putRecord (k v : Bytes) : StartUpOp (.swarm (.putRecord k v))
  | startProviding (k : Bytes) : StartUpOp (.swarm (.startProviding k))

section EventLoop

open EventService

theorem ServeOp.of_answer {o : Op} (ho : AnswerOp o) : ServeOp o := by
  cases ho with
  | read p => exact .read p
  | getPublishedFile k => exact .getPublishedFile k
  | getPendingDownload k => exact .getPendingDownload k
  | sendResponse c r => exact .sendResponse c r

theorem ServeOp.of_ask {o : Op} (ho : AskOp o) : ServeOp o := by
  cases ho with
  | chooseRandom ps => exact .chooseRandom ps
  | sendMetadataRequest p r => exact .sendMetadataRequest p r
  | sendFileRequest p r => exact .sendFileRequest p r
  | sendMetadata s m => exact .sendMetadata s m
  | sendChunk s r => exact .sendChunk s r
  | events o => exact .events o

theorem sendFileResponse_within (c : ResponseChannel) (r : FileResponse) :
    (sendFileResponse c r).Within (.ops AnswerOp) :=
  within_bind (swarm_within (.sendResponse c r)) fun _ => trivial

theorem handleFoundProviders_within (id : QueryId) (ps : Finset PeerId) :
    (handleFoundProviders id ps).Within (.ops AskOp) := by
  refine within_bind (events_within (.events _)) fun self => ?_
  split
  · exact events_within (.events _)
  · split
    · exact events_within (.events _)
    · trivial

theorem handleAllPossibleProvidersFound_within (id : QueryId) :
    (handleAllPossibleProvidersFound id).Within (.ops AskOp) := by
  refine within_bind (events_within (.events _)) fun self => ?_
  split
  · refine within_bind (events_within (.events _)) fun _ => ?_
    refine within_bind (swarm_within (.chooseRandom _)) fun peer => ?_
    split
    · refine within_bind (swarm_within (.sendMetadataRequest _ _)) fun _ => ?_
      refine within_bind (events_within (.events _)) fun _ => ?_
      exact events_within (.events _)
    · exact chan_within (.sendMetadata _ _)
  · split
    · refine within_bind (events_within (.events _)) fun _ => ?_
      refine within_bind (swarm_within (.chooseRandom _)) fun peer => ?_
      split
      · refine within_bind (swarm_within (.sendFileRequest _ _)) fun _ => ?_
        refine within_bind (events_within (.events _)) fun _ => ?_
        exact events_within (.events _)
      · exact chan_within (.sendChunk _ _)
    · trivial

theorem kademlia_within (id : QueryId) (result : QueryResult) :
    (kademlia id result).Within (.ops AskOp) := by
  unfold kademlia
  split
  · exact handleFoundProviders_within _ _
  · exact handleAllPossibleProvidersFound_within _
  · exact handleAllPossibleProvidersFound_within _
  · trivial

variable [Platform]

theorem handleMetadataDownloadResponse_within (r : FileResponse)
    (s : OneshotSender (Option FileMetadata)) :
    (handleMetadataDownloadResponse r s).Within (.ops AskOp) := by
  unfold handleMetadataDownloadResponse
  split
  · split <;> exact chan_within (.sendMetadata _ _)
  · exact chan_within (.sendMetadata _ _)
  · exact chan_within (.sendMetadata _ _)

/-- A peer asks for metadata. -/
theorem metadataRequest_within (request : MetadataFileRequest) (ch : ResponseChannel) :
    (metadataDownload (.request request ch)).Within (.ops AnswerOp) := by
  refine within_bind (store_within (.getPublishedFile _)) fun r => ?_
  split
  · refine within_bind (fs_within (.read _)) fun r => ?_
    split <;> exact sendFileResponse_within _ _
  · exact sendFileResponse_within _ _
  · exact sendFileResponse_within _ _

/-- A peer answers with metadata. -/
theorem metadataResponse_within (requestId : OutboundRequestId) (response : FileResponse) :
    (metadataDownload (.response requestId response)).Within (.ops AskOp) := by
  refine within_bind (events_within (.events _)) fun self => ?_
  split
  · exact within_bind (events_within (.events _)) fun _ =>
      handleMetadataDownloadResponse_within _ _
  · trivial

theorem metadataDownload_within (e : RequestResponseEvent MetadataFileRequest) :
    (metadataDownload e).Within (.ops ServeOp) := by
  cases e with
  | request request ch => exact (metadataRequest_within request ch).mono_ops fun _ => .of_answer
  | response requestId response =>
      exact (metadataResponse_within requestId response).mono_ops fun _ => .of_ask
  | _ => trivial

omit [Platform] in
theorem readChunk_within (c : Nat) (ch : ResponseChannel) (dir : PathBuf) (ext : String) :
    (readChunk c ch dir ext).Within (.ops AnswerOp) := by
  refine within_bind (fs_within (.read _)) fun r => ?_
  split <;> exact sendFileResponse_within _ _

theorem getFromChunks_within (c : Nat) (ch : ResponseChannel) (dir : PathBuf) :
    (getFromChunks c ch dir).Within (.ops AnswerOp) := by
  refine within_bind (fs_within (.read _)) fun r => ?_
  split
  · split
    · split
      · exact sendFileResponse_within _ _
      · exact readChunk_within _ _ _ _
    · exact sendFileResponse_within _ _
  · exact sendFileResponse_within _ _

theorem tryFromPendingDownloads_within (id : UInt64) (c : Nat) (ch : ResponseChannel) :
    (tryFromPendingDownloads id c ch).Within (.ops AnswerOp) := by
  refine within_bind (store_within (.getPendingDownload _)) fun r => ?_
  split
  · exact sendFileResponse_within _ _
  · split
    · exact getFromChunks_within _ _ _
    · exact sendFileResponse_within _ _
  · exact sendFileResponse_within _ _

/-- A peer asks for a chunk. -/
theorem chunkRequest_within (request : FileChunkRequest) (ch : ResponseChannel) :
    (fileDownload (.request request ch)).Within (.ops AnswerOp) := by
  refine within_bind (store_within (.getPublishedFile _)) fun r => ?_
  split
  · exact tryFromPendingDownloads_within _ _ _
  · exact getFromChunks_within _ _ _
  · exact sendFileResponse_within _ _

/-- A peer answers with a chunk. -/
theorem chunkResponse_within (requestId : OutboundRequestId) (response : FileResponse) :
    (fileDownload (.response requestId response)).Within (.ops AskOp) := by
  refine within_bind (events_within (.events _)) fun self => ?_
  split
  · exact within_bind (events_within (.events _)) fun _ => chan_within (.sendChunk _ _)
  · trivial

theorem fileDownload_within (e : RequestResponseEvent FileChunkRequest) :
    (fileDownload e).Within (.ops ServeOp) := by
  cases e with
  | request request ch => exact (chunkRequest_within request ch).mono_ops fun _ => .of_answer
  | response requestId response =>
      exact (chunkResponse_within requestId response).mono_ops fun _ => .of_ask
  | _ => trivial

theorem handleSwarmEvent_within (e : SwarmEvent) :
    (handleSwarmEvent e).Within (.ops ServeOp) := by
  unfold handleSwarmEvent
  split
  · exact (kademlia_within _ _).mono_ops fun _ => .of_ask
  · exact fileDownload_within _
  · exact metadataDownload_within _
  · trivial

/-- Providing puts a record and a provider record. -/
theorem provideMetadata_within {O : Op → Prop} (hr : ∀ k v, O (.swarm (.putRecord k v)))
    (hp : ∀ k, O (.swarm (.startProviding k))) (m : FileMetadata) :
    (provideMetadata m).run.Within (.ops O) :=
  within_bindE (swarm_within (hr _ _)) fun _ => swarm_within (hp _)

omit [Platform] in
theorem provideFileChunk_within {O : Op → Prop} (hr : ∀ k v, O (.swarm (.putRecord k v)))
    (hp : ∀ k, O (.swarm (.startProviding k))) (r : FileChunkRequest) :
    (provideFileChunk r).run.Within (.ops O) :=
  within_bindE (swarm_within (hr _ _)) fun _ => swarm_within (hp _)

omit [Platform] in
theorem provideFileChunks_within {O : Op → Prop} (hr : ∀ k v, O (.swarm (.putRecord k v)))
    (hp : ∀ k, O (.swarm (.startProviding k))) (id : UInt64) (cs : List Nat) :
    (provideFileChunks id cs).run.Within (.ops O) := by
  induction cs with
  | nil => trivial
  | cons c cs ih => exact within_bindE (provideFileChunk_within hr hp _) fun _ => ih

theorem provideAll_within {O : Op → Prop} (hr : ∀ k v, O (.swarm (.putRecord k v)))
    (hp : ∀ k, O (.swarm (.startProviding k))) (m : FileMetadata) :
    (provideAll m).run.Within (.ops O) :=
  within_bindE (provideMetadata_within hr hp m) fun _ => provideFileChunks_within hr hp _ _

theorem provideEach_within (rs : List PublishedFileRecord) :
    (provideEach rs).run.Within (.ops StartUpOp) := by
  induction rs with
  | nil => trivial
  | cons r rs ih =>
      refine within_bindE (within_adapt _ (store_within .streamItem)) fun _ => ?_
      refine within_bindE (within_lift (fs_within (.read _))) fun data => ?_
      split
      · split
        · exact within_bindE (provideAll_within .putRecord .startProviding _) fun _ => ih
        · exact within_bindE trivial fun _ => ih
      · exact ih

theorem provideAllPublishedFiles_within :
    provideAllPublishedFiles.run.Within (.ops StartUpOp) :=
  within_bindE (within_adapt _ (store_within .streamPublishedFiles)) fun _ =>
    provideEach_within _

theorem handleCommand_within (c : P2pCommand) : (handleCommand c).Within (.ops CommandOp) := by
  unfold handleCommand
  split
  · refine within_bind (swarm_within (.getProviders _)) fun _ => ?_
    refine within_bind (events_within (.events _)) fun _ => ?_
    exact events_within (.events _)
  · refine within_bind (swarm_within (.getProviders _)) fun _ => ?_
    refine within_bind (events_within (.events _)) fun _ => ?_
    exact events_within (.events _)
  · exact within_bind (provideMetadata_within .putRecord .startProviding _) fun _ => trivial
  · exact within_bind (provideFileChunk_within .putRecord .startProviding _) fun _ => trivial

end EventLoop

/-! ### Downloading -/

section Downloading

open FileDownloadService

/-- A tick looks at the permits and the pending downloads. -/
inductive TickOp : Op → Prop
  | availablePermits : TickOp (.sync .availablePermits)
  | streamPendingDownloads : TickOp (.store .streamPendingDownloads)
  | streamItem : TickOp (.store .streamItem)
  | insertActive (k : PublishedFileKey) : TickOp (.sync (.insertActive k))

/-- A tick starts downloads. -/
def tickFootprint : Footprint lang := ⟨TickOp, fun t => ∃ r, t = .download r, fun _ => False⟩

theorem workOn_within (rs : List PendingDownloadRecord) : (workOn rs).Within tickFootprint := by
  induction rs with
  | nil => trivial
  | cons r rs ih =>
      refine within_bind (perform_within TickOp.streamItem) fun item => ?_
      refine within_bind (perform_within TickOp.availablePermits) fun n => ?_
      split
      · trivial
      · split
        · refine within_bind (perform_within (.insertActive _)) fun fresh => ?_
          split
          · exact ⟨⟨r, rfl⟩, ih⟩
          · exact ih
        · exact ih

theorem workOnPendingDownloads_within : workOnPendingDownloads.Within tickFootprint := by
  refine within_bind (perform_within TickOp.availablePermits) fun n => ?_
  split
  · trivial
  · refine within_bind (perform_within TickOp.streamPendingDownloads) fun r => ?_
    split
    · exact workOn_within _
    · trivial

/-- A download reads its metadata and records chunks. -/
inductive DownloadOp (key : PublishedFileKey) : Op → Prop
  | read (p : PathBuf) : DownloadOp key (.fs (.read p))
  | put (r : PendingDownloadRecord) (h : r.key = key) :
      DownloadOp key (.store (.putPendingDownload r))

/-- A download starts chunk tasks and waits for them. -/
def downloadFootprint (key : PublishedFileKey) : Footprint lang :=
  ⟨DownloadOp key, fun t => ∃ c dir, t = .chunk ⟨key.toU64, c, dir⟩,
    fun j => ∃ c, j = .chunk key.toU64 c⟩

theorem spawnChunks_within {F : Footprint lang} (r : PendingDownloadRecord) (cs : List Nat)
    (hF : ∀ c ∈ cs, c ∉ r.downloadedChunks →
      F.spawn (.chunk ⟨r.key.toU64, c, r.chunksDir⟩)) :
    (spawnChunks r cs).Within F := by
  induction cs with
  | nil => trivial
  | cons c cs ih =>
      have rest : (spawnChunks r cs).Within F :=
        ih fun c' hc' => hF c' (List.mem_cons_of_mem _ hc')
      unfold spawnChunks
      split
      · exact rest
      · next hc =>
          refine within_bind ⟨hF c List.mem_cons_self hc, trivial⟩ fun _ => ?_
          exact within_bind rest fun _ => trivial

/-- `spawnChunks` answers with slots of the chunks it starts. -/
theorem spawnChunks_ends (r : PendingDownloadRecord) (cs : List Nat) :
    (spawnChunks r cs).Ends fun js => ∀ j ∈ js, ∃ c, j = .chunk r.key.toU64 c := by
  induction cs with
  | nil => exact nofun
  | cons c cs ih =>
      unfold spawnChunks
      split
      · exact ih
      · show (spawnChunks r cs >>= _).Ends _
        refine ends_bind ih fun js hjs => ?_
        intro j hj
        obtain rfl | hj := List.mem_cons.mp hj
        · exact ⟨c, rfl⟩
        · exact hjs j hj

theorem recordChunk_within (r : PendingDownloadRecord) (e : Option String) (result : Res) :
    (recordChunk r e result).Within (.ops (DownloadOp r.key)) := by
  unfold recordChunk
  split
  · split
    · trivial
    · exact within_bind (perform_within (DownloadOp.put _ rfl)) fun _ => trivial
  · trivial
  · trivial

/-- Recording a chunk does not change the key of the record. -/
theorem recordChunk_ends (r : PendingDownloadRecord) (e : Option String) (result : Res) :
    (recordChunk r e result).Ends fun x => x.1.key = r.key := by
  unfold recordChunk
  split
  · split
    · rfl
    · intro _
      rfl
  · rfl
  · rfl

theorem joinChunks_within {key : PublishedFileKey} (n : Nat) (js : List Slot)
    (r : PendingDownloadRecord) (e : Option String) (hr : r.key = key)
    (hjs : ∀ j ∈ js, ∃ c, j = .chunk key.toU64 c) :
    (joinChunks n js r e).Within (downloadFootprint key) := by
  induction n generalizing js r e with
  | zero => trivial
  | succ n ih =>
      subst hr
      refine ⟨hjs, fun j result => ?_⟩
      refine within_bind_ends ((recordChunk_within r e result).of_ops fun _ ho => ho)
        (recordChunk_ends r e result) fun x hx => ?_
      exact ih _ _ _ hx fun j hj => hjs j (List.mem_of_mem_erase hj)

/-- Joining the chunks does not change the key of the record. -/
theorem joinChunks_ends (n : Nat) (js : List Slot) (r : PendingDownloadRecord)
    (e : Option String) : (joinChunks n js r e).Ends fun x => x.1.key = r.key := by
  induction n generalizing js r e with
  | zero => rfl
  | succ n ih =>
      intro j result
      refine ends_bind (recordChunk_ends r e result) fun x hx => ?_
      rw [← hx]
      exact ih _ _ _

variable [Platform]

theorem readMetadata_within {F : Footprint lang} {dir : PathBuf}
    (h : F.op (.fs (.read (metadataPath dir)))) : (readMetadata dir).run.Within F := by
  refine within_bindE (within_adapt _ (perform_within h)) fun bytes => ?_
  split <;> trivial

theorem download_within (r : PendingDownloadRecord) :
    (download r).Within (downloadFootprint r.key) := by
  refine within_bind (readMetadata_within (DownloadOp.read _)) fun m => ?_
  split
  · trivial
  · refine within_bind_ends (spawnChunks_within r _ fun c _ _ => ⟨c, _, rfl⟩)
      (spawnChunks_ends r _) fun js hjs => ?_
    refine within_bind (joinChunks_within _ _ _ _ rfl hjs) fun (x, e) => ?_
    cases e <;> trivial

/-- A download does not change the key of its record. -/
theorem download_ends (r : PendingDownloadRecord) :
    (download r).Ends fun x => x.2.key = r.key := by
  refine ends_bind (ends_true _) fun m _ => ?_
  split
  · rfl
  · refine ends_bind (ends_true _) fun js _ => ?_
    refine ends_bind (joinChunks_ends _ _ _ _) fun (x, e) hx => ?_
    cases e <;> exact hx

/-- Putting the file together reads its chunk directory and writes the
file next to it. -/
inductive RestoreOp : Op → Prop
  | read (p : PathBuf) : RestoreOp (.fs (.read p))
  | tryExists (p : PathBuf) : RestoreOp (.fs (.tryExists p))
  | metadata (p : PathBuf) : RestoreOp (.fs (.metadata p))
  | save {p : PathBuf} {o : Op} (ho : SaveOp p o) : RestoreOp o
  | rename (p q : PathBuf) : RestoreOp (.fs (.rename p q))

section Writer

omit [Platform]

variable {p : PathBuf}

theorem fileWrite_within (file : Tokio.File p) (bs : Bytes) :
    (file.write bs).run.Within (.ops (SaveOp p)) := by
  unfold Tokio.File.write
  split
  · trivial
  · refine within_bindE (within_lift (fs_within (.writeAt _ _))) fun r => ?_
    split <;> trivial

theorem tokioFlushBuf_within (w : Tokio.BufWriter p) :
    w.flushBuf.run.Within (.ops (SaveOp p)) := by
  unfold Tokio.BufWriter.flushBuf
  split
  · trivial
  · exact within_bindE (fileWrite_within _ _) fun _ => trivial

theorem tokioWrite_within (w : Tokio.BufWriter p) (bs : Bytes) :
    (w.write bs).run.Within (.ops (SaveOp p)) := by
  refine within_bindE ?_ fun w => ?_
  · unfold Tokio.BufWriter.makeRoom
    split
    · exact tokioFlushBuf_within w
    · trivial
  · split
    · exact within_bindE (fileWrite_within _ _) fun _ => trivial
    · trivial

theorem tokioWriteAll_within (w : Tokio.BufWriter p) (bs : Bytes) :
    (w.writeAll bs).run.Within (.ops (SaveOp p)) := by
  unfold Tokio.BufWriter.writeAll
  induction chunks Tokio.MAX_BUF_SIZE bs generalizing w with
  | nil => trivial
  | cons bs pieces ih => exact within_bindE (tokioWrite_within w bs) fun w => ih w

theorem tokioFlush_within (w : Tokio.BufWriter p) : w.flush.run.Within (.ops (SaveOp p)) := by
  refine within_bindE (tokioFlushBuf_within w) fun w => ?_
  unfold Tokio.File.flush
  split <;> trivial

theorem copyChunks_within (m : FileMetadata) (n c : Nat) (w : Tokio.BufWriter p) :
    (copyChunks m n c w).run.Within (.ops RestoreOp) := by
  induction n generalizing c w with
  | zero => trivial
  | succ n ih =>
      refine within_bindE (within_adapt _ (fs_within (.read _))) fun bytes => ?_
      refine within_bindE (within_adapt _ ((tokioWriteAll_within w _).mono_ops fun _ => .save))
        fun w => ?_
      exact ih _ _

end Writer

theorem restoreOriginalFile_within (r : PendingDownloadRecord) :
    (restoreOriginalFile r).run.Within (.ops RestoreOp) := by
  refine within_bindE (readMetadata_within (RestoreOp.read _)) fun m => ?_
  split
  · trivial
  · refine within_bindE (within_adapt _ (fs_within (.tryExists _))) fun found => ?_
    split
    · refine within_bindE (within_adapt _ (fs_within (.metadata _))) fun t => ?_
      split <;> trivial
    · refine within_bindE (within_adapt _ (fs_within (.save .createFile))) fun _ => ?_
      refine within_bindE (copyChunks_within _ _ _ _) fun w => ?_
      refine within_bindE (within_adapt _ ((tokioFlush_within w).mono_ops fun _ => .save))
        fun _ => ?_
      exact within_bindE (within_adapt _ (fs_within (.rename _ _))) fun _ => trivial

/-- A chunk task holds a permit, asks for its chunk and writes it. -/
inductive ChunkOp (d : DownloadFileChunk) : Op → Prop
  | acquire : ChunkOp d (.sync .acquire)
  | release : ChunkOp d (.sync .release)
  | channel : ChunkOp d (.chan (.chunk .channel))
  | recv (s : OneshotSender (Option FileResponse)) : ChunkOp d (.chan (.chunk (.recv s)))
  | request (s : OneshotSender (Option FileResponse)) :
      ChunkOp d (.chan (.sendCommand (.requestFileChunk ⟨d.fileId, d.chunkId⟩ s)))
  | provide : ChunkOp d (.chan (.sendCommand (.provideFileChunk ⟨d.fileId, d.chunkId⟩)))
  | read : ChunkOp d (.fs (.read (metadataPath d.targetDir)))
  | save (extension : String) {o : Op}
      (ho : SaveOp (d.targetDir.join (chunkFileName d.chunkId extension)) o) : ChunkOp d o

theorem verifyAndSaveFileChunk_within (d : DownloadFileChunk) (bs : Bytes) :
    (verifyAndSaveFileChunk d bs).run.Within (.ops (ChunkOp d)) := by
  refine within_bindE (within_adapt _ (readMetadata_within ChunkOp.read)) fun m => ?_
  split
  · trivial
  · split
    · exact within_adapt _ ((writeFile_within _ _).mono_ops fun _ => .save _)
    · trivial
    · trivial

theorem downloadFileChunk_within (d : DownloadFileChunk) :
    (downloadFileChunk d).run.Within (.ops (ChunkOp d)) := by
  refine within_bindE (within_lift (chan_within .channel)) fun tx => ?_
  refine within_bindE (within_lift (chan_within (.request tx))) fun sent => ?_
  split
  · trivial
  · refine within_bindE (within_lift (chan_within (.recv tx))) fun answer => ?_
    split
    · trivial
    · refine within_bindE (verifyAndSaveFileChunk_within d _) fun _ => ?_
      refine within_bindE (within_lift (chan_within .provide)) fun sent => ?_
      split <;> trivial
    · trivial
    · trivial

theorem chunkTask_within (d : DownloadFileChunk) : (chunkTask d).Within (.ops (ChunkOp d)) := by
  refine within_bind (sync_within .acquire) fun _ => ?_
  refine within_bind (downloadFileChunk_within d) fun result => ?_
  exact within_bind (sync_within .release) fun _ => trivial

/-- Completing a download puts the file together, publishes it and
deletes the pending record. -/
inductive CompleteOp (key : PublishedFileKey) : Op → Prop
  | restore {o : Op} (ho : RestoreOp o) : CompleteOp key o
  | putPublishedFile (r : PublishedFileRecord) (h : r.key = key) :
      CompleteOp key (.store (.putPublishedFile r))
  | deletePendingDownload : CompleteOp key (.store (.deletePendingDownload key))
  | provide (m : FileMetadata) : CompleteOp key (.chan (.sendCommand (.provideMetadata m)))

theorem processCompleted_within (r : PendingDownloadRecord) :
    (processCompleted r).run.Within (.ops (CompleteOp r.key)) := by
  refine within_bindE (within_adapt _
    ((restoreOriginalFile_within r).mono_ops fun _ => .restore)) fun m => ?_
  refine within_bindE (within_adapt _ (store_within (.putPublishedFile _ rfl))) fun _ => ?_
  refine within_bindE (within_adapt _ (store_within .deletePendingDownload)) fun _ => ?_
  refine within_bindE (within_lift (chan_within (.provide m))) fun sent => ?_
  split <;> trivial

end Downloading

end RustDfs
