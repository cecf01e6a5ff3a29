import RustDfs.Model.FileProcessing

/-!
# `RustDfs.Model.Grpc`: the calls of the gRPC service

`publish_file` and `download_file` of `grpc/server.rs`, with the status
each failure is answered with.
-/

set_option autoImplicit false

namespace RustDfs

open Lib Conc

/-- `store` with `.map_err(|e| Status::internal(e.to_string()))`. -/
def storeOrInternal (o : StoreOp) : ExceptT Status Proc o.Val :=
  (store o).adapt fun e => .internal e.text

/-- `command_sender.send(..)` with a status for a closed channel. -/
def sendOrInternal (c : P2pCommand) (message : String) : ExceptT Status Proc Unit :=
  ExceptT.mk do
    match ← chan (.sendCommand c) with
    | .ok _ => return .ok ()
    | .error _ => return .error (.internal message)

variable [Platform]

/-- `DfsService::publish_file`. -/
def publishFile (fuel : Nat) (request : PublishFileRequest) : ExceptT Status Proc UInt64 := do
  let fileSplitResult ← (processFile fuel request.filePath request.isPublic).adapt
    fun e => .internal ("failed to split file: " ++ e.text)
  let key := fileSplitResult.key
  storeOrInternal (.putFileMetadata fileSplitResult)
  return key.toU64

/-- The metadata `download_file` goes on with: the received one, with the
chunk directory of this node. -/
def localMetadata (downloadPath : PathBuf) (m : FileMetadata) : FileMetadata :=
  { m with chunksDir := downloadPath.join (m.getChunksDirNamePrefix ++ "_chunks") }

/-- The pending download `download_file` stores. -/
def pendingDownload (m : FileMetadata) : PendingDownloadRecord :=
  .new m.key m.originalFileName m.chunksDir

/-- `DfsService::download_file` up to the metadata: make sure of the
directory, ask the event loop, wait for the answer. -/
def fetchMetadata (request : DownloadFileRequest) : ExceptT Status Proc FileMetadata := do
  (ensureDirExistsOrCreate ⟨request.downloadPath⟩).adapt fun e => .internal e.text
  let tx ← ExceptT.lift (chan (.metadata .channel))
  sendOrInternal (.requestMetadata ⟨request.fileId⟩ tx) "failed to send P2pCommand::RequestMetadata"
  match ← ExceptT.lift (chan (.metadata (.recv tx))) with
  | .error _ => throw (.internal "failed to receive metadata response")
  | .ok none => throw (.internal "missing metadata file")
  | .ok (some metadata) => return metadata

/-- `DfsService::download_file` from the metadata to the record: the
destination must be free; then the chunk directory, its metadata file and
the announcement. -/
def prepareDownload (downloadPath : PathBuf) (metadata : FileMetadata) :
    ExceptT Status Proc PendingDownloadRecord := do
  let filePath := downloadPath.join metadata.originalFileName
  let found ← (fs (.tryExists filePath)).adapt Status.ofIo
  if found then
    throw (.alreadyExists filePath.str)
  else
    let metadata := localMetadata downloadPath metadata
    (ensureDirExistsOrCreate metadata.chunksDir).adapt fun e => .internal e.text
    let _ ← (saveMetadata metadata).adapt fun e => .internal e.text
    sendOrInternal (.provideMetadata metadata) "failed to provide metadata"
    return pendingDownload metadata

/-- `DfsService::download_file`. -/
def downloadFile (request : DownloadFileRequest) : ExceptT Status Proc Unit := do
  let key : PublishedFileKey := .ofU64 request.fileId
  let published ← storeOrInternal (.publishedFileExists key)
  if published then
    throw (.alreadyExists ("file " ++ toString request.fileId ++ " is already provided"))
  else
    let pending ← storeOrInternal (.pendingDownloadExists key)
    if pending then
      throw (.alreadyExists ("file " ++ toString request.fileId ++ " is getting downloaded now"))
    else
      let metadata ← fetchMetadata request
      let record ← prepareDownload ⟨request.downloadPath⟩ metadata
      storeOrInternal (.putPendingDownload record)

end RustDfs
