import RustDfs.Model.FileProcessing

/-!
# `RustDfs.Model.DownloadService`: the downloads

`file_download_service.rs`: a tick of `work_on_pending_downloads`, the
download task it starts for a record, and the chunk tasks of a download.
A download task carries its record along; every chunk that is recorded
changes it.
-/

set_option autoImplicit false

namespace RustDfs

open Lib Conc

/-- `set.insert(chunk)` on the downloaded chunks. -/
def PendingDownloadRecord.insertChunk (r : PendingDownloadRecord) (c : Nat) :
    PendingDownloadRecord :=
  { r with downloadedChunks := insert c r.downloadedChunks }

namespace FileDownloadService

/-! ### A tick -/

/-- The loop of `work_on_pending_downloads` over the streamed records. -/
def workOn : List PendingDownloadRecord → Proc Unit
  | [] => return ()
  | record :: records => do
      let item ← (store .streamItem).run
      if (← sync .availablePermits) = 0 then
        return ()
      else
        match item with
        | .ok _ => do
            if ← sync (.insertActive record.key) then
              spawn (.download record)
            workOn records
        | .error _ => workOn records

/-- `FileDownloadService::work_on_pending_downloads`. -/
def workOnPendingDownloads : Proc Unit := do
  if (← sync .availablePermits) = 0 then
    return ()
  else
    match ← (store .streamPendingDownloads).run with
    | .ok records => workOn records
    | .error _ => return ()

/-! ### A chunk -/

section Chunk

variable [Platform]

/-- `FileDownloadService::verify_and_save_file_chunk`. -/
def verifyAndSaveFileChunk (d : DownloadFileChunk) (bytes : Bytes) :
    ExceptT TaskError Proc Unit := do
  let metadata ← (readMetadata d.targetDir).adapt fun e => .failed e.text
  match metadata.merkleProofs[d.chunkId]? with
  | none => throw (.failed ("chunk " ++ toString d.chunkId ++ " not found"))
  | some proof =>
      match verifyChunk bytes d.chunkId proof metadata.merkleRoot metadata.totalChunks with
      | some true =>
          (writeFile (d.targetDir.join (chunkFileName d.chunkId metadata.chunkFileExtension))
            bytes).adapt fun e => .failed e.text
      | some false => throw (.failed "downloaded chunk is not correct")
      | none => throw .panicked

/-- `FileDownloadService::download_file_chunk`. -/
def downloadFileChunk (d : DownloadFileChunk) : ExceptT TaskError Proc (Option Nat) := do
  let tx ← ExceptT.lift (chan (.chunk .channel))
  match ← ExceptT.lift (chan (.sendCommand (.requestFileChunk ⟨d.fileId, d.chunkId⟩ tx))) with
  | .error _ => throw (.failed "channel closed")
  | .ok _ =>
    match ← ExceptT.lift (chan (.chunk (.recv tx))) with
    | .error _ => throw (.failed "channel closed")
    | .ok (some (.success bytes)) => do
        verifyAndSaveFileChunk d bytes
        match ← ExceptT.lift (chan (.sendCommand (.provideFileChunk ⟨d.fileId, d.chunkId⟩))) with
        | .error _ => return none
        | .ok _ => return some d.chunkId
    | .ok (some (.error _)) => return none
    | .ok _ => return none

/-- A chunk task: the permit is held while the chunk is downloaded, and
given back also when the task panics. -/
def chunkTask (d : DownloadFileChunk) : Proc Res := do
  sync .acquire
  let result ← (downloadFileChunk d).run
  sync .release
  return .chunk result

end Chunk

/-! ### A download -/

/-- The first loop of `download`: a task for every chunk of the list that
is not recorded. The result are the slots to wait for. -/
def spawnChunks (record : PendingDownloadRecord) : List Nat → Proc (List Slot)
  | [] => return []
  | chunkId :: chunkIds => do
      if chunkId ∈ record.downloadedChunks then
        spawnChunks record chunkIds
      else
        spawn (.chunk ⟨record.key.toU64, chunkId, record.chunksDir⟩)
        let slots ← spawnChunks record chunkIds
        return .chunk record.key.toU64 chunkId :: slots

/-- The record and the first error after the result of a chunk task. -/
def recordChunk (record : PendingDownloadRecord) (firstError : Option String) (result : Res) :
    Proc (PendingDownloadRecord × Option String) := do
  match result with
  | .chunk (.ok (some chunkId)) =>
      if chunkId ∈ record.downloadedChunks then
        return (record, firstError)
      else
        let record := record.insertChunk chunkId
        let _ ← (store (.putPendingDownload record)).run
        return (record, firstError)
  | .chunk (.error e) => return (record, firstError.or (some e.text))
  | _ => return (record, firstError)

/-- The second loop of `download`: wait for the chunk tasks, in the order
they end. The first argument is the number of tasks left. -/
def joinChunks : Nat → List Slot → PendingDownloadRecord → Option String →
    Proc (PendingDownloadRecord × Option String)
  | 0, _, record, firstError => return (record, firstError)
  | left + 1, slots, record, firstError =>
      Prog.await (L := lang) slots fun j result => do
        let (record, firstError) ← recordChunk record firstError result
        joinChunks left (slots.erase j) record firstError

variable [Platform]

/-- `FileDownloadService::download`: whether the download is complete,
and the record as it is then. -/
def download (record : PendingDownloadRecord) :
    Proc (Except String Bool × PendingDownloadRecord) := do
  match ← (readMetadata record.chunksDir).run with
  | .error e => return (.error e.text, record)
  | .ok metadata => do
      let slots ← spawnChunks record (List.range metadata.merkleProofs.length)
      let (record, firstError) ← joinChunks slots.length slots record none
      match firstError with
      | some e => return (.error e, record)
      | none =>
          return (.ok (record.downloadedChunks.card == metadata.merkleProofs.length), record)

/-- `FileDownloadService::process_completed`. -/
def processCompleted (record : PendingDownloadRecord) : ExceptT String Proc Unit := do
  let metadata ← (restoreOriginalFile record).adapt FileProcessingError.text
  (store (.putPublishedFile
    ⟨record.key, record.originalFileName, record.chunksDir, metadata.isPublic⟩)).adapt
    FileStoreError.text
  (store (.deletePendingDownload record.key)).adapt FileStoreError.text
  match ← ExceptT.lift (chan (.sendCommand (.provideMetadata metadata))) with
  | .ok _ => return ()
  | .error _ => throw "channel closed"

/-- The task `work_on_pending_downloads` starts for a record. -/
def downloadTask (record : PendingDownloadRecord) : Proc Res := do
  let (completed, record) ← download record
  match completed with
  | .ok true => do
      let _ ← (processCompleted record).run
      sync (.removeActive record.key)
  | _ => sync (.removeActive record.key)
  return .unit

end FileDownloadService

end RustDfs
