import RustDfs.Lib.Chunks
import RustDfs.Model.Lang

/-!
# `RustDfs.Model.FileProcessing`: chunk directories

`utils.rs` and `file_processing/processing.rs`: making a directory,
saving and reading a `.metadata` file, checking a chunk, splitting a file
into chunks and putting it together again.

`save_blocking` goes through a `std::io::BufWriter` and
`restore_original_file` through a `tokio::io::BufWriter`. Their buffers
are part of the model. What the first has not written is written when it
is dropped, and an error of that write is lost; what the second has not
written when it is dropped is lost itself.
-/

set_option autoImplicit false

namespace RustDfs

open Lib Conc

/-- `format!("{:?}")` of a path without special characters. -/
def debugPath (p : PathBuf) : String := "\"" ++ p.str ++ "\""

/-- `ensure_dir_exists_or_create`. -/
def ensureDirExistsOrCreate (p : PathBuf) : ExceptT IoError Proc Unit := do
  if ← fs (.tryExists p) then
    match ← fs (.metadata p) with
    | .dir => pure ()
    | .file => throw ⟨.notADirectory, debugPath p ++ " is not a directory"⟩
  else
    fs (.createDirAll p)

/-! ### Saving a metadata -/

/-- The capacity of a `BufWriter`. -/
def BUF_CAPACITY : Nat := 8192

/-- `std::io::BufWriter` over the file at `path`: where its next byte
goes, and what has not been written yet. -/
structure BufWriter (path : PathBuf) where
  offset : Nat
  buf : Bytes

namespace BufWriter

variable {path : PathBuf}

/-- `BufWriter::flush_buf`. -/
def flushBuf (w : BufWriter path) : ExceptT IoError Proc (BufWriter path) := do
  if w.buf = [] then
    return w
  else
    fs (.writeAt path w.offset w.buf)
    return ⟨w.offset + w.buf.length, []⟩

/-- Flush when `n` bytes do not fit behind what is buffered. -/
def makeRoom (w : BufWriter path) (n : Nat) : ExceptT IoError Proc (BufWriter path) :=
  if BUF_CAPACITY - w.buf.length < n then w.flushBuf else pure w

/-- `BufWriter::write_all`. -/
def writeAll (w : BufWriter path) (bs : Bytes) : ExceptT IoError Proc (BufWriter path) := do
  if bs.length < BUF_CAPACITY - w.buf.length then
    return ⟨w.offset, w.buf ++ bs⟩
  else
    let w ← w.makeRoom bs.length
    if BUF_CAPACITY ≤ bs.length then
      fs (.writeAt path w.offset bs)
      return ⟨w.offset + bs.length, w.buf⟩
    else
      return ⟨w.offset, w.buf ++ bs⟩

/-- The writes of a serializer, one after the other. -/
def writePieces (w : BufWriter path) : List Bytes → ExceptT IoError Proc (BufWriter path)
  | [] => pure w
  | bs :: pieces => do
      let w ← w.writeAll bs
      writePieces w pieces

end BufWriter

/-- `save_blocking`: the writer is dropped at the end, and the result of
its last write is ignored. After a failed write the drop tries the rest
once more; the part a failed write may have written covers that. -/
def saveBlocking (result : FileMetadata) : ExceptT FileProcessingError Proc FileMetadata := do
  (fs (.createFile (metadataPath result.chunksDir))).adapt .io
  let writer : BufWriter (metadataPath result.chunksDir) := ⟨0, []⟩
  let writer ← (writer.writePieces (FileMetadata.codec.enc result)).adapt fun e => .cbor e.text
  let _ ← ExceptT.lift writer.flushBuf.run
  return result

/-- `save_metadata`. -/
def saveMetadata (result : FileMetadata) : ExceptT FileProcessingError Proc FileMetadata :=
  saveBlocking result

/-- `tokio::fs::write`. -/
def writeFile (p : PathBuf) (bs : Bytes) : ExceptT IoError Proc Unit := do
  fs (.createFile p)
  fs (.writeAt p 0 bs)

/-! ### The writers of tokio

`tokio::fs::File` hands a write to another thread and goes on. The error
of such a write is reported by the next write or flush of the file. The
model does the write at once and keeps its error until then. -/

namespace Tokio

/-- The most bytes a `tokio::fs::File` takes in one write. -/
def MAX_BUF_SIZE : Nat := 2 * 1024 * 1024

/-- `tokio::fs::File`, open for writing at `path`: where its next byte
goes, and the error of the last write if nothing has reported it yet. -/
structure File (path : PathBuf) where
  offset : Nat
  lastWriteErr : Option IoError

variable {path : PathBuf}

/-- `File::poll_write`, for at most `MAX_BUF_SIZE` bytes. -/
def File.write (file : File path) (bs : Bytes) : ExceptT IoError Proc (File path) :=
  match file.lastWriteErr with
  | some e => throw e
  | none => do
      match ← ExceptT.lift (fs (.writeAt path file.offset bs)).run with
      | .ok _ => return ⟨file.offset + bs.length, none⟩
      | .error e => return ⟨file.offset, some e⟩

/-- `File::poll_flush`. -/
def File.flush (file : File path) : ExceptT IoError Proc Unit :=
  match file.lastWriteErr with
  | some e => throw e
  | none => pure ()

/-- `tokio::io::BufWriter` over the file at `path`. Unlike the writer of
the standard library it does nothing when it is dropped: what is still
buffered then never gets to the file. -/
structure BufWriter (path : PathBuf) where
  file : File path
  buf : Bytes

namespace BufWriter

/-- `BufWriter::new`, over a file that has just been created. -/
def new : BufWriter path := ⟨⟨0, none⟩, []⟩

/-- `BufWriter::flush_buf`. -/
def flushBuf (w : BufWriter path) : ExceptT IoError Proc (BufWriter path) := do
  if w.buf = [] then
    return w
  else
    let file ← w.file.write w.buf
    return ⟨file, []⟩

/-- Flush when `n` bytes do not fit behind what is buffered. -/
def makeRoom (w : BufWriter path) (n : Nat) : ExceptT IoError Proc (BufWriter path) :=
  if BUF_CAPACITY < w.buf.length + n then w.flushBuf else pure w

/-- `BufWriter::poll_write`: what does not fit into an empty buffer goes
straight to the file. -/
def write (w : BufWriter path) (bs : Bytes) : ExceptT IoError Proc (BufWriter path) := do
  let w ← w.makeRoom bs.length
  if BUF_CAPACITY ≤ bs.length then
    let file ← w.file.write bs
    return ⟨file, w.buf⟩
  else
    return ⟨w.file, w.buf ++ bs⟩

/-- One write after the other. -/
def writePieces (w : BufWriter path) : List Bytes → ExceptT IoError Proc (BufWriter path)
  | [] => pure w
  | bs :: pieces => do
      let w ← w.write bs
      writePieces w pieces

/-- `write_all`: as many writes as the file needs to take all bytes. -/
def writeAll (w : BufWriter path) (bs : Bytes) : ExceptT IoError Proc (BufWriter path) :=
  w.writePieces (chunks MAX_BUF_SIZE bs)

/-- `flush`: the buffer, and then the file. -/
def flush (w : BufWriter path) : ExceptT IoError Proc Unit := do
  let w ← w.flushBuf
  w.file.flush

end BufWriter

end Tokio

variable [Platform]

/-- Read the metadata of a chunk directory. -/
def readMetadata (dir : PathBuf) : ExceptT FileProcessingError Proc FileMetadata := do
  let bytes ← (fs (.read (metadataPath dir))).adapt .io
  match Platform.decodeMetadata bytes with
  | .ok metadata => return metadata
  | .error e => throw (.cbor e)

/-- `verify_chunk`: `none` is the panic of `unwrap` on proof bytes that
do not parse. -/
def verifyChunk (chunk : Bytes) (index : Nat) (proofBytes : Bytes) (root : Hash)
    (totalLeaves : Nat) : Option Bool :=
  (Platform.parseProof proofBytes).map fun proof =>
    Platform.verifyProof proof root index (Platform.sha256 chunk) totalLeaves

/-! ### Splitting a file -/

/-- The size of a chunk: 1 MiB. -/
def CHUNK_SIZE : Nat := 1024 * 1024

/-- The inner loop of `split`: read until the buffer is full or the file
ends. A read may return less than asked for. -/
def fillBuffer (path : PathBuf) (offset : Nat) :
    Nat → Bytes → ExceptT FileProcessingError Proc Bytes
  | 0, _ => ExceptT.lift diverge
  | fuel + 1, filled => do
      if filled.length < CHUNK_SIZE then
        let bs ← (fs (.readAt path (offset + filled.length) (CHUNK_SIZE - filled.length))).adapt .io
        if bs = [] then
          return filled
        else
          fillBuffer path offset fuel (filled ++ bs)
      else
        return filled

/-- `split`: `leaves` holds the hash of every chunk written so far. -/
def split (path piecesDir : PathBuf) :
    Nat → Nat → List Hash → ExceptT FileProcessingError Proc (List Hash)
  | 0, _, _ => ExceptT.lift diverge
  | fuel + 1, offset, leaves => do
      let bytes ← fillBuffer path offset (fuel + 1) []
      if bytes = [] then
        return leaves
      else
        (writeFile (piecesDir.join (chunkFileName leaves.length FILE_CHUNK_EXTENSION))
          bytes).adapt .io
        split path piecesDir fuel (offset + bytes.length) (leaves ++ [Platform.sha256 bytes])

/-- `process_file`. -/
def processFile (fuel : Nat) (filePath : String) (isPublic : Bool) :
    ExceptT FileProcessingError Proc FileMetadata := do
  let path : PathBuf := ⟨filePath⟩
  match ← (fs (.metadata path)).adapt .io with
  | .dir => throw (.fileAccess "Not a file")
  | .file =>
    (fs (.openFile path)).adapt .io
    match path.parent with
    | none => throw (.fileAccess "cannot get parent dir")
    | some containingDir =>
      match path.fileName with
      | none => throw (.fileAccess "cannot get file name")
      | some fileName =>
        let chunksDir := containingDir.join (chunksDirName fileName)
        (fs (.createDirAll chunksDir)).adapt .io
        let leaves ← split path chunksDir fuel 0 []
        match Platform.merkleRoot leaves with
        | none => throw (.merkleTreeCreation "cannot get merkle root")
        | some merkleRoot =>
          saveMetadata
            { originalFileName := fileName
              totalChunks := leaves.length
              chunksDir := chunksDir
              merkleRoot := merkleRoot
              merkleProofs := (List.range leaves.length).map (Platform.merkleProof leaves)
              chunkFileExtension := FILE_CHUNK_EXTENSION
              isPublic := isPublic }

/-! ### Putting a file together -/

/-- The loop of `restore_original_file`: append `count` chunks, from
chunk `chunk` on. -/
def copyChunks {tmpPath : PathBuf} (m : FileMetadata) :
    Nat → Nat → Tokio.BufWriter tmpPath →
      ExceptT FileProcessingError Proc (Tokio.BufWriter tmpPath)
  | 0, _, bufWriter => pure bufWriter
  | count + 1, chunk, bufWriter => do
      let chunkBytes ← (fs (.read
        (m.chunksDir.join (chunkFileName chunk m.chunkFileExtension)))).adapt .io
      let bufWriter ← (bufWriter.writeAll chunkBytes).adapt .io
      copyChunks m count (chunk + 1) bufWriter

/-- `restore_original_file`. -/
def restoreOriginalFile (record : PendingDownloadRecord) :
    ExceptT FileProcessingError Proc FileMetadata := do
  let m ← readMetadata record.chunksDir
  match m.chunksDir.parent with
  | none => throw (.fileAccess ("cannot get parent dir: " ++ m.chunksDir.str))
  | some parentDir =>
    let filePath := parentDir.join m.originalFileName
    if ← (fs (.tryExists filePath)).adapt .io then
      match ← (fs (.metadata filePath)).adapt .io with
      | .dir => throw (.fileAccess ("already exists but not a file: " ++ filePath.str))
      | .file => return m
    else
      let tmpPath := parentDir.join (m.originalFileName ++ ".part")
      (fs (.createFile tmpPath)).adapt .io
      let bufWriter : Tokio.BufWriter tmpPath ← copyChunks m m.totalChunks 0 .new
      bufWriter.flush.adapt .io
      (fs (.rename tmpPath filePath)).adapt .io
      return m

end RustDfs
