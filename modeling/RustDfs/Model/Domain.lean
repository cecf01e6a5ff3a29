import RustDfs.Lib.Cbor
import RustDfs.Lib.UnixPath

/-!
# `RustDfs.Model.Domain`: the data of a node

The records the node keeps, the messages it exchanges and the errors it
reports, after `file_store/domain.rs`, `p2p/domain.rs`, the `errors.rs`
files and the `FileMetadata` of `file_processing/processing.rs`.

`Platform` collects what the node takes from outside its own source: the
process and machine it runs on, the hashes, the Merkle tree and the
reader of metadata files. A `usize` is a `Nat`.
-/

set_option autoImplicit false

namespace RustDfs

open Lib

/-! ### Errors -/

/-- The kinds of `std::io::Error` a `Status` tells apart. -/
inductive ErrorKind where
  | notFound | permissionDenied | connectionRefused | connectionReset | connectionAborted
  | notConnected | addrInUse | addrNotAvailable | brokenPipe | alreadyExists | wouldBlock
  | invalidInput | invalidData | timedOut | writeZero | interrupted | unexpectedEof
  | notADirectory | other
deriving DecidableEq

/-- A `std::io::Error`: its kind and its text. -/
structure IoError where
  kind : ErrorKind
  text : String
deriving DecidableEq

/-- `RocksDbStoreError`. -/
inductive RocksDbStoreError where
  | rocksDb (text : String)
  | cfMissing (name : String)
  | cbor (text : String)
  | join (text : String)
deriving DecidableEq

/-- `FileStoreError`. -/
inductive FileStoreError where
  | rocksDb (e : RocksDbStoreError)
  | joinError (text : String)
deriving DecidableEq

/-- `FileProcessingError`. -/
inductive FileProcessingError where
  | fileAccess (text : String)
  | io (e : IoError)
  | merkleTreeCreation (text : String)
  | cbor (text : String)
  | taskJoin (text : String)
deriving DecidableEq

/-- The text of a `RocksDbStoreError`. -/
def RocksDbStoreError.text : RocksDbStoreError → String
  | .rocksDb t => "RocksDB error: " ++ t
  | .cfMissing n => "Column family does not exist: " ++ n
  | .cbor t => "Cbor error: " ++ t
  | .join t => "Join error: " ++ t

/-- The text of a `FileStoreError`. -/
def FileStoreError.text : FileStoreError → String
  | .rocksDb e => "RocksDB store error: " ++ e.text
  | .joinError t => "Join error: " ++ t

/-- The text of a `FileProcessingError`. -/
def FileProcessingError.text : FileProcessingError → String
  | .fileAccess t => "File cannot be accessed: " ++ t
  | .io e => "IO error: " ++ e.text
  | .merkleTreeCreation t => "Merkle tree cannot be created: " ++ t
  | .cbor t => "Metadata file cannot be created: " ++ t
  | .taskJoin t => "Task join error: " ++ t

/-- The gRPC codes the node answers with. -/
inductive Code where
  | unknown | invalidArgument | deadlineExceeded | notFound | alreadyExists
  | permissionDenied | aborted | outOfRange | internal | unavailable | dataLoss
deriving DecidableEq

/-- `tonic::Status`. -/
structure Status where
  code : Code
  message : String
deriving DecidableEq

/-- `Status::internal`. -/
def Status.internal (message : String) : Status := ⟨.internal, message⟩

/-- `Status::already_exists`. -/
def Status.alreadyExists (message : String) : Status := ⟨.alreadyExists, message⟩

/-- The code `tonic` gives to an I/O error. -/
def ErrorKind.code : ErrorKind → Code
  | .brokenPipe | .wouldBlock | .writeZero | .interrupted => .internal
  | .connectionRefused | .connectionReset | .notConnected | .addrInUse
  | .addrNotAvailable => .unavailable
  | .alreadyExists => .alreadyExists
  | .connectionAborted => .aborted
  | .invalidData => .dataLoss
  | .invalidInput => .invalidArgument
  | .notFound => .notFound
  | .permissionDenied => .permissionDenied
  | .timedOut => .deadlineExceeded
  | .unexpectedEof => .outOfRange
  | .notADirectory | .other => .unknown

/-- `From<std::io::Error> for Status`. -/
def Status.ofIo (e : IoError) : Status := ⟨e.kind.code, e.text⟩

/-! ### File metadata -/

abbrev Hash := Octets 32

/-- `PublishedFileKey`: the eight bytes of a file id, most significant
first. -/
abbrev PublishedFileKey := Octets 8

instance : Std.TransOrd PublishedFileKey := inferInstance

/-- `FileMetadata`. -/
structure FileMetadata where
  originalFileName : String
  totalChunks : Nat
  chunksDir : PathBuf
  merkleRoot : Hash
  merkleProofs : List Bytes
  chunkFileExtension : String
  isPublic : Bool
deriving DecidableEq

namespace FileMetadata

/-- `get_chunks_dir_name_prefix`: every dot becomes an underscore. -/
def chunksDirNamePrefix (name : String) : String :=
  String.ofList (name.toList.map fun c => if c = '.' then '_' else c)

/-- `get_chunks_dir_name_prefix` of a metadata. -/
def getChunksDirNamePrefix (m : FileMetadata) : String :=
  chunksDirNamePrefix m.originalFileName

open Cbor in
/-- The CBOR form of a metadata, field by field. -/
def codec : Codec FileMetadata :=
  (struct 7 <|
    (field "original_file_name" text).pair <|
    (field "total_chunks" uint).pair <|
    (field "chunks_dir" text).pair <|
    (field "merkle_root" (octets 32)).pair <|
    (field "merkle_proofs" (array (array byte))).pair <|
    (field "chunk_file_extension" text).pair
    (field "public" bool)).retract
    (fun m => (m.originalFileName, m.totalChunks, m.chunksDir.str, m.merkleRoot,
      m.merkleProofs, m.chunkFileExtension, m.isPublic))
    (fun (name, total, dir, root, proofs, extension, isPublic) =>
      some ⟨name, total, ⟨dir⟩, root, proofs, extension, isPublic⟩)
    fun _ => rfl

/-- `TryFrom<FileMetadata> for Vec<u8>`. -/
def toBytes (m : FileMetadata) : Bytes := codec.bytes m

end FileMetadata

/-- Pointer width and byte order, as `Hash for usize` sees them. -/
structure Arch where
  pointerBytes : Nat
  littleEndian : Bool

/-- The bytes of a `usize`. -/
def Arch.usizeBytes (a : Arch) (n : Nat) : Bytes :=
  if a.littleEndian then (beBytes a.pointerBytes n).reverse else beBytes a.pointerBytes n

/-- What the node uses and does not define: the directory and machine it
runs on, `rs_sha256` and `rs_merkle`, and how `serde_cbor` reads a
metadata. Only the last comes with a law: what was written is read. -/
class Platform where
  cwd : Loc
  arch : Arch
  /-- `Sha256Hasher::finish` over everything fed to the hasher. -/
  finish : Bytes → UInt64
  /-- `Sha256::hash`. -/
  sha256 : Bytes → Hash
  /-- `MerkleTree::from_leaves`, then `root`. -/
  merkleRoot : List Hash → Option Hash
  /-- `MerkleTree::from_leaves`, then `proof` of one leaf and `to_bytes`. -/
  merkleProof : List Hash → Nat → Bytes
  /-- `MerkleProof::from_bytes`. -/
  parseProof : Bytes → Option (List Hash)
  /-- `MerkleProof::verify` of one leaf: root, index, leaf, leaf count. -/
  verifyProof : List Hash → Hash → Nat → Hash → Nat → Bool
  /-- `serde_cbor::from_slice`. -/
  decodeMetadata : Bytes → Except String FileMetadata
  decode_toBytes : ∀ m, decodeMetadata m.toBytes = .ok m

namespace FileMetadata

variable [Platform]

/-- What `Hash for FileMetadata` feeds to the hasher: the name and the
byte 255 that ends a `str`, the chunk count, the root with its length in
front, and one byte for `public`. -/
def hashBytes (m : FileMetadata) : Bytes :=
  Cbor.utf8 m.originalFileName ++ [255] ++ Platform.arch.usizeBytes m.totalChunks ++
    (Platform.arch.usizeBytes 32 ++ m.merkleRoot.bytes) ++ [if m.isPublic then 1 else 0]

/-- `FileMetadata::key`. -/
def key (m : FileMetadata) : PublishedFileKey := .ofU64 (Platform.finish m.hashBytes)

end FileMetadata

/-! ### Stored records -/

/-- `PublishedFileRecord`. -/
structure PublishedFileRecord where
  key : PublishedFileKey
  originalFileName : String
  chunksDir : PathBuf
  isPublic : Bool
deriving DecidableEq

/-- `From<FileMetadata> for PublishedFileRecord`. -/
def PublishedFileRecord.ofMetadata [Platform] (m : FileMetadata) : PublishedFileRecord :=
  ⟨m.key, m.originalFileName, m.chunksDir, m.isPublic⟩

/-- `PendingDownloadRecord`. -/
structure PendingDownloadRecord where
  key : PublishedFileKey
  originalFileName : String
  chunksDir : PathBuf
  downloadedChunks : Finset Nat
deriving DecidableEq

/-- `PendingDownloadRecord::new`. -/
def PendingDownloadRecord.new (key : PublishedFileKey) (originalFileName : String)
    (chunksDir : PathBuf) : PendingDownloadRecord :=
  ⟨key, originalFileName, chunksDir, ∅⟩

/-! ### Requests and messages -/

/-- `PublishFileRequest`. -/
structure PublishFileRequest where
  filePath : String
  isPublic : Bool
deriving DecidableEq

/-- `DownloadFileRequest`. -/
structure DownloadFileRequest where
  fileId : UInt64
  downloadPath : String
deriving DecidableEq

/-- `MetadataFileRequest`. -/
structure MetadataFileRequest where
  fileId : UInt64
deriving DecidableEq

/-- `FileChunkRequest`. -/
structure FileChunkRequest where
  fileId : UInt64
  chunkId : Nat
deriving DecidableEq

open Cbor in
/-- The CBOR form of a chunk request, which is also its Kademlia key. -/
def FileChunkRequest.toBytes (r : FileChunkRequest) : Bytes :=
  (struct 2 ((field "file_id" uint).pair (field "chunk_id" uint))).bytes
    (r.fileId.toNat, r.chunkId)

/-- `FileResponse`. -/
inductive FileResponse where
  | success (bytes : Bytes)
  | notFound
  | error (text : String)
deriving DecidableEq

open Cbor in
/-- The CBOR form of the `PublishedFile` of a metadata. -/
def FileMetadata.publishedFileBytes (m : FileMetadata) : Bytes :=
  (struct 2 ((field "total_chunks" uint).pair (field "merkle_root" (octets 32)))).bytes
    (m.totalChunks, m.merkleRoot)

/-- `DownloadFileChunk`. -/
structure DownloadFileChunk where
  fileId : UInt64
  chunkId : Nat
  targetDir : PathBuf
deriving DecidableEq

abbrev PeerId := Nat
abbrev QueryId := Nat
abbrev OutboundRequestId := Nat
abbrev ResponseChannel := Nat

/-- The sending half of a oneshot channel for values of type `α`. -/
structure OneshotSender (α : Type) where
  id : Nat
deriving DecidableEq

/-- `P2pCommand`. -/
inductive P2pCommand where
  | requestMetadata (request : MetadataFileRequest)
      (result : OneshotSender (Option FileMetadata))
  | requestFileChunk (request : FileChunkRequest)
      (result : OneshotSender (Option FileResponse))
  | provideMetadata (metadata : FileMetadata)
  | provideFileChunk (request : FileChunkRequest)
deriving DecidableEq

/-- The name of the metadata file in a chunk directory. -/
def METADATA_FILE_NAME : String := ".metadata"

/-- The extension of the chunk files of a published file. -/
def FILE_CHUNK_EXTENSION : String := "chunk"

/-- The name of the file of chunk `c`. -/
def chunkFileName (c : Nat) (extension : String) : String :=
  toString c ++ "." ++ extension

/-- The metadata file of a chunk directory. -/
def metadataPath (dir : PathBuf) : PathBuf := dir.join METADATA_FILE_NAME

/-- The name of the chunk directory for a file of this name. -/
def chunksDirName (name : String) : String :=
  FileMetadata.chunksDirNamePrefix name ++ "_chunks"

end RustDfs
