import RustDfs.Lib.Merkle
import RustDfs.Lib.Sha256
import RustDfs.Model.Node

/-!
# `RustDfs.Model.Reference`: a platform to run examples on

A 64-bit little-endian machine with SHA-256, the Merkle trees of
`rs_merkle` and the metadata form `serde_cbor` writes. The theorems of
this development hold for every platform; concrete runs are evaluated on
this one.
-/

set_option autoImplicit false

namespace RustDfs.Reference

open Lib

/-- A node of a Merkle tree: the hash of its two children. -/
def node (a b : Hash) : Hash := Sha256.hash (a.bytes ++ b.bytes)

/-- Byte strings of `n` hashes. -/
def hashes : Nat → Bytes → Option (List Hash)
  | 0, bs => if bs = [] then some [] else none
  | n + 1, bs =>
      if h : (bs.take 32).length = 32 then
        (hashes n (bs.drop 32)).map (⟨bs.take 32, h⟩ :: ·)
      else none

/-- The platform: everything is at hand and paths start at the root. -/
@[reducible] def platform : Platform where
  cwd := []
  arch := ⟨8, true⟩
  finish bs := UInt64.ofNat (ofBeBytes ((Sha256.hash bs).bytes.take 8))
  sha256 := Sha256.hash
  merkleRoot hs := Merkle.top node hs.length hs
  merkleProof hs i := (Merkle.path node hs.length hs i).flatMap Octets.bytes
  parseProof bs := hashes (bs.length / 32) bs
  verifyProof proof root i leaf total := Merkle.climb node total total i leaf proof == some root
  decodeMetadata bs :=
    match FileMetadata.codec.decode bs with
    | some m => .ok m
    | none => .error "the metadata cannot be read"
  decode_toBytes m := by simp only [FileMetadata.toBytes, Codec.decode_bytes]

/-- A node with these files, an empty database and `permits` permits for
chunks. -/
def newWorld (fs : Fs) (permits : Nat) : World where
  fs := fs
  store := ⟨∅, ∅, ∅⟩
  sync := ⟨∅, permits, permits⟩
  chan := ⟨[], ⟨0, fun _ => .dropped⟩, ⟨0, fun _ => .dropped⟩⟩
  swarm := ⟨0, 0, 0, [], []⟩
  events := .new

/-- The next `n` operations of a slot, all of which succeed. -/
def ops (i : Slot) (n : Nat) : List (Conc.Move lang Choice) := List.replicate n (.op i .ok)

/-- A file system with these nodes. -/
def files (nodes : List (Loc × Node)) : Fs := fun l =>
  (nodes.find? fun n => n.1 == l).map Prod.snd

/-- The metadata of a file with these chunks, as `process_file` makes it
for the directory `/src/f_chunks`. -/
def metadataOf (name : String) (chunks : List Bytes) : FileMetadata :=
  let leaves := chunks.map Sha256.hash
  { originalFileName := name
    totalChunks := chunks.length
    chunksDir := ⟨"/src/f_chunks"⟩
    merkleRoot := (Merkle.top node leaves.length leaves).getD (Sha256.hash [])
    merkleProofs := (List.range chunks.length).map fun i =>
      (Merkle.path node leaves.length leaves i).flatMap Octets.bytes
    chunkFileExtension := FILE_CHUNK_EXTENSION
    isPublic := true }

/-- A node with an empty download directory `/d`. -/
def emptyDir (permits : Nat) : World := newWorld (files [([], .dir), (["d"], .dir)]) permits

/-- The metadata of a file of one byte. -/
def oneByte : FileMetadata := metadataOf "f" [[7]]

/-- The metadata of a file of two chunks. -/
def twoChunks : FileMetadata := metadataOf "f" [[7], [8]]

/-! ### Scripts -/

open Conc

/-- A pass of the event loop with a swarm event, whose handler performs
`n` operations that succeed. -/
def swarmPass (e : SwarmEvent) (n : Nat) : List (Move lang Choice) :=
  [.start .swarmEvent, .op .eventLoop (.event e)] ++ ops .eventLoop n ++ [.exit .eventLoop]

/-- A pass of the event loop with a command, whose handler performs `n`
operations that succeed. -/
def commandPass (n : Nat) : List (Move lang Choice) :=
  [.start .command] ++ ops .eventLoop (n + 1) ++ [.exit .eventLoop]

/-- A provider query finds the peer 7 and ends; the peer is asked, and
the peer's answer is the event `e`. -/
def askProvider (query : QueryId) (e : SwarmEvent) : List (Move lang Choice) :=
  commandPass 3 ++
    swarmPass (.kademlia query (.getProviders (.ok (.foundProviders {7})))) 2 ++
    [.start .swarmEvent, .op .eventLoop
      (.event (.kademlia query (.getProviders (.ok .finishedWithNoAdditionalRecord))))] ++
    ops .eventLoop 2 ++ [.op .eventLoop (.peer 7)] ++ ops .eventLoop 3 ++ [.exit .eventLoop] ++
    swarmPass e 3

/-- A provider query ends without a provider. -/
def noProvider (query : QueryId) : List (Move lang Choice) :=
  commandPass 3 ++
    swarmPass (.kademlia query (.getProviders (.ok .finishedWithNoAdditionalRecord))) 4

/-- Call `n` starts and asks for the metadata. -/
def ask (n : Nat) (request : DownloadFileRequest) : List (Move lang Choice) :=
  .start (.downloadFile n request) :: ops (.call n) 6

/-- The event loop gets the metadata `m` for the next such call. -/
def answer (query : QueryId) (request : OutboundRequestId) (m : FileMetadata) :
    List (Move lang Choice) :=
  askProvider query (.metadataDownload (.response request (.success m.toBytes)))

/-- Call `n` goes on with the metadata and is accepted. -/
def accept (n : Nat) : List (Move lang Choice) := ops (.call n) 8 ++ [.exit (.call n)]

/-- The one call 0 downloads the file with the metadata `m` to `/d`, and
the file is announced. -/
def acceptOnly (m : FileMetadata) : List (Move lang Choice) :=
  let _ : Platform := platform
  ask 0 ⟨m.key.toU64, "/d"⟩ ++ answer 0 0 m ++ accept 0 ++ commandPass 2

/-- A tick makes its stream. -/
def tickStream : List (Move lang Choice) := .start .tick :: ops .eventLoop 2

/-- The tick starts a download for the one record of its stream. -/
def tickStart : List (Move lang Choice) := ops .eventLoop 3 ++ [.spawn .eventLoop, .exit .eventLoop]

/-- A download reads its metadata and starts `n` chunk tasks. -/
def openDownload (key : PublishedFileKey) (n : Nat) : List (Move lang Choice) :=
  .op (.download key) .ok :: List.replicate n (.spawn (.download key))

/-- A chunk task asks for its chunk. -/
def askChunk (key : PublishedFileKey) (c : Nat) : List (Move lang Choice) :=
  ops (.chunk key.toU64 c) 3

/-- A chunk task gets its chunk, checks it and writes it. -/
def saveChunk (key : PublishedFileKey) (c : Nat) : List (Move lang Choice) :=
  ops (.chunk key.toU64 c) 6

/-- A chunk task ends without its chunk. -/
def missChunk (key : PublishedFileKey) (c : Nat) : List (Move lang Choice) :=
  ops (.chunk key.toU64 c) 2

/-- A download takes the result of a chunk task and records the chunk. -/
def recordChunk (key : PublishedFileKey) (c : Nat) : List (Move lang Choice) :=
  [.await (.download key) (.chunk key.toU64 c), .op (.download key) .ok]

/-- A download takes the result of its last chunk task, which has no
chunk, and ends. -/
def endDownload (key : PublishedFileKey) (c : Nat) : List (Move lang Choice) :=
  [.await (.download key) (.chunk key.toU64 c), .op (.download key) .ok, .exit (.download key)]

/-- A download with `n` chunks completes: it puts the file together,
stores the published record, deletes the pending one and ends. The
chunks fit into the buffer of the writer, which writes once. -/
def complete (key : PublishedFileKey) (n : Nat) : List (Move lang Choice) :=
  ops (.download key) (9 + n) ++ [.exit (.download key)]

end RustDfs.Reference
