import RustDfs.Model.World

/-!
# `RustDfs.Model.RocksDb`: the database behind the store

`RocksDBStore` of `file_store/rocksdb.rs` with the conversions of
`file_store/domain.rs`: records are written as bytes into three column
families and read back. The other models use the typed maps of `Store`;
this one is below them.

A column family is an ordered map with atomic operations on single keys,
and an iterator goes through the family as it was when it was made.
`serde_cbor` is a parameter: writing may fail, and what was written is
read.
-/

set_option autoImplicit false

namespace RustDfs

open Lib Std

/-! ### Records as bytes -/

/-- `serde_cbor` for one type: `to_vec`, which writes a hash set in some
order, and `from_slice`. -/
structure Serde (R : Type) where
  toVec : (order : Nat) → R → Except String Bytes
  fromSlice : Bytes → Except String R
  fromSlice_toVec : ∀ {order r bytes}, toVec order r = .ok bytes → fromSlice bytes = .ok r

/-- `serde_cbor` for the types that are stored. -/
class Serdes where
  publishedFile : Serde PublishedFileRecord
  pendingDownload : Serde PendingDownloadRecord
  fileMetadata : Serde FileMetadata

section Persistable

variable [Serdes]

/-- `TryInto<(PublishedFileKey, Vec<u8>)> for PublishedFileRecord`. -/
def PublishedFileRecord.tryInto (order : Nat) (r : PublishedFileRecord) :
    Except String (PublishedFileKey × Bytes) :=
  (Serdes.publishedFile.toVec order r).map fun bytes => (r.key, bytes)

/-- `TryInto<(PublishedFileKey, Vec<u8>)> for PendingDownloadRecord`. -/
def PendingDownloadRecord.tryInto (order : Nat) (r : PendingDownloadRecord) :
    Except String (PublishedFileKey × Bytes) :=
  (Serdes.pendingDownload.toVec order r).map fun bytes => (r.key, bytes)

/-- `TryInto<(PublishedFileKey, Vec<u8>)> for FileMetadata`. -/
def FileMetadata.tryInto [Platform] (order : Nat) (m : FileMetadata) :
    Except String (PublishedFileKey × Bytes) :=
  (Serdes.fileMetadata.toVec order m).map fun bytes => (m.key, bytes)

end Persistable

/-! ### The database -/

/-- A column family, ordered by its keys. -/
abbrev Family := ExtTreeMap PublishedFileKey Bytes

/-- The column families by name. -/
abbrev Db := String → Option Family

def PUBLISHED_FILES_COLUMN_FAMILY_NAME : String := "published_files"
def PENDING_DOWNLOADS_COLUMN_FAMILY_NAME : String := "pending_downloads"
def FILE_METADATA_COLUMN_FAMILY_NAME : String := "jobs"

/-- What the environment decides about one call: the order hash sets are
written in, whether the blocking task is lost, whether RocksDB fails,
whether its filter rules out an absent key, after how many entries an
iterator breaks, and how many of its entries are taken. -/
structure DbChoice where
  order : Nat
  lost : Option String
  fault : Option String
  ruledOut : Bool
  broken : Option (Nat × String)
  taken : Nat

namespace RocksDb

/-- `RocksDBStore::new` where no database was. -/
def new : Db := fun name =>
  if name = PUBLISHED_FILES_COLUMN_FAMILY_NAME ∨ name = FILE_METADATA_COLUMN_FAMILY_NAME ∨
    name = PENDING_DOWNLOADS_COLUMN_FAMILY_NAME then some ∅ else none

/-- `get_cf`. -/
def getCf (db : Db) (x : String) : Except FileStoreError Family :=
  match db x with
  | some family => .ok family
  | none => .error (.rocksDb (.cfMissing x))

/-- A call of RocksDB. -/
def call (c : DbChoice) : Except FileStoreError Unit :=
  match c.fault with
  | some text => .error (.rocksDb (.rocksDb text))
  | none => .ok ()

/-- `spawn_blocking` and the wait for it. A lost task has done nothing. -/
def blocking {α : Type} (c : DbChoice) (db : Db) (task : Except FileStoreError (α × Db)) :
    Except FileStoreError α × Db :=
  match c.lost, task with
  | some text, _ => (.error (.joinError text), db)
  | none, .ok (a, db') => (.ok a, db')
  | none, .error e => (.error e, db)

/-- `from_slice` with its error as the store's. -/
def decode {R : Type} (s : Serde R) (bytes : Bytes) : Except FileStoreError R :=
  (s.fromSlice bytes).mapError fun e => .rocksDb (.cbor e)

/-- `RocksDBStore::put`. -/
def put (tryInto : Except String (PublishedFileKey × Bytes)) (cf : String) (c : DbChoice)
    (db : Db) : Except FileStoreError Unit × Db :=
  blocking c db do
    let (key, value) ← tryInto.mapError fun e => .rocksDb (.cbor e)
    let family ← getCf db cf
    call c
    return ((), Function.update db cf (some (family.insert key value)))

/-- `RocksDBStore::get`. -/
def get {R : Type} (s : Serde R) (key : PublishedFileKey) (cf : String) (c : DbChoice)
    (db : Db) : Except FileStoreError (Option R) × Db :=
  blocking c db do
    let family ← getCf db cf
    call c
    match family[key]? with
    | some record => return (some (← decode s record), db)
    | none => return (none, db)

/-- `RocksDBStore::delete`. -/
def delete (key : PublishedFileKey) (cf : String) (c : DbChoice) (db : Db) :
    Except FileStoreError Unit × Db :=
  blocking c db do
    let family ← getCf db cf
    call c
    return ((), Function.update db cf (some (family.erase key)))

/-- `RocksDBStore::exists`. The filter may only rule out what is absent. -/
def «exists» (key : PublishedFileKey) (cf : String) (c : DbChoice) (db : Db) :
    Except FileStoreError Bool × Db :=
  blocking c db do
    let family ← getCf db cf
    if c.ruledOut ∧ key ∉ family then
      return (false, db)
    call c
    return (family[key]?.isSome, db)

/-- The values an iterator yields from the start, until it breaks. -/
def iterate (family : Family) (c : DbChoice) : List (Except FileStoreError Bytes) :=
  let values := family.toList.map Prod.snd
  match c.broken with
  | some (n, text) => (values.take n).map .ok ++ [.error (.rocksDb (.rocksDb text))]
  | none => values.map .ok

/-- `RocksDBStore::stream_all`: what the receiver takes. -/
def streamAll {R : Type} (s : Serde R) (cf : String) (c : DbChoice) (db : Db) :
    List (Except FileStoreError R) :=
  match getCf db cf with
  | .error e => [.error e]
  | .ok family => ((iterate family c).map fun item => item >>= decode s).take c.taken

/-- One round of `get_next_file_metadata`. -/
def next [Serdes] (c : DbChoice) (db : Db) : Except FileStoreError (Option FileMetadata) × Db :=
  blocking c db do
    let family ← getCf db FILE_METADATA_COLUMN_FAMILY_NAME
    match (iterate family c).head? with
    | some item => return (some (← decode Serdes.fileMetadata (← item)), db)
    | none => return (none, db)

/-- What an operation returns. The items of a stream may be errors. -/
abbrev Val : StoreOp → Type
  | .streamPublishedFiles => List (Except FileStoreError PublishedFileRecord)
  | .streamPendingDownloads => List (Except FileStoreError PendingDownloadRecord)
  | o => o.Val

/-- `Store for RocksDBStore`. The items of a stream come with the stream,
so `streamItem` has nothing left to do. -/
def run [Platform] [Serdes] (c : DbChoice) (db : Db) :
    (o : StoreOp) → Except FileStoreError (Val o) × Db
  | .putPublishedFile record =>
      put (record.tryInto c.order) PUBLISHED_FILES_COLUMN_FAMILY_NAME c db
  | .getPublishedFile key =>
      get Serdes.publishedFile key PUBLISHED_FILES_COLUMN_FAMILY_NAME c db
  | .publishedFileExists key => «exists» key PUBLISHED_FILES_COLUMN_FAMILY_NAME c db
  | .streamPublishedFiles =>
      (.ok (streamAll Serdes.publishedFile PUBLISHED_FILES_COLUMN_FAMILY_NAME c db), db)
  | .putPendingDownload record =>
      put (record.tryInto c.order) PENDING_DOWNLOADS_COLUMN_FAMILY_NAME c db
  | .getPendingDownload key =>
      get Serdes.pendingDownload key PENDING_DOWNLOADS_COLUMN_FAMILY_NAME c db
  | .pendingDownloadExists key => «exists» key PENDING_DOWNLOADS_COLUMN_FAMILY_NAME c db
  | .deletePendingDownload key => delete key PENDING_DOWNLOADS_COLUMN_FAMILY_NAME c db
  | .streamPendingDownloads =>
      (.ok (streamAll Serdes.pendingDownload PENDING_DOWNLOADS_COLUMN_FAMILY_NAME c db), db)
  | .putFileMetadata record =>
      put (record.tryInto c.order) FILE_METADATA_COLUMN_FAMILY_NAME c db
  | .deleteFileMetadata metadataKey => delete metadataKey FILE_METADATA_COLUMN_FAMILY_NAME c db
  | .getNextFileMetadata => next c db
  | .streamItem => (.ok (), db)

/-- The databases a sequence of operations leads to. -/
inductive Reach [Platform] [Serdes] : Db → Prop
  | new : Reach new
  | step {db : Db} (o : StoreOp) (c : DbChoice) : Reach db → Reach (run c db o).2

end RocksDb

end RustDfs
