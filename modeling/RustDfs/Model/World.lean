import Mathlib.Data.Finset.Card
import RustDfs.Conc.Pool
import RustDfs.Model.Domain

/-!
# `RustDfs.Model.World`: what the programs of a node share

The file system, the database, the locks and permits, the channels, the
swarm and the fields of the event service. Each part has its own
operations with their effect on that part (`exec`); an operation runs
without interruption. Everything the operations leave open is resolved
by a `Choice`: a failure with its error, the length of a short read, an
event of the swarm.

Operations on files and on the database answer with a `Result`. A failed
write may have written a prefix. A failed database operation changes
nothing.

A handle on an open file is the path it was opened at. Links are not
modelled, so every place has one path of names from the root.
-/

set_option autoImplicit false

namespace RustDfs

open Lib Std

/-! ### Events of the swarm -/

/-- `GetProvidersOk`. -/
inductive GetProvidersOk where
  | foundProviders (providers : Finset PeerId)
  | finishedWithNoAdditionalRecord
deriving DecidableEq

/-- `QueryResult`: the result of a provider query, or of another query. -/
inductive QueryResult where
  | getProviders (result : Except String GetProvidersOk)
  | other

/-- `request_response::Event` for requests of type `Req`. -/
inductive RequestResponseEvent (Req : Type) where
  | request (request : Req) (channel : ResponseChannel)
  | response (requestId : OutboundRequestId) (response : FileResponse)
  | outboundFailure (requestId : OutboundRequestId) (error : String)
  | inboundFailure (error : String)
  | responseSent

/-- The swarm events the event service acts on. -/
inductive SwarmEvent where
  | kademlia (id : QueryId) (result : QueryResult)
  | fileDownload (event : RequestResponseEvent FileChunkRequest)
  | metadataDownload (event : RequestResponseEvent MetadataFileRequest)
  | other

/-- How the environment resolves an operation. -/
inductive Choice where
  | ok
  | short (n : Nat)
  | ioError (e : IoError) (done : Nat)
  | storeError (e : FileStoreError)
  | closed
  | event (e : SwarmEvent)
  | peer (p : PeerId)

/-! ### Files -/

/-- A directory or a file with its bytes. -/
inductive Node where
  | dir
  | file (bytes : Bytes)
deriving DecidableEq

/-- What stands at each place. -/
abbrev Fs := Loc → Option Node

/-- The two kinds of node, as `Metadata` tells them. -/
inductive FileType where
  | dir
  | file
deriving DecidableEq

/-- The bytes of the file at a place. -/
def Fs.bytes (fs : Fs) (l : Loc) : Option Bytes :=
  match fs l with
  | some (.file bs) => some bs
  | _ => none

/-- Directories at the first `n` steps down to `l`, where nothing stands. -/
def Fs.mkDirs (fs : Fs) (l : Loc) (n : Nat) : Fs := fun x =>
  if x <+: l ∧ x.length ≤ n ∧ fs x = none then some .dir else fs x

/-- The file at `l` with other bytes. -/
def Fs.setBytes (fs : Fs) (l : Loc) (bs : Bytes) : Fs :=
  Function.update fs l (some (.file bs))

/-- `bs` written over `old` from position `offset` on. -/
def overwrite (old : Bytes) (offset : Nat) (bs : Bytes) : Bytes :=
  old.take offset ++ List.replicate (offset - old.length) 0 ++ bs ++
    old.drop (offset + bs.length)

/-- The operations on files. `createFile` and `writeAt` together are
`File::create` with `write_all`, `openFile` and `readAt` are
`File::open` with `read`. -/
inductive FsOp where
  | tryExists (p : PathBuf)
  | metadata (p : PathBuf)
  | createDirAll (p : PathBuf)
  | read (p : PathBuf)
  | openFile (p : PathBuf)
  | readAt (p : PathBuf) (offset count : Nat)
  | createFile (p : PathBuf)
  | writeAt (p : PathBuf) (offset : Nat) (bs : Bytes)
  | rename (p q : PathBuf)
deriving DecidableEq

/-- What an operation on files returns. -/
abbrev FsOp.Val : FsOp → Type
  | .tryExists _ => Bool
  | .metadata _ => FileType
  | .read _ => Bytes
  | .readAt .. => Bytes
  | _ => Unit

section Files

variable [Platform]

/-- The place of a path. -/
def loc (p : PathBuf) : Loc := p.resolve Platform.cwd

/-- What a failed operation leaves behind: a failed write a prefix, a
failed `create_dir_all` some of the directories. -/
def FsOp.partialEffect (fs : Fs) (done : Nat) : FsOp → Fs
  | .writeAt p offset bs =>
      match fs.bytes (loc p) with
      | some old => fs.setBytes (loc p) (overwrite old offset (bs.take done))
      | none => fs
  | .createDirAll p => fs.mkDirs (loc p) done
  | _ => fs

/-- The effect of an operation that succeeds, where it can. -/
def FsOp.run (fs : Fs) : (o : FsOp) → Option (o.Val × Fs)
  | .tryExists p => some ((fs (loc p)).isSome, fs)
  | .metadata p =>
      match fs (loc p) with
      | some .dir => some (.dir, fs)
      | some (.file _) => some (.file, fs)
      | none => none
  | .createDirAll p =>
      let l := loc p
      if ∀ x ∈ l.inits, (fs.bytes x).isNone then some ((), fs.mkDirs l l.length) else none
  | .read p => (fs.bytes (loc p)).map fun bs => (bs, fs)
  | .openFile p => (fs.bytes (loc p)).map fun _ => ((), fs)
  | .readAt p offset count =>
      (fs.bytes (loc p)).map fun bs => ((bs.drop offset).take count, fs)
  | .createFile p =>
      let l := loc p
      if fs l.dropLast = some .dir ∧ fs l ≠ some .dir then some ((), fs.setBytes l []) else none
  | .writeAt p offset bs =>
      (fs.bytes (loc p)).map fun old =>
        ((), fs.setBytes (loc p) (overwrite old offset bs))
  | .rename p q =>
      let l := loc p
      let l' := loc q
      match fs.bytes l with
      | some bs =>
          if fs l'.dropLast = some .dir ∧ fs l' ≠ some .dir then
            some ((), Fs.setBytes (Function.update fs l none) l' bs)
          else none
      | none => none

/-- An operation on files under a choice. -/
def FsOp.exec (o : FsOp) (c : Choice) (fs : Fs) : Option (Except IoError o.Val × Fs) :=
  match c with
  | .ok => (o.run fs).map fun (v, fs') => (.ok v, fs')
  | .ioError e done => some (.error e, o.partialEffect fs done)
  | .short n =>
      match o with
      | .readAt p offset count =>
          if 0 < n then
            (fs.bytes (loc p)).map fun bs => (.ok ((bs.drop offset).take (min n count)), fs)
          else none
      | _ => none
  | _ => none

end Files

/-! ### The database -/

/-- The three column families. -/
structure Store where
  published : ExtTreeMap PublishedFileKey PublishedFileRecord
  pending : ExtTreeMap PublishedFileKey PendingDownloadRecord
  jobs : ExtTreeMap PublishedFileKey FileMetadata

/-- The operations of the `Store` trait. A stream is the list of records
its iterator sees, and `streamItem` the arrival of one of them or of an
error in its place; `getNextFileMetadata` is one look at the first job. -/
inductive StoreOp where
  | putPublishedFile (record : PublishedFileRecord)
  | getPublishedFile (key : PublishedFileKey)
  | publishedFileExists (key : PublishedFileKey)
  | streamPublishedFiles
  | putPendingDownload (record : PendingDownloadRecord)
  | getPendingDownload (key : PublishedFileKey)
  | pendingDownloadExists (key : PublishedFileKey)
  | deletePendingDownload (key : PublishedFileKey)
  | streamPendingDownloads
  | putFileMetadata (record : FileMetadata)
  | deleteFileMetadata (key : PublishedFileKey)
  | getNextFileMetadata
  | streamItem
deriving DecidableEq

/-- What an operation on the database returns. -/
abbrev StoreOp.Val : StoreOp → Type
  | .getPublishedFile _ => Option PublishedFileRecord
  | .publishedFileExists _ => Bool
  | .streamPublishedFiles => List PublishedFileRecord
  | .getPendingDownload _ => Option PendingDownloadRecord
  | .pendingDownloadExists _ => Bool
  | .streamPendingDownloads => List PendingDownloadRecord
  | .getNextFileMetadata => Option FileMetadata
  | _ => Unit

/-- The effect of a database operation. Keys are ordered bytewise, so
streams and the first job follow the order of the file ids. -/
def StoreOp.run [Platform] (s : Store) : (o : StoreOp) → o.Val × Store
  | .putPublishedFile r => ((), { s with published := s.published.insert r.key r })
  | .getPublishedFile k => (s.published[k]?, s)
  | .publishedFileExists k => (s.published.contains k, s)
  | .streamPublishedFiles => (s.published.toList.map Prod.snd, s)
  | .putPendingDownload r => ((), { s with pending := s.pending.insert r.key r })
  | .getPendingDownload k => (s.pending[k]?, s)
  | .pendingDownloadExists k => (s.pending.contains k, s)
  | .deletePendingDownload k => ((), { s with pending := s.pending.erase k })
  | .streamPendingDownloads => (s.pending.toList.map Prod.snd, s)
  | .putFileMetadata m => ((), { s with jobs := s.jobs.insert m.key m })
  | .deleteFileMetadata k => ((), { s with jobs := s.jobs.erase k })
  | .getNextFileMetadata => ((s.jobs.toList.head?).map Prod.snd, s)
  | .streamItem => ((), s)

/-- A database operation under a choice. -/
def StoreOp.exec [Platform] (o : StoreOp) (c : Choice) (s : Store) :
    Option (Except FileStoreError o.Val × Store) :=
  match c with
  | .ok => some (.ok (o.run s).1, (o.run s).2)
  | .storeError e => some (.error e, s)
  | _ => none

/-! ### The download permits and the active downloads -/

/-- `active_downloads` and `active_downloads_semaphore`. -/
structure Sync where
  active : Finset PublishedFileKey
  permits : Nat
  maxActiveDownloads : Nat

/-- The operations on them. -/
inductive SyncOp where
  | availablePermits
  | acquire
  | release
  | insertActive (key : PublishedFileKey)
  | removeActive (key : PublishedFileKey)
deriving DecidableEq

/-- What they answer. -/
abbrev SyncOp.Ans : SyncOp → Type
  | .availablePermits => Nat
  | .insertActive _ => Bool
  | _ => Unit

/-- The effect of these operations. `acquire` waits for a permit. -/
def SyncOp.exec (s : Sync) : (o : SyncOp) → Option (o.Ans × Sync)
  | .availablePermits => some (s.permits, s)
  | .acquire => if 0 < s.permits then some ((), { s with permits := s.permits - 1 }) else none
  | .release => some ((), { s with permits := s.permits + 1 })
  | .insertActive k => some (decide (k ∉ s.active), { s with active := insert k s.active })
  | .removeActive k => some ((), { s with active := s.active.erase k })

/-! ### Channels -/

/-- What became of a oneshot channel. -/
inductive OneshotState (α : Type) where
  | open
  | sent (a : α)
  | dropped
deriving DecidableEq

/-- The oneshot channels of one type. -/
structure Oneshots (α : Type) where
  next : Nat
  state : Nat → OneshotState α

/-- The command channel and the oneshot channels. -/
structure Chan where
  commands : List P2pCommand
  metadata : Oneshots (Option FileMetadata)
  chunks : Oneshots (Option FileResponse)

/-- The capacity of the command channel. -/
def COMMANDS_CAPACITY : Nat := 100

/-- The operations on oneshot channels of one type. -/
inductive OneshotOp (α : Type) where
  | channel
  | send (s : OneshotSender α) (a : α)
  | drop (s : OneshotSender α)
  | recv (s : OneshotSender α)

/-- What they answer. `recv` fails when the sender was dropped. -/
abbrev OneshotOp.Ans {α : Type} : OneshotOp α → Type
  | .channel => OneshotSender α
  | .recv _ => Except Unit α
  | _ => Unit

/-- The effect of these operations. `recv` waits for the sender. -/
def OneshotOp.exec {α : Type} (s : Oneshots α) : (o : OneshotOp α) → Option (o.Ans × Oneshots α)
  | .channel => some (⟨s.next⟩, ⟨s.next + 1, Function.update s.state s.next .open⟩)
  | .send t a => some ((), { s with state := Function.update s.state t.id (.sent a) })
  | .drop t => some ((), { s with state := Function.update s.state t.id .dropped })
  | .recv t =>
      match s.state t.id with
      | .open => none
      | .sent a => some (.ok a, s)
      | .dropped => some (.error (), s)

/-- The operations on channels. -/
inductive ChanOp where
  | metadata (o : OneshotOp (Option FileMetadata))
  | chunk (o : OneshotOp (Option FileResponse))
  | sendCommand (c : P2pCommand)
  | recvCommand

/-- What they answer. `sendCommand` fails when the receiver is gone. -/
abbrev ChanOp.Ans : ChanOp → Type
  | .metadata o => o.Ans
  | .chunk o => o.Ans
  | .sendCommand _ => Except Unit Unit
  | .recvCommand => P2pCommand

/-- The effect of these operations. `sendCommand` waits for room. -/
def ChanOp.exec (o : ChanOp) (c : Choice) (s : Chan) : Option (o.Ans × Chan) :=
  match o, c with
  | .metadata o, .ok => (o.exec s.metadata).map fun (a, m) => (a, { s with metadata := m })
  | .chunk o, .ok => (o.exec s.chunks).map fun (a, m) => (a, { s with chunks := m })
  | .sendCommand cmd, .ok =>
      if s.commands.length < COMMANDS_CAPACITY then
        some (.ok (), { s with commands := s.commands ++ [cmd] })
      else none
  | .sendCommand _, .closed => some (.error (), s)
  | .recvCommand, .ok =>
      match s.commands with
      | [] => none
      | cmd :: cmds => some (cmd, { s with commands := cmds })
  | _, _ => none

/-! ### The swarm -/

/-- The counters of the behaviours and the local Kademlia store: all keys
it holds a record for, and all keys it holds a provider for, whichever
node put them there. What other nodes put there while the node runs is
not followed. -/
structure Swarm where
  nextQuery : Nat
  nextMetadataRequest : Nat
  nextFileRequest : Nat
  records : List Bytes
  provided : List Bytes

/-- The limits of the local Kademlia store. -/
def MAX_RECORDS : Nat := 1024
def MAX_PROVIDED_KEYS : Nat := 1024
def MAX_VALUE_BYTES : Nat := 65 * 1024

/-- The calls on the swarm. -/
inductive SwarmOp where
  | selectNextSome
  | getProviders (key : Bytes)
  | chooseRandom (peers : Finset PeerId)
  | sendMetadataRequest (peer : PeerId) (request : MetadataFileRequest)
  | sendFileRequest (peer : PeerId) (request : FileChunkRequest)
  | sendResponse (channel : ResponseChannel) (response : FileResponse)
  | putRecord (key value : Bytes)
  | startProviding (key : Bytes)

/-- What they answer. -/
abbrev SwarmOp.Ans : SwarmOp → Type
  | .selectNextSome => SwarmEvent
  | .getProviders _ => QueryId
  | .chooseRandom _ => Option PeerId
  | .sendMetadataRequest .. => OutboundRequestId
  | .sendFileRequest .. => OutboundRequestId
  | .sendResponse .. => Except FileResponse Unit
  | .putRecord .. => Except String Unit
  | .startProviding _ => Except String Unit

/-- The effect of these calls. -/
def SwarmOp.exec (o : SwarmOp) (c : Choice) (s : Swarm) : Option (o.Ans × Swarm) :=
  match o, c with
  | .selectNextSome, .event e => some (e, s)
  | .getProviders _, .ok => some (s.nextQuery, { s with nextQuery := s.nextQuery + 1 })
  | .chooseRandom peers, .ok => if peers = ∅ then some (none, s) else none
  | .chooseRandom peers, .peer p => if p ∈ peers then some (some p, s) else none
  | .sendMetadataRequest _ _, .ok =>
      some (s.nextMetadataRequest, { s with nextMetadataRequest := s.nextMetadataRequest + 1 })
  | .sendFileRequest _ _, .ok =>
      some (s.nextFileRequest, { s with nextFileRequest := s.nextFileRequest + 1 })
  | .sendResponse _ _, .ok => some (.ok (), s)
  | .sendResponse _ r, .closed => some (.error r, s)
  | .putRecord key value, .ok =>
      if MAX_VALUE_BYTES ≤ value.length then some (.error "the value is too large", s)
      else if key ∈ s.records then some (.ok (), s)
      else if MAX_RECORDS ≤ s.records.length then
        some (.error "the store has reached its limit of records", s)
      else some (.ok (), { s with records := key :: s.records })
  | .startProviding key, .ok =>
      if key ∈ s.provided then some (.ok (), s)
      else if s.provided.length = MAX_PROVIDED_KEYS then
        some (.error "the store has reached its limit of provided keys", s)
      else some (.ok (), { s with provided := key :: s.provided })
  | _, _ => none

/-! ### The event service -/

/-- `ProvidersRequestData`. -/
structure ProvidersRequestData (Req Res : Type) where
  foundProviders : Finset PeerId
  request : Req
  result : OneshotSender (Option Res)

/-- The four request maps of `EventService`. -/
structure EventService where
  metadataProvidersRequests :
    ExtTreeMap QueryId (ProvidersRequestData MetadataFileRequest FileMetadata)
  fileChunkProvidersRequests :
    ExtTreeMap QueryId (ProvidersRequestData FileChunkRequest FileResponse)
  metadataDownloadRequests :
    ExtTreeMap OutboundRequestId (OneshotSender (Option FileMetadata))
  fileDownloadRequests :
    ExtTreeMap OutboundRequestId (OneshotSender (Option FileResponse))

/-- `EventService::new`. -/
def EventService.new : EventService := ⟨∅, ∅, ∅, ∅⟩

/-- Reading and replacing the fields of the event service. -/
inductive EventOp where
  | self
  | setSelf (s : EventService)

/-- What they answer. -/
abbrev EventOp.Ans : EventOp → Type
  | .self => EventService
  | .setSelf _ => Unit

/-- Their effect. -/
def EventOp.exec (s : EventService) : (o : EventOp) → o.Ans × EventService
  | .self => (s, s)
  | .setSelf s' => ((), s')

/-! ### The whole -/

/-- Everything the programs of a node share. -/
structure World where
  fs : Fs
  store : Store
  sync : Sync
  chan : Chan
  swarm : Swarm
  events : EventService

/-- The atomic operations. `diverge` never returns: it stands where a
loop of the source has not ended yet. -/
inductive Op where
  | fs (o : FsOp)
  | store (o : StoreOp)
  | sync (o : SyncOp)
  | chan (o : ChanOp)
  | swarm (o : SwarmOp)
  | events (o : EventOp)
  | diverge

/-- What they answer. -/
abbrev Op.Ans : Op → Type
  | .fs o => Except IoError o.Val
  | .store o => Except FileStoreError o.Val
  | .sync o => o.Ans
  | .chan o => o.Ans
  | .swarm o => o.Ans
  | .events o => o.Ans
  | .diverge => Empty

/-- The effect of an operation under a choice. -/
def Op.exec [Platform] (o : Op) (c : Choice) (w : World) : Option (o.Ans × World) :=
  match o with
  | .fs o => (o.exec c w.fs).map fun (a, x) => (a, { w with fs := x })
  | .store o => (o.exec c w.store).map fun (a, x) => (a, { w with store := x })
  | .sync o => (o.exec w.sync).map fun (a, x) => (a, { w with sync := x })
  | .chan o => (o.exec c w.chan).map fun (a, x) => (a, { w with chan := x })
  | .swarm o => (o.exec c w.swarm).map fun (a, x) => (a, { w with swarm := x })
  | .events o => some ((o.exec w.events).1, { w with events := (o.exec w.events).2 })
  | .diverge => none

/-- A crash of the process: files and database survive. Channel and
request numbers go on counting, so that they stay names of one thing. -/
def World.crash (w : World) : World where
  fs := w.fs
  store := w.store
  sync := ⟨∅, w.sync.maxActiveDownloads, w.sync.maxActiveDownloads⟩
  chan := ⟨[], ⟨w.chan.metadata.next, fun _ => .dropped⟩, ⟨w.chan.chunks.next, fun _ => .dropped⟩⟩
  swarm := { w.swarm with records := [], provided := [] }
  events := .new

end RustDfs
