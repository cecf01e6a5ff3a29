import RustDfs.Conc.Pool
import RustDfs.Model.RocksDb

/-!
# `RustDfs.Model.Search`: searching for files

`search` and `search_task` of `grpc/server.rs` and the part of the event
service of `p2p/events.rs` that deals with searches: the commands
`FileSearch`, `FileSearchAbort` and `FileSearchResult`, the results of
other nodes, and the requests of other nodes that come by gossip.

The programs of this file share their own world. A session is one search
call: the channel from the event loop to its search task, the channel
from there to the gRPC client, and the cache of the task. Sessions are
numbered, so a sender or receiver is the number of its session. Commands
of other parts of the node are only counted, since all of them go through
one channel of bounded capacity.

A search task runs until its session is closed, so its program has fuel.
-/

set_option autoImplicit false

namespace RustDfs.Search

open Lib Std Conc

/-! ### Data -/

/-- `FileFound`. -/
structure FileFound where
  fileId : UInt64
  fileName : String
deriving DecidableEq

/-- `FileSearchRequest`. -/
structure FileSearchRequest where
  sessionId : String
  searchValue : String
deriving DecidableEq

/-- `FileSearchResult`. -/
structure FileSearchResult where
  sessionId : String
  fileFound : FileFound
deriving DecidableEq

/-- `SearchResponse`. -/
structure SearchResponse where
  fileId : UInt64
  fileName : String
deriving DecidableEq

/-- The commands of `P2pCommand` that belong to searches, and the others.
`tx` is the session whose sender goes with the command. -/
inductive P2pCommand where
  | fileSearch (originalRequest : FileSearchRequest) (tx : Nat)
  | fileSearchAbort (sessionId : String)
  | fileSearchResult (peerId : PeerId) (fileSearchResult : FileSearchResult)
  | other
deriving DecidableEq

/-- What a search uses from outside: the topic of the configuration,
`serde_cbor` for requests and `str::to_lowercase`. -/
class Config where
  fileSearchTopic : Option String
  requests : Serde FileSearchRequest
  toLowercase : String → String

/-- The events of the swarm a search is about: the result of another node
and a message of a topic. -/
inductive SwarmEvent where
  | fileSearchResult (peer : PeerId) (request : FileSearchResult) (channel : ResponseChannel)
  | gossip (propagationSource source : PeerId) (messageId : Nat) (topic : String) (data : Bytes)
  | other
deriving DecidableEq

/-! ### The world -/

/-- The channels and the cache of one search call. `txGone` and `rxGone`
say that no sender and no receiver of the first channel is left,
`clientGone` that the receiver of the second is gone. -/
structure Session where
  found : List FileFound
  txGone : Bool
  rxGone : Bool
  responses : List SearchResponse
  clientGone : Bool
  cache : Finset UInt64
deriving DecidableEq

/-- The channels of a new call. -/
def Session.new : Session := ⟨[], false, false, [], false, ∅⟩

/-- The capacity of either channel of a session. -/
def SESSION_CAPACITY : Nat := 64

/-- What the programs of a search share. `sessions` is
`file_search_sessions`, `next` the number of sessions made so far. -/
structure World where
  next : Nat
  session : Nat → Session
  sessions : String → Option Nat
  commands : List P2pCommand
  published : ExtTreeMap PublishedFileKey PublishedFileRecord

/-- A session with other content. -/
def World.setSession (w : World) (n : Nat) (s : Session) : World :=
  { w with session := Function.update w.session n s }

/-- The sender of a session is dropped. -/
def World.dropTx (w : World) (n : Nat) : World :=
  w.setSession n { w.session n with txGone := true }

/-- What a map entry held is dropped. -/
def World.dropEntry (w : World) (id : String) : World :=
  match w.sessions id with
  | some n => w.dropTx n
  | none => w

/-- Another value, or none, under an id. What it replaces is dropped. -/
def World.setEntry (w : World) (id : String) (n : Option Nat) : World :=
  { w.dropEntry id with sessions := Function.update w.sessions id n }

/-- What `select!` of a search task comes back with. -/
inductive Selected where
  | msg (found : Option FileFound)
  | tick
deriving DecidableEq

/-- The operations. `channels` makes the two channels of a call. -/
inductive Op where
  | channels
  | dropTx (n : Nat)
  | dropRx (n : Nat)
  | sendCommand (c : P2pCommand)
  | recvCommand
  | selectNextSome
  | publish (topic : String) (data : Bytes)
  | sendRequest (peer : PeerId) (result : FileSearchResult)
  | sendResponse (channel : ResponseChannel)
  | getSession (id : String)
  | insertSession (id : String) (n : Nat)
  | removeSession (id : String)
  | sendFound (n : Nat) (found : FileFound)
  | select (n : Nat)
  | containsKey (n : Nat) (id : UInt64)
  | insertKey (n : Nat) (id : UInt64)
  | sendGrpc (n : Nat) (response : SearchResponse)
  | isClosed (n : Nat)
  | publishedFileExists (key : PublishedFileKey)
  | streamPublishedFiles
  | streamItem
  | putPublishedFile (record : PublishedFileRecord)
  | readResponse (n : Nat)
  | disconnect (n : Nat)
  | diverge
deriving DecidableEq

/-- What they answer. A send fails when the receiver is gone. -/
abbrev Op.Ans : Op → Type
  | .channels => Nat
  | .sendCommand _ => Except Unit Unit
  | .recvCommand => P2pCommand
  | .selectNextSome => SwarmEvent
  | .publish .. => Except String Unit
  | .getSession _ => Option Nat
  | .sendFound .. => Except Unit Unit
  | .select _ => Selected
  | .containsKey .. => Bool
  | .sendGrpc .. => Except Unit Unit
  | .isClosed _ => Bool
  | .publishedFileExists _ => Except FileStoreError Bool
  | .streamPublishedFiles => List PublishedFileRecord
  | .streamItem => Except FileStoreError Unit
  | .putPublishedFile _ => Except FileStoreError Unit
  | .readResponse _ => SearchResponse
  | .diverge => Empty
  | _ => Unit

/-- How the environment resolves an operation. -/
inductive Choice where
  | ok
  | tick
  | evicted
  | closed
  | failed (text : String)
  | storeError (e : FileStoreError)
  | event (e : SwarmEvent)
deriving DecidableEq

/-- The effect of an operation. Sends wait for room, receives for
something to receive. The receiver of a session gets `none` when the
channel is empty and its sender is gone. -/
def Op.exec (o : Op) (c : Choice) (w : World) : Option (o.Ans × World) :=
  match o, c with
  | .channels, .ok => some (w.next, { w.setSession w.next .new with next := w.next + 1 })
  | .dropTx n, .ok => some ((), w.dropTx n)
  | .dropRx n, .ok =>
      some ((), w.setSession n { w.session n with found := [], rxGone := true })
  | .sendCommand cmd, .ok =>
      if w.commands.length < COMMANDS_CAPACITY then
        some (.ok (), { w with commands := w.commands ++ [cmd] })
      else none
  | .sendCommand _, .closed => some (.error (), w)
  | .recvCommand, .ok =>
      match w.commands with
      | [] => none
      | cmd :: cmds => some (cmd, { w with commands := cmds })
  | .selectNextSome, .event e => some (e, w)
  | .publish .., .ok => some (.ok (), w)
  | .publish .., .failed text => some (.error text, w)
  | .sendRequest .., .ok => some ((), w)
  | .sendResponse _, .ok => some ((), w)
  | .getSession id, .ok => some (w.sessions id, w)
  | .insertSession id n, .ok => some ((), w.setEntry id (some n))
  | .removeSession id, .ok => some ((), w.setEntry id none)
  | .sendFound n found, .ok =>
      let s := w.session n
      if s.rxGone then some (.error (), w)
      else if s.found.length < SESSION_CAPACITY then
        some (.ok (), w.setSession n { s with found := s.found ++ [found] })
      else none
  | .select n, .ok =>
      let s := w.session n
      match s.found with
      | found :: rest => some (.msg (some found), w.setSession n { s with found := rest })
      | [] => if s.txGone then some (.msg none, w) else none
  | .select _, .tick => some (.tick, w)
  | .containsKey n id, .ok => some (decide (id ∈ (w.session n).cache), w)
  | .containsKey n id, .evicted =>
      let s := w.session n
      some (false, w.setSession n { s with cache := s.cache.erase id })
  | .insertKey n id, .ok =>
      let s := w.session n
      some ((), w.setSession n { s with cache := insert id s.cache })
  | .sendGrpc n response, .ok =>
      let s := w.session n
      if s.clientGone then some (.error (), w)
      else if s.responses.length < SESSION_CAPACITY then
        some (.ok (), w.setSession n { s with responses := s.responses ++ [response] })
      else none
  | .isClosed n, .ok => some ((w.session n).clientGone, w)
  | .publishedFileExists key, .ok => some (.ok (w.published.contains key), w)
  | .publishedFileExists _, .storeError e => some (.error e, w)
  | .streamPublishedFiles, .ok => some (w.published.toList.map Prod.snd, w)
  | .streamItem, .ok => some (.ok (), w)
  | .streamItem, .storeError e => some (.error e, w)
  | .putPublishedFile r, .ok =>
      some (.ok (), { w with published := w.published.insert r.key r })
  | .putPublishedFile _, .storeError e => some (.error e, w)
  | .readResponse n, .ok =>
      let s := w.session n
      match s.responses with
      | [] => none
      | response :: rest => some (response, w.setSession n { s with responses := rest })
  | .disconnect n, .ok =>
      some ((), w.setSession n { w.session n with responses := [], clientGone := true })
  | _, _ => none

/-! ### The programs -/

/-- Where programs run: the gRPC calls, the event loop, the search task of
a session, one lookup for each message of the topic, the clients, and the
rest of the node. -/
inductive Slot where
  | call (k : Nat)
  | eventLoop
  | searchTask (n : Nat)
  | fileSearch (messageId : Nat)
  | client (n : Nat)
  | other (k : Nat)
deriving DecidableEq

/-- What can be started. The last two rows are steps of a client and of
the rest of the node. -/
inductive Task where
  | search (k fuel : Nat) (searchValue : String)
  | searchTask (n fuel : Nat) (searchValue : String)
  | swarmEvent
  | command
  | fileSearch (messageId : Nat) (propagationSource : PeerId) (request : FileSearchRequest)
  | readResponse (n : Nat)
  | disconnect (n : Nat)
  | sendCommand (k : Nat)
  | putPublishedFile (k : Nat) (record : PublishedFileRecord)
deriving DecidableEq

/-- What programs end with. -/
inductive Res where
  | unit
  | searched (result : Except Status Unit)
deriving DecidableEq

/-- The language of these programs. -/
abbrev lang : Lang where
  Op := Op
  Ans := Op.Ans
  Slot := Slot
  Task := Task
  Res := Res

/-- A program of a search. -/
abbrev Proc := Prog lang

/-- One operation. -/
def perform (o : Op) : Proc o.Ans := Prog.perform (L := lang) o

/-- Start a task. -/
def spawn (t : Task) : Proc Unit := Prog.spawn (L := lang) t (.ret ())

/-- A loop that has not ended yet. -/
def diverge {α : Type} : Proc α := Prog.op (L := lang) .diverge fun x => nomatch x

/-- `DfsService::search`. The search task is given `fuel`. -/
def search (fuel : Nat) (searchValue : String) : ExceptT Status Proc Unit := do
  let n ← perform .channels
  match ← perform (.sendCommand (.fileSearch ⟨searchValue, searchValue⟩ n)) with
  | .error _ =>
      perform (.dropTx n)
      throw (Status.internal "channel closed")
  | .ok _ => spawn (.searchTask n fuel searchValue)

/-- The abort a search task sends; a failure is only logged. -/
def sendAbort (searchValue : String) : Proc Unit := do
  let _ ← perform (.sendCommand (.fileSearchAbort searchValue))

/-- A round of `search_task` with a message: a file that was not reported
before and is not known to be published here goes to the client. -/
def report (n : Nat) (searchValue : String) (found : FileFound) : Proc Unit := do
  unless ← perform (.containsKey n found.fileId) do
    let known ← perform (.publishedFileExists (.ofU64 found.fileId))
    unless known.toOption.getD false do
      match ← perform (.sendGrpc n ⟨found.fileId, found.fileName⟩) with
      | .error _ => sendAbort searchValue
      | .ok _ => perform (.insertKey n found.fileId)

/-- `DfsService::search_task`. Its receiver goes with it. -/
def searchTask (n : Nat) (searchValue : String) : Nat → Proc Unit
  | 0 => diverge
  | fuel + 1 => do
      match ← perform (.select n) with
      | .msg none => perform (.dropRx n)
      | .msg (some found) =>
          report n searchValue found
          searchTask n searchValue fuel
      | .tick =>
          if ← perform (.isClosed n) then sendAbort searchValue
          searchTask n searchValue fuel

section EventService

variable [Config]

/-- The search commands of `EventService::handle_command`. A sender that
is not kept is dropped. -/
def handleCommand : P2pCommand → Proc Unit
  | .fileSearch originalRequest tx => do
      match Config.fileSearchTopic with
      | some topic =>
          let sessionId := originalRequest.sessionId
          match Config.requests.toVec 0 originalRequest with
          | .ok bytes =>
              match ← perform (.publish topic bytes) with
              | .error _ => perform (.dropTx tx)
              | .ok _ => perform (.insertSession sessionId tx)
          | .error _ => perform (.dropTx tx)
      | none => perform (.dropTx tx)
  | .fileSearchAbort sessionId => perform (.removeSession sessionId)
  | .fileSearchResult peerId fileSearchResult => perform (.sendRequest peerId fileSearchResult)
  | .other => return ()

/-- `EventService::file_search_results` with a request. -/
def fileSearchResults (request : FileSearchResult) (channel : ResponseChannel) : Proc Unit := do
  perform (.sendResponse channel)
  match ← perform (.getSession request.sessionId) with
  | none => return ()
  | some tx =>
      match ← perform (.sendFound tx ⟨request.fileFound.fileId, request.fileFound.fileName⟩) with
      | .error _ => perform (.removeSession request.sessionId)
      | .ok _ => return ()

/-- `EventService::gossipsub` with a message. -/
def gossipsub (propagationSource : PeerId) (messageId : Nat) (topic : String) (data : Bytes) :
    Proc Unit :=
  match Config.fileSearchTopic with
  | some fileSearchTopic =>
      if topic = fileSearchTopic then
        match Config.requests.fromSlice data with
        | .ok request => spawn (.fileSearch messageId propagationSource request)
        | .error _ => return ()
      else return ()
  | none => return ()

/-- The public published files whose name contains the value. -/
def Matches (searchValue : String) (record : PublishedFileRecord) : Prop :=
  record.isPublic = true ∧
    searchValue.toList <:+: (Config.toLowercase record.originalFileName).toList

instance (searchValue : String) (record : PublishedFileRecord) :
    Decidable (Matches searchValue record) :=
  inferInstanceAs (Decidable (_ ∧ _))

/-- The loop of `file_search` over the stream of records. -/
def fileSearchEach (propagationSource : PeerId) (request : FileSearchRequest) :
    List PublishedFileRecord → Proc Unit
  | [] => return ()
  | record :: records => do
      match ← perform .streamItem with
      | .error _ => return ()
      | .ok _ =>
          if Matches (Config.toLowercase request.searchValue) record then
            match ← perform (.sendCommand (.fileSearchResult propagationSource
              ⟨request.sessionId, ⟨record.key.toU64, record.originalFileName⟩⟩)) with
            | .error _ => return ()
            | .ok _ => fileSearchEach propagationSource request records
          else fileSearchEach propagationSource request records

/-- `EventService::file_search`. -/
def fileSearch (propagationSource : PeerId) (request : FileSearchRequest) : Proc Unit := do
  let records ← perform .streamPublishedFiles
  fileSearchEach propagationSource request records

/-- `EventService::handle_swarm_event`. -/
def handleSwarmEvent : SwarmEvent → Proc Unit
  | .fileSearchResult _ request channel => fileSearchResults request channel
  | .gossip propagationSource _ messageId topic data =>
      gossipsub propagationSource messageId topic data
  | .other => return ()

/-! ### The machine -/

/-- A program that ends with nothing. -/
def ending {α : Type} (p : Proc α) : Proc Res := do
  let _ ← p
  return .unit

/-- The program of a task. -/
def body : Task → Proc Res
  | .search _ fuel searchValue => do
      let result ← (search fuel searchValue).run
      return .searched result
  | .searchTask n fuel searchValue => ending (searchTask n searchValue fuel)
  | .swarmEvent => ending do
      let event ← perform .selectNextSome
      handleSwarmEvent event
  | .command => ending do
      let command ← perform .recvCommand
      handleCommand command
  | .fileSearch _ propagationSource request => ending (fileSearch propagationSource request)
  | .readResponse n => ending (perform (.readResponse n))
  | .disconnect n => ending (perform (.disconnect n))
  | .sendCommand _ => ending (perform (.sendCommand .other))
  | .putPublishedFile _ record => ending (perform (.putPublishedFile record))

/-- Where a task runs. -/
def slotOf : Task → Slot
  | .search k _ _ => .call k
  | .searchTask n _ _ => .searchTask n
  | .swarmEvent | .command => .eventLoop
  | .fileSearch messageId _ _ => .fileSearch messageId
  | .readResponse n | .disconnect n => .client n
  | .sendCommand k | .putPublishedFile k _ => .other k

/-- After a crash only the published files are left. -/
def World.crash (w : World) : World where
  next := w.next
  session := fun n => { w.session n with txGone := true, rxGone := true, clientGone := true }
  sessions := fun _ => none
  commands := []
  published := w.published

/-- The machine of a node that searches. -/
def machine : Machine lang Choice World where
  exec _ o := o.exec
  slotOf := slotOf
  body := body
  keeps _ := false
  crash := World.crash

end EventService

/-- A node that has just started, with these published files. -/
def World.start (published : ExtTreeMap PublishedFileKey PublishedFileRecord) : World :=
  ⟨0, fun _ => .new, fun _ => none, [], published⟩

end RustDfs.Search
