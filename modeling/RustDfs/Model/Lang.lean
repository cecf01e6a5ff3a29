import RustDfs.Model.World

/-!
# `RustDfs.Model.Lang`: the programs of a node

The slots programs run in, the tasks they can be started as and the
results they end with. `Proc α` is a program of the node that ends with
an `α`; a fallible function of the source is an `ExceptT ε Proc α`.

The event loop is one slot. Each pass of its `select!` is a task of its
own, started by the environment when the slot is free: the environment
decides which branch is ready.
-/

set_option autoImplicit false

namespace RustDfs

open Lib Conc

/-- Where programs run: gRPC calls, the event loop, one download task a
key, one chunk task a chunk, and other programs of the machine. -/
inductive Slot where
  | call (n : Nat)
  | eventLoop
  | download (key : PublishedFileKey)
  | chunk (fileId : UInt64) (chunkId : Nat)
  | user (n : Nat)
deriving DecidableEq

/-- What can be started. `fuel` bounds the rounds of a loop whose end the
environment decides. -/
inductive Task where
  | publishFile (n fuel : Nat) (request : PublishFileRequest)
  | downloadFile (n : Nat) (request : DownloadFileRequest)
  | startUp
  | swarmEvent
  | command
  | tick
  | publisher (fuel : Nat)
  | download (record : PendingDownloadRecord)
  | chunk (chunk : DownloadFileChunk)
  | writeFile (n : Nat) (path : PathBuf) (bytes : Bytes)
deriving DecidableEq

/-- How a task can fail: with an error, or by a panic. -/
inductive TaskError where
  | failed (text : String)
  | panicked
deriving DecidableEq

/-- The text of a failure. -/
def TaskError.text : TaskError → String
  | .failed t => t
  | .panicked => "task panicked"

/-- What programs end with. -/
inductive Res where
  | unit
  | published (result : Except Status UInt64)
  | accepted (result : Except Status Unit)
  | chunk (result : Except TaskError (Option Nat))
deriving DecidableEq

/-- The language of the node's programs. -/
abbrev lang : Lang where
  Op := Op
  Ans := Op.Ans
  Slot := Slot
  Task := Task
  Res := Res

/-- A program of the node. -/
abbrev Proc := Prog lang

/-- One operation on files. -/
def fs (o : FsOp) : ExceptT IoError Proc o.Val := ExceptT.mk (Prog.perform (L := lang) (.fs o))

/-- One operation on the database. -/
def store (o : StoreOp) : ExceptT FileStoreError Proc o.Val :=
  ExceptT.mk (Prog.perform (L := lang) (.store o))

/-- One operation on the permits and the active downloads. -/
def sync (o : SyncOp) : Proc o.Ans := Prog.perform (L := lang) (.sync o)

/-- One operation on a channel. -/
def chan (o : ChanOp) : Proc o.Ans := Prog.perform (L := lang) (.chan o)

/-- One call on the swarm. -/
def swarm (o : SwarmOp) : Proc o.Ans := Prog.perform (L := lang) (.swarm o)

/-- One access to the fields of the event service. -/
def events (o : EventOp) : Proc o.Ans := Prog.perform (L := lang) (.events o)

/-- Start a task. -/
def spawn (t : Task) : Proc Unit := Prog.spawn (L := lang) t (.ret ())

/-- A loop that has not ended yet. -/
def diverge {α : Type} : Proc α := Prog.op (L := lang) .diverge fun x => nomatch x

end RustDfs
