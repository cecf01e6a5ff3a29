import RustDfs.Model.DownloadService
import RustDfs.Model.EventService
import RustDfs.Model.Grpc

/-!
# `RustDfs.Model.Node`: a node

The programs of a node put together: the passes of the event loop of
`p2p/service.rs`, the gRPC calls, the downloads with their chunk tasks,
and other programs of the machine that write files. `machine` is the
node as a `Conc.Machine`; its runs are the runs of the node.

The environment starts gRPC calls, passes of the event loop and other
programs at any time. A call takes a slot number nobody used before.
-/

set_option autoImplicit false

namespace RustDfs

open Lib Conc

variable [Platform]

/-- A pass of the event loop in which the publisher's branch is ready:
`get_next_file_metadata` found a job, or failed. Without a job the branch
is not ready and the pass does nothing. -/
def publisherPass (fuel : Nat) : Proc Unit := do
  match ← (store .getNextFileMetadata).run with
  | .ok none => return ()
  | .ok (some metadata) => EventService.filePublish fuel (.ok metadata)
  | .error e => EventService.filePublish fuel (.error e)

/-- The slot of a task. -/
def slotOf : Task → Slot
  | .publishFile n _ _ => .call n
  | .downloadFile n _ => .call n
  | .startUp => .eventLoop
  | .swarmEvent => .eventLoop
  | .command => .eventLoop
  | .tick => .eventLoop
  | .publisher _ => .eventLoop
  | .download record => .download record.key
  | .chunk d => .chunk d.fileId d.chunkId
  | .writeFile n _ _ => .user n

/-- The program of a task. -/
def body : Task → Proc Res
  | .publishFile _ fuel request => do
      let result ← (publishFile fuel request).run
      return .published result
  | .downloadFile _ request => do
      let result ← (downloadFile request).run
      return .accepted result
  | .startUp => do
      let _ ← EventService.provideAllPublishedFiles.run
      return .unit
  | .swarmEvent => do
      let event ← swarm .selectNextSome
      EventService.handleSwarmEvent event
      return .unit
  | .command => do
      let command ← chan .recvCommand
      EventService.handleCommand command
      return .unit
  | .tick => do
      FileDownloadService.workOnPendingDownloads
      return .unit
  | .publisher fuel => do
      publisherPass fuel
      return .unit
  | .download record => FileDownloadService.downloadTask record
  | .chunk d => FileDownloadService.chunkTask d
  | .writeFile _ path bytes => do
      let _ ← (writeFile path bytes).run
      return .unit

/-- A node. The result of a chunk task stays until its download takes it;
every other program leaves when it has ended. -/
def machine : Machine lang Choice World where
  exec _ o c w := Op.exec o c w
  slotOf := slotOf
  body := body
  keeps
    | .chunk _ _ => true
    | _ => false
  crash := World.crash

abbrev NodeView := View lang World
abbrev NodeEvent := Event lang
abbrev NodePool := Pool lang World
abbrev NodeGuard := Guard lang World

/-- A task the environment starts. Downloads and chunk tasks are started
by programs of the node only. -/
def Task.external : Task → Bool
  | .download _ => false
  | .chunk _ => false
  | _ => true

/-- The slot of a gRPC call. -/
def Slot.isCall : Slot → Bool
  | .call _ => true
  | _ => false

/-- The slot in which an event is the start of a task. -/
def startedSlot : NodeEvent → Option Slot
  | .start t => some (slotOf t)
  | _ => none

/-- What the environment of a node may do: it starts external tasks, and
every gRPC call in a slot of its own. -/
def environment : NodeGuard := fun v e =>
  match e with
  | .start t => t.external = true ∧
      ((slotOf t).isCall = true → ∀ e ∈ v.hist, startedSlot e ≠ some (slotOf t))
  | _ => True

instance (v : NodeView) (e : NodeEvent) : Decidable (environment v e) :=
  match e with
  | .start t => inferInstanceAs (Decidable (t.external = true ∧
      ((slotOf t).isCall = true → ∀ e ∈ v.hist, startedSlot e ≠ some (slotOf t))))
  | .op .. | .spawn .. | .await .. | .exit .. | .crash => inferInstanceAs (Decidable True)

end RustDfs
