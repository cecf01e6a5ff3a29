import RustDfs.Conc.Footprint
import RustDfs.Model.Search

/-!
# `RustDfs.Proofs.SearchRules`: what the programs of a search do

`Belongs i o` says that slot `i` may perform `o` at all, `body_within`
that every task keeps to the operations of its slot. The lemmas about
`Op.exec` say which parts of the world an operation leaves alone.
-/

set_option autoImplicit false

namespace RustDfs.Search

open Lib Conc Prog

abbrev SearchEvent := Event lang
abbrev SearchView := View lang World
abbrev SearchGuard := Guard lang World

/-! ### The operations of a slot -/

/-- The operations of the programs of each slot. -/
inductive Belongs : Slot → Op → Prop
  | channels (k : Nat) : Belongs (.call k) .channels
  | search (k : Nat) (request : FileSearchRequest) (n : Nat) :
      Belongs (.call k) (.sendCommand (.fileSearch request n))
  | failed (k n : Nat) : Belongs (.call k) (.dropTx n)
  | select (n : Nat) : Belongs (.searchTask n) (.select n)
  | dropRx (n : Nat) : Belongs (.searchTask n) (.dropRx n)
  | containsKey (n : Nat) (id : UInt64) : Belongs (.searchTask n) (.containsKey n id)
  | insertKey (n : Nat) (id : UInt64) : Belongs (.searchTask n) (.insertKey n id)
  | publishedFileExists (n : Nat) (key : PublishedFileKey) :
      Belongs (.searchTask n) (.publishedFileExists key)
  | sendGrpc (n : Nat) (response : SearchResponse) : Belongs (.searchTask n) (.sendGrpc n response)
  | isClosed (n : Nat) : Belongs (.searchTask n) (.isClosed n)
  | abort (n : Nat) (id : String) : Belongs (.searchTask n) (.sendCommand (.fileSearchAbort id))
  | diverge (n : Nat) : Belongs (.searchTask n) .diverge
  | selectNextSome : Belongs .eventLoop .selectNextSome
  | recvCommand : Belongs .eventLoop .recvCommand
  | publish (topic : String) (data : Bytes) : Belongs .eventLoop (.publish topic data)
  | dropTx (n : Nat) : Belongs .eventLoop (.dropTx n)
  | getSession (id : String) : Belongs .eventLoop (.getSession id)
  | insertSession (id : String) (n : Nat) : Belongs .eventLoop (.insertSession id n)
  | removeSession (id : String) : Belongs .eventLoop (.removeSession id)
  | sendFound (n : Nat) (found : FileFound) : Belongs .eventLoop (.sendFound n found)
  | sendRequest (peer : PeerId) (result : FileSearchResult) :
      Belongs .eventLoop (.sendRequest peer result)
  | sendResponse (channel : ResponseChannel) : Belongs .eventLoop (.sendResponse channel)
  | stream (id : Nat) : Belongs (.fileSearch id) .streamPublishedFiles
  | streamItem (id : Nat) : Belongs (.fileSearch id) .streamItem
  | result (id : Nat) (peer : PeerId) (result : FileSearchResult) :
      Belongs (.fileSearch id) (.sendCommand (.fileSearchResult peer result))
  | readResponse (n : Nat) : Belongs (.client n) (.readResponse n)
  | disconnect (n : Nat) : Belongs (.client n) (.disconnect n)
  | other (k : Nat) : Belongs (.other k) (.sendCommand .other)
  | putPublishedFile (k : Nat) (record : PublishedFileRecord) :
      Belongs (.other k) (.putPublishedFile record)

/-- The tasks the programs of each slot start. -/
inductive Starts : Slot → Task → Prop
  | searchTask (k n fuel : Nat) (value : String) : Starts (.call k) (.searchTask n fuel value)
  | fileSearch (id : Nat) (source : PeerId) (request : FileSearchRequest) :
      Starts .eventLoop (.fileSearch id source request)

/-- What the programs of a slot do. -/
def footprint (i : Slot) : Footprint lang := ⟨Belongs i, Starts i, fun _ => False⟩

theorem within_of {i : Slot} {o : Op} (h : Belongs i o) : (perform o).Within (footprint i) :=
  (within_perform _).mpr h

theorem within_ending {i : Slot} {α : Type} {p : Proc α} (h : p.Within (footprint i)) :
    (ending p).Within (footprint i) :=
  within_bind h fun _ => trivial

theorem search_within (k fuel : Nat) (value : String) :
    (search fuel value).run.Within (footprint (.call k)) := by
  refine within_bindE (within_lift (within_of (.channels k))) fun n => ?_
  refine within_bindE (within_lift (within_of (.search k _ n))) fun r => ?_
  cases r with
  | error e => exact within_bindE (within_lift (within_of (.failed k n))) fun _ => trivial
  | ok u => exact within_lift ⟨.searchTask k n fuel value, trivial⟩

theorem sendAbort_within (n : Nat) (value : String) :
    (sendAbort value).Within (footprint (.searchTask n)) :=
  within_bind (within_of (.abort n value)) fun _ => trivial

theorem report_within (n : Nat) (value : String) (found : FileFound) :
    (report n value found).Within (footprint (.searchTask n)) := by
  refine within_bind (within_of (.containsKey n _)) fun known => ?_
  cases known with
  | true => exact trivial
  | false =>
      refine within_bind (within_of (.publishedFileExists n _)) fun known => ?_
      split
      · exact trivial
      · refine within_bind (within_of (.sendGrpc n _)) fun r => ?_
        cases r with
        | error e => exact sendAbort_within n value
        | ok u => exact within_of (.insertKey n _)

theorem searchTask_within (n : Nat) (value : String) (fuel : Nat) :
    (searchTask n value fuel).Within (footprint (.searchTask n)) := by
  induction fuel with
  | zero => exact ⟨.diverge n, fun x => nomatch x⟩
  | succ fuel ih =>
      refine within_bind (within_of (.select n)) fun selected => ?_
      cases selected with
      | msg found =>
          cases found with
          | none => exact within_of (.dropRx n)
          | some found => exact within_bind (report_within n value found) fun _ => ih
      | tick =>
          refine within_bind (within_of (.isClosed n)) fun closed => ?_
          cases closed with
          | false => exact ih
          | true => exact within_bind (sendAbort_within n value) fun _ => ih

section EventService

variable [Config]

theorem handleCommand_within (command : P2pCommand) :
    (handleCommand command).Within (footprint .eventLoop) := by
  cases command with
  | fileSearch request tx =>
      simp only [handleCommand]
      split
      · split
        · refine within_bind (within_of (.publish _ _)) fun r => ?_
          cases r with
          | error e => exact within_of (.dropTx tx)
          | ok u => exact within_of (.insertSession _ tx)
        · exact within_of (.dropTx tx)
      · exact within_of (.dropTx tx)
  | fileSearchAbort id => exact within_of (.removeSession id)
  | fileSearchResult peer result => exact within_of (.sendRequest peer result)
  | other => exact trivial

theorem handleSwarmEvent_within (event : SwarmEvent) :
    (handleSwarmEvent event).Within (footprint .eventLoop) := by
  cases event with
  | fileSearchResult peer request channel =>
      refine within_bind (within_of (.sendResponse channel)) fun _ => ?_
      refine within_bind (within_of (.getSession _)) fun entry => ?_
      cases entry with
      | none => exact trivial
      | some tx =>
          refine within_bind (within_of (.sendFound tx _)) fun r => ?_
          cases r with
          | error e => exact within_of (.removeSession _)
          | ok u => exact trivial
  | gossip propagationSource source messageId topic data =>
      simp only [handleSwarmEvent, gossipsub]
      split
      · split
        · split
          · exact ⟨.fileSearch messageId propagationSource _, trivial⟩
          · exact trivial
        · exact trivial
      · exact trivial
  | other => exact trivial

theorem fileSearchEach_within (id : Nat) (source : PeerId) (request : FileSearchRequest)
    (records : List PublishedFileRecord) :
    (fileSearchEach source request records).Within (footprint (.fileSearch id)) := by
  induction records with
  | nil => exact trivial
  | cons record records ih =>
      refine within_bind (within_of (.streamItem id)) fun item => ?_
      cases item with
      | error e => exact trivial
      | ok u =>
          show (if _ then _ else _ : Proc Unit).Within _
          split
          · refine within_bind (within_of (.result id _ _)) fun r => ?_
            cases r with
            | error e => exact trivial
            | ok u => exact ih
          · exact ih

/-- Every task keeps to the operations of its slot. -/
theorem body_within (t : Task) : (body t).Within (footprint (slotOf t)) := by
  cases t with
  | search k fuel value => exact within_bind (search_within k fuel value) fun _ => trivial
  | searchTask n fuel value => exact within_ending (searchTask_within n value fuel)
  | swarmEvent =>
      exact within_ending (within_bind (within_of .selectNextSome) handleSwarmEvent_within)
  | command => exact within_ending (within_bind (within_of .recvCommand) handleCommand_within)
  | fileSearch id source request =>
      exact within_ending (within_bind (within_of (.stream id)) fun records =>
        fileSearchEach_within id source request records)
  | readResponse n => exact within_ending (within_of (.readResponse n))
  | disconnect n => exact within_ending (within_of (.disconnect n))
  | sendCommand k => exact within_ending (within_of (.other k))
  | putPublishedFile k record => exact within_ending (within_of (.putPublishedFile k record))

end EventService

/-! ### What an operation does to a session -/

/-- What an operation may make of session `n`. -/
inductive Changes (w : World) (n : Nat) : Op → Session → Prop
  | same (o : Op) : Changes w n o (w.session n)
  | channels (h : n = w.next) : Changes w n .channels .new
  | dropTx : Changes w n (.dropTx n) { w.session n with txGone := true }
  | insertSession (id : String) (m : Nat) (h : w.sessions id = some n) :
      Changes w n (.insertSession id m) { w.session n with txGone := true }
  | removeSession (id : String) (h : w.sessions id = some n) :
      Changes w n (.removeSession id) { w.session n with txGone := true }
  | dropRx : Changes w n (.dropRx n) { w.session n with found := [], rxGone := true }
  | sendFound (found : FileFound) :
      Changes w n (.sendFound n found)
        { w.session n with found := (w.session n).found ++ [found] }
  | select (found : FileFound) (rest : List FileFound)
      (h : (w.session n).found = found :: rest) :
      Changes w n (.select n) { w.session n with found := rest }
  | containsKey (id : UInt64) :
      Changes w n (.containsKey n id) { w.session n with cache := (w.session n).cache.erase id }
  | insertKey (id : UInt64) :
      Changes w n (.insertKey n id) { w.session n with cache := insert id (w.session n).cache }
  | sendGrpc (response : SearchResponse) :
      Changes w n (.sendGrpc n response)
        { w.session n with responses := (w.session n).responses ++ [response] }
  | readResponse (response : SearchResponse) (rest : List SearchResponse)
      (h : (w.session n).responses = response :: rest) :
      Changes w n (.readResponse n) { w.session n with responses := rest }
  | disconnect :
      Changes w n (.disconnect n) { w.session n with responses := [], clientGone := true }

section Exec

variable {o : Op} {c : Choice} {w w' : World} {a : o.Ans} {n m : Nat}

theorem setSession_apply (w : World) (m : Nat) (s : Session) (n : Nat) :
    (w.setSession m s).session n = if n = m then s else w.session n :=
  Function.update_apply _ _ _ _

theorem Changes.setSession {s : Session} (h : Changes w m o s) (n : Nat) :
    Changes w n o ((w.setSession m s).session n) := by
  rw [setSession_apply]
  split
  · next hn =>
      subst hn
      exact h
  · exact .same o

/-- Replacing a map entry changes the session it was. -/
theorem Changes.setEntry {id : String} (h : ∀ m, w.sessions id = some m →
    Changes w m o { w.session m with txGone := true }) (x : Option Nat) (n : Nat) :
    Changes w n o ((w.setEntry id x).session n) := by
  unfold World.setEntry World.dropEntry
  cases he : w.sessions id with
  | none => exact .same o
  | some m => exact (h m he).setSession n

/-- What an operation does to a session. -/
theorem exec_session (he : o.exec c w = some (a, w')) (n : Nat) : Changes w n o (w'.session n) := by
  -- one constructor of `Changes` for each operation that changes a session
  cases o with
  | channels =>
      cases c <;> cases he
      exact Changes.setSession (.channels rfl) n
  | dropTx m =>
      cases c <;> cases he
      exact Changes.setSession .dropTx n
  | dropRx m =>
      cases c <;> cases he
      exact Changes.setSession .dropRx n
  | insertSession id m =>
      cases c <;> cases he
      exact Changes.setEntry (fun _ h => .insertSession id m h) _ n
  | removeSession id =>
      cases c <;> cases he
      exact Changes.setEntry (fun _ h => .removeSession id h) _ n
  | sendFound m found =>
      cases c with
      | ok =>
          simp only [Op.exec] at he
          split at he
          · cases he
            exact .same _
          · split at he <;> cases he
            exact Changes.setSession (.sendFound found) n
      | _ => cases he
  | select m =>
      cases c with
      | ok =>
          simp only [Op.exec] at he
          split at he
          · next h =>
              cases he
              exact Changes.setSession (.select _ _ h) n
          · split at he <;> cases he
            exact .same _
      | tick =>
          cases he
          exact .same _
      | _ => cases he
  | containsKey m id =>
      cases c with
      | ok =>
          cases he
          exact .same _
      | evicted =>
          cases he
          exact Changes.setSession (.containsKey id) n
      | _ => cases he
  | insertKey m id =>
      cases c <;> cases he
      exact Changes.setSession (.insertKey id) n
  | sendGrpc m response =>
      cases c with
      | ok =>
          simp only [Op.exec] at he
          split at he
          · cases he
            exact .same _
          · split at he <;> cases he
            exact Changes.setSession (.sendGrpc response) n
      | _ => cases he
  | readResponse m =>
      cases c with
      | ok =>
          simp only [Op.exec] at he
          split at he <;> cases he
          exact Changes.setSession (.readResponse _ _ ‹_›) n
      | _ => cases he
  | disconnect m =>
      cases c <;> cases he
      exact Changes.setSession .disconnect n
  | sendCommand cmd =>
      cases c with
      | ok =>
          simp only [Op.exec] at he
          split at he <;> cases he
          exact .same _
      | closed =>
          cases he
          exact .same _
      | _ => cases he
  | recvCommand =>
      cases c with
      | ok =>
          simp only [Op.exec] at he
          split at he <;> cases he
          exact .same _
      | _ => cases he
  | _ => cases c <;> cases he <;> exact .same _

theorem setEntry_next (w : World) (id : String) (x : Option Nat) : (w.setEntry id x).next = w.next := by
  unfold World.setEntry World.dropEntry
  split <;> rfl

theorem setEntry_commands (w : World) (id : String) (x : Option Nat) :
    (w.setEntry id x).commands = w.commands := by
  unfold World.setEntry World.dropEntry
  split <;> rfl

theorem setEntry_published (w : World) (id : String) (x : Option Nat) :
    (w.setEntry id x).published = w.published := by
  unfold World.setEntry World.dropEntry
  split <;> rfl

/-- Only `channels` makes a session. -/
theorem exec_next (ho : o ≠ .channels) (he : o.exec c w = some (a, w')) : w'.next = w.next := by
  cases o <;> cases c <;> simp only [Op.exec] at he <;> (repeat' split at he) <;> cases he <;>
    first
      | rfl
      | exact setEntry_next _ _ _
      | exact absurd rfl ho

/-- Only the handlers of commands and results change the map. -/
theorem exec_sessions (hi : ∀ id n, o ≠ .insertSession id n) (hr : ∀ id, o ≠ .removeSession id)
    (he : o.exec c w = some (a, w')) : w'.sessions = w.sessions := by
  cases o <;> cases c <;> simp only [Op.exec] at he <;> (repeat' split at he) <;> cases he <;>
    first
      | rfl
      | exact absurd rfl (hi _ _)
      | exact absurd rfl (hr _)

/-- Only sends and receives change the command channel. -/
theorem exec_commands (hs : ∀ cmd, o ≠ .sendCommand cmd) (hr : o ≠ .recvCommand)
    (he : o.exec c w = some (a, w')) : w'.commands = w.commands := by
  cases o <;> cases c <;> simp only [Op.exec] at he <;> (repeat' split at he) <;> cases he <;>
    first
      | rfl
      | exact setEntry_commands _ _ _
      | exact absurd rfl (hs _)
      | exact absurd rfl hr

/-- Only the rest of the node publishes. -/
theorem exec_published (ho : ∀ r, o ≠ .putPublishedFile r) (he : o.exec c w = some (a, w')) :
    w'.published = w.published := by
  cases o <;> cases c <;> simp only [Op.exec] at he <;> (repeat' split at he) <;> cases he <;>
    first
      | rfl
      | exact setEntry_published _ _ _
      | exact absurd rfl (ho _)

theorem exec_channels {a : Op.channels.Ans} (he : Op.exec .channels c w = some (a, w')) :
    a = w.next ∧ w'.next = w.next + 1 ∧ w'.session w.next = .new := by
  cases c <;> cases he
  exact ⟨rfl, rfl, by simp [World.setSession]⟩

end Exec

end RustDfs.Search
