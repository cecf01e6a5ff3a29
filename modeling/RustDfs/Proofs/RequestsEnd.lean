import RustDfs.Proofs.Correlation
import RustDfs.Proofs.RequestLog

/-!
# `RustDfs.Proofs.RequestsEnd`: nobody waits for a request that is over

A request is over when its query ends without a provider, or when the
peer it was passed on to has answered. Whenever the event loop is between
two passes, what is over has been answered and is in no map any more
(`released`).

Only the event loop changes the maps and adds to its log, so a handler is
followed exactly: `At s l` says what the maps and the log are. Each of
its operations adds an entry or replaces the maps, and the moves of
`RequestLog` keep `Whole`. That the sender is used and in no map follows
from the counts of `Correlation`.
-/

set_option autoImplicit false

namespace RustDfs.RequestsEnd

open Lib Conc Std RequestLog
open Requests (Ticket ticket? held queued issued answered answered? issued? created? Unborn
  answered_cons answered_cons_none held_new Kept)
open Correlation (Sound)

/-! ### What is shown -/

/-- The channel still waits for its sender. -/
def isOpen {α : Type} : OneshotState α → Bool
  | .open => true
  | _ => false

/-- The sender of a ticket was used or dropped. -/
def Used (w : World) : Ticket → Prop
  | .metadata result => isOpen (w.chan.metadata.state result.id) = false
  | .chunk result => isOpen (w.chan.chunks.state result.id) = false

instance (w : World) (t : Ticket) : Decidable (Used w t) :=
  match t with
  | .metadata _ | .chunk _ => inferInstanceAs (Decidable (_ = _))

/-- Whenever the event loop is between two passes, a request that is over
is in none of the maps, and its sender was used or dropped. -/
def Released (v : NodeView) : Prop :=
  v.live .eventLoop = false →
    ∀ t ∈ ended (log v.hist), held v.world.events t = 0 ∧ Used v.world t

/-! ### The protocol -/

section Proof

variable {s s' : EventService} {l : List Entry} {e : Entry} {t : Ticket} {id : QueryId}
  {requestId : OutboundRequestId} {v v' v'' : NodeView} {i : Slot} {o : Op} {w w' : World}

/-- The number of the next outbound request. -/
def nextRequest (x : Swarm) : Behaviour → Nat
  | .metadataDownload => x.nextMetadataRequest
  | .fileDownload => x.nextFileRequest

/-- The numbers in the log are below the counters. -/
structure Numbered (x : Swarm) (l : List Entry) : Prop where
  queries : ∀ id, x.nextQuery ≤ id → queryOf id l = none
  sent : ∀ b requestId, nextRequest x b ≤ requestId → sentBy b requestId l = none

/-- What an event does to the counters. -/
structure Counters (x x' : Swarm) (e : NodeEvent) : Prop where
  queries : x.nextQuery ≤ x'.nextQuery
  requests : ∀ b, nextRequest x b ≤ nextRequest x' b
  query : ∀ id, logged? e = some (.query id) → id < x'.nextQuery
  sent : ∀ b requestId, logged? e = some (.sent b requestId) → requestId < nextRequest x' b

/-- What is over was answered, but for this request. -/
def SettledBut (x : Option Ticket) (l : List Entry) : Prop :=
  ∀ t ∈ ended l, x = some t ∨ .answered t ∈ l

/-- The request of every command that was taken has a query. -/
def Taken (l : List Entry) : Prop :=
  ∀ command, .command command ∈ l → ticket? command ≠ none → ∃ id, queryOf id l = some command

/-- The event loop has nothing in its hands.
- `whole`: the maps are as the log says,
- `settled`: nothing that is over is left,
- `taken`: every request that was taken from the queue has its query,
- `pending`: what is in the maps is before the network. -/
structure Fine (s : EventService) (l : List Entry) : Prop where
  whole : Whole none s l
  settled : SettledBut none l
  taken : Taken l
  pending : Pending none none s l

/-- The invariant. -/
structure Tidy (v : NodeView) : Prop where
  used : ∀ t, 1 ≤ answered t v.hist → Used v.world t
  numbered : Numbered v.world.swarm (log v.hist)
  idle : v.live .eventLoop = false → Fine v.world.events (log v.hist)

/-- The event loop counts on its maps and its log. -/
structure Rely (i : Slot) (v v' : NodeView) : Prop where
  maps : i = .eventLoop → v'.world.events = v.world.events
  entries : i = .eventLoop → log v'.hist = log v.hist

/-- The maps and the log of the event loop are these. -/
structure At (s : EventService) (l : List Entry) (v : NodeView) : Prop where
  maps : v.world.events = s
  entries : log v.hist = l

/-- A pass of the event loop begins and ends with nothing left. -/
def protocol : Protocol lang World :=
  .ofRely Tidy Rely
    (fun t v => slotOf t = .eventLoop → Fine v.world.events (log v.hist))
    (fun i _ v => i = .eventLoop → Fine v.world.events (log v.hist))

/-- The runs, with what `Correlation` says about each state. -/
def sound [Platform] : NodeGuard := fun v e => environment v e ∧ Sound v

theorem Rely.refl (v : NodeView) : Rely i v v := ⟨fun _ => rfl, fun _ => rfl⟩

theorem Rely.trans (h : Rely i v v') (h' : Rely i v' v'') : Rely i v v'' where
  maps hi := (h'.maps hi).trans (h.maps hi)
  entries hi := (h'.entries hi).trans (h.entries hi)

theorem At.fine (h : At s l v) (hf : Fine s l) : Fine v.world.events (log v.hist) := by
  rw [h.maps, h.entries]
  exact hf

theorem Counters.same {x x' : Swarm} {e : NodeEvent} (hq : x'.nextQuery = x.nextQuery)
    (hr : ∀ b, nextRequest x' b = nextRequest x b) (query : ∀ id, logged? e ≠ some (.query id))
    (sent : ∀ b requestId, logged? e ≠ some (.sent b requestId)) : Counters x x' e :=
  ⟨Nat.le_of_eq hq.symm, fun b => Nat.le_of_eq (hr b).symm, fun id h => absurd h (query id),
    fun b r h => absurd h (sent b r)⟩

/-! ### Entries -/

theorem log_cons {e : NodeEvent} (he : e ≠ .crash) (h : List NodeEvent) :
    log (e :: h) = (logged? e).toList ++ log h := by
  cases e with
  | crash => exact absurd rfl he
  | _ =>
      rw [log]
      · split <;> next hx => rw [hx]; rfl
      · exact fun e => by cases e

theorem log_op (i : Slot) (o : Op) (a : o.Ans) (h : List NodeEvent) :
    log (.op (L := lang) i o a :: h) = (logged? (.op (L := lang) i o a)).toList ++ log h :=
  log_cons (fun e => by cases e) h

theorem entry_answered {e : NodeEvent} (he : logged? e = some (.answered t)) :
    answered? e = some t := by
  unfold logged? at he
  split at he <;> cases he <;> rfl

/-- What the log says was answered was answered. -/
theorem answered_of_log {h : List NodeEvent} (ha : .answered t ∈ log h) : 1 ≤ answered t h := by
  induction h with
  | nil => cases ha
  | cons e h ih =>
      by_cases hc : e = .crash
      · subst hc
        cases ha
      · rw [log_cons hc] at ha
        obtain ha | ha := List.mem_append.mp ha
        · have now : answered? e = some t := entry_answered (Option.mem_toList.mp ha)
          rw [answered_cons now, if_pos rfl]
          exact Nat.le_add_left 1 _
        · exact (ih ha).trans (((List.suffix_cons e h).sublist.filterMap _).count_le t)

/-- An entry that is no event of the swarm. -/
def isEvent : Entry → Bool
  | .event _ => true
  | _ => false

theorem ended_cons (he : isEvent e = false) (l : List Entry) : ended (e :: l) = ended l := by
  cases e <;> first | rfl | cases he

theorem unprovided_note (he : e.isNote = true) (hr : reports? e = none) :
    unprovided id (e :: l) = unprovided id l := by
  have same : Reported id (e :: l) ↔ Reported id l := by
    refine ⟨fun h => ?_, fun h => h.cons e⟩
    obtain ⟨x, hx, h⟩ := h
    obtain rfl | hx := List.mem_cons.mp hx
    · rw [hr] at h
      cases h
    · exact ⟨x, hx, h⟩
  unfold unprovided
  rw [queryOf_note he]
  exact if_congr same rfl rfl

theorem SettledBut.cons {x : Option Ticket} (h : SettledBut x l) (he : isEvent e = false) :
    SettledBut x (e :: l) := fun t ht => by
  rw [ended_cons he] at ht
  exact (h t ht).imp_right (List.mem_cons_of_mem _)

/-- An event ends a request. -/
theorem SettledBut.event (h : SettledBut none l) (event : SwarmEvent) :
    SettledBut (endedBy l event) (.event event :: l) := fun t ht => by
  obtain ht | ht := List.mem_append.mp ht
  · exact .inl (Option.mem_toList.mp ht)
  · exact .inr ((h t ht).resolve_left (Option.some_ne_none t).symm |> List.mem_cons_of_mem _)

/-- The request that was left is answered. -/
theorem SettledBut.settle {x : Option Ticket} (h : SettledBut x l)
    (hx : ∀ t, x = some t → .answered t ∈ l) : SettledBut none l := fun t ht =>
  .inr ((h t ht).elim (hx t) fun ha => ha)

/-- An entry that takes no request and starts no query. -/
theorem Taken.note (h : Taken l) (query : ∀ id, queryOf id (e :: l) = queryOf id l)
    (taken : ∀ command, e = .command command → ticket? command = none) : Taken (e :: l) := by
  intro command hc ht
  obtain rfl | hc := List.mem_cons.mp hc
  · exact absurd (taken command rfl) ht
  · obtain ⟨id, hq⟩ := h command hc ht
    exact ⟨id, (query id).trans hq⟩

theorem Taken.event (h : Taken l) (event : SwarmEvent) : Taken (.event event :: l) :=
  h.note (fun _ => rfl) fun _ e => by cases e

theorem Taken.sent (h : Taken l) (b : Behaviour) (requestId : OutboundRequestId) :
    Taken (.sent b requestId :: l) :=
  h.note (fun _ => rfl) fun _ e => by cases e

theorem Taken.answered (h : Taken l) (t : Ticket) : Taken (.answered t :: l) :=
  h.note (fun _ => rfl) fun _ e => by cases e

/-- The command that was taken gets a query of its own. -/
theorem Taken.startQuery {command : P2pCommand} (h : Taken l)
    (new : queryOf id (.command command :: l) = none) :
    Taken (.query id :: .command command :: l) := by
  intro command' hc ht
  obtain hc | hc := List.mem_cons.mp hc
  · cases hc
  · obtain hc | hc := List.mem_cons.mp hc
    · cases hc
      exact ⟨id, if_pos rfl⟩
    · obtain ⟨id', hq⟩ := h command' hc ht
      refine ⟨id', (queryOf_query_of_ne ?_ _).trans hq⟩
      rintro rfl
      cases new.symm.trans hq

/-- A command that carries no request. -/
theorem Fine.command {command : P2pCommand} (h : Fine s l) (hc : ticket? command = none) :
    Fine s (.command command :: l) :=
  ⟨h.whole.note rfl, h.settled.cons rfl, h.taken.note (fun _ => rfl) fun _ e => by
    cases e
    exact hc, h.pending.cons_command command⟩

/-! ### Operations -/

theorem isOpen_sent {α : Type} (f : Nat → OneshotState α) (n : Nat) (y : α) :
    isOpen (Function.update f n (.sent y) n) = false := by
  rw [Function.update_self]
  rfl

theorem isOpen_exec {α : Type} {o : OneshotOp α} {a : o.Ans} {x x' : Oneshots α} {n : Nat}
    (h : o.exec x = some (a, x')) (hn : n < x.next) (hx : isOpen (x.state n) = false) :
    isOpen (x'.state n) = false := by
  cases o with
  | channel =>
      cases h
      show isOpen (Function.update x.state x.next .open n) = false
      rw [Function.update_of_ne (Nat.ne_of_lt hn)]
      exact hx
  | send result y =>
      cases h
      show isOpen (Function.update x.state result.id (.sent y) n) = false
      by_cases e : n = result.id
      · subst e
        rw [Function.update_self]
        rfl
      · rw [Function.update_of_ne e]
        exact hx
  | drop result =>
      cases h
      show isOpen (Function.update x.state result.id .dropped n) = false
      by_cases e : n = result.id
      · subst e
        rw [Function.update_self]
        rfl
      · rw [Function.update_of_ne e]
        exact hx
  | recv result =>
      simp only [OneshotOp.exec] at h
      split at h <;> cases h <;> exact hx

section Effects

variable [Platform] {c : Choice} {a : o.Ans}

/-- A sender that was used stays used. -/
theorem used_exec (h : o.exec c w = some (a, w')) (hb : ¬ Unborn w t) (ht : Used w t) :
    Used w' t := by
  -- a sender is touched by the operations of its own channel only, and a new
  -- channel has a new number
  cases o with
  | chan o =>
      obtain ⟨⟨_, x⟩, hx, e⟩ := Option.map_eq_some_iff.mp h
      cases e
      cases o with
      | metadata o =>
          cases c <;> first | cases hx | skip
          obtain ⟨⟨_, y⟩, hy, e⟩ := Option.map_eq_some_iff.mp hx
          cases e
          cases t with
          | metadata result => exact isOpen_exec hy (Nat.lt_of_not_le hb) ht
          | chunk result => exact ht
      | chunk o =>
          cases c <;> first | cases hx | skip
          obtain ⟨⟨_, y⟩, hy, e⟩ := Option.map_eq_some_iff.mp hx
          cases e
          cases t with
          | metadata result => exact ht
          | chunk result => exact isOpen_exec hy (Nat.lt_of_not_le hb) ht
      | sendCommand command =>
          cases c with
          | ok =>
              simp only [ChanOp.exec] at hx
              split at hx <;> cases hx
              cases t <;> exact ht
          | closed =>
              cases hx
              cases t <;> exact ht
          | _ => cases hx
      | recvCommand =>
          cases c <;> first | cases hx | skip
          simp only [ChanOp.exec] at hx
          split at hx <;> cases hx
          cases t <;> exact ht
  | events o =>
      cases h
      cases t <;> exact ht
  | diverge => cases h
  | _ =>
      obtain ⟨_, _, e⟩ := Option.map_eq_some_iff.mp h
      cases e
      cases t <;> exact ht

/-- An answer uses its sender. -/
theorem used_answer (h : o.exec c w = some (a, w'))
    (ha : answered? (.op (L := lang) i o a) = some t) : Used w' t := by
  unfold answered? at ha
  split at ha
  · next heq =>
      cases heq
      cases ha
      obtain ⟨⟨_, x⟩, hx, e⟩ := Option.map_eq_some_iff.mp h
      cases e
      cases c <;> cases hx
      exact isOpen_sent _ _ _
  · next heq =>
      cases heq
      cases ha
      obtain ⟨⟨_, x⟩, hx, e⟩ := Option.map_eq_some_iff.mp h
      cases e
      cases c <;> cases hx
      exact isOpen_sent _ _ _
  · cases ha

omit [Platform] in
/-- The numbers an operation of the swarm hands out are below the counters
it leaves. -/
theorem swarm_counters {o : SwarmOp} {a : o.Ans} {x x' : Swarm} (h : o.exec c x = some (a, x'))
    (i : Slot) : Counters x x' (.op (L := lang) i (.swarm o) a) := by
  cases o with
  | getProviders key =>
      cases c <;> cases h
      refine ⟨Nat.le_succ _, fun b => by cases b <;> exact Nat.le_refl _, fun id hid => ?_,
        fun b requestId hr => by cases hr⟩
      cases hid
      exact Nat.lt_succ_self _
  | sendMetadataRequest peer request =>
      cases c <;> cases h
      refine ⟨Nat.le_refl _, fun b => ?_, fun id hid => (by cases hid), fun b requestId hr => ?_⟩
      · cases b
        · exact Nat.le_succ _
        · exact Nat.le_refl _
      · cases hr
        exact Nat.lt_succ_self _
  | sendFileRequest peer request =>
      cases c <;> cases h
      refine ⟨Nat.le_refl _, fun b => ?_, fun id hid => (by cases hid), fun b requestId hr => ?_⟩
      · cases b
        · exact Nat.le_refl _
        · exact Nat.le_succ _
      · cases hr
        exact Nat.lt_succ_self _
  | selectNextSome =>
      cases c <;> cases h
      refine .same rfl (fun b => rfl) (fun id hid => ?_) (fun b r hr => ?_)
      · cases hid
      · cases hr
  | _ =>
      cases c <;> simp only [SwarmOp.exec, reduceCtorEq] at h
      all_goals repeat' split at h
      all_goals cases h
      all_goals refine .same rfl (fun b => rfl) (fun id hid => ?_) (fun b r hr => ?_)
      all_goals first | cases hid | cases hr

/-- The numbers an operation hands out are below the counters it leaves. -/
theorem counters_exec (h : o.exec c w = some (a, w')) (i : Slot) :
    Counters w.swarm w'.swarm (.op (L := lang) i o a) := by
  cases o with
  | swarm o =>
      obtain ⟨⟨_, x⟩, hx, e⟩ := Option.map_eq_some_iff.mp h
      cases e
      exact swarm_counters hx i
  | chan o =>
      obtain ⟨_, _, e⟩ := Option.map_eq_some_iff.mp h
      cases e
      refine .same rfl (fun b => rfl) (fun id hid => ?_) (fun b r hr => ?_)
      · cases o with
        | metadata o => cases o <;> cases hid
        | chunk o => cases o <;> cases hid
        | _ => cases hid
      · cases o with
        | metadata o => cases o <;> cases hr
        | chunk o => cases o <;> cases hr
        | _ => cases hr
  | events o =>
      cases h
      refine .same rfl (fun b => rfl) (fun id hid => ?_) (fun b r hr => ?_)
      · cases hid
      · cases hr
  | diverge => cases h
  | _ =>
      obtain ⟨_, _, e⟩ := Option.map_eq_some_iff.mp h
      cases e
      refine .same rfl (fun b => rfl) (fun id hid => ?_) (fun b r hr => ?_)
      · cases hid
      · cases hr

/-- The log stays below the counters. -/
theorem Numbered.op (hn : Numbered w.swarm l) (h : o.exec c w = some (a, w')) (i : Slot) :
    Numbered w'.swarm ((logged? (.op (L := lang) i o a)).toList ++ l) := by
  obtain ⟨queries, requests, query, sent⟩ := counters_exec h i
  cases hx : logged? (.op (L := lang) i o a) with
  | none => exact ⟨fun id hid => hn.queries id (queries.trans hid),
      fun b r hr => hn.sent b r ((requests b).trans hr)⟩
  | some x =>
      refine ⟨fun id hid => ?_, fun b r hr => ?_⟩
      · have old := hn.queries id (queries.trans hid)
        cases x with
        | query id' =>
            have below := query id' hx
            refine (if_neg fun e => ?_).trans old
            subst e
            exact absurd hid (Nat.not_le.mpr below)
        | _ => exact old
      · have old := hn.sent b r ((requests b).trans hr)
        cases x with
        | sent b' r' =>
            have below := sent b' r' hx
            refine (if_neg fun e => ?_).trans old
            obtain ⟨rfl, rfl⟩ := e
            exact absurd hr (Nat.not_le.mpr below)
        | _ => exact old

/-- An operation keeps the invariant, if it leaves nothing behind where the
event loop is between two passes. -/
theorem Tidy.op (hv : Tidy v) (hs : Sound v) (h : o.exec c v.world = some (a, w))
    (idle : v.live .eventLoop = false →
      Fine w.events ((logged? (.op (L := lang) i o a)).toList ++ log v.hist)) :
    Tidy (v.op (L := lang) i o a w) := by
  refine ⟨fun t ht => ?_, ?_, fun hl => ?_⟩
  · replace ht : 1 ≤ answered t (.op (L := lang) i o a :: v.hist) := ht
    -- The sender was used by this operation, or before it.
    by_cases now : answered? (.op (L := lang) i o a) = some t
    · exact used_answer h now
    · have before : 1 ≤ answered t v.hist := by
        cases ha : answered? (.op (L := lang) i o a) with
        | none =>
            rw [answered_cons_none ha] at ht
            exact ht
        | some t' =>
            rw [answered_cons ha, if_neg fun e => now (ha.trans (congrArg some e))] at ht
            exact ht
      refine used_exec h (fun unborn => ?_) (hv.used t before)
      -- what was answered was issued, so it was made before
      have stocked := hs.good.stocked t
      have unissued := (hs.unborn t unborn).1
      omega
  · show Numbered w.swarm (log (.op (L := lang) i o a :: v.hist))
    rw [log_op]
    exact hv.numbered.op h i
  · show Fine w.events (log (.op (L := lang) i o a :: v.hist))
    rw [log_op]
    exact idle hl

/-! ### Rules for the event loop -/

/-- An operation of the event loop, where the maps and the log are
known. -/
theorem op_safe (hA : At s l v) :
    protocol.Safe machine sound .eventLoop (Prog.perform (L := lang) o) (fun a v' => ∃ v₁ c w,
      At s l v₁ ∧ Tidy v₁ ∧ o.exec c v₁.world = some (a, w) ∧ v' = v₁.op .eventLoop o a w) v := by
  intro v₁ hi hinv hl c a w he hg
  refine ⟨⟨hinv.op hg.2 he fun idle => ?_, fun j hj => ⟨fun h => absurd h hj,
    fun h => absurd h hj⟩⟩, v₁, c, w,
    ⟨(hi.1.maps rfl).trans hA.maps, (hi.1.entries rfl).trans hA.entries⟩, hinv, he, rfl⟩
  rw [idle] at hl
  cases hl

/-- An operation that leaves the maps alone. -/
def Keeps : Op → Prop
  | .events (.setSelf _) => False
  | _ => True

theorem events_of_keeps (ho : Keeps o) (h : o.exec c w = some (a, w')) : w'.events = w.events := by
  cases o with
  | events o =>
      cases h
      cases o with
      | self => rfl
      | setSelf s => exact ho.elim
  | diverge => cases h
  | _ =>
      obtain ⟨_, _, e⟩ := Option.map_eq_some_iff.mp h
      cases e
      rfl

theorem At.extend (hA : At s l v) (ho : Keeps o) (h : o.exec c v.world = some (a, w)) :
    At s ((logged? (.op (L := lang) .eventLoop o a)).toList ++ l) (v.op .eventLoop o a w) where
  maps := (events_of_keeps ho h).trans hA.maps
  entries := (log_op _ _ _ v.hist).trans (congrArg _ hA.entries)

/-- Such an operation adds its entry. -/
theorem keeps_safe (ho : Keeps o) (hA : At s l v) :
    protocol.Safe machine sound .eventLoop (Prog.perform (L := lang) o)
      (fun a v => At s ((logged? (.op (L := lang) .eventLoop o a)).toList ++ l) v) v := by
  refine Protocol.safe_mono (fun a v' h => ?_) (op_safe hA)
  obtain ⟨v₁, c, w, hA, -, he, rfl⟩ := h
  exact hA.extend ho he

/-- Reading the maps. -/
theorem self_safe (hA : At s l v) :
    protocol.Safe machine sound .eventLoop (events .self) (fun self v => self = s ∧ At s l v) v := by
  refine Protocol.safe_mono (fun a v' h => ?_) (op_safe hA)
  obtain ⟨v₁, c, w, hA, -, he, rfl⟩ := h
  have kept := hA.extend (o := .events .self) trivial he
  cases he
  exact ⟨hA.maps, kept⟩

/-- Replacing them. -/
theorem setSelf_safe (s' : EventService) (hA : At s l v) :
    protocol.Safe machine sound .eventLoop (events (.setSelf s')) (fun _ v => At s' l v) v := by
  refine Protocol.safe_mono (fun a v' h => ?_) (op_safe hA)
  obtain ⟨v₁, c, w, hA, -, he, rfl⟩ := h
  cases he
  exact ⟨rfl, (log_op _ _ _ v₁.hist).trans hA.entries⟩

/-- A part of a handler that adds no entry. -/
def Silent : Op → Prop
  | .chan .recvCommand => False
  | .chan (.metadata (.send _ _)) => False
  | .chan (.chunk (.send _ _)) => False
  | .swarm .selectNextSome => False
  | .swarm (.getProviders _) => False
  | .swarm (.sendMetadataRequest _ _) => False
  | .swarm (.sendFileRequest _ _) => False
  | .events (.setSelf _) => False
  | _ => True

omit [Platform] in
theorem entry_of_silent (ho : Silent o) (i : Slot) (a : o.Ans) :
    logged? (.op (L := lang) i o a) = none := by
  cases o with
  | chan o =>
      cases o with
      | metadata o => cases o <;> first | exact ho.elim | rfl
      | chunk o => cases o <;> first | exact ho.elim | rfl
      | recvCommand => exact ho.elim
      | sendCommand command => rfl
  | swarm o => cases o <;> first | exact ho.elim | rfl
  | _ => rfl

omit [Platform] in
theorem keeps_of_silent (ho : Silent o) : Keeps o := by
  cases o with
  | events o => cases o <;> first | exact ho.elim | trivial
  | _ => trivial

theorem silent_safe {α : Type} {O : Op → Prop} {p : Proc α} (hp : p.Within (.ops O))
    (hO : ∀ o, O o → Silent o) (hA : At s l v) :
    protocol.Safe machine sound .eventLoop p (fun _ v => At s l v) v := by
  refine Protocol.safe_within hp (fun v v' hi hA => ⟨(hi.1.maps rfl).trans hA.maps,
    (hi.1.entries rfl).trans hA.entries⟩) (fun v hA hinv hl o ho c a w he hg => ?_) hA
  have same := hA.extend (keeps_of_silent (hO o ho)) he
  rw [entry_of_silent (hO o ho)] at same
  refine ⟨⟨hinv.op hg.2 he fun idle => ?_, fun j hj => ⟨fun h => absurd h hj,
    fun h => absurd h hj⟩⟩, same⟩
  rw [idle] at hl
  cases hl

/-! ### Commands -/

/-- A query starts, and its number is new. -/
theorem getProviders_safe (key : Bytes) (hA : At s l v) :
    protocol.Safe machine sound .eventLoop (swarm (.getProviders key))
      (fun id v => At s (.query id :: l) v ∧ queryOf id l = none) v := by
  refine Protocol.safe_mono (fun id v' h => ?_) (op_safe hA)
  obtain ⟨v₁, c, w, hA, hv, he, rfl⟩ := h
  refine ⟨hA.extend (o := .swarm (.getProviders key)) trivial he, ?_⟩
  obtain ⟨⟨_, x⟩, hx, e⟩ := Option.map_eq_some_iff.mp he
  cases e
  rw [← hA.entries]
  refine hv.numbered.queries id ?_
  cases c <;> cases hx
  exact Nat.le_refl v₁.world.swarm.nextQuery

/-- A command is handled. -/
theorem handleCommand_safe {command : P2pCommand} (hA : At s (.command command :: l) v)
    (hf : Fine s l) :
    protocol.Safe machine sound .eventLoop (EventService.handleCommand command)
      (fun _ v => Fine v.world.events (log v.hist)) v := by
  cases command with
  | requestMetadata request result =>
      refine Protocol.safe_seq (getProviders_safe _ hA) fun id v h => ?_
      obtain ⟨hA, new⟩ := h
      refine Protocol.safe_seq (self_safe hA) fun self v h => ?_
      obtain ⟨rfl, hA⟩ := h
      refine Protocol.safe_mono (fun _ v hA => hA.fine ?_) (setSelf_safe _ hA)
      obtain ⟨whole, unpassed⟩ := (hf.whole.note rfl).startQuery new
      obtain ⟨pending, under⟩ := (hf.pending.cons_command _).startQuery id
      have put := puts_metadata self id ⟨∅, request, result⟩
      exact ⟨whole.put put (if_pos rfl) (absurd rfl) unpassed, (hf.settled.cons rfl).cons rfl,
        hf.taken.startQuery new, pending.put put under⟩
  | requestFileChunk request result =>
      refine Protocol.safe_seq (getProviders_safe _ hA) fun id v h => ?_
      obtain ⟨hA, new⟩ := h
      refine Protocol.safe_seq (self_safe hA) fun self v h => ?_
      obtain ⟨rfl, hA⟩ := h
      refine Protocol.safe_mono (fun _ v hA => hA.fine ?_) (setSelf_safe _ hA)
      obtain ⟨whole, unpassed⟩ := (hf.whole.note rfl).startQuery new
      obtain ⟨pending, under⟩ := (hf.pending.cons_command _).startQuery id
      have put := puts_chunk self id ⟨∅, request, result⟩
      exact ⟨whole.put put (if_pos rfl) (absurd rfl) unpassed, (hf.settled.cons rfl).cons rfl,
        hf.taken.startQuery new, pending.put put under⟩
  | provideMetadata metadata =>
      exact Protocol.safe_seq (silent_safe (provideMetadata_within (fun _ _ => trivial)
        (fun _ => trivial) metadata) (fun _ h => h) hA) fun _ _ hA => hA.fine (hf.command rfl)
  | provideFileChunk request =>
      exact Protocol.safe_seq (silent_safe (provideFileChunk_within (fun _ _ => trivial)
        (fun _ => trivial) request) (fun _ h => h) hA) fun _ _ hA => hA.fine (hf.command rfl)

/-! ### Provider queries -/

section Maps

omit [Platform]

/-- Replacing an entry is taking it and putting another. -/
theorem insert_erase {V : Type} (m : ExtTreeMap Nat V) (k : Nat) (x : V) :
    (m.erase k).insert k x = m.insert k x := by
  refine ExtTreeMap.ext_getElem? fun k' => ?_
  by_cases e : k' = k
  · subst e
    rw [ExtTreeMap.getElem?_insert_self, ExtTreeMap.getElem?_insert_self]
  · rw [get_insert_of_ne e, get_insert_of_ne e, get_erase_of_ne e]

end Maps

/-- Providers are noted for the query. -/
theorem handleFoundProviders_safe {peers : Finset PeerId}
    (hA : At s (.event (.kademlia id (.getProviders (.ok (.foundProviders peers)))) :: l) v)
    (hf : Fine s (.event (.kademlia id (.getProviders (.ok (.foundProviders peers)))) :: l)) :
    protocol.Safe machine sound .eventLoop (EventService.handleFoundProviders id peers)
      (fun _ v => Fine v.world.events (log v.hist)) v := by
  -- peers that were added come from this event
  have found : ∀ {before : Finset PeerId} {l' : List Entry},
      l' = .event (.kademlia id (.getProviders (.ok (.foundProviders peers)))) :: l →
      (before ≠ ∅ → Reported id l') → before ∪ peers ≠ ∅ → Reported id l' := by
    intro before l' e old some
    by_cases hp : peers = ∅
    · refine old fun hb => some ?_
      rw [hb, hp, Finset.union_empty]
    · subst e
      exact ⟨_, List.mem_cons_self, if_neg hp⟩
  refine Protocol.safe_seq (self_safe hA) fun self v h => ?_
  obtain ⟨rfl, hA⟩ := h
  split
  · next data hd =>
      obtain ⟨own, old, unpassed⟩ := hf.whole.waiting id _ _ (.metadata hd)
      -- the query waits as before, with more peers
      have taken := hf.whole.takes_metadata hd
      have put := puts_metadata { self with
        metadataProvidersRequests := self.metadataProvidersRequests.erase id } id
        { data with foundProviders := data.foundProviders ∪ peers }
      have under := hf.pending.waits id _ _ (.metadata hd) (Option.some_ne_none id).symm
      have whole := (hf.whole.take taken).put put own (found rfl old) unpassed
      have pending := (hf.pending.take taken (.inl rfl)).put put under
      simp only [insert_erase] at whole pending
      exact Protocol.safe_mono (fun _ v hA => hA.fine ⟨whole, hf.settled, hf.taken, pending⟩)
        (setSelf_safe _ hA)
  · split
    · next data hd =>
        obtain ⟨own, old, unpassed⟩ := hf.whole.waiting id _ _ (.chunk hd)
        have taken := hf.whole.takes_chunk hd
        have put := puts_chunk { self with
          fileChunkProvidersRequests := self.fileChunkProvidersRequests.erase id } id
          { data with foundProviders := data.foundProviders ∪ peers }
        have under := hf.pending.waits id _ _ (.chunk hd) (Option.some_ne_none id).symm
        have whole := (hf.whole.take taken).put put own (found rfl old) unpassed
        have pending := (hf.pending.take taken (.inl rfl)).put put under
        simp only [insert_erase] at whole pending
        exact Protocol.safe_mono (fun _ v hA => hA.fine ⟨whole, hf.settled, hf.taken, pending⟩)
          (setSelf_safe _ hA)
    · exact hA.fine hf

/-- One of the reported peers is chosen. -/
theorem chooseRandom_safe {peers : Finset PeerId} (hA : At s l v) :
    protocol.Safe machine sound .eventLoop (swarm (.chooseRandom peers))
      (fun peer v => (∀ p, peer = some p → peers ≠ ∅) ∧ At s l v) v := by
  refine Protocol.safe_mono (fun peer v' h => ?_) (op_safe hA)
  obtain ⟨v₁, c, w, hA, -, he, rfl⟩ := h
  refine ⟨?_, hA.extend (o := .swarm (.chooseRandom peers)) trivial he⟩
  rintro p rfl
  obtain ⟨⟨_, x⟩, hx, e⟩ := Option.map_eq_some_iff.mp he
  cases e
  cases c with
  | ok => cases (Option.ite_none_right_eq_some.mp hx).2
  | peer p' => exact Finset.ne_empty_of_mem (Option.ite_none_right_eq_some.mp hx).1
  | _ => cases hx

/-- An outbound request is made, and its number is new. -/
theorem sendMetadataRequest_safe (peer : PeerId) (request : MetadataFileRequest) (hA : At s l v) :
    protocol.Safe machine sound .eventLoop (swarm (.sendMetadataRequest peer request))
      (fun requestId v => At s (.sent .metadataDownload requestId :: l) v ∧
        sentBy .metadataDownload requestId l = none) v := by
  refine Protocol.safe_mono (fun requestId v' h => ?_) (op_safe hA)
  obtain ⟨v₁, c, w, hA, hv, he, rfl⟩ := h
  refine ⟨hA.extend (o := .swarm (.sendMetadataRequest peer request)) trivial he, ?_⟩
  obtain ⟨⟨_, x⟩, hx, e⟩ := Option.map_eq_some_iff.mp he
  cases e
  rw [← hA.entries]
  refine hv.numbered.sent .metadataDownload requestId ?_
  cases c <;> cases hx
  exact Nat.le_refl v₁.world.swarm.nextMetadataRequest

/-- An outbound request is made, and its number is new. -/
theorem sendFileRequest_safe (peer : PeerId) (request : FileChunkRequest) (hA : At s l v) :
    protocol.Safe machine sound .eventLoop (swarm (.sendFileRequest peer request))
      (fun requestId v => At s (.sent .fileDownload requestId :: l) v ∧
        sentBy .fileDownload requestId l = none) v := by
  refine Protocol.safe_mono (fun requestId v' h => ?_) (op_safe hA)
  obtain ⟨v₁, c, w, hA, hv, he, rfl⟩ := h
  refine ⟨hA.extend (o := .swarm (.sendFileRequest peer request)) trivial he, ?_⟩
  obtain ⟨⟨_, x⟩, hx, e⟩ := Option.map_eq_some_iff.mp he
  cases e
  rw [← hA.entries]
  refine hv.numbered.sent .fileDownload requestId ?_
  cases c <;> cases hx
  exact Nat.le_refl v₁.world.swarm.nextFileRequest

omit [Platform] in
/-- The command of a query that has reported a provider is passed on, and
is not over. -/
theorem fine_hand {command : P2pCommand} {b : Behaviour} (hw : Whole (some id) s l)
    (hs : SettledBut (unprovided id l) l) (hk : Taken l) (hp : Pending none none s l)
    (hh : Hands s s' b requestId t)
    (own : queryOf id l = some command) (ht : ticket? command = some t) (unpassed : ¬ Passed id l)
    (gone : ∀ command peers, ¬ Waits s id command peers) (found : Reported id l)
    (new : sentBy b requestId l = none) (hq : currentQuery l = some id) :
    Fine s' (.sent b requestId :: l) := by
  -- A query that has reported a provider leaves nothing over.
  refine ⟨hw.hand hh own ht unpassed gone found new hq, (hs.settle fun t' ht' => ?_).cons rfl,
    hk.sent b requestId, hp.hand hh⟩
  rw [unprovided, if_pos found] at ht'
  cases ht'

omit [Platform] in
/-- The command of a query is answered when it ends. -/
theorem fine_answer {command : P2pCommand} (hw : Whole (some id) s l)
    (hs : SettledBut (unprovided id l) l) (hk : Taken l) (hp : Pending none none s l)
    (own : queryOf id l = some command) (ht : ticket? command = some t) :
    Fine s (.answered t :: l) := by
  refine ⟨hw.answer own ht, (hs.cons rfl).settle fun t' ht' => ?_, hk.answered t,
    hp.cons_answered t⟩
  unfold unprovided at ht'
  split at ht'
  · cases ht'
  · rw [own, Option.bind_some, ht] at ht'
    cases ht'
    exact List.mem_cons_self

/-- The query is over: its command is passed on, or answered. -/
theorem handleAllPossibleProvidersFound_safe (hA : At s l v) (hw : Whole none s l)
    (hs : SettledBut (unprovided id l) l) (hk : Taken l) (hp : Pending (some id) none s l)
    (hq : currentQuery l = some id) :
    protocol.Safe machine sound .eventLoop (EventService.handleAllPossibleProvidersFound id)
      (fun _ v => Fine v.world.events (log v.hist)) v := by
  refine Protocol.safe_seq (self_safe hA) fun self v h => ?_
  obtain ⟨rfl, hA⟩ := h
  split
  · next data hd =>
      obtain ⟨own, found, unpassed⟩ := hw.waiting id _ _ (.metadata hd)
      have taken := hw.takes_metadata hd
      refine Protocol.safe_seq (setSelf_safe _ hA) fun _ v hA => ?_
      refine Protocol.safe_seq (chooseRandom_safe hA) fun peer v h => ?_
      obtain ⟨some, hA⟩ := h
      cases peer with
      | some peer =>
          -- A peer that was reported is asked.
          refine Protocol.safe_seq (sendMetadataRequest_safe peer data.request hA)
            fun requestId v h => ?_
          obtain ⟨hA, new⟩ := h
          refine Protocol.safe_seq (self_safe hA) fun self v h => ?_
          obtain ⟨rfl, hA⟩ := h
          exact Protocol.safe_mono (fun _ v hA => hA.fine (fine_hand (hw.take taken) hs hk
            (hp.take taken (.inr rfl)) (hands_metadata _ requestId data.result) own rfl unpassed
            taken.gone (found (some peer rfl)) new hq)) (setSelf_safe _ hA)
      | none =>
          -- No peer was reported, and the command is answered with `None`.
          exact Protocol.safe_mono (fun _ v hA => hA.fine (fine_answer (hw.take taken) hs hk
            (hp.take taken (.inr rfl)) own rfl))
            (keeps_safe (o := .chan (.metadata (.send data.result none))) trivial hA)
  · next hm =>
      split
      · next data hd =>
          obtain ⟨own, found, unpassed⟩ := hw.waiting id _ _ (.chunk hd)
          have taken := hw.takes_chunk hd
          refine Protocol.safe_seq (setSelf_safe _ hA) fun _ v hA => ?_
          refine Protocol.safe_seq (chooseRandom_safe hA) fun peer v h => ?_
          obtain ⟨some, hA⟩ := h
          cases peer with
          | some peer =>
              refine Protocol.safe_seq (sendFileRequest_safe peer data.request hA)
                fun requestId v h => ?_
              obtain ⟨hA, new⟩ := h
              refine Protocol.safe_seq (self_safe hA) fun self v h => ?_
              obtain ⟨rfl, hA⟩ := h
              exact Protocol.safe_mono (fun _ v hA => hA.fine (fine_hand (hw.take taken) hs hk
                (hp.take taken (.inr rfl)) (hands_chunk _ requestId data.result) own rfl unpassed
                taken.gone (found (some peer rfl)) new hq)) (setSelf_safe _ hA)
          | none =>
              exact Protocol.safe_mono (fun _ v hA =>
                hA.fine (fine_answer (hw.take taken) hs hk (hp.take taken (.inr rfl)) own rfl))
                (keeps_safe (o := .chan (.chunk (.send data.result none))) trivial hA)
      · next hc =>
          -- nobody waits for the query
          have gone : ∀ command peers, ¬ Waits self id command peers := by
            intro command peers h
            cases h with
            | metadata h =>
                rw [hm] at h
                cases h
            | chunk h =>
                rw [hc] at h
                cases h
          exact hA.fine ⟨hw, hs.settle fun t ht => hw.answered_of_unprovided gone ht, hk,
            hp.forget gone⟩

/-! ### Responses -/

omit [Platform] in
/-- What was passed on is answered. -/
theorem fine_get {b : Behaviour} (hw : Whole none s l) (hs : SettledBut (ticketOf b requestId l) l)
    (hk : Taken l) (hp : Pending none (some (b, requestId)) s l) (hg : Gets s s' b requestId)
    (sent : Sent s b requestId t) : Fine s' (.answered t :: l) := by
  refine ⟨hw.get hg sent, (hs.cons rfl).settle fun t' ht' => ?_, hk.answered t,
    (hp.get hg).cons_answered t⟩
  -- What the event ends is the ticket that is answered now.
  obtain waits | answered := hw.sent_or_answered ht'
  · cases sent.unique waits
    exact List.mem_cons_self
  · exact List.mem_cons_of_mem _ answered

omit [Platform] in
/-- Nobody waits for the answer. -/
theorem fine_unknown {b : Behaviour} (hw : Whole none s l)
    (hs : SettledBut (ticketOf b requestId l) l) (hk : Taken l)
    (hp : Pending none (some (b, requestId)) s l) (gone : ∀ t, ¬ Sent s b requestId t) : Fine s l :=
  ⟨hw, hs.settle fun t ht => (hw.sent_or_answered ht).resolve_left (gone t), hk, hp.unknown gone⟩

/-- An event of the metadata behaviour. -/
theorem metadataDownload_safe {event : RequestResponseEvent MetadataFileRequest}
    (hA : At s (.event (.metadataDownload event) :: l) v)
    (hw : Whole none s (.event (.metadataDownload event) :: l))
    (hs : SettledBut (endedBy l (.metadataDownload event)) (.event (.metadataDownload event) :: l))
    (hk : Taken (.event (.metadataDownload event) :: l))
    (hp : Pending none (responds? (.metadataDownload event)) s
      (.event (.metadataDownload event) :: l)) :
    protocol.Safe machine sound .eventLoop (EventService.metadataDownload event)
      (fun _ v => Fine v.world.events (log v.hist)) v := by
  cases event with
  | request request channel =>
      exact Protocol.safe_mono (fun _ _ hA => hA.fine ⟨hw, hs, hk, hp⟩)
        (silent_safe (metadataRequest_within request channel) (fun o ho => by cases ho <;> trivial)
          hA)
  | response requestId response =>
      refine Protocol.safe_seq (self_safe hA) fun self v h => ?_
      obtain ⟨rfl, hA⟩ := h
      split
      · next result hr =>
          -- the request is answered, whatever the response is
          have fine := fine_get hw hs hk hp (gets_metadata _ requestId) (.metadata hr)
          refine Protocol.safe_seq (setSelf_safe _ hA) fun _ v hA => ?_
          have answer : ∀ x, protocol.Safe machine sound .eventLoop
              (chan (.metadata (.send result x)))
              (fun _ v => Fine v.world.events (log v.hist)) v := fun x =>
            Protocol.safe_mono (fun _ v hA => hA.fine fine)
              (keeps_safe (o := .chan (.metadata (.send result x))) trivial hA)
          unfold EventService.handleMetadataDownloadResponse
          split
          · split <;> exact answer _
          · exact answer none
          · exact answer none
      · next hr =>
          -- a response to no request of this node is dropped
          refine hA.fine (fine_unknown hw hs hk hp fun t sent => ?_)
          cases sent with
          | metadata h =>
              rw [hr] at h
              cases h
  | _ => exact hA.fine ⟨hw, hs, hk, hp⟩

/-- An event of the chunk behaviour. -/
theorem fileDownload_safe {event : RequestResponseEvent FileChunkRequest}
    (hA : At s (.event (.fileDownload event) :: l) v)
    (hw : Whole none s (.event (.fileDownload event) :: l))
    (hs : SettledBut (endedBy l (.fileDownload event)) (.event (.fileDownload event) :: l))
    (hk : Taken (.event (.fileDownload event) :: l))
    (hp : Pending none (responds? (.fileDownload event)) s (.event (.fileDownload event) :: l)) :
    protocol.Safe machine sound .eventLoop (EventService.fileDownload event)
      (fun _ v => Fine v.world.events (log v.hist)) v := by
  cases event with
  | request request channel =>
      exact Protocol.safe_mono (fun _ _ hA => hA.fine ⟨hw, hs, hk, hp⟩)
        (silent_safe (chunkRequest_within request channel) (fun o ho => by cases ho <;> trivial) hA)
  | response requestId response =>
      refine Protocol.safe_seq (self_safe hA) fun self v h => ?_
      obtain ⟨rfl, hA⟩ := h
      split
      · next result hr =>
          have fine := fine_get hw hs hk hp (gets_chunk _ requestId) (.chunk hr)
          refine Protocol.safe_seq (setSelf_safe _ hA) fun _ v hA => ?_
          exact Protocol.safe_mono (fun _ v hA => hA.fine fine)
            (keeps_safe (o := .chan (.chunk (.send result (some response)))) trivial hA)
      · next hr =>
          refine hA.fine (fine_unknown hw hs hk hp fun t sent => ?_)
          cases sent with
          | chunk h =>
              rw [hr] at h
              cases h
  | _ => exact hA.fine ⟨hw, hs, hk, hp⟩

/-- A swarm event. -/
theorem handleSwarmEvent_safe {event : SwarmEvent} (hA : At s (.event event :: l) v)
    (hf : Fine s l) :
    protocol.Safe machine sound .eventLoop (EventService.handleSwarmEvent event)
      (fun _ v => Fine v.world.events (log v.hist)) v := by
  have hw : Whole none s (.event event :: l) := hf.whole.note rfl
  have hs := hf.settled.event event
  have hk := hf.taken.event event
  have hp := hf.pending.event event
  cases event with
  | kademlia id result =>
      show protocol.Safe machine _ _ (EventService.kademlia id result) _ _
      unfold EventService.kademlia
      split
      · exact handleFoundProviders_safe hA ⟨hw, hs, hk, hp⟩
      -- The query is over, whether it ended or failed.
      · exact handleAllPossibleProvidersFound_safe hA hw
          (by rw [unprovided_note rfl rfl]; exact hs) hk hp rfl
      · exact handleAllPossibleProvidersFound_safe hA hw
          (by rw [unprovided_note rfl rfl]; exact hs) hk hp rfl
      · exact hA.fine ⟨hw, hs, hk, hp⟩
  | fileDownload event => exact fileDownload_safe hA hw hs hk hp
  | metadataDownload event => exact metadataDownload_safe hA hw hs hk hp
  | other => exact hA.fine ⟨hw, hs, hk, hp⟩

/-! ### The tasks -/

omit [Platform] in
/-- Every task but the two handlers only does what adds no entry. -/
theorem silent_of_footprint {t : Task} {o : Op} (hc : t ≠ .command) (hs : t ≠ .swarmEvent)
    (ho : t.footprint.op o) : Silent o := by
  cases t with
  | publishFile n fuel request =>
      obtain ⟨_ | _ | _ | _ | ⟨_, _, _ | _⟩ | ⟨_, _ | _⟩ | _⟩ | _ := ho <;> trivial
  | downloadFile n request => obtain ⟨⟨_ | _ | _⟩ | ⟨_ | _⟩ | _⟩ | _ := ho <;> trivial
  | startUp => obtain _ | _ := ho <;> trivial
  | swarmEvent => exact absurd rfl hs
  | command => exact absurd rfl hc
  | tick => obtain _ | _ := ho <;> trivial
  | publisher fuel => obtain _ | _ := ho <;> trivial
  | download r =>
      obtain ⟨_ | _⟩ | ⟨⟨_ | _ | _ | ⟨_ | _⟩ | _⟩ | _ | _ | _⟩ | _ := ho <;> trivial
  | chunk d => obtain _ | _ | _ | _ | _ | _ | _ | ⟨_, _ | _⟩ := ho <;> trivial
  | writeFile n path bytes => obtain _ | _ := ho <;> trivial

omit [Platform] in
/-- An event that adds no entry and changes nothing. -/
theorem Tidy.frame (hv : Tidy v) (v' : NodeView) {e : NodeEvent} (hh : v'.hist = e :: v.hist)
    (hl : log (e :: v.hist) = log v.hist) (ha : answered? e = none) (hw : v'.world = v.world)
    (idle : v'.live .eventLoop = false → Fine v.world.events (log v.hist)) : Tidy v' where
  used t ht := by
    rw [hh, answered_cons_none ha] at ht
    rw [hw]
    exact hv.used t ht
  numbered := by
    rw [hh, hl, hw]
    exact hv.numbered
  idle h := by
    rw [hh, hl, hw]
    exact idle h

omit [Platform] in
theorem Rely.frame {e : NodeEvent} (i : Slot) (hh : v'.hist = e :: v.hist)
    (hl : log (e :: v.hist) = log v.hist) (hw : v'.world = v.world) : Rely i v v' :=
  ⟨fun _ => by rw [hw], fun _ => by rw [hh, hl]⟩

/-- Every task keeps to the protocol. -/
theorem body_safe (t : Task)
    (hf : slotOf t = .eventLoop → Fine v.world.events (log v.hist)) :
    protocol.Safe machine sound (slotOf t) (body t)
      (fun _ v => slotOf t = .eventLoop → Fine v.world.events (log v.hist)) v := by
  -- the two tasks that change the maps, one pass of the event loop each
  by_cases hc : t = .command
  · subst hc
    refine Protocol.safe_seq (keeps_safe (o := .chan .recvCommand) trivial ⟨rfl, rfl⟩)
      fun command v h => ?_
    exact Protocol.safe_seq (handleCommand_safe h (hf rfl)) fun _ _ h _ => h
  by_cases hs : t = .swarmEvent
  · subst hs
    refine Protocol.safe_seq (keeps_safe (o := .swarm .selectNextSome) trivial ⟨rfl, rfl⟩)
      fun event v h => ?_
    exact Protocol.safe_seq (handleSwarmEvent_safe h (hf rfl)) fun _ _ h _ => h
  -- every other task leaves the maps and the log of the event loop alone
  have stable : ∀ v v' : NodeView, protocol.Interferes (slotOf t) v v' →
      (slotOf t = .eventLoop → Fine v.world.events (log v.hist)) →
      slotOf t = .eventLoop → Fine v'.world.events (log v'.hist) := fun v v' hi h hl => by
    rw [hi.1.maps hl, hi.1.entries hl]
    exact h hl
  refine Protocol.safe_footprint (body_within t) stable
    (fun v hA hinv hl o ho c a w he hg => ?_) (fun v hA hinv hl t' ht _ _ => ?_)
    (fun v hA hinv hl j hj _ r _ _ => ?_) hf
  · have silent := silent_of_footprint hc hs ho
    have maps := events_of_keeps (keeps_of_silent silent) he
    have entries : log (v.op (L := lang) (slotOf t) o a w).hist = log v.hist := by
      show log (.op (L := lang) (slotOf t) o a :: v.hist) = _
      rw [log_op, entry_of_silent silent]
      rfl
    refine ⟨⟨hinv.op hg.2 he fun idle => ?_, fun j _ => ⟨fun _ => maps, fun _ => entries⟩⟩,
      fun h => ?_⟩
    · rw [maps, entry_of_silent silent]
      exact hinv.idle idle
    · rw [entries]
      show Fine w.events _
      rw [maps]
      exact hA h
  · -- a task of another slot starts
    have other : slotOf t' ≠ .eventLoop := by
      obtain ⟨r, rfl⟩ | ⟨r, -, c, dir, rfl⟩ := of_spawn ht
      · exact fun e => by cases e
      · exact fun e => by cases e
    refine ⟨⟨hinv.frame _ rfl rfl rfl rfl fun h => ?_, fun j _ => .frame j rfl rfl rfl⟩,
      fun h => absurd h other, hA⟩
    replace h : Function.update v.live (slotOf t') true .eventLoop = false := h
    rw [Function.update_of_ne (Ne.symm other)] at h
    exact hinv.idle h
  · obtain ⟨r', -, c, rfl⟩ := of_await hj
    refine ⟨⟨hinv.frame _ rfl rfl rfl rfl fun h => ?_, fun j _ => .frame j rfl rfl rfl⟩, hA⟩
    have other : Slot.eventLoop ≠ .chunk r'.key.toU64 c := fun e => by cases e
    replace h : Function.update v.live (.chunk r'.key.toU64 c) false .eventLoop = false := h
    rw [Function.update_of_ne other] at h
    exact hinv.idle h

theorem valid : protocol.Valid machine sound where
  rely_refl _ v := .refl v
  rely_trans _ _ _ _ h h' := h.trans h'
  guar_rely i j _ _ hij _ hG := hG.2 j hij.symm
  guar_inv _ _ _ _ hG := hG.1
  post_stable i _ _ _ hi h hl := by
    rw [hi.1.maps hl, hi.1.entries hl]
    exact h hl
  start_rely t v hv _ _ j := .frame j rfl rfl rfl
  start_inv t v hv hl _ := by
    refine hv.frame _ rfl rfl rfl rfl fun h => ?_
    replace h : Function.update v.live (slotOf t) true .eventLoop = false := h
    by_cases ht : slotOf t = .eventLoop
    · rw [ht, Function.update_self] at h
      cases h
    · rw [Function.update_of_ne (Ne.symm ht)] at h
      exact hv.idle h
  start_pre t v hv hl _ ht := by
    refine hv.idle ?_
    rw [← ht]
    exact hl
  exit_guar i r v hv hpost _ _ := by
    refine ⟨hv.frame _ rfl rfl rfl rfl fun h => ?_, fun j _ => .frame j rfl rfl rfl⟩
    replace h : Function.update v.live i false .eventLoop = false := h
    by_cases hi : i = .eventLoop
    · exact hpost hi
    · rw [Function.update_of_ne (Ne.symm hi)] at h
      exact hv.idle h
  crash_inv v hv _ := by
    -- A crash clears the maps and the log.
    refine ⟨fun t _ => by cases t <;> rfl, ⟨fun _ _ => rfl, fun _ _ _ => rfl⟩, fun _ => ?_⟩
    exact ⟨.new, fun t ht => (by cases ht), fun command hc => (by cases hc), .new []⟩
  body_safe t v _ hpre := body_safe t hpre

/-- The invariant of `Correlation` in every run of a node whose event
service is new. -/
theorem sound_of_reach (hs : w.events = .new) (hc : w.chan.commands = []) {p : NodePool}
    (h : Reach machine environment (.idle w) p) : Sound p.view := by
  refine (Correlation.valid.holds_of_reach ⟨⟨?_, fun t => ?_⟩, fun _ => Nat.zero_le 1,
    fun _ _ => ⟨rfl, rfl⟩, fun _ _ => rfl, ⟨fun _ _ _ _ hs => ?_, fun _ _ _ _ hs => ?_⟩⟩ h).1
  · show Kept w.events []
    rw [hs]
    exact .new []
  · show queued t w + held w.events t + 0 ≤ 0
    rw [hs, held_new, queued, hc]
    exact Nat.le_refl 0
  · cases List.suffix_nil.mp hs
  · cases List.suffix_nil.mp hs

/-- The invariant in every run of a node whose event service is new. -/
theorem tidy_of_reach (hs : w.events = .new) (hc : w.chan.commands = []) {p : NodePool}
    (h : Reach machine environment (.idle w) p) : Tidy p.view := by
  have init : Tidy (Pool.idle (L := lang) w).view := by
    refine ⟨fun t ht => absurd ht (Nat.not_succ_le_zero 0), ⟨fun _ _ => rfl, fun _ _ _ => rfl⟩,
      fun _ => ?_⟩
    show Fine w.events []
    rw [hs]
    exact ⟨.new, fun t ht => (by cases ht), fun command hc => (by cases hc), .new []⟩
  exact (valid.holds_of_reach init (h.strengthen fun p hp => sound_of_reach hs hc hp)).1

/-- Between two passes the request of every command that was taken is
before the network or lost, or its sender was used. -/
theorem open_lost_or_used (hs : w.events = .new) (hc : w.chan.commands = []) {p : NodePool}
    (h : Reach machine environment (.idle w) p) (idle : p.view.live .eventLoop = false)
    {command : P2pCommand} (taken : .command command ∈ log p.hist)
    (ht : ticket? command = some t) :
    Open p.world.events (log p.hist) t ∨ Lost p.world.events (log p.hist) t ∨
      Used p.world t := by
  have tidy := tidy_of_reach hs hc h
  obtain ⟨whole, -, queried, pending⟩ := tidy.idle idle
  have used : ∀ {t}, .answered t ∈ log p.hist → Used p.world t := fun ha =>
    tidy.used _ (answered_of_log ha)
  -- The command has a query, which waits, was passed on or was answered.
  obtain ⟨id, own⟩ := queried command taken (by rw [ht]; exact Option.some_ne_none t)
  obtain ⟨peers, hw⟩ | ⟨b, requestId, sent⟩ | ⟨t', ht', ha⟩ :=
    whole.query id command own (Option.some_ne_none _).symm
  · exact .inl (.query hw ht (pending.waits id command peers hw (Option.some_ne_none id).symm))
  · -- the request was passed on to a peer
    obtain ⟨-, command', t', own', ht', kept⟩ := whole.sent b requestId id sent
    cases own'.symm.trans own
    cases ht'.symm.trans ht
    obtain waits | ha := kept (Option.some_ne_none _).symm
    · have unanswered := pending.sent b requestId t waits (Option.some_ne_none (b, requestId)).symm
      -- Whether its failure was handled tells an open request from a lost one.
      by_cases failed : Failed b requestId (log p.hist)
      · exact .inr (.inl ⟨b, requestId, waits, unanswered, failed⟩)
      · exact .inl (.request waits unanswered failed)
    · exact .inr (.inr (used ha))
  · cases ht'.symm.trans ht
    exact .inr (.inr (used ha))

/-- In every run of a node whose event service is new nobody waits for a
request that is over. -/
theorem released (hs : w.events = .new) (hc : w.chan.commands = []) {p : NodePool}
    (h : Reach machine environment (.idle w) p) : Released p.view := by
  have hv := tidy_of_reach hs hc h
  intro idle t ht
  have logged : .answered t ∈ log p.hist :=
    ((hv.idle idle).settled t ht).resolve_left (Option.some_ne_none t).symm
  have answered : 1 ≤ answered t p.hist := answered_of_log logged
  refine ⟨?_, hv.used t answered⟩
  have sound := sound_of_reach hs hc h
  have stocked := sound.good.stocked t
  have once := sound.once t
  show held p.world.events t = 0
  change queued t p.world + held p.world.events t + Requests.answered t p.hist ≤
    issued t p.hist at stocked
  change issued t p.hist ≤ 1 at once
  omega

end Effects

end Proof

/-! ### A chunk that arrives -/

section Example

open RustDfs.Reference

attribute [local instance] platform

/-- Both requests of a download are over and nobody waits. -/
theorem released_downloaded :
    ∃ p, Reach machine environment (.idle (emptyDir 1)) p ∧
      (p.view.live .eventLoop = false ∧
        ended (log p.hist) = [.chunk ⟨0⟩, .metadata ⟨0⟩]) ∧ Released p.view := by
  have run : ∃ p, Reach machine environment (.idle (emptyDir 1)) p ∧
      (p.view.live .eventLoop = false ∧ ended (log p.hist) = [.chunk ⟨0⟩, .metadata ⟨0⟩]) :=
    exists_reach_of_runScript Correlation.downloaded (by decide +kernel)
  obtain ⟨p, hp, hended⟩ := run
  exact ⟨p, hp, hended, released rfl rfl hp⟩

end Example

end RustDfs.RequestsEnd
