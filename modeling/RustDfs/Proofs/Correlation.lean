import RustDfs.Model.Reference
import RustDfs.Proofs.Requests

/-!
# `RustDfs.Proofs.Correlation`: which answer goes to whom

The event service hands the sender of a request from map to map until it
is used. A program issues the sender it made once, and from there on no
step makes it more (`Good.stocked`): so it is in one place at most, and
is used once at most. What stands behind an entry (`Good.kept`) ties the
answer to the request that was sent for the command of the sender
(`correlated`).

Between two operations of the event loop other programs may issue
commands and nothing else that matters here (`Quiet`). While a handler
holds a sender, the sender is nowhere else (`Spare`).
-/

set_option autoImplicit false

namespace RustDfs.Correlation

open Lib Conc Std Requests
open LocalPeer (reported?)

/-! ### What is shown -/

section Statement

variable [Platform]

/-- `m` is what a peer answered to a request for the command with this
sender: the event loop took a response that decodes to `m`, and its
outbound request was made for this sender. -/
def MetadataAnswer (result : OneshotSender (Option FileMetadata)) (m : FileMetadata)
    (h : List NodeEvent) : Prop :=
  ∃ request requestId bytes i before,
    .op i (.swarm .selectNextSome) (.metadataDownload (.response requestId (.success bytes))) ::
      before <:+ h ∧
    Platform.decodeMetadata bytes = .ok m ∧ AskedMetadata requestId request result before

/-- `response` is what a peer answered to a request for the command with
this sender. -/
def ChunkAnswer (result : OneshotSender (Option FileResponse)) (response : FileResponse)
    (h : List NodeEvent) : Prop :=
  ∃ request requestId i before,
    .op i (.swarm .selectNextSome) (.fileDownload (.response requestId response)) ::
      before <:+ h ∧
    AskedChunk requestId request result before

/-- What is delivered in this history is the answer to its request.
- `metadata`: a metadata that is sent to whoever asked is what a peer had
  answered to the request made for this sender,
- `chunk`: so is a response to a chunk request. -/
structure Delivered (h : List NodeEvent) : Prop where
  metadata : ∀ i result m before,
    .op i (.chan (.metadata (.send result (some m)))) () :: before <:+ h →
      MetadataAnswer result m before
  chunk : ∀ i result response before,
    .op i (.chan (.chunk (.send result (some response)))) () :: before <:+ h →
      ChunkAnswer result response before

/-- Senders and answers belong together. -/
structure Correlated (v : NodeView) : Prop where
  /-- A sender goes with one command. -/
  issuedOnce : ∀ t, issued t v.hist ≤ 1
  /-- It is in one map at most, once. -/
  heldOnce : ∀ t, held v.world.events t ≤ 1
  /-- No query is waited for in both maps. -/
  apart : ∀ id : QueryId, v.world.events.metadataProvidersRequests[id]? = none ∨
    v.world.events.fileChunkProvidersRequests[id]? = none
  /-- It is used once at most. -/
  answeredOnce : ∀ t, answered t v.hist ≤ 1
  /-- What is delivered is the answer. -/
  delivered : Delivered v.hist

end Statement

/-! ### The protocol -/

section Proof

variable {t : Ticket} {s : EventService} {h h' : List NodeEvent} {v v' v'' : NodeView}
  {i : Slot} {e : NodeEvent}

/-- The invariant. -/
structure Sound [Platform] (v : NodeView) : Prop where
  good : Good v.world.events v
  once : ∀ t, issued t v.hist ≤ 1
  unborn : ∀ t, Unborn v.world t → issued t v.hist = 0 ∧ creator t v.hist = none
  fresh : ∀ id, v.world.swarm.nextQuery ≤ id → queryOf id v.hist = none
  delivered : Delivered v.hist

/-- What a slot counts on: only it issues the tickets it created, and
only the event loop touches the maps. -/
structure Rely (i : Slot) (v v' : NodeView) : Prop where
  issues : ∀ t, creator t v.hist = some i →
    creator t v'.hist = some i ∧ issued t v'.hist = issued t v.hist
  quiet : i = .eventLoop → Quiet v v'
  events : i = .eventLoop → v'.world.events = v.world.events

/-- The protocol. -/
def protocol [Platform] : Protocol lang World :=
  .ofRely Sound Rely (fun _ _ => True) (fun _ _ _ => True)

theorem Rely.refl (v : NodeView) : Rely i v v :=
  ⟨fun _ h => ⟨h, rfl⟩, fun _ => .refl v, fun _ => rfl⟩

theorem Rely.trans (h : Rely i v v') (h' : Rely i v' v'') : Rely i v v'' where
  issues t ht := by
    obtain ⟨own, same⟩ := h.issues t ht
    obtain ⟨own', same'⟩ := h'.issues t own
    exact ⟨own', same'.trans same⟩
  quiet hi := (h.quiet hi).trans (h'.quiet hi)
  events hi := (h'.events hi).trans (h.events hi)

variable [Platform]

/-- An event that delivers nothing. -/
theorem Delivered.cons (he : answered? e = none) (hd : Delivered h) : Delivered (e :: h) where
  metadata i result m before hs := by
    obtain hs | hs := List.suffix_cons_iff.mp hs
    · cases hs
      cases he
    · exact hd.metadata i result m before hs
  chunk i result response before hs := by
    obtain hs | hs := List.suffix_cons_iff.mp hs
    · cases hs
      cases he
    · exact hd.chunk i result response before hs

/-! ### Neutral operations -/

/-- An operation that neither makes nor moves a ticket and starts no
query. -/
def Neutral : Op → Prop
  | .chan (.metadata .channel) => False
  | .chan (.chunk .channel) => False
  | .chan (.metadata (.send _ _)) => False
  | .chan (.chunk (.send _ _)) => False
  | .chan (.sendCommand command) => ticket? command = none
  | .chan .recvCommand => False
  | .events (.setSelf _) => False
  | .swarm (.getProviders _) => False
  | _ => True

/-- An event that neither issues nor answers and starts no query. -/
structure Plain (e : NodeEvent) : Prop where
  created : created? e = none
  issued : issued? e = none
  answered : answered? e = none
  query : query? e = none

/-- An event that means nothing to the tickets. -/
structure Silent (e : NodeEvent) : Prop extends Plain e where
  command : command? e = none

/-- The counters are the same. -/
structure SameCounters (w w' : World) : Prop where
  metadata : w'.chan.metadata.next = w.chan.metadata.next
  chunks : w'.chan.chunks.next = w.chan.chunks.next
  nextQuery : w'.swarm.nextQuery = w.swarm.nextQuery

/-- The counters and the queued tickets are the same. -/
structure SameWorld (w w' : World) : Prop extends SameCounters w w' where
  queued : ∀ t, queued t w' = queued t w

omit [Platform] in
theorem SameCounters.unborn {w w' : World} (hw : SameCounters w w') (hu : Unborn w' t) : Unborn w t := by
  cases t with
  | metadata result => exact hw.metadata.symm.trans_le hu
  | chunk result => exact hw.chunks.symm.trans_le hu

omit [Platform] in
/-- Such an event is quiet. -/
theorem Silent.quiet (he : Silent e) (hh : v'.hist = e :: v.hist)
    (hw : SameWorld v.world v'.world) : Quiet v v' where
  hist := by rw [hh]; exact List.suffix_cons _ _
  current := by rw [hh, current_cons_none he.command]
  queries id := by rw [hh, queryOf_cons_none he.query]
  answered t := by rw [hh, answered_cons_none he.answered]
  queue t := by rw [hh, issued_cons_none he.issued, hw.queued]

omit [Platform] in
/-- A plain event issues nothing. -/
theorem issues_of_plain (he : Plain e) (h : List NodeEvent) (t : Ticket) :
    issued t (e :: h) = issued t h ∧ creator t (e :: h) = creator t h := by
  rw [issued_cons_none he.issued, creator_cons_none he.created]
  exact ⟨rfl, rfl⟩

/-- A plain event keeps the invariant when the maps are good. -/
theorem Sound.cons (hv : Sound v) (v' : NodeView) (he : Plain e) (hh : v'.hist = e :: v.hist)
    (hw : SameCounters v.world v'.world) (hg : Good v'.world.events v') : Sound v' where
  good := hg
  once t := by
    rw [hh, (issues_of_plain he v.hist t).1]
    exact hv.once t
  unborn t ht := by
    rw [hh, (issues_of_plain he v.hist t).1, (issues_of_plain he v.hist t).2]
    exact hv.unborn t (hw.unborn ht)
  fresh id hid := by
    rw [hw.nextQuery] at hid
    rw [hh, queryOf_cons_none he.query]
    exact hv.fresh id hid
  delivered := by
    rw [hh]
    exact hv.delivered.cons he.answered

/-- A silent event that leaves the maps alone is within every rely. -/
theorem Sound.frame (hv : Sound v) (v' : NodeView) (he : Silent e) (hh : v'.hist = e :: v.hist)
    (hw : SameWorld v.world v'.world) (hs : v'.world.events = v.world.events) :
    Sound v' ∧ ∀ j, Rely j v v' := by
  have quiet := he.quiet hh hw
  refine ⟨hv.cons v' he.toPlain hh hw.toSameCounters (by rw [hs]; exact hv.good.stable quiet), fun j =>
    ⟨fun t ht => ?_, fun _ => quiet, fun _ => hs⟩⟩
  rw [hh, (issues_of_plain he.toPlain v.hist t).1, (issues_of_plain he.toPlain v.hist t).2]
  exact ⟨ht, rfl⟩

omit [Platform] in
theorem silent_of_neutral {o : Op} (ho : Neutral o) (i : Slot) (a : o.Ans) :
    Silent (.op (L := lang) i o a) := by
  cases o with
  | chan o =>
      cases o with
      | metadata o => cases o <;> first | exact ho.elim | exact ⟨⟨rfl, rfl, rfl, rfl⟩, rfl⟩
      | chunk o => cases o <;> first | exact ho.elim | exact ⟨⟨rfl, rfl, rfl, rfl⟩, rfl⟩
      | sendCommand command =>
          cases a with
          | ok u => exact ⟨⟨rfl, ho, rfl, rfl⟩, rfl⟩
          | error u => exact ⟨⟨rfl, rfl, rfl, rfl⟩, rfl⟩
      | recvCommand => exact ho.elim
  | swarm o => cases o <;> first | exact ho.elim | exact ⟨⟨rfl, rfl, rfl, rfl⟩, rfl⟩
  | events o => cases o <;> first | exact ho.elim | exact ⟨⟨rfl, rfl, rfl, rfl⟩, rfl⟩
  | _ => exact ⟨⟨rfl, rfl, rfl, rfl⟩, rfl⟩

omit [Platform] in
theorem next_of_ne_channel {α : Type} {o : OneshotOp α} (ho : o ≠ .channel) {a : o.Ans}
    {x x' : Oneshots α} (h : o.exec x = some (a, x')) : x'.next = x.next := by
  cases o with
  | channel => exact absurd rfl ho
  | recv result =>
      simp only [OneshotOp.exec] at h
      split at h <;> cases h <;> rfl
  | _ =>
      cases h
      rfl

/-- What such an operation changes. -/
theorem exec_neutral {o : Op} (ho : Neutral o) {c : Choice} {a : o.Ans} {w w' : World}
    (h : o.exec c w = some (a, w')) : SameWorld w w' ∧ w'.events = w.events := by
  -- only a new channel, a command with a ticket or the maps would change it
  cases o with
  | chan o =>
      obtain ⟨⟨_, x⟩, hx, e⟩ := Option.map_eq_some_iff.mp h
      cases e
      refine ⟨?_, rfl⟩
      cases o with
      | metadata o =>
          cases c <;> first | cases hx | skip
          obtain ⟨⟨_, y⟩, hy, e⟩ := Option.map_eq_some_iff.mp hx
          cases e
          have next := next_of_ne_channel (fun hc => by subst hc; exact ho) hy
          exact ⟨⟨next, rfl, rfl⟩, fun _ => rfl⟩
      | chunk o =>
          cases c <;> first | cases hx | skip
          obtain ⟨⟨_, y⟩, hy, e⟩ := Option.map_eq_some_iff.mp hx
          cases e
          have next := next_of_ne_channel (fun hc => by subst hc; exact ho) hy
          exact ⟨⟨rfl, next, rfl⟩, fun _ => rfl⟩
      | sendCommand command =>
          cases c with
          | ok =>
              simp only [ChanOp.exec] at hx
              split at hx
              · cases hx
                refine ⟨⟨rfl, rfl, rfl⟩, fun t => ?_⟩
                show ((w.chan.commands ++ [command]).filterMap ticket?).count t = _
                rw [List.filterMap_append, List.filterMap_cons_none ho, List.filterMap_nil,
                  List.append_nil]
                rfl
              · cases hx
          | closed =>
              cases hx
              exact ⟨⟨rfl, rfl, rfl⟩, fun _ => rfl⟩
          | _ => cases hx
      | recvCommand => exact ho.elim
  | swarm o =>
      obtain ⟨⟨_, x⟩, hx, e⟩ := Option.map_eq_some_iff.mp h
      cases e
      refine ⟨⟨⟨rfl, rfl, LocalPeer.nextQuery_eq (fun key hk => ?_) hx⟩, fun _ => rfl⟩, rfl⟩
      subst hk
      exact ho
  | events o =>
      cases o with
      | self =>
          cases h
          exact ⟨⟨⟨rfl, rfl, rfl⟩, fun _ => rfl⟩, rfl⟩
      | setSelf s => exact ho.elim
  | diverge => cases h
  | _ =>
      obtain ⟨_, _, e⟩ := Option.map_eq_some_iff.mp h
      cases e
      exact ⟨⟨⟨rfl, rfl, rfl⟩, fun _ => rfl⟩, rfl⟩

/-- A neutral operation is within the guarantee of every slot. -/
theorem guar_neutral {o : Op} (ho : Neutral o) (hv : Sound v) {c : Choice} {a : o.Ans}
    {w : World} (he : o.exec c v.world = some (a, w)) :
    protocol.Guar i v (v.op i o a w) ∧ ∀ j, Rely j v (v.op (L := lang) i o a w) := by
  obtain ⟨hw, hs⟩ := exec_neutral ho he
  obtain ⟨sound, rely⟩ := hv.frame (v.op (L := lang) i o a w) (silent_of_neutral ho i a)
    rfl hw hs
  exact ⟨⟨sound, fun j _ => rely j⟩, rely⟩

/-- A program of neutral operations is safe, and keeps what its slot
counts on. -/
theorem safe_neutral {α : Type} {O : Op → Prop} {p : Proc α} (hp : p.Within (.ops O))
    (hO : ∀ o, O o → Neutral o) {A : NodeView → Prop} (stable : ∀ v v', Rely i v v' → A v → A v')
    (hA : A v) : protocol.Safe machine environment i p (fun _ v => A v) v := by
  refine Protocol.safe_within hp (fun v v' h => stable v v' h.1) ?_ hA
  intro v hv hinv _ o ho c a w he _
  obtain ⟨guar, rely⟩ := guar_neutral (i := i) (hO o ho) hinv he
  exact ⟨guar, stable v _ (rely i) hv⟩

/-! ### The fields of the event service -/

/-- An assertion about the fields that what is quiet keeps. -/
def Stable (B : EventService → NodeView → Prop) : Prop :=
  ∀ s v v', Quiet v v' → B s v → B s v'

variable {B : EventService → NodeView → Prop}

/-- A neutral part of a handler. -/
theorem quiet_safe {α : Type} {O : Op → Prop} {p : Proc α} (hp : p.Within (.ops O))
    (hO : ∀ o, O o → Neutral o) (hB : Stable B) (h : B v.world.events v) :
    protocol.Safe machine environment .eventLoop p (fun _ v => B v.world.events v) v :=
  safe_neutral hp hO (fun v v' hr h => by
    rw [hr.events rfl]
    exact hB _ _ _ (hr.quiet rfl) h) h

/-- Reading the fields. -/
theorem self_safe (hB : Stable B) (h : B v.world.events v) :
    protocol.Safe machine environment .eventLoop (events .self)
      (fun self v => Good self v ∧ B self v) v := by
  intro v₁ hi hinv _ c a w he _
  cases he
  obtain ⟨guar, rely⟩ := guar_neutral (o := .events .self) (i := .eventLoop) (c := c) trivial
    hinv rfl
  have quiet := (hi.1.quiet rfl).trans ((rely .eventLoop).quiet rfl)
  have kept := hB _ _ _ quiet h
  rw [← hi.1.events rfl] at kept
  exact ⟨guar, guar.1.good, kept⟩

/-- Replacing them by good ones. -/
theorem setSelf_safe (hB : Stable B) (hs : Good s v) (h : B s v) :
    protocol.Safe machine environment .eventLoop (events (.setSelf s))
      (fun _ v => B v.world.events v) v := by
  intro v₁ hi hinv _ c a w he _
  cases he
  have silent : Silent (.op (L := lang) .eventLoop (.events (.setSelf s)) ()) :=
    ⟨⟨rfl, rfl, rfl, rfl⟩, rfl⟩
  have quiet : Quiet v₁ (v₁.op (L := lang) .eventLoop (.events (.setSelf s)) ()
      { v₁.world with events := s }) := silent.quiet rfl ⟨⟨rfl, rfl, rfl⟩, fun _ => rfl⟩
  refine ⟨⟨hinv.cons _ silent.toPlain rfl ⟨rfl, rfl, rfl⟩
    (hs.stable ((hi.1.quiet rfl).trans quiet)), fun j hj => ⟨fun t ht => ?_,
    fun e => absurd e hj, fun e => absurd e hj⟩⟩, hB _ _ _ ((hi.1.quiet rfl).trans quiet) h⟩
  obtain ⟨same, owner⟩ := issues_of_plain silent.toPlain v₁.hist t
  exact ⟨owner.trans ht, same⟩

/-! ### Commands -/

variable {id : QueryId} {requestId : OutboundRequestId}

omit [Platform] in
theorem queued_cons {w : World} {command : P2pCommand} {commands : List P2pCommand}
    (hw : w.chan.commands = command :: commands) (t : Ticket) :
    queued t w = ((commands.filterMap ticket?).count t) +
      if ticket? command = some t then 1 else 0 := by
  rw [queued, hw]
  cases hc : ticket? command with
  | none =>
      rw [List.filterMap_cons_none hc, if_neg nofun]
      rfl
  | some t' =>
      rw [List.filterMap_cons_some hc, List.count_cons]
      simp only [beq_iff_eq, Option.some.injEq]

/-- The event loop takes a command, and its ticket is in its hands. -/
theorem recvCommand_safe :
    protocol.Safe machine environment .eventLoop (chan .recvCommand)
      (fun command v => current v.hist = some command ∧
        ∀ t, ticket? command = some t → Spare t v.world.events v) v := by
  intro v₁ _ hinv _ c command w he _
  obtain ⟨⟨_, x⟩, hx, e⟩ := Option.map_eq_some_iff.mp he
  cases e
  cases c with
  | ok =>
      simp only [ChanOp.exec] at hx
      split at hx
      · cases hx
      · next command' commands hcommands =>
          cases hx
          have plain : Plain (.op (L := lang) .eventLoop (.chan .recvCommand) command) :=
            ⟨rfl, rfl, rfl, rfl⟩
          have taken : ∀ t, queued t v₁.world = queued t { v₁.world with
              chan := { v₁.world.chan with commands := commands } } +
              if ticket? command = some t then 1 else 0 := queued_cons hcommands
          refine ⟨⟨hinv.cons _ plain rfl ⟨rfl, rfl, rfl⟩ ⟨?_, fun t => ?_⟩, fun j hj =>
            ⟨fun t ht => ?_, fun h => absurd h hj, fun h => absurd h hj⟩⟩, rfl, fun t ht => ?_⟩
          · exact hinv.good.kept.mono (List.suffix_cons _ _) fun id _ => queryOf_cons_none rfl
          · have stocked := hinv.good.stocked t
            have taken := taken t
            show queued t { v₁.world with chan := { v₁.world.chan with commands := commands } } +
              held v₁.world.events t + answered t v₁.hist ≤ issued t v₁.hist
            omega
          · obtain ⟨same, owner⟩ := issues_of_plain plain v₁.hist t
            exact ⟨owner.trans ht, same⟩
          · have stocked := hinv.good.stocked t
            have taken := taken t
            rw [if_pos ht] at taken
            show queued t { v₁.world with chan := { v₁.world.chan with commands := commands } } +
              held v₁.world.events t + answered t v₁.hist + 1 ≤ issued t v₁.hist
            omega
  | _ => cases hx

/-- A query starts for the command the event loop took. -/
theorem getProviders_safe {command : P2pCommand} (key : Bytes)
    (hc : current v.hist = some command) (hs : Spare t v.world.events v) :
    protocol.Safe machine environment .eventLoop (swarm (.getProviders key))
      (fun id v => queryOf id v.hist = some command ∧ Spare t v.world.events v) v := by
  intro v₁ hi hinv _ c a w he _
  obtain ⟨⟨_, x⟩, hx, e⟩ := Option.map_eq_some_iff.mp he
  cases e
  cases c with
  | ok =>
      cases hx
      have spare : Spare t v₁.world.events v₁ := by
        rw [hi.1.events rfl]
        exact hs.stable (hi.1.quiet rfl)
      have others : ∀ id, id ≠ v₁.world.swarm.nextQuery → queryOf id (.op (L := lang) .eventLoop
          (.swarm (.getProviders key)) v₁.world.swarm.nextQuery :: v₁.hist) =
            queryOf id v₁.hist := fun id hid => if_neg (Ne.symm hid)
      refine ⟨⟨⟨⟨?_, hinv.good.stocked⟩, hinv.once, hinv.unborn, fun id hid => ?_,
        hinv.delivered.cons rfl⟩, fun j hj => ⟨fun t ht => ⟨ht, rfl⟩, fun h => absurd h hj,
        fun h => absurd h hj⟩⟩, (if_pos rfl).trans ((hi.1.quiet rfl).current.trans hc), spare⟩
      · -- the queries that are waited for are older than this one
        refine hinv.good.kept.mono (List.suffix_cons _ _) fun id hid => others id fun e => ?_
        exact hid (hinv.fresh id (Nat.le_of_eq e.symm))
      · replace hid : v₁.world.swarm.nextQuery + 1 ≤ id := hid
        exact (others id (by omega)).trans (hinv.fresh id (by omega))
  | _ => cases hx

/-- A command. -/
theorem handleCommand_safe {command : P2pCommand} (hc : current v.hist = some command)
    (ht : ∀ t, ticket? command = some t → Spare t v.world.events v) :
    protocol.Safe machine environment .eventLoop (EventService.handleCommand command)
      (fun _ _ => True) v := by
  have top : Stable fun _ _ => True := fun _ _ _ _ h => h
  cases command with
  | requestMetadata request result =>
      refine Protocol.safe_seq (getProviders_safe _ hc (ht _ rfl)) fun id v h => ?_
      refine Protocol.safe_seq (self_safe (B := fun s v =>
        queryOf id v.hist = some (.requestMetadata request result) ∧ Spare (.metadata result) s v)
        (fun s v v' hq h => ⟨(hq.queries id).trans h.1, h.2.stable hq⟩) h)
        fun self v ⟨good, own, spare⟩ => ?_
      exact setSelf_safe top (good.insertMetadataProvider _ own
        (fun _ h => absurd h (Finset.notMem_empty _))
        (spare.less (held_erase_le self id _).1)) trivial
  | requestFileChunk request result =>
      refine Protocol.safe_seq (getProviders_safe _ hc (ht _ rfl)) fun id v h => ?_
      refine Protocol.safe_seq (self_safe (B := fun s v =>
        queryOf id v.hist = some (.requestFileChunk request result) ∧ Spare (.chunk result) s v)
        (fun s v v' hq h => ⟨(hq.queries id).trans h.1, h.2.stable hq⟩) h)
        fun self v ⟨good, own, spare⟩ => ?_
      exact setSelf_safe top (good.insertChunkProvider _ own
        (fun _ h => absurd h (Finset.notMem_empty _))
        (spare.less (held_erase_le self id _).2.1)) trivial
  | provideMetadata metadata =>
      exact Protocol.safe_seq (quiet_safe (provideMetadata_within (fun _ _ => trivial)
        (fun _ => trivial) metadata) (fun _ h => h) top trivial) fun _ _ h => h
  | provideFileChunk request =>
      exact Protocol.safe_seq (quiet_safe (provideFileChunk_within (fun _ _ => trivial)
        (fun _ => trivial) request) (fun _ h => h) top trivial) fun _ _ h => h

/-! ### Provider queries -/

/-- The event loop took the event, and the entries stood behind before it
did. -/
def Taken (event : SwarmEvent) (s : EventService) (v : NodeView) : Prop :=
  ∃ before, .op (L := lang) .eventLoop (.swarm .selectNextSome) event :: before <:+ v.hist ∧
    Kept s before

omit [Platform] in
theorem taken_stable {event : SwarmEvent} : Stable (Taken event) := by
  rintro s v v' hq ⟨before, hs, kept⟩
  exact ⟨before, hs.trans hq.hist, kept⟩

/-- The next swarm event. -/
theorem selectNextSome_safe :
    protocol.Safe machine environment .eventLoop (swarm .selectNextSome)
      (fun event v => Taken event v.world.events v) v := by
  intro v₁ _ hinv _ c event w he _
  obtain ⟨guar, -⟩ := guar_neutral (o := .swarm .selectNextSome) (i := .eventLoop) trivial hinv he
  refine ⟨guar, v₁.hist, List.suffix_rfl, ?_⟩
  show Kept w.events v₁.hist
  rw [(exec_neutral (o := .swarm .selectNextSome) trivial he).2]
  exact hinv.good.kept

omit [Platform] in
/-- The event reports what it reports. -/
theorem Taken.reported {peers : Finset PeerId}
    (h : Taken (.kademlia id (.getProviders (.ok (.foundProviders peers)))) s v) {peer : PeerId}
    (hp : peer ∈ peers) : Reported id peer v.hist := by
  obtain ⟨before, hs, -⟩ := h
  exact ⟨_, hs.mem List.mem_cons_self, peers, rfl, hp⟩

/-- Providers were found. -/
theorem handleFoundProviders_safe {peers : Finset PeerId}
    (h : Taken (.kademlia id (.getProviders (.ok (.foundProviders peers)))) v.world.events v) :
    protocol.Safe machine environment .eventLoop (EventService.handleFoundProviders id peers)
      (fun _ _ => True) v := by
  have top : Stable fun _ _ => True := fun _ _ _ _ h => h
  refine Protocol.safe_seq (self_safe taken_stable h) fun self v ⟨good, taken⟩ => ?_
  split
  · next data hd =>
      obtain ⟨own, found⟩ := good.kept.metadataProviders id data hd
      obtain ⟨-, spare⟩ := good.takeMetadataProvider hd
      refine setSelf_safe top (good.insertMetadataProvider
        { data with foundProviders := data.foundProviders ∪ peers } own
        (fun peer hp => ?_) spare) trivial
      exact (Finset.mem_union.mp hp).elim (found peer) taken.reported
  · split
    · next data hd =>
        obtain ⟨own, found⟩ := good.kept.chunkProviders id data hd
        obtain ⟨-, spare⟩ := good.takeChunkProvider hd
        refine setSelf_safe top (good.insertChunkProvider
          { data with foundProviders := data.foundProviders ∪ peers } own
          (fun peer hp => ?_) spare) trivial
        exact (Finset.mem_union.mp hp).elim (found peer) taken.reported
    · trivial

/-- One of the reported peers is chosen. -/
theorem chooseRandom_safe {peers : Finset PeerId} (hB : Stable B) (h : B v.world.events v) :
    protocol.Safe machine environment .eventLoop (swarm (.chooseRandom peers))
      (fun peer v => (∀ p, peer = some p → p ∈ peers) ∧ B v.world.events v) v := by
  intro v₁ hi hinv _ c peer w he hg
  obtain ⟨guar, rely⟩ := guar_neutral (o := .swarm (.chooseRandom peers)) (i := .eventLoop) trivial
    hinv he
  have quiet := (hi.1.quiet rfl).trans ((rely .eventLoop).quiet rfl)
  have kept := hB _ _ _ quiet h
  rw [← hi.1.events rfl, ← (rely .eventLoop).events rfl] at kept
  refine ⟨guar, ?_, kept⟩
  rintro p rfl
  obtain ⟨⟨_, x⟩, hx, e⟩ := Option.map_eq_some_iff.mp he
  cases e
  cases c with
  | ok => cases (Option.ite_none_right_eq_some.mp hx).2
  | peer p' =>
      obtain ⟨hmem, e⟩ := Option.ite_none_right_eq_some.mp hx
      cases e
      exact hmem
  | _ => cases hx

/-- A request for a command goes to a peer its query has reported. -/
theorem sendMetadataRequest_safe {peer : PeerId} {request : MetadataFileRequest}
    {result : OneshotSender (Option FileMetadata)} (hB : Stable B)
    (own : queryOf id v.hist = some (.requestMetadata request result))
    (found : Reported id peer v.hist) (h : B v.world.events v) :
    protocol.Safe machine environment .eventLoop (swarm (.sendMetadataRequest peer request))
      (fun requestId v => AskedMetadata requestId request result v.hist ∧ B v.world.events v) v := by
  intro v₁ hi hinv _ c requestId w he hg
  obtain ⟨guar, rely⟩ := guar_neutral (o := .swarm (.sendMetadataRequest peer request))
    (i := .eventLoop) trivial hinv he
  have quiet := (hi.1.quiet rfl).trans ((rely .eventLoop).quiet rfl)
  have kept := hB _ _ _ quiet h
  rw [← hi.1.events rfl, ← (rely .eventLoop).events rfl] at kept
  exact ⟨guar, ⟨.eventLoop, peer, id, v₁.hist, List.suffix_rfl,
    ((hi.1.quiet rfl).queries id).trans own, found.mono hi.2⟩, kept⟩

/-- A request for a command goes to a peer its query has reported. -/
theorem sendFileRequest_safe {peer : PeerId} {request : FileChunkRequest}
    {result : OneshotSender (Option FileResponse)} (hB : Stable B)
    (own : queryOf id v.hist = some (.requestFileChunk request result))
    (found : Reported id peer v.hist) (h : B v.world.events v) :
    protocol.Safe machine environment .eventLoop (swarm (.sendFileRequest peer request))
      (fun requestId v => AskedChunk requestId request result v.hist ∧ B v.world.events v) v := by
  intro v₁ hi hinv _ c requestId w he hg
  obtain ⟨guar, rely⟩ := guar_neutral (o := .swarm (.sendFileRequest peer request))
    (i := .eventLoop) trivial hinv he
  have quiet := (hi.1.quiet rfl).trans ((rely .eventLoop).quiet rfl)
  have kept := hB _ _ _ quiet h
  rw [← hi.1.events rfl, ← (rely .eventLoop).events rfl] at kept
  exact ⟨guar, ⟨.eventLoop, peer, id, v₁.hist, List.suffix_rfl,
    ((hi.1.quiet rfl).queries id).trans own, found.mono hi.2⟩, kept⟩

/-! ### Answers -/

/-- A ticket in the hands of the event loop is used. -/
theorem answer_guar {v' : NodeView} (hv : Sound v) (hs : Spare t v.world.events v)
    (hc : created? e = none) (hn : issued? e = none) (ha : answered? e = some t)
    (hq : query? e = none) (hh : v'.hist = e :: v.hist) (hw : SameWorld v.world v'.world)
    (he : v'.world.events = v.world.events) (hd : Delivered (e :: v.hist)) :
    protocol.Guar .eventLoop v v' := by
  refine ⟨⟨⟨?_, fun t' => ?_⟩, fun t' => ?_, fun t' ht => ?_, fun id hid => ?_, ?_⟩,
    fun j hj => ⟨fun t' ht => ?_, fun h => absurd h hj, fun h => absurd h hj⟩⟩
  · rw [he, hh]
    exact hv.good.kept.mono (List.suffix_cons _ _) fun id _ => queryOf_cons_none hq
  · have stocked := hv.good.stocked t'
    rw [he, hh, hw.queued, issued_cons_none hn, answered_cons ha]
    split
    · next e =>
        subst e
        rw [Spare] at hs
        omega
    · exact stocked
  · rw [hh, issued_cons_none hn]
    exact hv.once t'
  · rw [hh, issued_cons_none hn, creator_cons_none hc]
    exact hv.unborn t' (hw.unborn ht)
  · rw [hw.nextQuery] at hid
    rw [hh, queryOf_cons_none hq]
    exact hv.fresh id hid
  · rw [hh]
    exact hd
  · rw [hh, issued_cons_none hn, creator_cons_none hc]
    exact ⟨ht, rfl⟩

theorem MetadataAnswer.mono {result : OneshotSender (Option FileMetadata)} {m : FileMetadata}
    (hs : h <:+ h') (ha : MetadataAnswer result m h) : MetadataAnswer result m h' := by
  obtain ⟨request, requestId, bytes, i, before, came, own⟩ := ha
  exact ⟨request, requestId, bytes, i, before, came.trans hs, own⟩

omit [Platform] in
theorem ChunkAnswer.mono {result : OneshotSender (Option FileResponse)} {response : FileResponse}
    (hs : h <:+ h') (ha : ChunkAnswer result response h) : ChunkAnswer result response h' := by
  obtain ⟨request, requestId, i, before, came, own⟩ := ha
  exact ⟨request, requestId, i, before, came.trans hs, own⟩

/-- A metadata request is answered. -/
theorem answerMetadata_safe {result : OneshotSender (Option FileMetadata)}
    {x : Option FileMetadata} (hs : Spare (.metadata result) v.world.events v)
    (hx : ∀ m, x = some m → MetadataAnswer result m v.hist) :
    protocol.Safe machine environment .eventLoop (chan (.metadata (.send result x)))
      (fun _ _ => True) v := by
  intro v₁ hi hinv _ c a w he _
  have spare : Spare (.metadata result) v₁.world.events v₁ := by
    rw [hi.1.events rfl]
    exact hs.stable (hi.1.quiet rfl)
  have delivered : Delivered (.op (L := lang) .eventLoop (.chan (.metadata (.send result x))) a ::
      v₁.hist) := by
    refine ⟨fun i result' m before hsuf => ?_, fun i result' response before hsuf => ?_⟩
    · obtain e | hsuf := List.suffix_cons_iff.mp hsuf
      · cases e
        exact (hx m rfl).mono hi.2
      · exact hinv.delivered.metadata i result' m before hsuf
    · obtain e | hsuf := List.suffix_cons_iff.mp hsuf
      · cases e
      · exact hinv.delivered.chunk i result' response before hsuf
  obtain ⟨⟨_, y⟩, hy, e⟩ := Option.map_eq_some_iff.mp he
  cases e
  cases c <;> cases hy
  exact ⟨answer_guar hinv spare rfl rfl rfl rfl rfl ⟨⟨rfl, rfl, rfl⟩, fun _ => rfl⟩ rfl delivered,
    trivial⟩

/-- A chunk request is answered. -/
theorem answerChunk_safe {result : OneshotSender (Option FileResponse)}
    {x : Option FileResponse} (hs : Spare (.chunk result) v.world.events v)
    (hx : ∀ response, x = some response → ChunkAnswer result response v.hist) :
    protocol.Safe machine environment .eventLoop (chan (.chunk (.send result x)))
      (fun _ _ => True) v := by
  intro v₁ hi hinv _ c a w he _
  have spare : Spare (.chunk result) v₁.world.events v₁ := by
    rw [hi.1.events rfl]
    exact hs.stable (hi.1.quiet rfl)
  have delivered : Delivered (.op (L := lang) .eventLoop (.chan (.chunk (.send result x))) a ::
      v₁.hist) := by
    refine ⟨fun i result' m before hsuf => ?_, fun i result' response before hsuf => ?_⟩
    · obtain e | hsuf := List.suffix_cons_iff.mp hsuf
      · cases e
      · exact hinv.delivered.metadata i result' m before hsuf
    · obtain e | hsuf := List.suffix_cons_iff.mp hsuf
      · cases e
        exact (hx response rfl).mono hi.2
      · exact hinv.delivered.chunk i result' response before hsuf
  obtain ⟨⟨_, y⟩, hy, e⟩ := Option.map_eq_some_iff.mp he
  cases e
  cases c <;> cases hy
  exact ⟨answer_guar hinv spare rfl rfl rfl rfl rfl ⟨⟨rfl, rfl, rfl⟩, fun _ => rfl⟩ rfl delivered,
    trivial⟩

/-- The query is over: the request is sent, or answered. -/
theorem handleAllPossibleProvidersFound_safe (id : QueryId) :
    protocol.Safe machine environment .eventLoop
      (EventService.handleAllPossibleProvidersFound id) (fun _ _ => True) v := by
  have top : Stable fun _ _ => True := fun _ _ _ _ h => h
  refine Protocol.safe_seq (self_safe top trivial) fun self v h => ?_
  obtain ⟨good, _⟩ := h
  split
  · next data hd =>
      -- the ticket is in no map from here on, until it is answered or put into
      -- the map of the requests
      obtain ⟨own, found⟩ := good.kept.metadataProviders id data hd
      obtain ⟨good, spare⟩ := good.takeMetadataProvider hd
      let B : EventService → NodeView → Prop := fun s v =>
        (queryOf id v.hist = some (.requestMetadata data.request data.result) ∧
          ∀ peer ∈ data.foundProviders, Reported id peer v.hist) ∧
        Spare (.metadata data.result) s v
      have hB : Stable B := fun s v v' hq h => ⟨⟨(hq.queries id).trans h.1.1,
        fun peer hp => (h.1.2 peer hp).mono hq.hist⟩, h.2.stable hq⟩
      refine Protocol.safe_seq (setSelf_safe hB good ⟨⟨own, found⟩, spare⟩) fun _ v h => ?_
      refine Protocol.safe_seq (chooseRandom_safe hB h) fun peer v h => ?_
      obtain ⟨chosen, h⟩ := h
      cases peer with
      | some peer =>
          refine Protocol.safe_seq (sendMetadataRequest_safe (B := Spare (.metadata data.result))
            (fun s v v' hq h => h.stable hq) h.1.1 (h.1.2 peer (chosen peer rfl)) h.2)
            fun requestId v h => ?_
          obtain ⟨asked, spare⟩ := h
          refine Protocol.safe_seq (self_safe (B := fun s v =>
            AskedMetadata requestId data.request data.result v.hist ∧
              Spare (.metadata data.result) s v)
            (fun s v v' hq h => ⟨h.1.mono hq.hist, h.2.stable hq⟩) ⟨asked, spare⟩)
            fun self v h => ?_
          obtain ⟨good, asked, spare⟩ := h
          exact setSelf_safe top (good.insertMetadataDownload asked spare) trivial
      -- nobody has the file
      | none => exact answerMetadata_safe h.2 (by rintro _ ⟨⟩)
  · split
    · next data hd =>
        obtain ⟨own, found⟩ := good.kept.chunkProviders id data hd
        obtain ⟨good, spare⟩ := good.takeChunkProvider hd
        let B : EventService → NodeView → Prop := fun s v =>
          (queryOf id v.hist = some (.requestFileChunk data.request data.result) ∧
            ∀ peer ∈ data.foundProviders, Reported id peer v.hist) ∧
          Spare (.chunk data.result) s v
        have hB : Stable B := fun s v v' hq h => ⟨⟨(hq.queries id).trans h.1.1,
          fun peer hp => (h.1.2 peer hp).mono hq.hist⟩, h.2.stable hq⟩
        refine Protocol.safe_seq (setSelf_safe hB good ⟨⟨own, found⟩, spare⟩) fun _ v h => ?_
        refine Protocol.safe_seq (chooseRandom_safe hB h) fun peer v h => ?_
        obtain ⟨chosen, h⟩ := h
        cases peer with
        | some peer =>
            refine Protocol.safe_seq (sendFileRequest_safe (B := Spare (.chunk data.result))
              (fun s v v' hq h => h.stable hq) h.1.1 (h.1.2 peer (chosen peer rfl)) h.2)
              fun requestId v h => ?_
            obtain ⟨asked, spare⟩ := h
            refine Protocol.safe_seq (self_safe (B := fun s v =>
              AskedChunk requestId data.request data.result v.hist ∧
                Spare (.chunk data.result) s v)
              (fun s v v' hq h => ⟨h.1.mono hq.hist, h.2.stable hq⟩) ⟨asked, spare⟩)
              fun self v h => ?_
            obtain ⟨good, asked, spare⟩ := h
            exact setSelf_safe top (good.insertChunkDownload asked spare) trivial
        | none => exact answerChunk_safe h.2 (by rintro _ ⟨⟩)
    · trivial

/-! ### Responses -/

/-- Metadata is asked for or arrives. -/
theorem metadataDownload_safe {event : RequestResponseEvent MetadataFileRequest}
    (h : Taken (.metadataDownload event) v.world.events v) :
    protocol.Safe machine environment .eventLoop (EventService.metadataDownload event)
      (fun _ _ => True) v := by
  have top : Stable fun _ _ => True := fun _ _ _ _ h => h
  cases event with
  | request request channel =>
      exact quiet_safe (metadataRequest_within request channel) (fun o ho => by cases ho <;> trivial)
        top trivial
  | response requestId response =>
      refine Protocol.safe_seq (self_safe taken_stable h) fun self v h => ?_
      obtain ⟨good, taken⟩ := h
      split
      · next result hr =>
          obtain ⟨before, came, kept⟩ := taken
          obtain ⟨request, asked⟩ := kept.metadataDownloads requestId result hr
          obtain ⟨good, spare⟩ := good.takeMetadataDownload hr
          refine Protocol.safe_seq (setSelf_safe (B := fun s v =>
            Spare (.metadata result) s v ∧ (.op .eventLoop (.swarm .selectNextSome)
              (.metadataDownload (.response requestId response)) : NodeEvent) :: before <:+ v.hist)
            (fun s v v' hq h => ⟨h.1.stable hq, h.2.trans hq.hist⟩) good ⟨spare, came⟩)
            fun _ v h => ?_
          obtain ⟨spare, came⟩ := h
          unfold EventService.handleMetadataDownloadResponse
          split
          · split
            · next m hm =>
                refine answerMetadata_safe spare fun m' hm' => ?_
                cases hm'
                exact ⟨request, requestId, _, .eventLoop, before, came, hm, asked⟩
            · exact answerMetadata_safe spare (by rintro _ ⟨⟩)
          · exact answerMetadata_safe spare (by rintro _ ⟨⟩)
          · exact answerMetadata_safe spare (by rintro _ ⟨⟩)
      · trivial
  | _ => trivial

/-- A chunk is asked for or arrives. -/
theorem fileDownload_safe {event : RequestResponseEvent FileChunkRequest}
    (h : Taken (.fileDownload event) v.world.events v) :
    protocol.Safe machine environment .eventLoop (EventService.fileDownload event)
      (fun _ _ => True) v := by
  have top : Stable fun _ _ => True := fun _ _ _ _ h => h
  cases event with
  | request request channel =>
      exact quiet_safe (chunkRequest_within request channel) (fun o ho => by cases ho <;> trivial)
        top trivial
  | response requestId response =>
      refine Protocol.safe_seq (self_safe taken_stable h) fun self v h => ?_
      obtain ⟨good, taken⟩ := h
      split
      · next result hr =>
          obtain ⟨before, came, kept⟩ := taken
          obtain ⟨request, asked⟩ := kept.chunkDownloads requestId result hr
          obtain ⟨good, spare⟩ := good.takeChunkDownload hr
          refine Protocol.safe_seq (setSelf_safe (B := fun s v =>
            Spare (.chunk result) s v ∧ (.op .eventLoop (.swarm .selectNextSome)
              (.fileDownload (.response requestId response)) : NodeEvent) :: before <:+ v.hist)
            (fun s v v' hq h => ⟨h.1.stable hq, h.2.trans hq.hist⟩) good ⟨spare, came⟩)
            fun _ v h => ?_
          obtain ⟨spare, came⟩ := h
          refine answerChunk_safe spare fun response' hr' => ?_
          cases hr'
          exact ⟨request, requestId, .eventLoop, before, came, asked⟩
      · trivial
  | _ => trivial

/-- A swarm event. -/
theorem handleSwarmEvent_safe {event : SwarmEvent} (h : Taken event v.world.events v) :
    protocol.Safe machine environment .eventLoop (EventService.handleSwarmEvent event)
      (fun _ _ => True) v := by
  cases event with
  | kademlia id result =>
      show protocol.Safe machine _ _ (EventService.kademlia id result) _ _
      unfold EventService.kademlia
      split
      · exact handleFoundProviders_safe h
      · exact handleAllPossibleProvidersFound_safe id
      · exact handleAllPossibleProvidersFound_safe id
      · trivial
  | fileDownload event => exact fileDownload_safe h
  | metadataDownload event => exact metadataDownload_safe h
  | other => trivial

/-! ### Those who ask -/

/-- The slot has made the ticket and not used it. -/
def Fresh (i : Slot) (t : Ticket) (v : NodeView) : Prop :=
  creator t v.hist = some i ∧ issued t v.hist = 0

omit [Platform] in
theorem fresh_stable (hr : Rely i v v') (hf : Fresh i t v) : Fresh i t v' := by
  obtain ⟨own, same⟩ := hr.issues t hf.1
  exact ⟨own, same.trans hf.2⟩

omit [Platform] in
theorem creator_cons {t' : Ticket} (hc : created? e = some (i, t')) :
    creator t (e :: h) = if t' = t then some i else creator t h := by
  rw [creator, hc]

/-- A ticket is made. -/
theorem create_guar {v' : NodeView} (hv : Sound v) (hu : Unborn v.world t)
    (hc : created? e = some (i, t)) (hn : issued? e = none) (ha : answered? e = none)
    (hm : command? e = none) (hq : query? e = none) (hh : v'.hist = e :: v.hist)
    (he : v'.world.events = v.world.events) (hw : ∀ t, queued t v'.world = queued t v.world)
    (hs : v'.world.swarm.nextQuery = v.world.swarm.nextQuery)
    (born : ∀ t', Unborn v'.world t' → Unborn v.world t' ∧ t ≠ t') :
    protocol.Guar i v v' ∧ Fresh i t v' := by
  have quiet : Quiet v v' := by
    refine ⟨by rw [hh]; exact List.suffix_cons _ _, by rw [hh, current_cons_none hm],
      fun id => by rw [hh, queryOf_cons_none hq], fun t => by rw [hh, answered_cons_none ha],
      fun t => by rw [hh, issued_cons_none hn, hw]⟩
  refine ⟨⟨⟨?_, fun t' => ?_, fun t' ht => ?_, fun id hid => ?_, ?_⟩,
    fun j _ => ⟨fun t' ht => ?_, fun _ => quiet, fun _ => he⟩⟩, ?_⟩
  · rw [he]
    exact hv.good.stable quiet
  · rw [hh, issued_cons_none hn]
    exact hv.once t'
  · obtain ⟨before, other⟩ := born t' ht
    rw [hh, issued_cons_none hn, creator_cons hc, if_neg other]
    exact hv.unborn t' before
  · rw [hs] at hid
    rw [hh, queryOf_cons_none hq]
    exact hv.fresh id hid
  · rw [hh]
    exact hv.delivered.cons ha
  · have other : t ≠ t' := by
      rintro rfl
      rw [(hv.unborn t hu).2] at ht
      cases ht
    rw [hh, issued_cons_none hn, creator_cons hc, if_neg other]
    exact ⟨ht, rfl⟩
  · rw [Fresh, hh, issued_cons_none hn, creator_cons hc, if_pos rfl]
    exact ⟨rfl, (hv.unborn t hu).1⟩

theorem metadataChannel_safe :
    protocol.Safe machine environment i (chan (.metadata .channel))
      (fun result v => Fresh i (.metadata result) v) v := by
  intro v₁ _ hinv _ c a w he _
  obtain ⟨⟨_, y⟩, hy, e⟩ := Option.map_eq_some_iff.mp he
  cases e
  cases c <;> cases hy
  refine create_guar hinv (Nat.le_refl v₁.world.chan.metadata.next) rfl rfl rfl rfl rfl rfl rfl
    (fun _ => rfl) rfl fun t' ht => ?_
  cases t' with
  | metadata result =>
      replace ht : v₁.world.chan.metadata.next + 1 ≤ result.id := ht
      refine ⟨Nat.le_of_succ_le ht, fun e => ?_⟩
      cases e
      exact absurd ht (Nat.not_succ_le_self _)
  | chunk result => exact ⟨ht, nofun⟩

theorem chunkChannel_safe :
    protocol.Safe machine environment i (chan (.chunk .channel))
      (fun result v => Fresh i (.chunk result) v) v := by
  intro v₁ _ hinv _ c a w he _
  obtain ⟨⟨_, y⟩, hy, e⟩ := Option.map_eq_some_iff.mp he
  cases e
  cases c <;> cases hy
  refine create_guar hinv (Nat.le_refl v₁.world.chan.chunks.next) rfl rfl rfl rfl rfl rfl rfl
    (fun _ => rfl) rfl fun t' ht => ?_
  cases t' with
  | metadata result => exact ⟨ht, nofun⟩
  | chunk result =>
      replace ht : v₁.world.chan.chunks.next + 1 ≤ result.id := ht
      refine ⟨Nat.le_of_succ_le ht, fun e => ?_⟩
      cases e
      exact absurd ht (Nat.not_succ_le_self _)

/-- A fresh ticket goes into the queue. -/
theorem issue_safe {command : P2pCommand} (ht : ticket? command = some t) (hf : Fresh i t v) :
    protocol.Safe machine environment i (chan (.sendCommand command)) (fun _ _ => True) v := by
  intro v₁ hi hinv _ c a w he _
  obtain ⟨own, unused⟩ := fresh_stable hi.1 hf
  obtain ⟨⟨_, x⟩, hx, e⟩ := Option.map_eq_some_iff.mp he
  cases e
  refine ⟨?_, trivial⟩
  cases c with
  | ok =>
      -- if there is room: one more command in the queue, one more event
      simp only [ChanOp.exec] at hx
      split at hx
      · cases hx
        have here : issued? (.op (L := lang) i (.chan (.sendCommand command)) (.ok ())) = some t :=
          ht
        have more : ∀ t', queued t' { v₁.world with chan := { v₁.world.chan with
            commands := v₁.world.chan.commands ++ [command] } } =
            queued t' v₁.world + if t = t' then 1 else 0 := fun t' => by
          show ((v₁.world.chan.commands ++ [command]).filterMap ticket?).count t' = _
          rw [List.filterMap_append, List.filterMap_cons_some ht, List.filterMap_nil,
            List.count_append, List.count_singleton]
          simp only [queued, beq_iff_eq]
        have adds : ∀ t', issued t' (.op (L := lang) i (.chan (.sendCommand command)) (.ok ()) ::
            v₁.hist) = issued t' v₁.hist + if t = t' then 1 else 0 := fun t' => issued_cons here
        have others : ∀ t', t ≠ t' → issued t' (.op (L := lang) i (.chan (.sendCommand command))
            (.ok ()) :: v₁.hist) = issued t' v₁.hist := fun t' hne => by
          rw [adds, if_neg hne]
          rfl
        -- whatever is gained in the queue is issued by this event
        have quiet : Quiet v₁ (v₁.op (L := lang) i (.chan (.sendCommand command)) (.ok ())
            { v₁.world with chan := { v₁.world.chan with
              commands := v₁.world.chan.commands ++ [command] } }) :=
          ⟨List.suffix_cons _ _, rfl, fun _ => rfl, fun _ => rfl, fun t' => by
            have := more t'
            have := adds t'
            show queued t' { v₁.world with chan := { v₁.world.chan with
              commands := v₁.world.chan.commands ++ [command] } } + issued t' v₁.hist ≤
              queued t' v₁.world + issued t' (_ :: v₁.hist)
            omega⟩
        refine ⟨⟨hinv.good.stable quiet, fun t' => ?_, fun t' hu => ?_, hinv.fresh,
          hinv.delivered.cons rfl⟩, fun j hj => ⟨fun t' hown => ?_, fun _ => quiet, fun _ => rfl⟩⟩
        · have once := hinv.once t'
          have adds := adds t'
          show issued t' (_ :: v₁.hist) ≤ 1
          split at adds
          · next e =>
              subst e
              omega
          · omega
        -- the ticket is nobody's yet but this slot's
        · have other : t ≠ t' := by
            rintro rfl
            rw [(hinv.unborn t hu).2] at own
            cases own
          exact ⟨(others t' other).trans (hinv.unborn t' hu).1, (hinv.unborn t' hu).2⟩
        · have other : t ≠ t' := by
            rintro rfl
            rw [own] at hown
            exact hj (Option.some.inj hown).symm
          exact ⟨hown, others t' other⟩
      · cases hx
  | closed =>
      cases hx
      obtain ⟨sound, rely⟩ := hinv.frame (v₁.op (L := lang) i (.chan (.sendCommand command))
        (.error ()) v₁.world) ⟨⟨rfl, rfl, rfl, rfl⟩, rfl⟩ rfl ⟨⟨rfl, rfl, rfl⟩, fun _ => rfl⟩ rfl
      exact ⟨sound, fun j _ => rely j⟩
  | _ => cases hx

/-- The neutral part of a program. -/
theorem neutral_safe {α : Type} {O : Op → Prop} {p : Proc α} (hp : p.Within (.ops O))
    (hO : ∀ o, O o → Neutral o) :
    protocol.Safe machine environment i p (fun _ _ => True) v :=
  safe_neutral hp hO (fun _ _ _ h => h) trivial

omit [Platform] in
theorem neutral_ensureDir {p : PathBuf} : ∀ o, EnsureDirOp p o → Neutral o := by
  rintro _ (_ | _ | _) <;> trivial

/-- A call asks for the metadata. -/
theorem fetchMetadata_safe (request : DownloadFileRequest) :
    protocol.Safe machine environment i (fetchMetadata request).run (fun _ _ => True) v := by
  refine Protocol.safe_seqA (neutral_safe (ensureDirExistsOrCreate_within _) neutral_ensureDir)
    (fun _ v _ => ?_) (fun _ _ h => h)
  refine Protocol.safe_seqL metadataChannel_safe fun tx v fresh => ?_
  have send : protocol.Safe machine environment i (sendOrInternal (.requestMetadata
      ⟨request.fileId⟩ tx) "failed to send P2pCommand::RequestMetadata").run
      (fun _ _ => True) v := by
    refine Protocol.safe_seq (issue_safe rfl fresh) fun r v _ => ?_
    cases r <;> trivial
  refine Protocol.safe_seqE send (fun _ v _ => ?_) (fun _ _ h => h)
  refine Protocol.safe_seqL (neutral_safe (chan_within (O := Neutral) trivial) fun _ h => h)
    fun r v _ => ?_
  split <;> trivial

/-- A call. -/
theorem downloadFile_safe (request : DownloadFileRequest) :
    protocol.Safe machine environment i (downloadFile request).run (fun _ _ => True) v := by
  refine Protocol.safe_seqE (neutral_safe (O := Neutral) (storeOrInternal_within trivial)
    fun _ h => h) (fun published v _ => ?_) (fun _ _ h => h)
  split
  · trivial
  refine Protocol.safe_seqE (neutral_safe (O := Neutral) (storeOrInternal_within trivial)
    fun _ h => h) (fun pending v _ => ?_) (fun _ _ h => h)
  split
  · trivial
  refine Protocol.safe_seqE (fetchMetadata_safe request) (fun m v _ => ?_) (fun _ _ h => h)
  have prepare : protocol.Safe machine environment i
      (prepareDownload ⟨request.downloadPath⟩ m).run (fun _ _ => True) v := by
    refine Protocol.safe_seqA (neutral_safe (O := Neutral) (fs_within trivial) fun _ h => h)
      (fun found v _ => ?_) (fun _ _ h => h)
    split
    · trivial
    refine Protocol.safe_seqA (neutral_safe (ensureDirExistsOrCreate_within _) neutral_ensureDir)
      (fun _ v _ => ?_) (fun _ _ h => h)
    refine Protocol.safe_seqA (neutral_safe (saveMetadata_within _)
      (by rintro _ (_ | _) <;> trivial)) (fun _ v _ => ?_) (fun _ _ h => h)
    refine Protocol.safe_seqE (neutral_safe (O := Neutral) (sendOrInternal_within ?_ _)
      fun _ h => h) (fun _ _ _ => trivial) (fun _ _ h => h)
    exact (rfl : ticket? (.provideMetadata _) = none)
  refine Protocol.safe_seqE prepare (fun r v _ => ?_) (fun _ _ h => h)
  exact neutral_safe (O := Neutral) (storeOrInternal_within trivial) fun _ h => h

open FileDownloadService Prog in
/-- Checking and writing a chunk is neutral. -/
theorem neutral_verify (d : DownloadFileChunk) (bs : Bytes) :
    (verifyAndSaveFileChunk d bs).run.Within (.ops Neutral) := by
  refine within_bindE (within_adapt _ (readMetadata_within (F := .ops Neutral) trivial)) fun m => ?_
  split
  · trivial
  · split
    · exact within_adapt _ ((writeFile_within _ _).mono_ops (by rintro _ (_ | _) <;> trivial))
    · trivial
    · trivial

open FileDownloadService in
/-- A chunk task. -/
theorem chunkTask_safe (d : DownloadFileChunk) :
    protocol.Safe machine environment i (chunkTask d) (fun _ _ => True) v := by
  refine Protocol.safe_seq (neutral_safe (sync_within (O := Neutral) trivial) fun _ h => h)
    fun _ v _ => ?_
  have download : protocol.Safe machine environment i (downloadFileChunk d).run
      (fun _ _ => True) v := by
    refine Protocol.safe_seqL chunkChannel_safe fun tx v fresh => ?_
    refine Protocol.safe_seqL (issue_safe rfl fresh) fun r v _ => ?_
    split
    · trivial
    refine Protocol.safe_seqL (neutral_safe (chan_within (O := Neutral) trivial) fun _ h => h)
      fun r v _ => ?_
    split
    · trivial
    · refine Protocol.safe_seqE (neutral_safe (neutral_verify d _) fun _ h => h)
        (fun _ v _ => ?_) (fun _ _ h => h)
      refine Protocol.safe_seqL (neutral_safe (O := Neutral) (chan_within rfl) fun _ h => h)
        fun r v _ => ?_
      split <;> trivial
    · trivial
    · trivial
  refine Protocol.safe_seq download fun r v _ => ?_
  exact Protocol.safe_seq (neutral_safe (sync_within (O := Neutral) trivial) fun _ h => h)
    fun _ _ _ => trivial

/-! ### The tasks -/

omit [Platform] in
/-- Every other task is neutral. -/
theorem neutral_of_footprint {t : Task} {o : Op} (hc : t ≠ .command) (hs : t ≠ .swarmEvent)
    (hd : ∀ n request, t ≠ .downloadFile n request) (hk : ∀ d, t ≠ .chunk d)
    (ho : t.footprint.op o) : Neutral o := by
  cases t with
  | publishFile n fuel request =>
      obtain ⟨_ | _ | _ | _ | ⟨_, _, _ | _⟩ | ⟨_, _ | _⟩ | _⟩ | _ := ho <;> trivial
  | downloadFile n request => exact absurd rfl (hd n request)
  | startUp => obtain _ | _ := ho <;> trivial
  | swarmEvent => exact absurd rfl hs
  | command => exact absurd rfl hc
  | tick => obtain _ | _ := ho <;> trivial
  | publisher fuel => obtain _ | _ := ho <;> trivial
  | download r =>
      obtain ⟨_ | _⟩ | ⟨⟨_ | _ | _ | ⟨_ | _⟩ | _⟩ | _ | _ | _⟩ | _ := ho <;> trivial
  | chunk d => exact absurd rfl (hk d)
  | writeFile n path bytes => obtain _ | _ := ho <;> trivial

/-- Every task keeps to the protocol. -/
theorem body_safe (t : Task) :
    protocol.Safe machine environment (slotOf t) (body t) (fun _ _ => True) v := by
  by_cases hc : t = .command
  · subst hc
    refine Protocol.safe_seq recvCommand_safe fun command v ⟨hc, ht⟩ => ?_
    exact Protocol.safe_seq (handleCommand_safe hc ht) fun _ _ h => h
  by_cases hs : t = .swarmEvent
  · subst hs
    refine Protocol.safe_seq selectNextSome_safe fun event v h => ?_
    exact Protocol.safe_seq (handleSwarmEvent_safe h) fun _ _ h => h
  by_cases hd : ∃ n request, t = .downloadFile n request
  · obtain ⟨n, request, rfl⟩ := hd
    exact Protocol.safe_seq (downloadFile_safe request) fun _ _ h => h
  by_cases hk : ∃ d, t = .chunk d
  · obtain ⟨d, rfl⟩ := hk
    exact chunkTask_safe d
  · -- starting a task and taking a result are no more than an event
    refine Protocol.safe_footprint (A := fun _ => True) (body_within t) (fun _ _ _ h => h)
      (fun v _ hinv _ o ho c a w he _ => ?_) (fun v _ hinv _ t' _ _ _ => ?_)
      (fun v _ hinv _ j _ _ r _ _ => ?_) trivial
    · have neutral := neutral_of_footprint hc hs (fun n request h => hd ⟨n, request, h⟩)
        (fun d h => hk ⟨d, h⟩) ho
      exact ⟨(guar_neutral neutral hinv he).1, trivial⟩
    · obtain ⟨sound, rely⟩ := hinv.frame (v.spawn (L := lang) (slotOf t) t' (slotOf t'))
        ⟨⟨rfl, rfl, rfl, rfl⟩, rfl⟩ rfl ⟨⟨rfl, rfl, rfl⟩, fun _ => rfl⟩ rfl
      exact ⟨⟨sound, fun j _ => rely j⟩, trivial, trivial⟩
    · obtain ⟨sound, rely⟩ := hinv.frame (v.await (L := lang) (slotOf t) j r)
        ⟨⟨rfl, rfl, rfl, rfl⟩, rfl⟩ rfl ⟨⟨rfl, rfl, rfl⟩, fun _ => rfl⟩ rfl
      exact ⟨⟨sound, fun j _ => rely j⟩, trivial⟩

theorem valid : protocol.Valid machine environment where
  rely_refl _ v := .refl v
  rely_trans _ _ _ _ h h' := h.trans h'
  guar_rely i j _ _ hij _ hG := hG.2 j hij.symm
  guar_inv _ _ _ _ hG := hG.1
  post_stable _ _ _ _ _ _ := trivial
  start_rely t v hv _ _ := (hv.frame (v.start (L := lang) t (slotOf t))
    ⟨⟨rfl, rfl, rfl, rfl⟩, rfl⟩ rfl ⟨⟨rfl, rfl, rfl⟩, fun _ => rfl⟩ rfl).2
  start_inv t v hv _ _ := (hv.frame (v.start (L := lang) t (slotOf t))
    ⟨⟨rfl, rfl, rfl, rfl⟩, rfl⟩ rfl ⟨⟨rfl, rfl, rfl⟩, fun _ => rfl⟩ rfl).1
  start_pre _ _ _ _ _ := trivial
  exit_guar i r v hv _ _ _ := by
    obtain ⟨sound, rely⟩ := hv.frame (v.exit (L := lang) i r)
      ⟨⟨rfl, rfl, rfl, rfl⟩, rfl⟩ rfl ⟨⟨rfl, rfl, rfl⟩, fun _ => rfl⟩ rfl
    exact ⟨sound, fun j _ => rely j⟩
  crash_inv v hv _ := by
    refine hv.cons _ ⟨rfl, rfl, rfl, rfl⟩ rfl ⟨rfl, rfl, rfl⟩ ⟨.new _, fun t => ?_⟩
    have stocked := hv.good.stocked t
    have empty : held .new t = 0 := held_new
    show 0 + held .new t + answered t v.hist ≤ issued t v.hist
    omega
  body_safe t _ _ _ := body_safe t

/-- In every run of a node whose event service is new, senders and
answers belong together. -/
theorem correlated {w : World} (hs : w.events = .new) (hc : w.chan.commands = []) {p : NodePool}
    (h : Reach machine environment (.idle w) p) : Correlated p.view := by
  have init : Sound (Pool.idle (L := lang) w).view := by
    refine ⟨⟨?_, fun t => ?_⟩, fun _ => Nat.zero_le 1, fun _ _ => ⟨rfl, rfl⟩, fun _ _ => rfl,
      ⟨fun _ _ _ _ hs => ?_, fun _ _ _ _ hs => ?_⟩⟩
    · show Kept w.events []
      rw [hs]
      exact .new []
    · have empty : held .new t = 0 := held_new
      show queued t w + held w.events t + 0 ≤ 0
      rw [hs, empty, queued, hc]
      exact Nat.le_refl 0
    · cases List.suffix_nil.mp hs
    · cases List.suffix_nil.mp hs
  obtain ⟨hv, -⟩ := valid.holds_of_reach init h
  have count : ∀ t, held p.world.events t ≤ 1 ∧ answered t p.hist ≤ 1 := fun t => by
    have stocked : queued t p.world + held p.world.events t + answered t p.hist ≤
      issued t p.hist := hv.good.stocked t
    have once : issued t p.hist ≤ 1 := hv.once t
    omega
  exact ⟨hv.once, fun t => (count t).1, hv.good.kept.apart, fun t => (count t).2, hv.delivered⟩

end Proof

/-! ### A chunk that arrives -/

section Example

open Reference

attribute [local instance] platform

/-- The metadata and the chunk of the file are asked for and arrive. -/
def downloaded : List (Move lang Choice) :=
  acceptOnly oneByte ++ tickStream ++ tickStart ++ openDownload oneByte.key 1 ++
    askChunk oneByte.key 0 ++ askProvider 1 (.fileDownload (.response 0 (.success [7])))

/-- Both senders were used once, for the answers to their requests. -/
theorem correlated_downloaded :
    ∃ p, Reach machine environment (.idle (emptyDir 1)) p ∧
      p.hist.filterMap answered? = [.chunk ⟨0⟩, .metadata ⟨0⟩] ∧ Correlated p.view := by
  have run : ∃ p, Reach machine environment (.idle (emptyDir 1)) p ∧
      p.hist.filterMap answered? = [.chunk ⟨0⟩, .metadata ⟨0⟩] :=
    exists_reach_of_runScript downloaded (by decide +kernel)
  obtain ⟨p, hp, hanswered⟩ := run
  exact ⟨p, hp, hanswered, correlated rfl rfl hp⟩

end Example

end RustDfs.Correlation
