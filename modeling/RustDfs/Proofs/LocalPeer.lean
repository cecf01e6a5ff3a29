import RustDfs.Model.Reference
import RustDfs.Proofs.Tasks

/-!
# `RustDfs.Proofs.LocalPeer`: whom a node asks

A node asks one of the peers a provider query has reported. Kademlia may
report the node itself for a key the node has advertised (`kademliaOf`),
and nothing takes it out again. A node that has advertised a chunk, failed
to record it and looks for it once more may so ask itself
(`asks_itself`).

`asks_others` is the other side: when no query for an advertised key
reports the node while it is under way, every request goes to another
peer. `Sound` ties each query to the key of the request that waits for it,
so that what Kademlia may report is known.
-/

set_option autoImplicit false

namespace RustDfs.LocalPeer

open Lib Conc Std

/-! ### What the history says -/

/-- The peer a request is sent to. -/
def asked? : NodeEvent → Option PeerId
  | .op _ (.swarm (.sendMetadataRequest peer _)) _ => some peer
  | .op _ (.swarm (.sendFileRequest peer _)) _ => some peer
  | _ => none

/-- The key that is advertised. -/
def advertised? : NodeEvent → Option Bytes
  | .op _ (.swarm (.startProviding key)) (.ok _) => some key
  | _ => none

/-- The query that starts, with its key. -/
def query? : NodeEvent → Option (QueryId × Bytes)
  | .op _ (.swarm (.getProviders key)) id => some (id, key)
  | _ => none

/-- The peers a query reports. -/
def reported? : NodeEvent → Option (QueryId × Finset PeerId)
  | .op _ (.swarm .selectNextSome) (.kademlia id (.getProviders (.ok (.foundProviders ps)))) =>
      some (id, ps)
  | _ => none

/-- The key of a query. -/
def queried (id : QueryId) : List NodeEvent → Option Bytes
  | [] => none
  | e :: h =>
      match query? e with
      | some (id', key) => if id' = id then some key else queried id h
      | none => queried id h

/-- The node has advertised the key. -/
def Advertised (key : Bytes) (h : List NodeEvent) : Prop := ∃ e ∈ h, advertised? e = some key

instance (key : Bytes) (h : List NodeEvent) : Decidable (Advertised key h) :=
  inferInstanceAs (Decidable (∃ e ∈ h, _))

/-- The key a request in the maps looks for providers of. -/
def wanted (s : EventService) (id : QueryId) : Option Bytes :=
  match s.metadataProvidersRequests[id]? with
  | some data => some (Octets.ofU64 data.request.fileId).bytes
  | none => (s.fileChunkProvidersRequests[id]?).map fun data => data.request.toBytes

/-- No request went to this peer. -/
def NeverAsked (localPeer : PeerId) (h : List NodeEvent) : Prop :=
  ∀ e ∈ h, asked? e ≠ some localPeer

instance (localPeer : PeerId) (h : List NodeEvent) : Decidable (NeverAsked localPeer h) :=
  inferInstanceAs (Decidable (∀ e ∈ h, _))

/-! ### The runs -/

/-- Kademlia reports the local peer only for a key it has advertised. -/
def kademliaOf (localPeer : PeerId) : NodeGuard := fun v e =>
  environment v e ∧ ∀ x ∈ reported? e, localPeer ∈ x.2 →
    ∃ key ∈ queried x.1 v.hist, Advertised key v.hist

instance (localPeer : PeerId) (v : NodeView) (e : NodeEvent) :
    Decidable (kademliaOf localPeer v e) :=
  inferInstanceAs (Decidable (_ ∧ ∀ x ∈ reported? e, _))

/-- The runs in which the DHT leaves the local peer out: Kademlia reports it
only for a key it has advertised, and if a request waits for the query and
the node has advertised the key it looks for, then not at all. -/
def elsewhere (localPeer : PeerId) : NodeGuard := fun v e =>
  kademliaOf localPeer v e ∧ ∀ x ∈ reported? e, ∀ key ∈ wanted v.world.events x.1,
    Advertised key v.hist → localPeer ∉ x.2

instance (localPeer : PeerId) (v : NodeView) (e : NodeEvent) :
    Decidable (elsewhere localPeer v e) :=
  inferInstanceAs (Decidable (_ ∧ ∀ x ∈ reported? e, _))

/-! ### The protocol -/

section Proof

variable {localPeer : PeerId}

/-- The requests in the maps wait for queries of their keys that have not
reported the local peer. -/
structure Kept (localPeer : PeerId) (s : EventService) (h : List NodeEvent) : Prop where
  metadata : ∀ id data, s.metadataProvidersRequests[id]? = some data →
    queried id h = some (Octets.ofU64 data.request.fileId).bytes ∧
      localPeer ∉ data.foundProviders
  chunks : ∀ id data, s.fileChunkProvidersRequests[id]? = some data →
    queried id h = some data.request.toBytes ∧ localPeer ∉ data.foundProviders

/-- The invariant. -/
structure Sound (localPeer : PeerId) (v : NodeView) : Prop where
  kept : Kept localPeer v.world.events v.hist
  fresh : ∀ id, v.world.swarm.nextQuery ≤ id → queried id v.hist = none
  never : NeverAsked localPeer v.hist

/-- What the event loop counts on: its fields and its queries are its
own. -/
structure Rely (i : Slot) (v v' : NodeView) : Prop where
  events : i = .eventLoop → v'.world.events = v.world.events
  queried : i = .eventLoop → ∀ id, queried id v'.hist = queried id v.hist

/-- The protocol. -/
def protocol (localPeer : PeerId) : Protocol lang World :=
  .ofRely (Sound localPeer) Rely (fun _ _ => True) (fun _ _ _ => True)

variable {i : Slot} {v v' v'' : NodeView}

/-- The key of a request in the maps is the key of its query. -/
theorem Kept.queried_of_wanted {s : EventService} {h : List NodeEvent}
    (hs : Kept localPeer s h) {id : QueryId} {key : Bytes} (hk : wanted s id = some key) :
    queried id h = some key := by
  unfold wanted at hk
  split at hk
  · next data hd =>
      cases hk
      exact (hs.metadata id data hd).1
  · obtain ⟨data, hd, rfl⟩ := Option.map_eq_some_iff.mp hk
    exact (hs.chunks id data hd).1

theorem Kept.congr {s : EventService} {h h' : List NodeEvent} (hs : Kept localPeer s h)
    (hq : ∀ id, queried id h' = queried id h) : Kept localPeer s h' where
  metadata id data hd := by rw [hq]; exact hs.metadata id data hd
  chunks id data hd := by rw [hq]; exact hs.chunks id data hd

/-- In the beginning nothing waits. -/
theorem Kept.new (h : List NodeEvent) : Kept localPeer .new h := by
  constructor
  · intro id data hd
    simp [EventService.new] at hd
  · intro id data hd
    simp [EventService.new] at hd

/-- An event of no query. -/
theorem queried_cons {e : NodeEvent} (he : query? e = none) (id : QueryId)
    (h : List NodeEvent) : queried id (e :: h) = queried id h := by
  rw [queried, he]

theorem NeverAsked.cons {e : NodeEvent} {h : List NodeEvent} (he : asked? e ≠ some localPeer)
    (hn : NeverAsked localPeer h) : NeverAsked localPeer (e :: h) :=
  List.forall_mem_cons.mpr ⟨he, hn⟩

/-- Where no query starts, the local peer is not asked and the fields
stay, nothing changes. -/
theorem Sound.frame {e : NodeEvent} (hv : Sound localPeer v) (v' : NodeView)
    (hh : v'.hist = e :: v.hist)
    (hq : query? e = none) (ha : asked? e ≠ some localPeer) (he : v'.world.events = v.world.events)
    (hn : v'.world.swarm.nextQuery = v.world.swarm.nextQuery) :
    Sound localPeer v' ∧ ∀ j, Rely j v v' := by
  have keys : ∀ id, queried id v'.hist = queried id v.hist := fun id => by
    rw [hh]
    exact queried_cons hq id v.hist
  refine ⟨⟨?_, fun id hid => ?_, ?_⟩, fun j => ⟨fun _ => he, fun _ => keys⟩⟩
  · rw [he]
    exact hv.kept.congr keys
  · rw [hn] at hid
    rw [keys]
    exact hv.fresh id hid
  · rw [hh]
    exact hv.never.cons ha

theorem Rely.trans (h : Rely i v v') (h' : Rely i v' v'') : Rely i v v'' :=
  ⟨fun hi => (h'.events hi).trans (h.events hi),
    fun hi id => (h'.queried hi id).trans (h.queried hi id)⟩

/-! ### Neutral operations -/

/-- An operation that starts no query, asks nobody and leaves the fields
alone. -/
def Neutral : Op → Prop
  | .swarm (.getProviders _) => False
  | .swarm (.sendMetadataRequest _ _) => False
  | .swarm (.sendFileRequest _ _) => False
  | .events (.setSelf _) => False
  | _ => True

variable [Platform]

omit [Platform] in
/-- Only a new query changes the counter of queries. -/
theorem nextQuery_eq {o : SwarmOp} (ho : ∀ key, o ≠ .getProviders key) {c : Choice} {a : o.Ans}
    {x x' : Swarm} (h : o.exec c x = some (a, x')) : x'.nextQuery = x.nextQuery := by
  cases o with
  | getProviders key => exact absurd rfl (ho key)
  | _ =>
      cases c <;> simp only [SwarmOp.exec, reduceCtorEq] at h
      all_goals repeat' split at h
      all_goals (cases h <;> rfl)

theorem exec_neutral {o : Op} (ho : Neutral o) {c : Choice} {a : o.Ans} {w w' : World}
    (h : o.exec c w = some (a, w')) :
    w'.events = w.events ∧ w'.swarm.nextQuery = w.swarm.nextQuery := by
  cases o with
  | swarm o =>
      obtain ⟨⟨_, x⟩, hx, e⟩ := Option.map_eq_some_iff.mp h
      cases e
      refine ⟨rfl, nextQuery_eq (fun key hk => ?_) hx⟩
      subst hk
      exact ho
  | events o =>
      cases o with
      | self =>
          cases h
          exact ⟨rfl, rfl⟩
      | setSelf s => exact ho.elim
  | diverge => cases h
  | _ =>
      obtain ⟨_, _, e⟩ := Option.map_eq_some_iff.mp h
      cases e
      exact ⟨rfl, rfl⟩

omit [Platform] in
theorem neutral_events {o : Op} (ho : Neutral o) (i : Slot) (a : o.Ans) :
    query? (.op (L := lang) i o a) = none ∧ asked? (.op (L := lang) i o a) = none := by
  constructor
  · unfold query?
    split <;> first
      | rfl
      | next h => cases h; exact ho.elim
  · unfold asked?
    split <;> first
      | rfl
      | next h => cases h; exact ho.elim

/-- A neutral operation is within the guarantee of every slot. -/
theorem guar_neutral {o : Op} (ho : Neutral o) (hv : Sound localPeer v) {c : Choice} {a : o.Ans}
    {w : World} (he : o.exec c v.world = some (a, w)) :
    (protocol localPeer).Guar i v (v.op i o a w) ∧ ∀ j, Rely j v (v.op (L := lang) i o a w) := by
  obtain ⟨hq, ha⟩ := neutral_events ho i a
  obtain ⟨hev, hn⟩ := exec_neutral ho he
  obtain ⟨hs, hr⟩ := hv.frame (v.op (L := lang) i o a w) rfl hq (by rw [ha]; exact nofun)
    hev hn
  exact ⟨⟨hs, fun j _ => hr j⟩, hr⟩

/-- A program of neutral operations is safe, and keeps what its slot
counts on. -/
theorem safe_neutral {α : Type} {g : NodeGuard} {O : Op → Prop} {p : Proc α}
    (hp : p.Within (.ops O)) (hO : ∀ o, O o → Neutral o) {A : NodeView → Prop}
    (stable : ∀ v v', Rely i v v' → A v → A v') (hA : A v) :
    (protocol localPeer).Safe machine g i p (fun _ v => A v) v := by
  refine Protocol.safe_within hp (fun v v' h => stable v v' h.1) ?_ hA
  intro v hv hinv _ o ho c a w he _
  obtain ⟨hG, hr⟩ := guar_neutral (i := i) (hO o ho) hinv he
  exact ⟨hG, stable v _ (hr i) hv⟩

/-! ### The fields of the event service -/

open EventService

/-- Reading the fields. -/
theorem self_safe {A : NodeView → Prop} (stable : ∀ v v', Rely .eventLoop v v' → A v → A v')
    (hv : A v) :
    (protocol localPeer).Safe machine (elsewhere localPeer) .eventLoop (events .self)
      (fun self v => (v.world.events = self ∧ Kept localPeer self v.hist) ∧ A v) v := by
  intro v₁ hi hinv _ c a w he _
  cases he
  obtain ⟨hG, hr⟩ := guar_neutral (o := .events .self) (i := .eventLoop) (c := c) trivial hinv rfl
  exact ⟨hG, ⟨rfl, hinv.kept.congr fun id => queried_cons rfl id v₁.hist⟩,
    stable _ _ (hr .eventLoop) (stable _ _ hi.1 hv)⟩

/-- Replacing them by fields whose requests wait for their queries. -/
theorem setSelf_safe {s : EventService} (hs : Kept localPeer s v.hist) :
    (protocol localPeer).Safe machine (elsewhere localPeer) .eventLoop (events (.setSelf s))
      (fun _ _ => True) v := by
  intro v₁ hi hinv _ c a w he _
  cases he
  have keys : ∀ id, queried id (.op (L := lang) .eventLoop (.events (.setSelf s)) () :: v₁.hist)
      = queried id v₁.hist := fun id => queried_cons rfl id v₁.hist
  refine ⟨⟨⟨?_, fun id hid => ?_, hinv.never.cons nofun⟩,
    fun j hj => ⟨fun h => absurd h hj, fun h => absurd h hj⟩⟩, trivial⟩
  · exact (hs.congr (hi.1.queried rfl)).congr keys
  · exact (keys id).trans (hinv.fresh id hid)

variable {s : EventService} {h : List NodeEvent} {id : QueryId}

omit [Platform] in
/-- A request is put in the map. -/
theorem Kept.insertMetadata {data : ProvidersRequestData MetadataFileRequest FileMetadata}
    (hs : Kept localPeer s h)
    (hq : queried id h = some (Octets.ofU64 data.request.fileId).bytes)
    (hl : localPeer ∉ data.foundProviders) :
    Kept localPeer { s with
      metadataProvidersRequests := s.metadataProvidersRequests.insert id data } h where
  metadata id' data' hd := by
    rw [ExtTreeMap.getElem?_insert] at hd
    split at hd
    · next e =>
        cases hd
        rw [← LawfulEqCmp.eq_of_compare e]
        exact ⟨hq, hl⟩
    · exact hs.metadata id' data' hd
  chunks := hs.chunks

omit [Platform] in
/-- A request is put in the map. -/
theorem Kept.insertChunk {data : ProvidersRequestData FileChunkRequest FileResponse}
    (hs : Kept localPeer s h) (hq : queried id h = some data.request.toBytes)
    (hl : localPeer ∉ data.foundProviders) :
    Kept localPeer { s with
      fileChunkProvidersRequests := s.fileChunkProvidersRequests.insert id data } h where
  metadata := hs.metadata
  chunks id' data' hd := by
    rw [ExtTreeMap.getElem?_insert] at hd
    split at hd
    · next e =>
        cases hd
        rw [← LawfulEqCmp.eq_of_compare e]
        exact ⟨hq, hl⟩
    · exact hs.chunks id' data' hd

omit [Platform] in
/-- A request is taken out of the map. -/
theorem Kept.eraseMetadata (hs : Kept localPeer s h) :
    Kept localPeer { s with
      metadataProvidersRequests := s.metadataProvidersRequests.erase id } h where
  metadata id' data hd := by
    rw [ExtTreeMap.getElem?_erase] at hd
    split at hd
    · cases hd
    · exact hs.metadata id' data hd
  chunks := hs.chunks

omit [Platform] in
/-- A request is taken out of the map. -/
theorem Kept.eraseChunk (hs : Kept localPeer s h) :
    Kept localPeer { s with
      fileChunkProvidersRequests := s.fileChunkProvidersRequests.erase id } h where
  metadata := hs.metadata
  chunks id' data hd := by
    rw [ExtTreeMap.getElem?_erase] at hd
    split at hd
    · cases hd
    · exact hs.chunks id' data hd

/-! ### Commands -/

/-- A query starts. -/
theorem getProviders_safe (key : Bytes) :
    (protocol localPeer).Safe machine (elsewhere localPeer) .eventLoop (swarm (.getProviders key))
      (fun id v => queried id v.hist = some key) v := by
  intro v₁ _ hinv _ c a w he _
  obtain ⟨⟨_, x⟩, hx, e⟩ := Option.map_eq_some_iff.mp he
  cases e
  cases c with
  | ok =>
      cases hx
      have other : ∀ id, id ≠ v₁.world.swarm.nextQuery → queried id (.op (L := lang) .eventLoop
          (.swarm (.getProviders key)) v₁.world.swarm.nextQuery :: v₁.hist)
            = queried id v₁.hist := fun id hid => if_neg (Ne.symm hid)
      have taken : ∀ id key', queried id v₁.hist = some key' →
          id ≠ v₁.world.swarm.nextQuery := fun id key' hk hid => by
        rw [hinv.fresh id (Nat.le_of_eq hid.symm)] at hk
        cases hk
      refine ⟨⟨⟨⟨fun id data hd => ?_, fun id data hd => ?_⟩, fun id hid => ?_,
        hinv.never.cons nofun⟩, fun j hj => ⟨fun h => absurd h hj, fun h => absurd h hj⟩⟩,
        if_pos rfl⟩
      · obtain ⟨hq, hl⟩ := hinv.kept.metadata id data hd
        exact ⟨(other id (taken id _ hq)).trans hq, hl⟩
      · obtain ⟨hq, hl⟩ := hinv.kept.chunks id data hd
        exact ⟨(other id (taken id _ hq)).trans hq, hl⟩
      · replace hid : v₁.world.swarm.nextQuery + 1 ≤ id := hid
        exact (other id (by omega)).trans (hinv.fresh id (by omega))
  | _ => cases hx

/-- A command. -/
theorem handleCommand_safe (command : P2pCommand) :
    (protocol localPeer).Safe machine (elsewhere localPeer) .eventLoop (handleCommand command)
      (fun _ _ => True) v := by
  have stable : ∀ (id : QueryId) (key : Bytes) (v v' : NodeView), Rely .eventLoop v v' →
      queried id v.hist = some key → queried id v'.hist = some key :=
    fun id _ _ _ h hq => (h.queried rfl id).trans hq
  cases command with
  | requestMetadata request result =>
      refine Protocol.safe_seq (getProviders_safe _) fun id v hq => ?_
      refine Protocol.safe_seq (self_safe (stable id _) hq) fun self v ⟨⟨_, hs⟩, hq⟩ => ?_
      exact setSelf_safe (hs.insertMetadata hq (Finset.notMem_empty _))
  | requestFileChunk request result =>
      refine Protocol.safe_seq (getProviders_safe _) fun id v hq => ?_
      refine Protocol.safe_seq (self_safe (stable id _) hq) fun self v ⟨⟨_, hs⟩, hq⟩ => ?_
      exact setSelf_safe (hs.insertChunk hq (Finset.notMem_empty _))
  | provideMetadata metadata =>
      exact Protocol.safe_seq (safe_neutral (provideMetadata_within (fun _ _ => trivial)
        (fun _ => trivial) metadata) (fun _ h => h) (fun _ _ _ h => h) trivial) fun _ _ h => h
  | provideFileChunk request =>
      exact Protocol.safe_seq (safe_neutral (provideFileChunk_within (fun _ _ => trivial)
        (fun _ => trivial) request) (fun _ h => h) (fun _ _ _ h => h) trivial) fun _ _ h => h

/-! ### Provider queries -/

/-- The event does not report the local peer to a request that waits. -/
def Reports (localPeer : PeerId) (event : SwarmEvent) (v : NodeView) : Prop :=
  ∀ id ps, event = .kademlia id (.getProviders (.ok (.foundProviders ps))) →
    wanted v.world.events id ≠ none → localPeer ∉ ps

/-- The next swarm event. -/
theorem selectNextSome_safe :
    (protocol localPeer).Safe machine (elsewhere localPeer) .eventLoop (swarm .selectNextSome)
      (fun event v => Reports localPeer event v) v := by
  intro v₁ _ hinv _ c event w he ⟨⟨_, kademlia⟩, apart⟩
  obtain ⟨hG, -⟩ := guar_neutral (o := .swarm .selectNextSome) (i := .eventLoop) trivial hinv he
  have same : w.events = v₁.world.events :=
    (exec_neutral (o := .swarm .selectNextSome) trivial he).1
  refine ⟨hG, ?_⟩
  rintro id ps rfl hw hl
  replace hw : wanted w.events id ≠ none := hw
  rw [same] at hw
  -- The key of the request is the key Kademlia answers for.
  obtain ⟨key, hkey⟩ := Option.ne_none_iff_exists'.mp hw
  obtain ⟨key', hq, hadv⟩ := kademlia (id, ps) rfl hl
  rw [Option.mem_def, hinv.kept.queried_of_wanted hkey] at hq
  cases hq
  exact apart (id, ps) rfl key hkey hadv hl

/-- Providers were found. -/
theorem handleFoundProviders_safe {id : QueryId} {ps : Finset PeerId}
    (hr : wanted v.world.events id ≠ none → localPeer ∉ ps) :
    (protocol localPeer).Safe machine (elsewhere localPeer) .eventLoop
      (handleFoundProviders id ps) (fun _ _ => True) v := by
  refine Protocol.safe_seq (self_safe (A := fun v => wanted v.world.events id ≠ none →
    localPeer ∉ ps) (fun v v' h hr => by rwa [h.events rfl]) hr)
    fun self v ⟨⟨hself, hs⟩, hr⟩ => ?_
  rw [hself] at hr
  split
  · next data hd =>
      obtain ⟨hq, hl⟩ := hs.metadata id data hd
      have hps : localPeer ∉ ps := hr (by rw [wanted, hd]; exact nofun)
      exact setSelf_safe (hs.insertMetadata hq (Finset.notMem_union.mpr ⟨hl, hps⟩))
  · next hnone =>
      split
      · next data hd =>
          obtain ⟨hq, hl⟩ := hs.chunks id data hd
          have hps : localPeer ∉ ps := hr (by rw [wanted, hnone, hd]; exact nofun)
          exact setSelf_safe (hs.insertChunk hq (Finset.notMem_union.mpr ⟨hl, hps⟩))
      · trivial

/-- One of the reported peers is chosen. -/
theorem chooseRandom_safe {peers : Finset PeerId} (hp : localPeer ∉ peers) :
    (protocol localPeer).Safe machine (elsewhere localPeer) .eventLoop
      (swarm (.chooseRandom peers)) (fun peer _ => peer ≠ some localPeer) v := by
  intro v₁ _ hinv _ c peer w he _
  obtain ⟨hG, -⟩ := guar_neutral (o := .swarm (.chooseRandom peers)) (i := .eventLoop) trivial
    hinv he
  refine ⟨hG, ?_⟩
  rintro rfl
  obtain ⟨⟨_, x⟩, hx, e⟩ := Option.map_eq_some_iff.mp he
  cases e
  cases c with
  | ok => cases (Option.ite_none_right_eq_some.mp hx).2
  | peer p =>
      obtain ⟨hmem, e⟩ := Option.ite_none_right_eq_some.mp hx
      cases e
      exact hp hmem
  | _ => cases hx

/-- A request to another peer. -/
theorem send_safe {o : SwarmOp} (hq : ∀ a, query? (.op (L := lang) .eventLoop (.swarm o) a) = none)
    (ha : ∀ a, asked? (.op (L := lang) .eventLoop (.swarm o) a) ≠ some localPeer)
    (ho : ∀ key, o ≠ .getProviders key) :
    (protocol localPeer).Safe machine (elsewhere localPeer) .eventLoop (swarm o)
      (fun _ _ => True) v := by
  intro v₁ _ hinv _ c a w he _
  obtain ⟨⟨_, x⟩, hx, e⟩ := Option.map_eq_some_iff.mp he
  cases e
  obtain ⟨hs, hr⟩ := hinv.frame (v₁.op (L := lang) .eventLoop (.swarm o) a
    { v₁.world with swarm := x }) rfl (hq a) (ha a) rfl (nextQuery_eq ho hx)
  exact ⟨⟨hs, fun j _ => hr j⟩, trivial⟩

/-- The query is over: another peer is asked, or nobody. -/
theorem handleAllPossibleProvidersFound_safe (id : QueryId) :
    (protocol localPeer).Safe machine (elsewhere localPeer) .eventLoop
      (handleAllPossibleProvidersFound id) (fun _ _ => True) v := by
  have top : ∀ v v' : NodeView, Rely .eventLoop v v' → True → True := fun _ _ _ h => h
  refine Protocol.safe_seq (self_safe top trivial) fun self v ⟨⟨_, hs⟩, _⟩ => ?_
  split
  · next data hd =>
      refine Protocol.safe_seq (setSelf_safe hs.eraseMetadata) fun _ v _ => ?_
      refine Protocol.safe_seq (chooseRandom_safe (hs.metadata id data hd).2)
        fun peer v hpeer => ?_
      split
      · refine Protocol.safe_seq (send_safe (fun _ => rfl) (fun _ => hpeer) fun _ => nofun)
          fun requestId v _ => ?_
        refine Protocol.safe_seq (self_safe top trivial) fun self v ⟨⟨_, hs⟩, _⟩ => ?_
        exact setSelf_safe ⟨hs.metadata, hs.chunks⟩
      · exact safe_neutral (chan_within (O := Neutral) trivial) (fun _ h => h) top trivial
  · split
    · next data hd =>
        refine Protocol.safe_seq (setSelf_safe hs.eraseChunk) fun _ v _ => ?_
        refine Protocol.safe_seq (chooseRandom_safe (hs.chunks id data hd).2)
          fun peer v hpeer => ?_
        split
        · refine Protocol.safe_seq (send_safe (fun _ => rfl) (fun _ => hpeer) fun _ => nofun)
            fun requestId v _ => ?_
          refine Protocol.safe_seq (self_safe top trivial) fun self v ⟨⟨_, hs⟩, _⟩ => ?_
          exact setSelf_safe ⟨hs.metadata, hs.chunks⟩
        · exact safe_neutral (chan_within (O := Neutral) trivial) (fun _ h => h) top trivial
    · trivial

/-! ### Requests and responses -/

omit [Platform] in
/-- Answering a peer is neutral. -/
theorem neutral_of_answer {o : Op} (ho : AnswerOp o) : Neutral o := by
  cases ho <;> trivial

/-- Metadata is asked for or arrives. -/
theorem metadataDownload_safe (event : RequestResponseEvent MetadataFileRequest) :
    (protocol localPeer).Safe machine (elsewhere localPeer) .eventLoop (metadataDownload event)
      (fun _ _ => True) v := by
  have top : ∀ v v' : NodeView, Rely .eventLoop v v' → True → True := fun _ _ _ h => h
  cases event with
  | request request channel =>
      exact safe_neutral (metadataRequest_within request channel) (fun _ => neutral_of_answer)
        top trivial
  | response requestId response =>
      refine Protocol.safe_seq (self_safe top trivial) fun self v ⟨⟨_, hs⟩, _⟩ => ?_
      split
      · next sender _ =>
          refine Protocol.safe_seq (setSelf_safe ⟨hs.metadata, hs.chunks⟩) fun _ v _ => ?_
          have send : ∀ m, (chan (.metadata (.send sender m))).Within (.ops Neutral) :=
            fun m => chan_within trivial
          refine safe_neutral (O := Neutral) ?_ (fun _ h => h) top trivial
          unfold handleMetadataDownloadResponse
          split
          · split <;> exact send _
          · exact send _
          · exact send _
      · trivial
  | _ => trivial

/-- A chunk is asked for or arrives. -/
theorem fileDownload_safe (event : RequestResponseEvent FileChunkRequest) :
    (protocol localPeer).Safe machine (elsewhere localPeer) .eventLoop (fileDownload event)
      (fun _ _ => True) v := by
  have top : ∀ v v' : NodeView, Rely .eventLoop v v' → True → True := fun _ _ _ h => h
  cases event with
  | request request channel =>
      exact safe_neutral (chunkRequest_within request channel) (fun _ => neutral_of_answer)
        top trivial
  | response requestId response =>
      refine Protocol.safe_seq (self_safe top trivial) fun self v ⟨⟨_, hs⟩, _⟩ => ?_
      split
      · refine Protocol.safe_seq (setSelf_safe ⟨hs.metadata, hs.chunks⟩) fun _ v _ => ?_
        exact safe_neutral (chan_within (O := Neutral) trivial) (fun _ h => h) top trivial
      · trivial
  | _ => trivial

/-- A swarm event. -/
theorem handleSwarmEvent_safe {event : SwarmEvent} (hr : Reports localPeer event v) :
    (protocol localPeer).Safe machine (elsewhere localPeer) .eventLoop (handleSwarmEvent event)
      (fun _ _ => True) v := by
  cases event with
  | kademlia id result =>
      show (protocol localPeer).Safe machine _ _ (kademlia id result) _ _
      unfold kademlia
      split
      · exact handleFoundProviders_safe (hr id _ rfl)
      · exact handleAllPossibleProvidersFound_safe id
      · exact handleAllPossibleProvidersFound_safe id
      · trivial
  | fileDownload event => exact fileDownload_safe event
  | metadataDownload event => exact metadataDownload_safe event
  | other => trivial

/-! ### The tasks -/

variable {t : Task}

omit [Platform] in
/-- Every other task is neutral. -/
theorem neutral_of_footprint {o : Op} (hc : t ≠ .command) (hs : t ≠ .swarmEvent)
    (ho : t.footprint.op o) : Neutral o := by
  cases t with
  | publishFile n fuel request =>
      obtain ⟨_ | _ | _ | _ | ⟨_, _, _ | _⟩ | ⟨_, _ | _⟩ | _⟩ | _ := ho <;> trivial
  | downloadFile n request => obtain ⟨⟨_ | _ | _⟩ | ⟨_ | _⟩ | _⟩ | _ := ho <;> trivial
  | startUp => obtain _ | _ := ho <;> trivial
  | swarmEvent => exact absurd rfl hs
  | command => exact absurd rfl hc
  | tick => obtain _ | _ := ho <;> trivial
  | publisher fuel => obtain _ | _ := ho <;> trivial
  | download r =>
      obtain ⟨_ | _⟩ | ⟨⟨_ | _ | _ | ⟨_ | _⟩ | _⟩ | _ | _ | _⟩ | _ := ho <;> trivial
  | chunk d => obtain _ | _ | _ | _ | _ | _ | _ | ⟨_, _ | _⟩ := ho <;> trivial
  | writeFile n path bytes => obtain _ | _ := ho <;> trivial

/-- Every task keeps to the protocol. -/
theorem body_safe (t : Task) :
    (protocol localPeer).Safe machine (elsewhere localPeer) (slotOf t) (body t)
      (fun _ _ => True) v := by
  by_cases hc : t = .command
  · subst hc
    refine Protocol.safe_seq (safe_neutral (A := fun _ => True) (chan_within (O := Neutral) trivial)
      (fun _ h => h) (fun _ _ _ h => h) trivial) fun command v _ => ?_
    exact Protocol.safe_seq (handleCommand_safe command) fun _ _ h => h
  · by_cases hs : t = .swarmEvent
    · subst hs
      refine Protocol.safe_seq selectNextSome_safe fun event v hr => ?_
      exact Protocol.safe_seq (handleSwarmEvent_safe hr) fun _ _ h => h
    · -- Starting a task and taking a result are no more than an event.
      refine Protocol.safe_footprint (A := fun _ => True) (body_within t) (fun _ _ _ h => h)
        (fun v _ hinv _ o ho c a w he _ => ?_) (fun v _ hinv _ t' _ _ _ => ?_)
        (fun v _ hinv _ j _ _ r _ _ => ?_) trivial
      · exact ⟨(guar_neutral (neutral_of_footprint hc hs ho) hinv he).1, trivial⟩
      · obtain ⟨h, hr⟩ := hinv.frame (v.spawn (L := lang) (slotOf t) t' (slotOf t')) rfl rfl
          nofun rfl rfl
        exact ⟨⟨h, fun j _ => hr j⟩, trivial, trivial⟩
      · obtain ⟨h, hr⟩ := hinv.frame (v.await (L := lang) (slotOf t) j r) rfl rfl nofun rfl
          rfl
        exact ⟨⟨h, fun j _ => hr j⟩, trivial⟩

theorem valid : (protocol localPeer).Valid machine (elsewhere localPeer) where
  rely_refl _ _ := ⟨fun _ => rfl, fun _ _ => rfl⟩
  rely_trans _ _ _ _ h h' := h.trans h'
  guar_rely i j _ _ hij _ hG := hG.2 j hij.symm
  guar_inv _ _ _ _ hG := hG.1
  post_stable _ _ _ _ _ _ := trivial
  start_rely t v hv _ _ := (hv.frame (v.start (L := lang) t (slotOf t)) rfl rfl nofun rfl
    rfl).2
  start_inv t v hv _ _ := (hv.frame (v.start (L := lang) t (slotOf t)) rfl rfl nofun rfl
    rfl).1
  start_pre _ _ _ _ _ := trivial
  exit_guar i r v hv _ _ _ := by
    obtain ⟨h, hr⟩ := hv.frame (v.exit (L := lang) i r) rfl rfl nofun rfl rfl
    exact ⟨h, fun j _ => hr j⟩
  crash_inv v hv _ := ⟨.new _, hv.fresh, hv.never.cons nofun⟩
  body_safe t _ _ _ := body_safe t

/-- In every run in which no query for an advertised key reports the local
peer to a request that waits for it, the local peer is never asked. -/
theorem asks_others {w : World} {p : NodePool} (hw : w.events = .new)
    (h : Reach machine (elsewhere localPeer) (.idle w) p) : NeverAsked localPeer p.hist := by
  have init : Sound localPeer (Pool.idle (L := lang) w).view := by
    refine ⟨?_, fun _ _ => rfl, fun _ h => absurd h List.not_mem_nil⟩
    show Kept localPeer w.events []
    rw [hw]
    exact .new []
  exact (valid.holds_of_reach init h).1.never

end Proof

/-! ### A chunk that is not recorded -/

section Example

open Reference

attribute [local instance] platform

/-- The key of that file. -/
def fileKey : PublishedFileKey := twoChunks.key

/-- A download has got chunk 0, and not chunk 1, and is over. The store
answers with `choice` when chunk 0 is recorded. -/
def halfDone (choice : Choice) : List (Move lang Choice) :=
  acceptOnly twoChunks ++ tickStream ++ tickStart ++ openDownload fileKey 2 ++
    askChunk fileKey 0 ++ askProvider 1 (.fileDownload (.response 0 (.success [7]))) ++
    saveChunk fileKey 0 ++ commandPass 2 ++ askChunk fileKey 1 ++ noProvider 2 ++
    missChunk fileKey 1 ++
    [.await (.download fileKey) (.chunk fileKey.toU64 0), .op (.download fileKey) choice] ++
    endDownload fileKey 1

/-- A later query is answered with the peer `p`, who is asked. -/
def askPeer (query : QueryId) (p : PeerId) : List (Move lang Choice) :=
  commandPass 3 ++
    swarmPass (.kademlia query (.getProviders (.ok (.foundProviders {p})))) 2 ++
    [.start .swarmEvent, .op .eventLoop
      (.event (.kademlia query (.getProviders (.ok .finishedWithNoAdditionalRecord))))] ++
    ops .eventLoop 2 ++ [.op .eventLoop (.peer p)] ++ ops .eventLoop 3 ++ [.exit .eventLoop]

/-- Chunk 0 is advertised, its record is not stored, and the next download
looks for it again: the node 3 finds itself. -/
def unrecorded : List (Move lang Choice) :=
  halfDone (.storeError (.joinError "no space")) ++ tickStream ++ tickStart ++
    openDownload fileKey 2 ++ askChunk fileKey 0 ++ askPeer 3 3

/-- The node asks itself. -/
theorem asks_itself :
    ∃ p, Reach machine (kademliaOf 3) (.idle (emptyDir 2)) p ∧ ¬ NeverAsked 3 p.hist :=
  exists_reach_of_runScript unrecorded (by decide +kernel)

/-- Chunk 0 is recorded, and the next download looks for chunk 1. -/
def recorded : List (Move lang Choice) :=
  halfDone .ok ++ tickStream ++ tickStart ++ openDownload fileKey 1 ++ askChunk fileKey 1 ++
    askPeer 3 7

/-- With chunk 0 recorded the next download asks another peer. -/
theorem asks_others_recorded :
    ∃ p, Reach machine (elsewhere 3) (.idle (emptyDir 2)) p ∧
      p.hist.filterMap asked? = [7, 7, 7] ∧ NeverAsked 3 p.hist := by
  have run : ∃ p, Reach machine (elsewhere 3) (.idle (emptyDir 2)) p ∧
      p.hist.filterMap asked? = [7, 7, 7] :=
    exists_reach_of_runScript recorded (by decide +kernel)
  obtain ⟨p, hp, hasked⟩ := run
  exact ⟨p, hp, hasked, asks_others rfl hp⟩

end Example

end RustDfs.LocalPeer
