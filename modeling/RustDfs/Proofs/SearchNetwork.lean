import RustDfs.Conc.Network
import RustDfs.Proofs.SearchHits

/-!
# `RustDfs.Proofs.SearchNetwork`: a search across nodes

A search goes from node to node by gossip, and results come back as
requests of `file_search_results`. Gossip is signed and validated
strictly, so a message names the node that published it; the node it came
through may be another. A peer that is none of the nodes may send and
sign anything (`Carried`).

`genuine` joins the two sides of `SearchHits` over a network: what a
client is told about its search was sent by a peer, and a peer that is a
node has a public file of this name in its database, which matches the
search it got under this id. A search that a node signed is for the value
that is its id, which is the value of the client's call.
-/

set_option autoImplicit false

namespace RustDfs.Search

open Lib Std Conc
open Hits (resultSent? handed?)

/-! ### The network -/

/-- A message of a topic is published. -/
def published? : SearchEvent → Option (String × Bytes)
  | .op _ (.publish topic data) (.ok _) => some (topic, data)
  | _ => none

/-- A message arrives, with the peer that signed it. -/
def gossip? : SearchEvent → Option (PeerId × String × Bytes)
  | .op _ .selectNextSome (.gossip _ origin _ topic data) => some (origin, topic, data)
  | _ => none

/-- A result of a peer arrives. -/
def resultArrived? : SearchEvent → Option (PeerId × FileSearchResult)
  | .op _ .selectNextSome (.fileSearchResult peer result _) => some (peer, result)
  | _ => none

/-- What node `n` takes in from the nodes was sent by them.
- `gossip`: a message that a node signed was published by this node,
- `result`: a result that comes from a node was sent by this node to
  `n`. -/
structure Carried (nodes : Finset PeerId) (vs : PeerId → SearchView) (n : PeerId)
    (e : SearchEvent) : Prop where
  gossip : ∀ x ∈ gossip? e, x.1 ∈ nodes → x.2 ∈ (vs x.1).hist.filterMap published?
  result : ∀ x ∈ resultArrived? e, x.1 ∈ nodes → (n, x.2) ∈ (vs x.1).hist.filterMap resultSent?

instance (nodes : Finset PeerId) (vs : PeerId → SearchView) (n : PeerId) (e : SearchEvent) :
    Decidable (Carried nodes vs n e) :=
  decidable_of_iff ((∀ x ∈ gossip? e, _ → _) ∧ ∀ x ∈ resultArrived? e, _ → _)
    ⟨fun h => ⟨h.1, h.2⟩, fun h => ⟨h.1, h.2⟩⟩

/-- What the environment of several nodes may do. -/
def network (nodes : Finset PeerId) : NetGuard PeerId lang World :=
  fun vs n e => Hits.environment (vs n) e ∧ Carried nodes vs n e

instance (nodes : Finset PeerId) (vs : PeerId → SearchView) (n : PeerId) (e : SearchEvent) :
    Decidable (network nodes vs n e) :=
  inferInstanceAs (Decidable (_ ∧ _))

namespace Genuine

open Causes (Stores Stored cause_of_mem)
open Hits (Searches mem_of_own)

/-! ### What is shown -/

section Statement

variable [Config]

/-- The node has the file, for a search with this session id.
- The search came by gossip, from a peer `source`, signed by `origin`, and
  its session id is `value`.
- If `origin` is one of the nodes, the search is for this `value`; a peer
  that is none of them may sign a search for another one.
- `record` was in the database at the start or was stored since as a
  published file.
- The record is public, and its name matches what the search is for.
- What was found is this record, with its id and its name. -/
def Has (nodes : Finset PeerId) (published : ExtTreeMap PublishedFileKey PublishedFileRecord)
    (value : String) (found : FileFound) (h : List SearchEvent) : Prop :=
  ∃ source origin id topic data request record,
    .op .eventLoop .selectNextSome (.gossip source origin id topic data) ∈ h ∧
      Config.requests.fromSlice data = .ok request ∧ request.sessionId = value ∧
      (origin ∈ nodes → request.searchValue = value) ∧
      Source Stored Stores (.start published) h record ∧
      Matches (Config.toLowercase request.searchValue) record ∧
      found = ⟨record.key.toU64, record.originalFileName⟩

/-- A response that the client of a session gets.
- The client of this session searches for `value`, and for nothing else.
- A peer has sent the response for the session id `value`.
- If this peer is one of the nodes, it has the file, for a search with this
  session id. -/
def Told (nodes : Finset PeerId)
    (published : PeerId → ExtTreeMap PublishedFileKey PublishedFileRecord) (n : PeerId)
    (session : Nat) (response : SearchResponse) (hist : PeerId → List SearchEvent) : Prop :=
  ∃ value, Searches session value (hist n) ∧
    (∀ value', Searches session value' (hist n) → value' = value) ∧
    ∃ peer channel, .op .eventLoop .selectNextSome (.fileSearchResult peer
        ⟨value, ⟨response.fileId, response.fileName⟩⟩ channel) ∈ hist n ∧
      (peer ∈ nodes →
        Has nodes (published peer) value ⟨response.fileId, response.fileName⟩ (hist peer))

end Statement

/-! ### Over the network -/

section Proof

variable [Config] {nodes : Finset PeerId}
  {published : PeerId → ExtTreeMap PublishedFileKey PublishedFileRecord}
  {net : Network PeerId lang World} {n peer origin : PeerId}

/-- Each node runs the programs of a search. -/
theorem node_reach
    (hr : NetReach machine (network nodes) (fun m => .idle (.start (published m))) net)
    (n : PeerId) : Reach machine Hits.environment (.idle (.start (published n))) (net n) :=
  hr.node (fun _ _ _ hg => hg.1) n

/-- A search a node published is for the value that is its id. -/
theorem value_of_published {p : Causes.SearchPool}
    (hr : Reach machine Hits.environment (.idle (.start (published n))) p) {topic : String}
    {data : Bytes} (hx : (topic, data) ∈ p.hist.filterMap published?) {request : FileSearchRequest}
    (hdata : Config.requests.fromSlice data = .ok request) :
    request.searchValue = request.sessionId := by
  obtain ⟨e, he, hx⟩ := List.mem_filterMap.mp hx
  unfold published? at hx
  split at hx
  · cases hx
    obtain ⟨_, hs, request', m, received, -, hvec⟩ := cause_of_mem hr he
    obtain ⟨_, sent⟩ := Hits.sent_of_received hr
      (mem_of_own (hs.mem (List.mem_cons_of_mem _ received)))
    obtain ⟨_, _, _, _, value, _, _, _, _, _, rfl⟩ := cause_of_mem hr sent
    -- the message is read as it was written
    have same := (Config.requests.fromSlice_toVec hvec).symm.trans hdata
    cases same
    rfl
  · cases hx

/-- A result a node sent is about a file it has. -/
theorem has_of_sent
    (hr : NetReach machine (network nodes) (fun m => .idle (.start (published m))) net)
    {result : FileSearchResult} (hx : (n, result) ∈ (net peer).hist.filterMap resultSent?) :
    Has nodes (published peer) result.sessionId result.fileFound (net peer).hist := by
  obtain ⟨origin, id, topic, data, request, record, gossip, -, hdata, stored, matched, rfl⟩ :=
    Hits.discreet (node_reach hr peer) hx
  refine ⟨n, origin, id, topic, data, request, record, gossip, hdata, rfl, fun horigin => ?_,
    stored, matched, rfl⟩
  obtain ⟨_, hs⟩ := suffix_of_mem gossip
  obtain ⟨net', reach', ⟨-, carried⟩, -, suffix⟩ := hr.caused (fun _ => rfl) hs
  exact value_of_published (node_reach reach' origin) (carried.gossip _ rfl horigin) hdata

/-- In every run of a network, what a client is told by one of its nodes is
a public file of this node, which matches the search it got. If a node
signed this search, it is the client's. -/
theorem genuine
    (hr : NetReach machine (network nodes) (fun m => .idle (.start (published m))) net)
    {session : Nat} {response : SearchResponse}
    (hx : (session, response) ∈ (net n).hist.filterMap handed?) :
    Told nodes published n session response fun m => (net m).hist := by
  obtain ⟨value, -, searches, unique, ⟨peer, channel, arrived⟩, -, -⟩ :=
    Hits.heard (node_reach hr n) hx
  refine ⟨value, searches, unique, peer, channel, arrived, fun hpeer => ?_⟩
  obtain ⟨_, hs⟩ := suffix_of_mem arrived
  obtain ⟨net', reach', ⟨-, carried⟩, -, suffix⟩ := hr.caused (fun _ => rfl) hs
  have sent := carried.result _ rfl hpeer
  exact has_of_sent hr (((suffix peer).filterMap _).subset sent)

end Proof

/-! ### Two nodes -/

section Example

open Search.Reference

attribute [local instance] config

/-- The node 1 searches. -/
def searched : List (Move lang Choice) := call 0 4 "song" ++ commandPass 2

/-- It gets the result of the node 7. -/
def told : List (Move lang Choice) :=
  [.start .swarmEvent, .op .eventLoop (.event (.fileSearchResult 7 ⟨"song", ⟨5, "Song.mp3"⟩⟩ 0))] ++
    ops .eventLoop 3 ++ [.exit .eventLoop] ++ ops (.searchTask 0) 4

/-- What is in the databases of the two nodes. -/
def databases : PeerId → ExtTreeMap PublishedFileKey PublishedFileRecord := fun m =>
  if m = 7 then (ExtTreeMap.insert ∅ Hits.song.key Hits.song).insert Hits.diary.key Hits.diary
  else ∅

/-- The client of the node 1 is told about the public file of the node 7. -/
theorem genuine_song :
    ∃ net, NetReach machine (network {1, 7}) (fun m => .idle (.start (databases m))) net ∧
      (net 1).hist.filterMap handed? = [(0, ⟨5, "Song.mp3"⟩)] ∧
      Told {1, 7} databases 1 0 ⟨5, "Song.mp3"⟩ fun m => (net m).hist := by
  have run : ∃ net,
      NetReach machine (network {1, 7}) (fun m => .idle (.start (databases m))) net ∧
      (net 1).hist.filterMap handed? = [(0, ⟨5, "Song.mp3"⟩)] :=
    exists_reach_of_runNetwork (searched.map (Prod.mk 1) ++ Hits.answer.map (Prod.mk 7) ++
      told.map (Prod.mk 1)) (by decide +kernel)
  obtain ⟨net, hnet, hhanded⟩ := run
  exact ⟨net, hnet, hhanded, genuine hnet (by rw [hhanded]; exact List.mem_cons_self)⟩

end Example

end Genuine

end RustDfs.Search
