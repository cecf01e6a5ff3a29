import Mathlib.Data.Nat.Pairing
import RustDfs.Conc.Flow
import RustDfs.Proofs.RequestsEnd
import RustDfs.Proofs.Serving

/-!
# `RustDfs.Proofs.Authentic`: answers across a network

In a network of nodes an answer passes three hands: the node that serves
it, the request/response behaviours, and the event service of the node
that asked. `Serving` and `Correlation` are about one node each;
`authentic` puts them together over the network: what a program gets as
the answer to its command is what the provider it was sent to answered
to this command's request, from what it read for it.

A response goes back to its request in two steps, and both go through
the history: the response was sent on a channel, the channel came with a
request, and the request was sent under a number that its node gave out
once (`Numbered`).
-/

set_option autoImplicit false

namespace RustDfs.Authentic

open Lib Conc
open Requests (Reported queryOf)
open RequestsEnd (nextRequest)
open Serving (Exchange Answers Talk Read talk)

/-! ### What is shown -/

/-- The peer was asked for the command: the request was sent to the peer,
and before that a query was started for the command, which reported the
peer. -/
def Asked (peer : PeerId) (request : PeerRequest) (command : P2pCommand)
    (h : List NodeEvent) : Prop :=
  ∃ e requestId query before, e :: before <:+ h ∧
    sent? e = some ⟨peer, request, requestId⟩ ∧ queryOf query before = some command ∧
    Reported query peer before

section Statement

variable [Platform]

/-- If the peer is one of the nodes, it has had this request and given this
response to it, and what it read in between accounts for the response. -/
def Gave (nodes : Finset PeerId) (hist : PeerId → List NodeEvent) (peer : PeerId)
    (request : PeerRequest) (response : FileResponse) : Prop :=
  peer ∈ nodes → ∃ channel reads, Answers request reads response ∧
    Exchange request channel reads response (talk (hist peer))

/-- What the programs of node `n` get as answers is what the providers they
asked gave.
- `metadata`: a metadata that is passed on decodes what a peer gave, who
  had been asked for the command of this sender,
- `chunk`: so does a response to a chunk request. -/
structure FromProviders (nodes : Finset PeerId) (hist : PeerId → List NodeEvent) (n : PeerId) :
    Prop where
  metadata : ∀ i result m before,
    .op i (.chan (.metadata (.send result (some m)))) () :: before <:+ hist n →
      ∃ request bytes peer, Platform.decodeMetadata bytes = .ok m ∧
        Asked peer (.metadata request) (.requestMetadata request result) before ∧
        Gave nodes hist peer (.metadata request) (.success bytes)
  chunk : ∀ i result response before,
    .op i (.chan (.chunk (.send result (some response)))) () :: before <:+ hist n →
      ∃ request peer,
        Asked peer (.chunk request) (.requestFileChunk request result) before ∧
        Gave nodes hist peer (.chunk request) response

end Statement

/-! ### The numbers of requests -/

/-- Every request has its own number below the counter. -/
structure Numbered (w : World) (h : List NodeEvent) : Prop where
  below : ∀ x ∈ h.filterMap sent?, x.requestId < nextRequest w.swarm x.request.behaviour
  once : ∀ x ∈ h.filterMap sent?, ∀ y ∈ h.filterMap sent?,
    x.request.behaviour = y.request.behaviour → x.requestId = y.requestId → x = y

variable {w w' : World} {h h' : List NodeEvent} {e : NodeEvent}

/-- An event that is no request. -/
theorem Numbered.cons_none (hn : Numbered w h) (he : sent? e = none)
    (hw : ∀ b, nextRequest w.swarm b ≤ nextRequest w'.swarm b) : Numbered w' (e :: h) where
  below x hx := by
    rw [List.filterMap_cons_none he] at hx
    exact (hn.below x hx).trans_le (hw _)
  once := by
    rw [List.filterMap_cons_none he]
    exact hn.once

/-- A request gets the number of the counter. -/
theorem Numbered.cons_some {x : Outbound} (hn : Numbered w h) (he : sent? e = some x)
    (hw : ∀ b, nextRequest w.swarm b ≤ nextRequest w'.swarm b)
    (number : x.requestId = nextRequest w.swarm x.request.behaviour)
    (counted : x.requestId < nextRequest w'.swarm x.request.behaviour) :
    Numbered w' (e :: h) := by
  -- an earlier request of the same behaviour has a lower number
  have other : ∀ y ∈ h.filterMap sent?, x.request.behaviour = y.request.behaviour →
      x.requestId ≠ y.requestId := by
    intro y hy hb hid
    have below := hn.below y hy
    rw [← hb, ← hid, number] at below
    exact Nat.lt_irrefl _ below
  refine ⟨fun y hy => ?_, fun y hy z hz hb hid => ?_⟩
  · rw [List.filterMap_cons_some he] at hy
    obtain rfl | hy := List.mem_cons.mp hy
    · exact counted
    · exact (hn.below y hy).trans_le (hw _)
  · rw [List.filterMap_cons_some he] at hy hz
    obtain rfl | hy' := List.mem_cons.mp hy
    · obtain rfl | hz' := List.mem_cons.mp hz
      · rfl
      · exact absurd hid (other z hz' hb)
    · obtain rfl | hz' := List.mem_cons.mp hz
      · exact absurd hid.symm (other y hy' hb.symm)
      · exact hn.once y hy' z hz' hb hid

section Proof

variable [Platform]

/-- The number of a request that is sent. -/
theorem number_of_sent {i : Slot} {o : Op} {a : o.Ans} {c : Choice} {x : Outbound}
    (he : o.exec c w = some (a, w')) (hx : sent? (.op (L := lang) i o a) = some x) :
    x.requestId = nextRequest w.swarm x.request.behaviour ∧
      x.requestId < nextRequest w'.swarm x.request.behaviour := by
  unfold sent? at hx
  split at hx
  · next heq =>
      cases heq
      cases hx
      cases c <;> cases he
      exact ⟨rfl, Nat.lt_succ_self _⟩
  · next heq =>
      cases heq
      cases hx
      cases c <;> cases he
      exact ⟨rfl, Nat.lt_succ_self _⟩
  · cases hx

/-- Every operation keeps the numbers apart. -/
theorem numbered : Invariant machine environment Numbered where
  op v i o c a w hn he _ := by
    have counters := (RequestsEnd.counters_exec he i).requests
    cases hx : sent? (.op (L := lang) i o a) with
    | none => exact hn.cons_none hx counters
    | some x =>
        obtain ⟨number, counted⟩ := number_of_sent he hx
        exact hn.cons_some hx counters number counted
  idle w e h he hn := by
    refine hn.cons_none ?_ fun b => Nat.le_refl _
    cases he <;> rfl
  crash w h hn := hn.cons_none rfl fun b => by cases b <;> exact Nat.le_refl _

/-! ### From a response back to its request -/

variable {channels : Channels} {nodes : Finset PeerId} {ws : PeerId → World}
  {net : Network PeerId lang World} {n : PeerId}

/-- The nodes run the programs of `machine`. -/
theorem node_reach (hr : NetReach machine (network channels nodes) (fun m => .idle (ws m)) net)
    (n : PeerId) : Reach machine environment (.idle (ws n)) (net n) :=
  hr.node (fun _ _ _ hg => hg.1) n

omit [Platform] in
/-- The talk of a node only grows. -/
theorem talk_suffix (hs : h <:+ h') : talk h <:+ talk h' :=
  (hs.filter _).filterMap _

omit [Platform] in
theorem Exchange.mono {request : PeerRequest} {channel : ResponseChannel} {reads : List Read}
    {response : FileResponse} {l l' : List Serving.Entry} (hs : l <:+ l')
    (hx : Exchange request channel reads response l) :
    Exchange request channel reads response l' := by
  obtain ⟨l₀, rfl⟩ := hs
  obtain ⟨later, earlier, rfl⟩ := hx
  exact ⟨l₀ ++ later, earlier, by rw [List.append_assoc]⟩

/-- A response is part of the talk of its node. -/
theorem replied_of_responded {w : World} {p : NodePool}
    (hr : Reach machine environment (.idle w) p) {channel : ResponseChannel}
    {response : FileResponse} (hx : (channel, response) ∈ p.hist.filterMap responded?) :
    .replied channel response ∈ talk p.hist := by
  obtain ⟨e, he, hx⟩ := List.mem_filterMap.mp hx
  unfold responded? at hx
  split at hx
  · next i _ _ _ =>
      cases hx
      obtain ⟨t, ht, ho⟩ := op_of_reach body_within hr he
      have own : i = .eventLoop := ht.symm.trans (of_swarm ho)
      subst own
      exact List.mem_filterMap.mpr ⟨_, List.mem_filter.mpr ⟨he, rfl⟩, rfl⟩
  · cases hx

omit [Platform] in
/-- A request in the talk arrived. -/
theorem arrived_of_asked {request : PeerRequest} {channel : ResponseChannel}
    (hx : .asked request channel ∈ talk h) : ∃ e ∈ h, arrived? e = some (request, channel) := by
  obtain ⟨e, he, hx⟩ := List.mem_filterMap.mp hx
  refine ⟨e, (own_sublist _ _ h).subset he, ?_⟩
  unfold Serving.logged? at hx
  split at hx <;> cases hx <;> rfl

/-- What a node takes in as the response to a request is what the node it
was sent to answered to it. -/
theorem gave (hr : NetReach machine (network channels nodes) (fun m => .idle (ws m)) net)
    (hn : n ∈ nodes) {e : NodeEvent} {before : List NodeEvent} (he : e :: before <:+ (net n).hist)
    {b : Behaviour} {requestId : OutboundRequestId} {response : FileResponse}
    (hx : received? e = some (b, requestId, response)) {x : Outbound}
    (hsent : x ∈ before.filterMap sent?) (hb : x.request.behaviour = b)
    (hid : x.requestId = requestId) :
    Gave nodes (fun m => (net m).hist) x.peer x.request response := by
  intro hpeer
  -- the response was sent on the channel of the request
  obtain ⟨net', reach', ⟨-, carried⟩, rfl, suffix⟩ := hr.caused (fun _ => rfl) he
  have responded := carried.response _ hx x hsent hb hid hpeer
  have replied := replied_of_responded (node_reach reach' x.peer) responded
  obtain ⟨_, talks⟩ := (Serving.served (node_reach reach' x.peer)).talks
  obtain ⟨request, reads, answers, exchange⟩ := talks.replied replied
  -- the channel came with a request of this node
  obtain ⟨arrival, harrival, arrived⟩ := arrived_of_asked exchange.asked
  obtain ⟨_, harrival⟩ := suffix_of_mem harrival
  obtain ⟨net'', _, ⟨-, carried'⟩, -, suffix'⟩ := reach'.caused (fun _ => rfl) harrival
  obtain ⟨behaviour, sent⟩ := carried'.request _ arrived
  rw [channels.origin_channel] at behaviour sent
  have sent : (⟨x.peer, request, requestId⟩ : Outbound) ∈ (net' n).hist.filterMap sent? :=
    ((suffix' n).filterMap sent?).subset (sent hn)
  -- and the number tells which
  have same := (numbered.of_reach ⟨fun y hy => (by cases hy), fun y hy => (by cases hy)⟩
    (node_reach reach' n)).once x hsent _ sent (hb.trans behaviour) hid
  have same : x.request = request := congrArg Outbound.request same
  rw [same]
  exact ⟨_, reads, answers, Exchange.mono (talk_suffix (suffix x.peer)) exchange⟩

/-- In every run of a network, what the programs of a node get as answers
is what the providers they asked gave. -/
theorem authentic (hw : ∀ m, (ws m).events = .new ∧ (ws m).chan.commands = [])
    (hr : NetReach machine (network channels nodes) (fun m => .idle (ws m)) net)
    (hn : n ∈ nodes) : FromProviders nodes (fun m => (net m).hist) n := by
  have delivered :=
    (RequestsEnd.sound_of_reach (hw n).1 (hw n).2 (node_reach hr n)).delivered
  refine ⟨fun i result m before hs => ?_, fun i result response before hs => ?_⟩
  · obtain ⟨request, requestId, bytes, j, before', hs', decoded, k, peer, query, before'', sent,
      command, reported⟩ := delivered.metadata i result m before hs
    have earlier : before <:+ (net n).hist := (List.suffix_cons _ _).trans hs
    have asked := sent.trans ((List.suffix_cons _ _).trans hs')
    exact ⟨request, bytes, peer, decoded, ⟨_, requestId, query, before'', asked, rfl, command,
      reported⟩, gave hr hn (hs'.trans earlier) rfl
        (List.mem_filterMap.mpr ⟨_, sent.mem List.mem_cons_self, rfl⟩) rfl rfl⟩
  · obtain ⟨request, requestId, j, before', hs', k, peer, query, before'', sent, command,
      reported⟩ := delivered.chunk i result response before hs
    have earlier : before <:+ (net n).hist := (List.suffix_cons _ _).trans hs
    have asked := sent.trans ((List.suffix_cons _ _).trans hs')
    exact ⟨request, peer, ⟨_, requestId, query, before'', asked, rfl, command, reported⟩,
      gave hr hn (hs'.trans earlier) rfl
        (List.mem_filterMap.mpr ⟨_, sent.mem List.mem_cons_self, rfl⟩) rfl rfl⟩

end Proof

/-! ### Two nodes -/

section Example

open Reference Correlation

attribute [local instance] platform

/-- Channels that are numbers of their origins. -/
def numbers : Channels where
  channel o := Nat.pair o.peer (Nat.pair (if o.behaviour = .metadataDownload then 0 else 1) o.requestId)
  origin channel :=
    let o := Nat.unpair channel
    ⟨o.1, if (Nat.unpair o.2).1 = 0 then .metadataDownload else .fileDownload, (Nat.unpair o.2).2⟩
  origin_channel o := by
    obtain ⟨peer, behaviour, requestId⟩ := o
    cases behaviour <;> simp

/-- A node that published the file of one byte. -/
def publisher : World :=
  { newWorld (files [([], .dir), (["src"], .dir), (["src", "f_chunks"], .dir),
      (["src", "f_chunks", ".metadata"], .file oneByte.toBytes),
      (["src", "f_chunks", "0.chunk"], .file [7])]) 1 with
    store := ⟨Std.ExtTreeMap.insert ∅ oneByte.key (.ofMetadata oneByte), ∅, ∅⟩ }

/-- A query reports the peer 7, and the peer is asked. -/
def askPeer (query : QueryId) : List (Move lang Choice) :=
  commandPass 3 ++ swarmPass (.kademlia query (.getProviders (.ok (.foundProviders {7})))) 2 ++
    [.start .swarmEvent, .op .eventLoop
      (.event (.kademlia query (.getProviders (.ok .finishedWithNoAdditionalRecord))))] ++
    ops .eventLoop 2 ++ [.op .eventLoop (.peer 7)] ++ ops .eventLoop 3 ++ [.exit .eventLoop]

/-- The node 1 downloads the file from the node 7. -/
def fromPeer : List (PeerId × Move lang Choice) :=
  (ask 0 ⟨oneByte.key.toU64, "/d"⟩ ++ askPeer 0).map (Prod.mk 1) ++
    (swarmPass (.metadataDownload (.request ⟨oneByte.key.toU64⟩
      (numbers.channel ⟨1, .metadataDownload, 0⟩))) 3).map (Prod.mk 7) ++
    (swarmPass (.metadataDownload (.response 0 (.success oneByte.toBytes))) 3 ++ accept 0 ++
      commandPass 2 ++ tickStream ++ tickStart ++ openDownload oneByte.key 1 ++
      askChunk oneByte.key 0 ++ askPeer 1).map (Prod.mk 1) ++
    (swarmPass (.fileDownload (.request ⟨oneByte.key.toU64, 0⟩
      (numbers.channel ⟨1, .fileDownload, 0⟩))) 4).map (Prod.mk 7) ++
    (swarmPass (.fileDownload (.response 0 (.success [7]))) 3).map (Prod.mk 1)

/-- Its programs get what the node 7 answered. -/
theorem authentic_fromPeer :
    ∃ net, NetReach machine (network numbers {1, 7})
        (fun m => .idle (if m = 7 then publisher else emptyDir 1)) net ∧
      (net 1).hist.filterMap Requests.answered? = [.chunk ⟨0⟩, .metadata ⟨0⟩] ∧
      FromProviders {1, 7} (fun m => (net m).hist) 1 := by
  have run : ∃ net, NetReach machine (network numbers {1, 7})
      (fun m => .idle (if m = 7 then publisher else emptyDir 1)) net ∧
      (net 1).hist.filterMap Requests.answered? = [.chunk ⟨0⟩, .metadata ⟨0⟩] :=
    exists_reach_of_runNetwork fromPeer (by decide +kernel)
  obtain ⟨net, hnet, hanswered⟩ := run
  refine ⟨net, hnet, hanswered, authentic (fun m => ?_) hnet (by decide)⟩
  split <;> exact ⟨rfl, rfl⟩

end Example

end RustDfs.Authentic
