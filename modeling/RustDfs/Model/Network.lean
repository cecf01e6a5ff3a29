import RustDfs.Conc.Network
import RustDfs.Model.Node

/-!
# `RustDfs.Model.Network`: several nodes

The two request/response behaviours of `p2p/service.rs` connect nodes:
`send_request` of one node makes a `Request` event of another, and
`send_response` on the channel of that event makes a `Response` event of
the first. `Carried` says what the behaviours do for each other and no
more: messages may be late, lost or repeated, and a peer that is none of
the nodes may send anything.
-/

set_option autoImplicit false

namespace RustDfs

open Conc

/-- The two request/response behaviours. -/
inductive Behaviour where
  | metadataDownload
  | fileDownload
deriving DecidableEq

/-- A request of a peer. -/
inductive PeerRequest where
  | metadata (request : MetadataFileRequest)
  | chunk (request : FileChunkRequest)
deriving DecidableEq

/-- The behaviour a request goes through. -/
def PeerRequest.behaviour : PeerRequest → Behaviour
  | .metadata _ => .metadataDownload
  | .chunk _ => .fileDownload

/-- A request that was sent. -/
structure Outbound where
  peer : PeerId
  request : PeerRequest
  requestId : OutboundRequestId
deriving DecidableEq

/-! ### What goes over the wire -/

/-- A node sends a request. -/
def sent? : NodeEvent → Option Outbound
  | .op _ (.swarm (.sendMetadataRequest peer request)) id => some ⟨peer, .metadata request, id⟩
  | .op _ (.swarm (.sendFileRequest peer request)) id => some ⟨peer, .chunk request, id⟩
  | _ => none

/-- A request arrives, with the channel for its response. -/
def arrived? : NodeEvent → Option (PeerRequest × ResponseChannel)
  | .op _ (.swarm .selectNextSome) (.metadataDownload (.request request channel)) =>
      some (.metadata request, channel)
  | .op _ (.swarm .selectNextSome) (.fileDownload (.request request channel)) =>
      some (.chunk request, channel)
  | _ => none

/-- A node sends a response. -/
def responded? : NodeEvent → Option (ResponseChannel × FileResponse)
  | .op _ (.swarm (.sendResponse channel response)) (.ok _) => some (channel, response)
  | _ => none

/-- A response arrives. -/
def received? : NodeEvent → Option (Behaviour × OutboundRequestId × FileResponse)
  | .op _ (.swarm .selectNextSome) (.metadataDownload (.response id response)) =>
      some (.metadataDownload, id, response)
  | .op _ (.swarm .selectNextSome) (.fileDownload (.response id response)) =>
      some (.fileDownload, id, response)
  | _ => none

/-- The requests a node sent. -/
def outbound (v : NodeView) : List Outbound := v.hist.filterMap sent?

/-! ### The behaviours -/

/-- Where an inbound request comes from. -/
structure Origin where
  peer : PeerId
  behaviour : Behaviour
  requestId : OutboundRequestId
deriving DecidableEq

/-- How the behaviours name the channels of inbound requests: every
request has its own. -/
structure Channels where
  channel : Origin → ResponseChannel
  origin : ResponseChannel → Origin
  origin_channel : ∀ o, origin (channel o) = o

/-- What node `n` takes in from the nodes was sent by them. -/
structure Carried (channels : Channels) (nodes : Finset PeerId) (vs : PeerId → NodeView)
    (n : PeerId) (e : NodeEvent) : Prop where
  /-- A request on a channel of its behaviour, as its node sent it here. -/
  request : ∀ x ∈ arrived? e, (channels.origin x.2).behaviour = x.1.behaviour ∧
    ((channels.origin x.2).peer ∈ nodes →
      ⟨n, x.1, (channels.origin x.2).requestId⟩ ∈ outbound (vs (channels.origin x.2).peer))
  /-- A response to a request that was sent, on the channel of the
  request, as the node it was sent to gave it. -/
  response : ∀ x ∈ received? e,
    ∀ s ∈ outbound (vs n), s.request.behaviour = x.1 → s.requestId = x.2.1 → s.peer ∈ nodes →
      (channels.channel ⟨n, x.1, x.2.1⟩, x.2.2) ∈ (vs s.peer).hist.filterMap responded?

instance (channels : Channels) (nodes : Finset PeerId) (vs : PeerId → NodeView) (n : PeerId)
    (e : NodeEvent) : Decidable (Carried channels nodes vs n e) :=
  decidable_of_iff ((∀ x ∈ arrived? e, _ ∧ _) ∧ ∀ x ∈ received? e, ∀ s ∈ outbound (vs n), _)
    ⟨fun h => ⟨h.1, h.2⟩, fun h => ⟨h.1, h.2⟩⟩

/-- What the environment of several nodes may do. -/
def network (channels : Channels) (nodes : Finset PeerId) : NetGuard PeerId lang World :=
  fun vs n e => environment (vs n) e ∧ Carried channels nodes vs n e

instance (channels : Channels) (nodes : Finset PeerId) (vs : PeerId → NodeView) (n : PeerId)
    (e : NodeEvent) : Decidable (network channels nodes vs n e) :=
  inferInstanceAs (Decidable (_ ∧ _))

end RustDfs
