import RustDfs.Model.Network
import RustDfs.Proofs.Requests

/-!
# `RustDfs.Proofs.RequestLog`: what the event service has done so far

The log of the event service is the part of the history that concerns
requests, from the last crash on: the commands and events it took, the
queries and requests it made, the answers it gave. `ended` lists the
requests that are over by the log.

`Whole` relates the maps to the log. A query that was started waits in
its map, or was passed on to a peer, or its command was answered; a
request that was passed on waits in its map, or was answered. Each
handler moves one request, and is one of the moves below.
-/

set_option autoImplicit false

namespace RustDfs.RequestLog

open Lib Conc Std
open Requests (Ticket ticket? get_of_erase get_of_insert)

/-! ### The log -/

/-- What the event service does about requests. -/
inductive Entry where
  | command (command : P2pCommand)
  | query (id : QueryId)
  | event (event : SwarmEvent)
  | sent (b : Behaviour) (requestId : OutboundRequestId)
  | answered (t : Ticket)

def logged? : NodeEvent → Option Entry
  | .op _ (.chan .recvCommand) command => some (.command command)
  | .op _ (.swarm (.getProviders _)) id => some (.query id)
  | .op _ (.swarm .selectNextSome) event => some (.event event)
  | .op _ (.swarm (.sendMetadataRequest _ _)) requestId => some (.sent .metadataDownload requestId)
  | .op _ (.swarm (.sendFileRequest _ _)) requestId => some (.sent .fileDownload requestId)
  | .op _ (.chan (.metadata (.send result _))) _ => some (.answered (.metadata result))
  | .op _ (.chan (.chunk (.send result _))) _ => some (.answered (.chunk result))
  | _ => none

/-- What the event service of the running process did, the latest
first. -/
def log : List NodeEvent → List Entry
  | [] => []
  | .crash :: _ => []
  | e :: h =>
      match logged? e with
      | some x => x :: log h
      | none => log h

/-- The command that was taken last. -/
def current : List Entry → Option P2pCommand
  | [] => none
  | .command command :: _ => some command
  | _ :: l => current l

/-- The command a query was started for. -/
def queryOf (id : QueryId) : List Entry → Option P2pCommand
  | [] => none
  | .query id' :: l => if id' = id then current l else queryOf id l
  | _ :: l => queryOf id l

/-- The query the event that was taken last is about. -/
def currentQuery : List Entry → Option QueryId
  | [] => none
  | .event (.kademlia id _) :: _ => some id
  | .event _ :: _ => none
  | _ :: l => currentQuery l

/-- The query an outbound request was made for. -/
def sentBy (b : Behaviour) (requestId : OutboundRequestId) : List Entry → Option QueryId
  | [] => none
  | .sent b' requestId' :: l =>
      if b' = b ∧ requestId' = requestId then currentQuery l else sentBy b requestId l
  | _ :: l => sentBy b requestId l

/-- The query that reports a provider. -/
def reports? : Entry → Option QueryId
  | .event (.kademlia id (.getProviders (.ok (.foundProviders peers)))) =>
      if peers = ∅ then none else some id
  | _ => none

/-- The query has reported a provider. -/
def Reported (id : QueryId) (l : List Entry) : Prop := ∃ x ∈ l, reports? x = some id

instance (id : QueryId) (l : List Entry) : Decidable (Reported id l) :=
  inferInstanceAs (Decidable (∃ x ∈ l, _))

/-! ### Requests that are over -/

/-- The request whose query ends here without a provider. -/
def unprovided (id : QueryId) (l : List Entry) : Option Ticket :=
  if Reported id l then none else (queryOf id l).bind ticket?

/-- The request an outbound request was made for. -/
def ticketOf (b : Behaviour) (requestId : OutboundRequestId) (l : List Entry) : Option Ticket :=
  (sentBy b requestId l).bind fun id => (queryOf id l).bind ticket?

/-- The request that is over with this event: its query ended without a
provider, or its outbound request was answered. -/
def endedBy (l : List Entry) : SwarmEvent → Option Ticket
  | .kademlia id (.getProviders (.ok .finishedWithNoAdditionalRecord)) => unprovided id l
  | .kademlia id (.getProviders (.error _)) => unprovided id l
  | .metadataDownload (.response requestId _) => ticketOf .metadataDownload requestId l
  | .fileDownload (.response requestId _) => ticketOf .fileDownload requestId l
  | _ => none

/-- The requests that are over. -/
def ended : List Entry → List Ticket
  | [] => []
  | .event event :: l => (endedBy l event).toList ++ ended l
  | _ :: l => ended l

/-! ### Requests that are before the network -/

/-- The events that were taken since the query was started. -/
def sinceQuery (id : QueryId) : List Entry → List SwarmEvent
  | [] => []
  | .query id' :: l => if id' = id then [] else sinceQuery id l
  | .event event :: l => event :: sinceQuery id l
  | _ :: l => sinceQuery id l

/-- The events that were taken since the outbound request was made. -/
def sinceSent (b : Behaviour) (requestId : OutboundRequestId) : List Entry → List SwarmEvent
  | [] => []
  | .sent b' requestId' :: l =>
      if b' = b ∧ requestId' = requestId then [] else sinceSent b requestId l
  | .event event :: l => event :: sinceSent b requestId l
  | _ :: l => sinceSent b requestId l

/-- The query that ends with this event. -/
def finishes? : SwarmEvent → Option QueryId
  | .kademlia id (.getProviders (.ok .finishedWithNoAdditionalRecord)) => some id
  | .kademlia id (.getProviders (.error _)) => some id
  | _ => none

/-- The outbound request this event is the response to. -/
def responds? : SwarmEvent → Option (Behaviour × OutboundRequestId)
  | .metadataDownload (.response requestId _) => some (.metadataDownload, requestId)
  | .fileDownload (.response requestId _) => some (.fileDownload, requestId)
  | _ => none

/-- The outbound request that fails with this event. -/
def fails? : SwarmEvent → Option (Behaviour × OutboundRequestId)
  | .metadataDownload (.outboundFailure requestId _) => some (.metadataDownload, requestId)
  | .fileDownload (.outboundFailure requestId _) => some (.fileDownload, requestId)
  | _ => none

/-- The query has not ended since it was started. -/
def UnderWay (id : QueryId) (l : List Entry) : Prop :=
  ∀ event ∈ sinceQuery id l, finishes? event ≠ some id

/-- The outbound request has had no response since it was made. -/
def Unanswered (b : Behaviour) (requestId : OutboundRequestId) (l : List Entry) : Prop :=
  ∀ event ∈ sinceSent b requestId l, responds? event ≠ some (b, requestId)

/-- The outbound request has failed since it was made. -/
def Failed (b : Behaviour) (requestId : OutboundRequestId) (l : List Entry) : Prop :=
  ∃ event ∈ sinceSent b requestId l, fails? event = some (b, requestId)

/-! ### The maps -/

/-- A command waits for the query, which has reported these peers. -/
inductive Waits (s : EventService) (id : QueryId) : P2pCommand → Finset PeerId → Prop
  | metadata {data : ProvidersRequestData MetadataFileRequest FileMetadata}
      (h : s.metadataProvidersRequests[id]? = some data) :
      Waits s id (.requestMetadata data.request data.result) data.foundProviders
  | chunk {data : ProvidersRequestData FileChunkRequest FileResponse}
      (h : s.fileChunkProvidersRequests[id]? = some data) :
      Waits s id (.requestFileChunk data.request data.result) data.foundProviders

/-- A ticket waits for the answer to the outbound request. -/
inductive Sent (s : EventService) : Behaviour → OutboundRequestId → Ticket → Prop
  | metadata {requestId : OutboundRequestId} {result : OneshotSender (Option FileMetadata)}
      (h : s.metadataDownloadRequests[requestId]? = some result) :
      Sent s .metadataDownload requestId (.metadata result)
  | chunk {requestId : OutboundRequestId} {result : OneshotSender (Option FileResponse)}
      (h : s.fileDownloadRequests[requestId]? = some result) :
      Sent s .fileDownload requestId (.chunk result)

/-- A request was made for the query. -/
def Passed (id : QueryId) (l : List Entry) : Prop := ∃ b requestId, sentBy b requestId l = some id

/-- The command was answered. -/
def Answered (command : P2pCommand) (l : List Entry) : Prop :=
  ∃ t, ticket? command = some t ∧ .answered t ∈ l

/-- The maps are as the log says, but for the request of query `x`, which
the event loop has in its hands. -/
structure Whole (x : Option QueryId) (s : EventService) (l : List Entry) : Prop where
  /-- What waits for a query was not passed on. -/
  waiting : ∀ id command peers, Waits s id command peers →
    queryOf id l = some command ∧ (peers ≠ ∅ → Reported id l) ∧ ¬ Passed id l
  /-- A query is waited for, or was passed on, or was answered. -/
  query : ∀ id command, queryOf id l = some command → x ≠ some id →
    (∃ peers, Waits s id command peers) ∨ Passed id l ∨ Answered command l
  /-- A request that was passed on is waited for, or was answered. -/
  sent : ∀ b requestId id, sentBy b requestId l = some id →
    Reported id l ∧ ∃ command t, queryOf id l = some command ∧ ticket? command = some t ∧
      (x ≠ some id → Sent s b requestId t ∨ .answered t ∈ l)

/-- What is in the maps is before the network: the queries of the maps are
under way, but for query `x`, and their outbound requests are unanswered,
but for request `y`. -/
structure Pending (x : Option QueryId) (y : Option (Behaviour × OutboundRequestId))
    (s : EventService) (l : List Entry) : Prop where
  waits : ∀ id command peers, Waits s id command peers → x ≠ some id → UnderWay id l
  sent : ∀ b requestId t, Sent s b requestId t → y ≠ some (b, requestId) →
    Unanswered b requestId l

/-- The network has still to settle a request of the maps.
- `query`: the request waits for its provider query, which has not ended
  since it was started,
- `request`: the request waits for the response to its outbound request,
  which has neither been answered nor failed since it was made. -/
inductive Open (s : EventService) (l : List Entry) (t : Ticket) : Prop
  | query {id : QueryId} {command : P2pCommand} {peers : Finset PeerId}
      (waits : Waits s id command peers) (ht : ticket? command = some t) (under : UnderWay id l)
  | request {b : Behaviour} {requestId : OutboundRequestId} (sent : Sent s b requestId t)
      (unanswered : Unanswered b requestId l) (intact : ¬ Failed b requestId l)

/-- A request of the maps is lost: it waits for the response to an outbound
request that has failed, which the event service only logs. -/
def Lost (s : EventService) (l : List Entry) (t : Ticket) : Prop :=
  ∃ b requestId, Sent s b requestId t ∧ Unanswered b requestId l ∧ Failed b requestId l

variable {x : Option QueryId} {s s' : EventService} {l : List Entry} {e : Entry} {id : QueryId}
  {b : Behaviour} {requestId : OutboundRequestId} {command : P2pCommand} {peers : Finset PeerId}
  {t : Ticket}

theorem Reported.cons (h : Reported id l) (e : Entry) : Reported id (e :: l) := by
  obtain ⟨x, hx, hr⟩ := h
  exact ⟨x, List.mem_cons_of_mem _ hx, hr⟩

theorem Answered.cons (h : Answered command l) (e : Entry) : Answered command (e :: l) := by
  obtain ⟨t, ht, ha⟩ := h
  exact ⟨t, ht, List.mem_cons_of_mem _ ha⟩

/-- One outbound request belongs to one ticket. -/
theorem Sent.unique {t' : Ticket} (h : Sent s b requestId t) (h' : Sent s b requestId t') :
    t' = t := by
  cases h with
  | metadata h =>
      cases h' with
      | metadata h' =>
          rw [h] at h'
          cases h'
          rfl
  | chunk h =>
      cases h' with
      | chunk h' =>
          rw [h] at h'
          cases h'
          rfl

/-- In the beginning there is nothing. -/
theorem Whole.new : Whole none .new [] where
  waiting id command peers h := by
    cases h with
    | metadata h => simp [EventService.new] at h
    | chunk h => simp [EventService.new] at h
  query id command h := by cases h
  sent b requestId id h := by cases h

/-! ### Entries -/

/-- An entry that starts no query and makes no request. -/
def Entry.isNote : Entry → Bool
  | .query _ | .sent _ _ => false
  | _ => true

theorem queryOf_note (he : e.isNote = true) (id : QueryId) (l : List Entry) :
    queryOf id (e :: l) = queryOf id l := by
  cases e <;> first | rfl | cases he

theorem sentBy_note (he : e.isNote = true) (b : Behaviour) (requestId : OutboundRequestId)
    (l : List Entry) : sentBy b requestId (e :: l) = sentBy b requestId l := by
  cases e <;> first | rfl | cases he

theorem passed_note (he : e.isNote = true) : Passed id (e :: l) ↔ Passed id l := by
  simp only [Passed, sentBy_note he]

/-- A note changes nothing. -/
theorem Whole.note (h : Whole x s l) (he : e.isNote = true) : Whole x s (e :: l) where
  waiting id command peers hw := by
    obtain ⟨own, found, unpassed⟩ := h.waiting id command peers hw
    rw [queryOf_note he, passed_note he]
    exact ⟨own, fun hp => (found hp).cons e, unpassed⟩
  query id command hq hx := by
    rw [queryOf_note he] at hq
    rw [passed_note he]
    exact (h.query id command hq hx).imp_right (Or.imp_right fun ha => ha.cons e)
  sent b requestId id hs := by
    rw [sentBy_note he] at hs
    obtain ⟨hr, command, t, own, ht, kept⟩ := h.sent b requestId id hs
    rw [queryOf_note he]
    exact ⟨hr.cons e, command, t, own, ht, fun hx => (kept hx).imp_right (List.mem_cons_of_mem _)⟩

/-- A new query has no request yet. -/
theorem Whole.not_passed (h : Whole x s l) (hn : queryOf id l = none) : ¬ Passed id l := by
  rintro ⟨b, requestId, hs⟩
  obtain ⟨-, command, t, own, -⟩ := h.sent b requestId id hs
  rw [hn] at own
  cases own

theorem queryOf_query_of_ne {id' : QueryId} (hne : id' ≠ id) (l : List Entry) :
    queryOf id' (.query id :: l) = queryOf id' l := if_neg (Ne.symm hne)

/-- A query starts, and its command is in the hands of the event loop. -/
theorem Whole.startQuery (h : Whole none s l) (hn : queryOf id l = none) :
    Whole (some id) s (.query id :: l) ∧ ¬ Passed id (.query id :: l) := by
  have old : ∀ {id' command}, queryOf id' l = some command → id' ≠ id := by
    rintro id' command hq rfl
    rw [hn] at hq
    cases hq
  -- What is said of older queries is not about this one.
  refine ⟨⟨fun id' command peers hw => ?_, fun id' command hq hx => ?_,
    fun b requestId id' hs => ?_⟩, h.not_passed hn⟩
  · obtain ⟨own, found, unpassed⟩ := h.waiting id' command peers hw
    rw [queryOf_query_of_ne (old own)]
    exact ⟨own, fun hp => (found hp).cons _, unpassed⟩
  · rw [queryOf_query_of_ne fun e => hx (congrArg some e.symm)] at hq
    exact (h.query id' command hq (Option.some_ne_none _).symm).imp_right
      (Or.imp_right fun ha => ha.cons _)
  · obtain ⟨hr, command, t, own, ht, kept⟩ := h.sent b requestId id' hs
    rw [queryOf_query_of_ne (old own)]
    exact ⟨hr.cons _, command, t, own, ht,
      fun _ => (kept (Option.some_ne_none _).symm).imp_right (List.mem_cons_of_mem _)⟩

/-! ### Moves -/

/-- A command is put into one of the maps of queries. -/
structure Puts (s s' : EventService) (id : QueryId) (command : P2pCommand)
    (peers : Finset PeerId) : Prop where
  new : Waits s' id command peers
  old : ∀ id' command' peers', Waits s' id' command' peers' →
    (id' = id ∧ command' = command ∧ peers' = peers) ∨ Waits s id' command' peers'
  kept : ∀ id' command' peers', Waits s id' command' peers' →
    id' = id ∨ Waits s' id' command' peers'
  sent : ∀ b requestId t, Sent s' b requestId t ↔ Sent s b requestId t

/-- A command is taken from the maps of queries. -/
structure Takes (s s' : EventService) (id : QueryId) : Prop where
  gone : ∀ command peers, ¬ Waits s' id command peers
  old : ∀ id' command' peers', Waits s' id' command' peers' → Waits s id' command' peers'
  kept : ∀ id' command' peers', Waits s id' command' peers' →
    id' = id ∨ Waits s' id' command' peers'
  sent : ∀ b requestId t, Sent s' b requestId t ↔ Sent s b requestId t

/-- A ticket is put into one of the maps of requests. -/
structure Hands (s s' : EventService) (b : Behaviour) (requestId : OutboundRequestId)
    (t : Ticket) : Prop where
  new : Sent s' b requestId t
  old : ∀ b' requestId' t', Sent s' b' requestId' t' →
    (b' = b ∧ requestId' = requestId) ∨ Sent s b' requestId' t'
  kept : ∀ b' requestId' t', Sent s b' requestId' t' →
    (b' = b ∧ requestId' = requestId) ∨ Sent s' b' requestId' t'
  waits : ∀ id command peers, Waits s' id command peers ↔ Waits s id command peers

/-- A ticket is taken from the maps of requests. -/
structure Gets (s s' : EventService) (b : Behaviour) (requestId : OutboundRequestId) : Prop where
  gone : ∀ t, ¬ Sent s' b requestId t
  old : ∀ b' requestId' t', Sent s' b' requestId' t' → Sent s b' requestId' t'
  kept : ∀ b' requestId' t', Sent s b' requestId' t' →
    (b' = b ∧ requestId' = requestId) ∨ Sent s' b' requestId' t'
  waits : ∀ id command peers, Waits s' id command peers ↔ Waits s id command peers

/-- The command in the hands of the event loop waits for its query. -/
theorem Whole.put (h : Whole (some id) s l) (hp : Puts s s' id command peers)
    (own : queryOf id l = some command) (found : peers ≠ ∅ → Reported id l)
    (unpassed : ¬ Passed id l) : Whole none s' l where
  waiting id' command' peers' hw := by
    obtain ⟨rfl, rfl, rfl⟩ | hw := hp.old id' command' peers' hw
    · exact ⟨own, found, unpassed⟩
    · exact h.waiting id' command' peers' hw
  query id' command' hq _ := by
    -- The command that was in hand waits now, and every other one as before.
    by_cases e : id' = id
    · subst e
      rw [own] at hq
      cases hq
      exact .inl ⟨peers, hp.new⟩
    · obtain ⟨peers', hw⟩ | rest := h.query id' command' hq fun e' => e (Option.some.inj e').symm
      · exact .inl ⟨peers', (hp.kept id' command' peers' hw).resolve_left e⟩
      · exact .inr rest
  sent b requestId id' hs := by
    obtain ⟨hr, command', t, own', ht, kept⟩ := h.sent b requestId id' hs
    refine ⟨hr, command', t, own', ht,
      fun _ => (kept fun e => ?_).imp_left (hp.sent b requestId t).mpr⟩
    cases e
    exact unpassed ⟨b, requestId, hs⟩

/-- A command is taken into the hands of the event loop. -/
theorem Whole.take (h : Whole none s l) (ht : Takes s s' id) : Whole (some id) s' l where
  waiting id' command peers hw := h.waiting id' command peers (ht.old id' command peers hw)
  query id' command hq hx := by
    obtain ⟨peers, hw⟩ | rest := h.query id' command hq (Option.some_ne_none _).symm
    · exact .inl ⟨peers, (ht.kept id' command peers hw).resolve_left
        fun e => hx (congrArg some e.symm)⟩
    · exact .inr rest
  sent b requestId id' hs := by
    obtain ⟨hr, command, t, own, htick, kept⟩ := h.sent b requestId id' hs
    exact ⟨hr, command, t, own, htick,
      fun _ => (kept (Option.some_ne_none _).symm).imp_left (ht.sent b requestId t).mpr⟩

/-- The command in the hands of the event loop is answered. -/
theorem Whole.answer (h : Whole (some id) s l) (own : queryOf id l = some command)
    (ht : ticket? command = some t) : Whole none s (.answered t :: l) := by
  -- The answer is the last the log says, and it is about this ticket only.
  have noted : Whole (some id) s (.answered t :: l) := h.note rfl
  refine ⟨noted.waiting, fun id' command' hq _ => ?_, fun b requestId id' hs => ?_⟩
  · by_cases e : id' = id
    · subst e
      have same : command' = command := Option.some.inj (hq.symm.trans own)
      subst same
      exact .inr (.inr ⟨t, ht, List.mem_cons_self⟩)
    · exact noted.query id' command' hq fun e' => e (Option.some.inj e').symm
  · obtain ⟨hr, command', t', own', ht', kept⟩ := noted.sent b requestId id' hs
    refine ⟨hr, command', t', own', ht', fun _ => ?_⟩
    by_cases e : id' = id
    · subst e
      have same : command' = command := Option.some.inj (own'.symm.trans own)
      subst same
      cases ht'.symm.trans ht
      exact .inr List.mem_cons_self
    · exact kept fun e' => e (Option.some.inj e').symm

/-- The command in the hands of the event loop is passed on to a peer. -/
theorem Whole.hand (h : Whole (some id) s l) (hh : Hands s s' b requestId t)
    (own : queryOf id l = some command) (ht : ticket? command = some t) (unpassed : ¬ Passed id l)
    (gone : ∀ command peers, ¬ Waits s id command peers) (found : Reported id l)
    (new : sentBy b requestId l = none) (hq : currentQuery l = some id) :
    Whole none s' (.sent b requestId :: l) := by
  -- only the ticket of this query moves, from the waiting to the sent ones
  have here : sentBy b requestId (.sent b requestId :: l) = some id := (if_pos ⟨rfl, rfl⟩).trans hq
  have others : ∀ {b' requestId'}, ¬ (b = b' ∧ requestId = requestId') →
      sentBy b' requestId' (.sent b requestId :: l) = sentBy b' requestId' l :=
    fun hne => if_neg hne
  have passed : ∀ {id'}, id' ≠ id → (Passed id' (.sent b requestId :: l) ↔ Passed id' l) := by
    intro id' hne
    constructor
    · rintro ⟨b', requestId', hs⟩
      by_cases e : b = b' ∧ requestId = requestId'
      · obtain ⟨rfl, rfl⟩ := e
        rw [here] at hs
        exact absurd (Option.some.inj hs).symm hne
      · exact ⟨b', requestId', (others e).symm.trans hs⟩
    · rintro ⟨b', requestId', hs⟩
      refine ⟨b', requestId', (others ?_).trans hs⟩
      rintro ⟨rfl, rfl⟩
      rw [new] at hs
      cases hs
  refine ⟨fun id' command' peers' hw => ?_, fun id' command' hq' _ => ?_,
    fun b' requestId' id' hs => ?_⟩
  · have hw := (hh.waits id' command' peers').mp hw
    have hne : id' ≠ id := by
      rintro rfl
      exact gone command' peers' hw
    obtain ⟨own', found', unpassed'⟩ := h.waiting id' command' peers' hw
    exact ⟨own', fun hp => (found' hp).cons _, fun hp => unpassed' ((passed hne).mp hp)⟩
  · by_cases e : id' = id
    · subst e
      exact .inr (.inl ⟨b, requestId, here⟩)
    · obtain ⟨peers', hw⟩ | hp | ha :=
        h.query id' command' hq' fun e' => e (Option.some.inj e').symm
      · exact .inl ⟨peers', (hh.waits id' command' peers').mpr hw⟩
      · exact .inr (.inl ((passed e).mpr hp))
      · exact .inr (.inr (ha.cons _))
  -- the request is new, or one of those before
  · by_cases e : b = b' ∧ requestId = requestId'
    · obtain ⟨rfl, rfl⟩ := e
      rw [here] at hs
      cases hs
      exact ⟨found.cons _, command, t, own, ht, fun _ => .inl hh.new⟩
    · rw [others e] at hs
      obtain ⟨hr, command', t', own', ht', kept⟩ := h.sent b' requestId' id' hs
      refine ⟨hr.cons _, command', t', own', ht', fun _ => ?_⟩
      have apart : some id ≠ some id' := by
        intro e'
        cases e'
        exact unpassed ⟨b', requestId', hs⟩
      obtain hsent | ha := kept apart
      · refine .inl ((hh.kept b' requestId' t' hsent).resolve_left fun same => e ?_)
        exact ⟨same.1.symm, same.2.symm⟩
      · exact .inr (List.mem_cons_of_mem _ ha)

/-- A ticket that waits for its answer is answered. -/
theorem Whole.get (h : Whole none s l) (hg : Gets s s' b requestId) (hs : Sent s b requestId t) :
    Whole none s' (.answered t :: l) := by
  have noted : Whole none s (.answered t :: l) := h.note rfl
  refine ⟨fun id command peers hw => noted.waiting id command peers
    ((hg.waits id command peers).mp hw), fun id command hq hx => ?_, fun b' requestId' id hs' => ?_⟩
  · obtain ⟨peers, hw⟩ | rest := noted.query id command hq hx
    · exact .inl ⟨peers, (hg.waits id command peers).mpr hw⟩
    · exact .inr rest
  · obtain ⟨hr, command, t', own, ht, kept⟩ := noted.sent b' requestId' id hs'
    refine ⟨hr, command, t', own, ht, fun hx => ?_⟩
    obtain hsent | ha := kept hx
    · -- It was the ticket that is answered, or it is still waiting.
      obtain ⟨rfl, rfl⟩ | hsent' := hg.kept b' requestId' t' hsent
      · cases hs.unique hsent
        exact .inr List.mem_cons_self
      · exact .inl hsent'
    · exact .inr ha

/-! ### What the moves leave before the network -/

section Pending

variable {y : Option (Behaviour × OutboundRequestId)}

/-- In the beginning, and after a crash, nothing is in the maps. -/
theorem Pending.new (l : List Entry) : Pending none none .new l where
  waits id command peers h := by
    cases h with
    | metadata h => simp [EventService.new] at h
    | chunk h => simp [EventService.new] at h
  sent b requestId t h := by
    cases h with
    | metadata h => simp [EventService.new] at h
    | chunk h => simp [EventService.new] at h

/-- An entry that adds no event. -/
theorem Pending.cons (h : Pending x y s l) (query : ∀ id, sinceQuery id (e :: l) ⊆ sinceQuery id l)
    (sent : ∀ b requestId, sinceSent b requestId (e :: l) ⊆ sinceSent b requestId l) :
    Pending x y s (e :: l) where
  waits id command peers hw hx event he := h.waits id command peers hw hx event (query id he)
  sent b requestId t hs hy event he :=
    h.sent b requestId t hs hy event (sent b requestId he)

theorem Pending.cons_command (h : Pending x y s l) (command : P2pCommand) :
    Pending x y s (.command command :: l) :=
  h.cons (fun _ => List.Subset.refl _) fun _ _ => List.Subset.refl _

theorem Pending.cons_answered (h : Pending x y s l) (t : Ticket) :
    Pending x y s (.answered t :: l) :=
  h.cons (fun _ => List.Subset.refl _) fun _ _ => List.Subset.refl _

/-- A query that was just started is under way. -/
theorem Pending.startQuery (h : Pending x y s l) (id : QueryId) :
    Pending x y s (.query id :: l) ∧ UnderWay id (.query id :: l) := by
  refine ⟨h.cons (fun id' event he => ?_) fun _ _ => List.Subset.refl _, fun event he => ?_⟩
  · rw [sinceQuery] at he
    split at he
    · cases he
    · exact he
  · rw [sinceQuery, if_pos rfl] at he
    cases he

/-- An event ends one query or answers one request, or none. -/
theorem Pending.event (h : Pending none none s l) (event : SwarmEvent) :
    Pending (finishes? event) (responds? event) s (.event event :: l) where
  waits id command peers hw hx event' he := by
    -- The event is the one that just came, or one that was there before.
    obtain rfl | he := List.mem_cons.mp he
    · exact hx
    · exact h.waits id command peers hw (Option.some_ne_none id).symm event' he
  sent b requestId t hs hy event' he := by
    obtain rfl | he := List.mem_cons.mp he
    · exact hy
    · exact h.sent b requestId t hs (Option.some_ne_none _).symm event' he

/-- Maps with nothing in them but what was there, and without the query
and the request that were left. -/
theorem Pending.less (h : Pending x y s l)
    (waits : ∀ id command peers, Waits s' id command peers →
      Waits s id command peers ∧ x ≠ some id)
    (sent : ∀ b requestId t, Sent s' b requestId t →
      Sent s b requestId t ∧ y ≠ some (b, requestId)) : Pending none none s' l where
  waits id command peers hw _ := by
    obtain ⟨hw, hx⟩ := waits id command peers hw
    exact h.waits id command peers hw hx
  sent b requestId t hs _ := by
    obtain ⟨hs, hy⟩ := sent b requestId t hs
    exact h.sent b requestId t hs hy

/-- The query is taken from the maps. -/
theorem Pending.take (h : Pending x none s l) (ht : Takes s s' id) (hx : x = none ∨ x = some id) :
    Pending none none s' l :=
  h.less (fun id' command peers hw => ⟨ht.old id' command peers hw, by
    rintro rfl
    obtain e | e := hx <;> cases e
    exact ht.gone command peers hw⟩)
    fun b requestId t hs => ⟨(ht.sent b requestId t).mp hs, (Option.some_ne_none _).symm⟩

/-- Nothing waits for the query. -/
theorem Pending.forget (h : Pending (some id) none s l)
    (gone : ∀ command peers, ¬ Waits s id command peers) : Pending none none s l :=
  h.less (fun id' command peers hw => ⟨hw, by
    rintro ⟨⟩
    exact gone command peers hw⟩)
    fun b requestId t hs => ⟨hs, (Option.some_ne_none _).symm⟩

/-- The request is taken from the maps. -/
theorem Pending.get (h : Pending none (some (b, requestId)) s l) (hg : Gets s s' b requestId) :
    Pending none none s' l :=
  h.less (fun id command peers hw =>
    ⟨(hg.waits id command peers).mp hw, (Option.some_ne_none _).symm⟩)
    fun b' requestId' t hs => ⟨hg.old b' requestId' t hs, by
      rintro ⟨⟩
      exact hg.gone t hs⟩

/-- Nothing waits for the response. -/
theorem Pending.unknown (h : Pending none (some (b, requestId)) s l)
    (gone : ∀ t, ¬ Sent s b requestId t) : Pending none none s l :=
  h.less (fun id command peers hw => ⟨hw, (Option.some_ne_none _).symm⟩)
    fun b' requestId' t hs => ⟨hs, by
      rintro ⟨⟩
      exact gone t hs⟩

/-- A command waits for a query that is under way. -/
theorem Pending.put (h : Pending none none s l) (hp : Puts s s' id command peers)
    (under : UnderWay id l) : Pending none none s' l where
  waits id' command' peers' hw _ := by
    obtain ⟨rfl, -, -⟩ | hw := hp.old id' command' peers' hw
    · exact under
    · exact h.waits id' command' peers' hw (Option.some_ne_none id').symm
  sent b requestId t hs hy := h.sent b requestId t ((hp.sent b requestId t).mp hs) hy

/-- An outbound request that was just made is unanswered. -/
theorem Pending.hand (h : Pending none none s l) (hh : Hands s s' b requestId t) :
    Pending none none s' (.sent b requestId :: l) where
  waits id' command peers hw hx :=
    h.waits id' command peers ((hh.waits id' command peers).mp hw) hx
  sent b' requestId' t' hs hy event he := by
    rw [sinceSent] at he
    -- Nothing has happened since the request, which is the latest entry.
    split at he
    · cases he
    · next other =>
        obtain ⟨rfl, rfl⟩ | hs := hh.old b' requestId' t' hs
        · exact absurd ⟨rfl, rfl⟩ other
        · exact h.sent b' requestId' t' hs hy event he

end Pending

/-! ### The moves of the handlers -/

section Maps

variable {V : Type} {m : ExtTreeMap Nat V} {k k' : Nat} {y : V}

theorem get_insert_of_ne (hne : k' ≠ k) : (m.insert k y)[k']? = m[k']? := by
  rw [ExtTreeMap.getElem?_insert, if_neg fun e => hne (LawfulEqCmp.eq_of_compare e).symm]

theorem get_erase_of_ne (hne : k' ≠ k) : (m.erase k)[k']? = m[k']? := by
  rw [ExtTreeMap.getElem?_erase, if_neg fun e => hne (LawfulEqCmp.eq_of_compare e).symm]

end Maps

/-- The maps of queries are the same. -/
theorem waits_iff (hm : s'.metadataProvidersRequests = s.metadataProvidersRequests)
    (hc : s'.fileChunkProvidersRequests = s.fileChunkProvidersRequests) :
    Waits s' id command peers ↔ Waits s id command peers := by
  constructor
  · intro hw
    cases hw with
    | metadata h => exact .metadata (hm ▸ h)
    | chunk h => exact .chunk (hc ▸ h)
  · intro hw
    cases hw with
    | metadata h => exact .metadata (hm.symm ▸ h)
    | chunk h => exact .chunk (hc.symm ▸ h)

/-- The maps of requests are the same. -/
theorem sent_iff (hm : s'.metadataDownloadRequests = s.metadataDownloadRequests)
    (hc : s'.fileDownloadRequests = s.fileDownloadRequests) :
    Sent s' b requestId t ↔ Sent s b requestId t := by
  constructor
  · intro hs
    cases hs with
    | metadata h => exact .metadata (hm ▸ h)
    | chunk h => exact .chunk (hc ▸ h)
  · intro hs
    cases hs with
    | metadata h => exact .metadata (hm.symm ▸ h)
    | chunk h => exact .chunk (hc.symm ▸ h)

theorem puts_metadata (s : EventService) (id : QueryId)
    (data : ProvidersRequestData MetadataFileRequest FileMetadata) :
    Puts s { s with metadataProvidersRequests := s.metadataProvidersRequests.insert id data } id
      (.requestMetadata data.request data.result) data.foundProviders where
  new := .metadata ExtTreeMap.getElem?_insert_self
  old id' command' peers' hw := by
    cases hw with
    | metadata h =>
        obtain ⟨rfl, rfl⟩ | h := get_of_insert h
        · exact .inl ⟨rfl, rfl, rfl⟩
        · exact .inr (.metadata h)
    | chunk h => exact .inr (.chunk h)
  kept id' command' peers' hw := by
    by_cases e : id' = id
    · exact .inl e
    · cases hw with
      | metadata h => exact .inr (.metadata ((get_insert_of_ne e).trans h))
      | chunk h => exact .inr (.chunk h)
  sent _ _ _ := sent_iff rfl rfl

theorem puts_chunk (s : EventService) (id : QueryId)
    (data : ProvidersRequestData FileChunkRequest FileResponse) :
    Puts s { s with fileChunkProvidersRequests := s.fileChunkProvidersRequests.insert id data } id
      (.requestFileChunk data.request data.result) data.foundProviders where
  new := .chunk ExtTreeMap.getElem?_insert_self
  old id' command' peers' hw := by
    cases hw with
    | metadata h => exact .inr (.metadata h)
    | chunk h =>
        obtain ⟨rfl, rfl⟩ | h := get_of_insert h
        · exact .inl ⟨rfl, rfl, rfl⟩
        · exact .inr (.chunk h)
  kept id' command' peers' hw := by
    by_cases e : id' = id
    · exact .inl e
    · cases hw with
      | metadata h => exact .inr (.metadata h)
      | chunk h => exact .inr (.chunk ((get_insert_of_ne e).trans h))
  sent _ _ _ := sent_iff rfl rfl

theorem Whole.takes_metadata {data : ProvidersRequestData MetadataFileRequest FileMetadata}
    (h : Whole x s l) (hd : s.metadataProvidersRequests[id]? = some data) :
    Takes s { s with metadataProvidersRequests := s.metadataProvidersRequests.erase id } id where
  gone command peers hw := by
    cases hw with
    | metadata h' => cases ExtTreeMap.getElem?_erase_self.symm.trans h'
    | chunk h' =>
        -- a query has one command
        have own := (h.waiting id _ _ (.metadata hd)).1
        rw [(h.waiting id _ _ (.chunk h')).1] at own
        cases own
  old id' command' peers' hw := by
    cases hw with
    | metadata h => exact .metadata (get_of_erase h)
    | chunk h => exact .chunk h
  kept id' command' peers' hw := by
    by_cases e : id' = id
    · exact .inl e
    · cases hw with
      | metadata h => exact .inr (.metadata ((get_erase_of_ne e).trans h))
      | chunk h => exact .inr (.chunk h)
  sent _ _ _ := sent_iff rfl rfl

theorem Whole.takes_chunk {data : ProvidersRequestData FileChunkRequest FileResponse}
    (h : Whole x s l) (hd : s.fileChunkProvidersRequests[id]? = some data) :
    Takes s { s with fileChunkProvidersRequests := s.fileChunkProvidersRequests.erase id } id where
  gone command peers hw := by
    cases hw with
    | metadata h' =>
        have own := (h.waiting id _ _ (.chunk hd)).1
        rw [(h.waiting id _ _ (.metadata h')).1] at own
        cases own
    | chunk h' => cases ExtTreeMap.getElem?_erase_self.symm.trans h'
  old id' command' peers' hw := by
    cases hw with
    | metadata h => exact .metadata h
    | chunk h => exact .chunk (get_of_erase h)
  kept id' command' peers' hw := by
    by_cases e : id' = id
    · exact .inl e
    · cases hw with
      | metadata h => exact .inr (.metadata h)
      | chunk h => exact .inr (.chunk ((get_erase_of_ne e).trans h))
  sent _ _ _ := sent_iff rfl rfl

theorem hands_metadata (s : EventService) (requestId : OutboundRequestId)
    (result : OneshotSender (Option FileMetadata)) :
    Hands s { s with metadataDownloadRequests := s.metadataDownloadRequests.insert requestId result }
      .metadataDownload requestId (.metadata result) where
  new := .metadata ExtTreeMap.getElem?_insert_self
  old b' requestId' t' hs := by
    cases hs with
    | metadata h =>
        obtain ⟨rfl, -⟩ | h := get_of_insert h
        · exact .inl ⟨rfl, rfl⟩
        · exact .inr (.metadata h)
    | chunk h => exact .inr (.chunk h)
  kept b' requestId' t' hs := by
    cases hs with
    | metadata h =>
        by_cases e : requestId' = requestId
        · exact .inl ⟨rfl, e⟩
        · exact .inr (.metadata ((get_insert_of_ne e).trans h))
    | chunk h => exact .inr (.chunk h)
  waits _ _ _ := waits_iff rfl rfl

theorem hands_chunk (s : EventService) (requestId : OutboundRequestId)
    (result : OneshotSender (Option FileResponse)) :
    Hands s { s with fileDownloadRequests := s.fileDownloadRequests.insert requestId result }
      .fileDownload requestId (.chunk result) where
  new := .chunk ExtTreeMap.getElem?_insert_self
  old b' requestId' t' hs := by
    cases hs with
    | metadata h => exact .inr (.metadata h)
    | chunk h =>
        obtain ⟨rfl, -⟩ | h := get_of_insert h
        · exact .inl ⟨rfl, rfl⟩
        · exact .inr (.chunk h)
  kept b' requestId' t' hs := by
    cases hs with
    | metadata h => exact .inr (.metadata h)
    | chunk h =>
        by_cases e : requestId' = requestId
        · exact .inl ⟨rfl, e⟩
        · exact .inr (.chunk ((get_insert_of_ne e).trans h))
  waits _ _ _ := waits_iff rfl rfl

theorem gets_metadata (s : EventService) (requestId : OutboundRequestId) :
    Gets s { s with metadataDownloadRequests := s.metadataDownloadRequests.erase requestId }
      .metadataDownload requestId where
  gone t hs := by
    cases hs with
    | metadata h => cases ExtTreeMap.getElem?_erase_self.symm.trans h
  old b' requestId' t' hs := by
    cases hs with
    | metadata h => exact .metadata (get_of_erase h)
    | chunk h => exact .chunk h
  kept b' requestId' t' hs := by
    cases hs with
    | metadata h =>
        by_cases e : requestId' = requestId
        · exact .inl ⟨rfl, e⟩
        · exact .inr (.metadata ((get_erase_of_ne e).trans h))
    | chunk h => exact .inr (.chunk h)
  waits _ _ _ := waits_iff rfl rfl

theorem gets_chunk (s : EventService) (requestId : OutboundRequestId) :
    Gets s { s with fileDownloadRequests := s.fileDownloadRequests.erase requestId }
      .fileDownload requestId where
  gone t hs := by
    cases hs with
    | chunk h => cases ExtTreeMap.getElem?_erase_self.symm.trans h
  old b' requestId' t' hs := by
    cases hs with
    | metadata h => exact .metadata h
    | chunk h => exact .chunk (get_of_erase h)
  kept b' requestId' t' hs := by
    cases hs with
    | metadata h => exact .inr (.metadata h)
    | chunk h =>
        by_cases e : requestId' = requestId
        · exact .inl ⟨rfl, e⟩
        · exact .inr (.chunk ((get_erase_of_ne e).trans h))
  waits _ _ _ := waits_iff rfl rfl

/-! ### What is over -/

/-- A request that ends without a provider and waits for nothing was
answered. -/
theorem Whole.answered_of_unprovided (h : Whole none s l)
    (gone : ∀ command peers, ¬ Waits s id command peers) (ht : unprovided id l = some t) :
    .answered t ∈ l := by
  unfold unprovided at ht
  split at ht
  · cases ht
  · next unreported =>
      obtain ⟨command, own, ht⟩ := Option.bind_eq_some_iff.mp ht
      -- It neither waits nor was passed on, so it was answered.
      obtain ⟨peers, hw⟩ | ⟨b, requestId, hs⟩ | ⟨t', ht', ha⟩ :=
        h.query id command own (Option.some_ne_none _).symm
      · exact absurd hw (gone command peers)
      · exact absurd (h.sent b requestId id hs).1 unreported
      · cases ht.symm.trans ht'
        exact ha

/-- A request whose outbound request is over waits for it, or was
answered. -/
theorem Whole.sent_or_answered (h : Whole none s l) (ht : ticketOf b requestId l = some t) :
    Sent s b requestId t ∨ .answered t ∈ l := by
  obtain ⟨id, hs, ht⟩ := Option.bind_eq_some_iff.mp ht
  obtain ⟨command, own, ht⟩ := Option.bind_eq_some_iff.mp ht
  obtain ⟨-, command', t', own', ht', kept⟩ := h.sent b requestId id hs
  cases own.symm.trans own'
  cases ht.symm.trans ht'
  exact kept (Option.some_ne_none _).symm

end RustDfs.RequestLog
