import RustDfs.Lib.Tally
import RustDfs.Proofs.LocalPeer

/-!
# `RustDfs.Proofs.Requests`: the requests of the event service

A request is known by the oneshot sender of its command, its `Ticket`.
A ticket is created by the program that asks, goes with the command into
the queue, from there through two of the maps of the event service, and
is used up by the answer. The counts say where a ticket is; `queryOf`
and the two `Asked` relations say which query and which outbound request
belong to a command.

`Good` is what the maps must be: nothing is in more places than it was
issued, and each entry has its command behind it. The lemmas at the end
say that a handler which takes a ticket out of a map holds it alone, and
may put it into another.
-/

set_option autoImplicit false

namespace RustDfs.Requests

open Lib Conc Std
open LocalPeer (reported?)

/-- The oneshot sender of a request. -/
inductive Ticket where
  | metadata (result : OneshotSender (Option FileMetadata))
  | chunk (result : OneshotSender (Option FileResponse))
deriving DecidableEq

/-- The ticket a command carries. -/
def ticket? : P2pCommand → Option Ticket
  | .requestMetadata _ result => some (.metadata result)
  | .requestFileChunk _ result => some (.chunk result)
  | _ => none

/-! ### What an event is for a ticket -/

/-- A program makes the channel of a request. -/
def created? : NodeEvent → Option (Slot × Ticket)
  | .op i (.chan (.metadata .channel)) result => some (i, .metadata result)
  | .op i (.chan (.chunk .channel)) result => some (i, .chunk result)
  | _ => none

/-- The command of a request is put into the queue. -/
def issued? : NodeEvent → Option Ticket
  | .op _ (.chan (.sendCommand command)) (.ok _) => ticket? command
  | _ => none

/-- A request is answered. -/
def answered? : NodeEvent → Option Ticket
  | .op _ (.chan (.metadata (.send result _))) _ => some (.metadata result)
  | .op _ (.chan (.chunk (.send result _))) _ => some (.chunk result)
  | _ => none

/-- The event loop takes a command. -/
def command? : NodeEvent → Option P2pCommand
  | .op _ (.chan .recvCommand) command => some command
  | _ => none

/-- A provider query starts. -/
def query? : NodeEvent → Option QueryId
  | .op _ (.swarm (.getProviders _)) id => some id
  | _ => none

/-! ### Where a ticket is -/

/-- In the queue of commands. -/
def queued (t : Ticket) (w : World) : Nat := (w.chan.commands.filterMap ticket?).count t

/-- In the four maps. -/
def held (s : EventService) (t : Ticket) : Nat :=
  tally s.metadataProvidersRequests (fun data => Ticket.metadata data.result = t) +
    tally s.fileChunkProvidersRequests (fun data => Ticket.chunk data.result = t) +
    tally s.metadataDownloadRequests (fun result => Ticket.metadata result = t) +
    tally s.fileDownloadRequests (fun result => Ticket.chunk result = t)

/-- How often its command was issued. -/
def issued (t : Ticket) (h : List NodeEvent) : Nat := (h.filterMap issued?).count t

/-- How often it was answered. -/
def answered (t : Ticket) (h : List NodeEvent) : Nat := (h.filterMap answered?).count t

/-- The slot that created it. -/
def creator (t : Ticket) : List NodeEvent → Option Slot
  | [] => none
  | e :: h =>
      match created? e with
      | some (i, t') => if t' = t then some i else creator t h
      | none => creator t h

/-- It does not exist yet. -/
def Unborn (w : World) : Ticket → Prop
  | .metadata result => w.chan.metadata.next ≤ result.id
  | .chunk result => w.chan.chunks.next ≤ result.id

/-! ### What belongs to a command -/

/-- The command the event loop took last. -/
def current : List NodeEvent → Option P2pCommand
  | [] => none
  | e :: h =>
      match command? e with
      | some command => some command
      | none => current h

/-- The command a provider query was started for. -/
def queryOf (id : QueryId) : List NodeEvent → Option P2pCommand
  | [] => none
  | e :: h =>
      match query? e with
      | some id' => if id' = id then current h else queryOf id h
      | none => queryOf id h

/-- The query reported the peer as a provider. -/
def Reported (id : QueryId) (peer : PeerId) (h : List NodeEvent) : Prop :=
  ∃ e ∈ h, ∃ peers, reported? e = some (id, peers) ∧ peer ∈ peers

/-- The metadata request `requestId` was sent to a peer, and before that a
query was started for the command with this request and sender, which
reported the peer. -/
def AskedMetadata (requestId : OutboundRequestId) (request : MetadataFileRequest)
    (result : OneshotSender (Option FileMetadata)) (h : List NodeEvent) : Prop :=
  ∃ i peer id before,
    .op i (.swarm (.sendMetadataRequest peer request)) requestId :: before <:+ h ∧
      queryOf id before = some (.requestMetadata request result) ∧ Reported id peer before

/-- The chunk request `requestId` was sent to a peer, and before that a query
was started for the command with this request and sender, which reported
the peer. -/
def AskedChunk (requestId : OutboundRequestId) (request : FileChunkRequest)
    (result : OneshotSender (Option FileResponse)) (h : List NodeEvent) : Prop :=
  ∃ i peer id before,
    .op i (.swarm (.sendFileRequest peer request)) requestId :: before <:+ h ∧
      queryOf id before = some (.requestFileChunk request result) ∧ Reported id peer before

variable {t : Ticket} {id : QueryId} {peer : PeerId} {requestId : OutboundRequestId}
  {h h' : List NodeEvent} {e : NodeEvent}

theorem issued_cons_none (he : issued? e = none) : issued t (e :: h) = issued t h := by
  rw [issued, List.filterMap_cons_none he]
  rfl

theorem answered_cons_none (he : answered? e = none) : answered t (e :: h) = answered t h := by
  rw [answered, List.filterMap_cons_none he]
  rfl

theorem issued_cons {t' : Ticket} (he : issued? e = some t') :
    issued t (e :: h) = issued t h + if t' = t then 1 else 0 := by
  rw [issued, List.filterMap_cons_some he, List.count_cons]
  simp only [issued, beq_iff_eq]

theorem answered_cons {t' : Ticket} (he : answered? e = some t') :
    answered t (e :: h) = answered t h + if t' = t then 1 else 0 := by
  rw [answered, List.filterMap_cons_some he, List.count_cons]
  simp only [answered, beq_iff_eq]

theorem creator_cons_none (he : created? e = none) : creator t (e :: h) = creator t h := by
  rw [creator, he]

theorem current_cons_none (he : command? e = none) : current (e :: h) = current h := by
  rw [current, he]

theorem queryOf_cons_none (he : query? e = none) : queryOf id (e :: h) = queryOf id h := by
  rw [queryOf, he]

theorem Reported.mono (hs : h <:+ h') (hr : Reported id peer h) : Reported id peer h' := by
  obtain ⟨e, he, found⟩ := hr
  exact ⟨e, hs.mem he, found⟩

theorem AskedMetadata.mono {request : MetadataFileRequest}
    {result : OneshotSender (Option FileMetadata)} (hs : h <:+ h')
    (ha : AskedMetadata requestId request result h) :
    AskedMetadata requestId request result h' := by
  obtain ⟨i, peer, id, before, sent, own⟩ := ha
  exact ⟨i, peer, id, before, sent.trans hs, own⟩

theorem AskedChunk.mono {request : FileChunkRequest}
    {result : OneshotSender (Option FileResponse)} (hs : h <:+ h')
    (ha : AskedChunk requestId request result h) : AskedChunk requestId request result h' := by
  obtain ⟨i, peer, id, before, sent, own⟩ := ha
  exact ⟨i, peer, id, before, sent.trans hs, own⟩

theorem held_new : held .new t = 0 := by
  simp [held, EventService.new]

/-! ### What the maps must be -/

variable {s : EventService} {v v' v'' : NodeView}

/-- What stands behind the entries of the maps. -/
structure Kept (s : EventService) (h : List NodeEvent) : Prop where
  metadataProviders : ∀ id data, s.metadataProvidersRequests[id]? = some data →
    queryOf id h = some (.requestMetadata data.request data.result) ∧
      ∀ peer ∈ data.foundProviders, Reported id peer h
  chunkProviders : ∀ id data, s.fileChunkProvidersRequests[id]? = some data →
    queryOf id h = some (.requestFileChunk data.request data.result) ∧
      ∀ peer ∈ data.foundProviders, Reported id peer h
  metadataDownloads : ∀ requestId result, s.metadataDownloadRequests[requestId]? = some result →
    ∃ request, AskedMetadata requestId request result h
  chunkDownloads : ∀ requestId result, s.fileDownloadRequests[requestId]? = some result →
    ∃ request, AskedChunk requestId request result h

/-- With these maps no ticket is in more places than it was issued. -/
def Stocked (s : EventService) (v : NodeView) : Prop :=
  ∀ t, queued t v.world + held s t + answered t v.hist ≤ issued t v.hist

/-- With these maps the ticket is in nobody else's hands. -/
def Spare (t : Ticket) (s : EventService) (v : NodeView) : Prop :=
  queued t v.world + held s t + answered t v.hist + 1 ≤ issued t v.hist

/-- The maps may be these. -/
structure Good (s : EventService) (v : NodeView) : Prop where
  kept : Kept s v.hist
  stocked : Stocked s v

/-- Nothing happens to the commands and queries that are under way; new
commands may be queued. -/
structure Quiet (v v' : NodeView) : Prop where
  hist : v.hist <:+ v'.hist
  current : current v'.hist = current v.hist
  queries : ∀ id, queryOf id v'.hist = queryOf id v.hist
  answered : ∀ t, answered t v'.hist = answered t v.hist
  queue : ∀ t, queued t v'.world + issued t v.hist ≤ queued t v.world + issued t v'.hist

theorem Quiet.refl (v : NodeView) : Quiet v v :=
  ⟨List.suffix_rfl, rfl, fun _ => rfl, fun _ => rfl, fun _ => le_rfl⟩

theorem Quiet.trans (h : Quiet v v') (h' : Quiet v' v'') : Quiet v v'' where
  hist := h.hist.trans h'.hist
  current := h'.current.trans h.current
  queries id := (h'.queries id).trans (h.queries id)
  answered t := (h'.answered t).trans (h.answered t)
  queue t := by
    have := h.queue t
    have := h'.queue t
    omega

/-- What stands behind the entries stays. -/
theorem Kept.mono (hs : h <:+ h') (hq : ∀ id, queryOf id h ≠ none → queryOf id h' = queryOf id h)
    (hk : Kept s h) : Kept s h' where
  metadataProviders id data hd := by
    obtain ⟨own, found⟩ := hk.metadataProviders id data hd
    exact ⟨(hq id (by rw [own]; exact nofun)).trans own, fun peer hp => (found peer hp).mono hs⟩
  chunkProviders id data hd := by
    obtain ⟨own, found⟩ := hk.chunkProviders id data hd
    exact ⟨(hq id (by rw [own]; exact nofun)).trans own, fun peer hp => (found peer hp).mono hs⟩
  metadataDownloads requestId result hr := by
    obtain ⟨request, asked⟩ := hk.metadataDownloads requestId result hr
    exact ⟨request, asked.mono hs⟩
  chunkDownloads requestId result hr := by
    obtain ⟨request, asked⟩ := hk.chunkDownloads requestId result hr
    exact ⟨request, asked.mono hs⟩

theorem Stocked.stable (hq : Quiet v v') (hs : Stocked s v) : Stocked s v' := fun t => by
  have := hs t
  have := hq.queue t
  rw [hq.answered]
  omega

theorem Spare.stable (hq : Quiet v v') (hs : Spare t s v) : Spare t s v' := by
  have := hq.queue t
  rw [Spare, hq.answered]
  rw [Spare] at hs
  omega

theorem Good.stable (hq : Quiet v v') (hs : Good s v) : Good s v' :=
  ⟨hs.kept.mono hq.hist fun id _ => hq.queries id, hs.stocked.stable hq⟩

/-- In the beginning, and after a crash, the maps are empty. -/
theorem Kept.new (h : List NodeEvent) : Kept .new h := by
  constructor
  · intro id data hd
    simp [EventService.new] at hd
  · intro id data hd
    simp [EventService.new] at hd
  · intro id data hd
    simp [EventService.new] at hd
  · intro id data hd
    simp [EventService.new] at hd

/-- A query has one command, so it is waited for in one map. -/
theorem Kept.apart (hk : Kept s h) (id : QueryId) :
    s.metadataProvidersRequests[id]? = none ∨ s.fileChunkProvidersRequests[id]? = none := by
  cases hm : s.metadataProvidersRequests[id]? with
  | none => exact .inl rfl
  | some metadata =>
      cases hc : s.fileChunkProvidersRequests[id]? with
      | none => exact .inr rfl
      | some chunk =>
          have own := (hk.metadataProviders id metadata hm).1
          rw [(hk.chunkProviders id chunk hc).1] at own
          cases own

/-! ### Moving a ticket -/

/-- A ticket in nobody else's hands goes into a map. -/
theorem Stocked.put {s₀ s' : EventService} {t : Ticket} (hs : Stocked s v)
    (less : ∀ t, held s₀ t ≤ held s t)
    (added : ∀ t', held s' t' = held s₀ t' + if t = t' then 1 else 0) (spare : Spare t s₀ v) :
    Stocked s' v := by
  intro t'
  have stocked := hs t'
  have less := less t'
  have added := added t'
  split at added
  · next e =>
      subst e
      rw [Spare] at spare
      omega
  · omega

/-- A ticket that is taken out of a map. -/
theorem Stocked.take (hs : Stocked s v) (t : Ticket) (s₀ : EventService)
    (taken : ∀ t', held s₀ t' + (if t = t' then 1 else 0) = held s t') :
    Stocked s₀ v ∧ Spare t s₀ v := by
  refine ⟨fun t' => ?_, ?_⟩
  · have stocked := hs t'
    have taken := taken t'
    omega
  · have stocked := hs t
    have taken := taken t
    rw [if_pos rfl] at taken
    rw [Spare]
    omega

theorem Spare.less {s₀ : EventService} (less : held s₀ t ≤ held s t) (hs : Spare t s v) :
    Spare t s₀ v := by
  rw [Spare] at hs ⊢
  omega

theorem get_of_erase {V : Type} {m : ExtTreeMap Nat V} {k k' : Nat} {x : V}
    (h : (m.erase k)[k']? = some x) : m[k']? = some x := by
  rw [ExtTreeMap.getElem?_erase] at h
  split at h
  · cases h
  · exact h

theorem get_of_insert {V : Type} {m : ExtTreeMap Nat V} {k k' : Nat} {x y : V}
    (h : (m.insert k x)[k']? = some y) : (k' = k ∧ y = x) ∨ m[k']? = some y := by
  rw [ExtTreeMap.getElem?_insert] at h
  split at h
  · next e =>
      cases h
      exact .inl ⟨(LawfulEqCmp.eq_of_compare e).symm, rfl⟩
  · exact .inr h

section Maps

variable {metadata : ProvidersRequestData MetadataFileRequest FileMetadata}
  {chunk : ProvidersRequestData FileChunkRequest FileResponse}
  {metadataResult : OneshotSender (Option FileMetadata)}
  {chunkResult : OneshotSender (Option FileResponse)}

theorem held_erase_le (s : EventService) (id : Nat) (t : Ticket) :
    held { s with metadataProvidersRequests := s.metadataProvidersRequests.erase id } t ≤ held s t ∧
    held { s with fileChunkProvidersRequests := s.fileChunkProvidersRequests.erase id } t ≤
      held s t ∧
    held { s with metadataDownloadRequests := s.metadataDownloadRequests.erase id } t ≤ held s t ∧
    held { s with fileDownloadRequests := s.fileDownloadRequests.erase id } t ≤ held s t := by
  have le₁ := tally_erase_le (m := s.metadataProvidersRequests) (k := id)
    (p := fun data => Ticket.metadata data.result = t)
  have le₂ := tally_erase_le (m := s.fileChunkProvidersRequests) (k := id)
    (p := fun data => Ticket.chunk data.result = t)
  have le₃ := tally_erase_le (m := s.metadataDownloadRequests) (k := id)
    (p := fun result => Ticket.metadata result = t)
  have le₄ := tally_erase_le (m := s.fileDownloadRequests) (k := id)
    (p := fun result => Ticket.chunk result = t)
  simp only [held]
  omega

/-- A metadata request waits for a query. -/
theorem Good.insertMetadataProvider (hs : Good s v)
    (metadata : ProvidersRequestData MetadataFileRequest FileMetadata)
    (own : queryOf id v.hist = some (.requestMetadata metadata.request metadata.result))
    (found : ∀ peer ∈ metadata.foundProviders, Reported id peer v.hist)
    (spare : Spare (.metadata metadata.result)
      { s with metadataProvidersRequests := s.metadataProvidersRequests.erase id } v) :
    Good { s with
      metadataProvidersRequests := s.metadataProvidersRequests.insert id metadata } v where
  kept := by
    refine ⟨fun id' data hd => ?_, hs.kept.chunkProviders, hs.kept.metadataDownloads,
      hs.kept.chunkDownloads⟩
    obtain ⟨rfl, rfl⟩ | hd := get_of_insert hd
    · exact ⟨own, found⟩
    · exact hs.kept.metadataProviders id' data hd
  stocked := by
    refine hs.stocked.put (fun t => (held_erase_le s id t).1) (fun t => ?_) spare
    simp only [held, tally_insert]
    omega

/-- A chunk request waits for a query. -/
theorem Good.insertChunkProvider (hs : Good s v)
    (chunk : ProvidersRequestData FileChunkRequest FileResponse)
    (own : queryOf id v.hist = some (.requestFileChunk chunk.request chunk.result))
    (found : ∀ peer ∈ chunk.foundProviders, Reported id peer v.hist)
    (spare : Spare (.chunk chunk.result)
      { s with fileChunkProvidersRequests := s.fileChunkProvidersRequests.erase id } v) :
    Good { s with
      fileChunkProvidersRequests := s.fileChunkProvidersRequests.insert id chunk } v where
  kept := by
    refine ⟨hs.kept.metadataProviders, fun id' data hd => ?_, hs.kept.metadataDownloads,
      hs.kept.chunkDownloads⟩
    obtain ⟨rfl, rfl⟩ | hd := get_of_insert hd
    · exact ⟨own, found⟩
    · exact hs.kept.chunkProviders id' data hd
  stocked := by
    refine hs.stocked.put (fun t => (held_erase_le s id t).2.1) (fun t => ?_) spare
    simp only [held, tally_insert]
    omega

/-- A metadata request waits for its answer. -/
theorem Good.insertMetadataDownload {request : MetadataFileRequest} (hs : Good s v)
    (asked : AskedMetadata requestId request metadataResult v.hist)
    (spare : Spare (.metadata metadataResult) s v) :
    Good { s with
      metadataDownloadRequests := s.metadataDownloadRequests.insert requestId metadataResult } v
      where
  kept := by
    refine ⟨hs.kept.metadataProviders, hs.kept.chunkProviders, fun requestId' result hr => ?_,
      hs.kept.chunkDownloads⟩
    obtain ⟨rfl, rfl⟩ | hr := get_of_insert hr
    · exact ⟨request, asked⟩
    · exact hs.kept.metadataDownloads requestId' result hr
  stocked := by
    refine hs.stocked.put (fun t => (held_erase_le s requestId t).2.2.1) (fun t => ?_)
      (spare.less (held_erase_le s requestId _).2.2.1)
    simp only [held, tally_insert]
    omega

/-- A chunk request waits for its answer. -/
theorem Good.insertChunkDownload {request : FileChunkRequest} (hs : Good s v)
    (asked : AskedChunk requestId request chunkResult v.hist)
    (spare : Spare (.chunk chunkResult) s v) :
    Good { s with
      fileDownloadRequests := s.fileDownloadRequests.insert requestId chunkResult } v where
  kept := by
    refine ⟨hs.kept.metadataProviders, hs.kept.chunkProviders, hs.kept.metadataDownloads,
      fun requestId' result hr => ?_⟩
    obtain ⟨rfl, rfl⟩ | hr := get_of_insert hr
    · exact ⟨request, asked⟩
    · exact hs.kept.chunkDownloads requestId' result hr
  stocked := by
    refine hs.stocked.put (fun t => (held_erase_le s requestId t).2.2.2) (fun t => ?_)
      (spare.less (held_erase_le s requestId _).2.2.2)
    simp only [held, tally_insert]
    omega

/-- A metadata request is taken from its query. -/
theorem Good.takeMetadataProvider (hs : Good s v)
    (hd : s.metadataProvidersRequests[id]? = some metadata) :
    Good { s with metadataProvidersRequests := s.metadataProvidersRequests.erase id } v ∧
      Spare (.metadata metadata.result)
        { s with metadataProvidersRequests := s.metadataProvidersRequests.erase id } v := by
  obtain ⟨stocked, spare⟩ := hs.stocked.take (.metadata metadata.result)
    { s with metadataProvidersRequests := s.metadataProvidersRequests.erase id }
    fun t => by
      have taken := tally_erase (p := fun data => Ticket.metadata data.result = t) hd
      simp only [held]
      omega
  exact ⟨⟨⟨fun id' data h => hs.kept.metadataProviders id' data (get_of_erase h),
    hs.kept.chunkProviders, hs.kept.metadataDownloads, hs.kept.chunkDownloads⟩, stocked⟩, spare⟩

/-- A chunk request is taken from its query. -/
theorem Good.takeChunkProvider (hs : Good s v)
    (hd : s.fileChunkProvidersRequests[id]? = some chunk) :
    Good { s with fileChunkProvidersRequests := s.fileChunkProvidersRequests.erase id } v ∧
      Spare (.chunk chunk.result)
        { s with fileChunkProvidersRequests := s.fileChunkProvidersRequests.erase id } v := by
  obtain ⟨stocked, spare⟩ := hs.stocked.take (.chunk chunk.result)
    { s with fileChunkProvidersRequests := s.fileChunkProvidersRequests.erase id }
    fun t => by
      have taken := tally_erase (p := fun data => Ticket.chunk data.result = t) hd
      simp only [held]
      omega
  exact ⟨⟨⟨hs.kept.metadataProviders,
    fun id' data h => hs.kept.chunkProviders id' data (get_of_erase h),
    hs.kept.metadataDownloads, hs.kept.chunkDownloads⟩, stocked⟩, spare⟩

/-- A metadata request gets its answer. -/
theorem Good.takeMetadataDownload (hs : Good s v)
    (hr : s.metadataDownloadRequests[requestId]? = some metadataResult) :
    Good { s with metadataDownloadRequests := s.metadataDownloadRequests.erase requestId } v ∧
      Spare (.metadata metadataResult)
        { s with metadataDownloadRequests := s.metadataDownloadRequests.erase requestId } v := by
  obtain ⟨stocked, spare⟩ := hs.stocked.take (.metadata metadataResult)
    { s with metadataDownloadRequests := s.metadataDownloadRequests.erase requestId }
    fun t => by
      have taken := tally_erase (p := fun result => Ticket.metadata result = t) hr
      simp only [held]
      omega
  exact ⟨⟨⟨hs.kept.metadataProviders, hs.kept.chunkProviders,
    fun id result h => hs.kept.metadataDownloads id result (get_of_erase h),
    hs.kept.chunkDownloads⟩, stocked⟩, spare⟩

/-- A chunk request gets its answer. -/
theorem Good.takeChunkDownload (hs : Good s v)
    (hr : s.fileDownloadRequests[requestId]? = some chunkResult) :
    Good { s with fileDownloadRequests := s.fileDownloadRequests.erase requestId } v ∧
      Spare (.chunk chunkResult)
        { s with fileDownloadRequests := s.fileDownloadRequests.erase requestId } v := by
  obtain ⟨stocked, spare⟩ := hs.stocked.take (.chunk chunkResult)
    { s with fileDownloadRequests := s.fileDownloadRequests.erase requestId }
    fun t => by
      have taken := tally_erase (p := fun result => Ticket.chunk result = t) hr
      simp only [held]
      omega
  exact ⟨⟨⟨hs.kept.metadataProviders, hs.kept.chunkProviders, hs.kept.metadataDownloads,
    fun id result h => hs.kept.chunkDownloads id result (get_of_erase h)⟩, stocked⟩, spare⟩

end Maps

end RustDfs.Requests
