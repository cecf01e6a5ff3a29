import RustDfs.Conc.Solo
import RustDfs.Model.Network
import RustDfs.Model.Reference
import RustDfs.Proofs.Tasks

/-!
# `RustDfs.Proofs.Serving`: what a node answers to its peers

The event loop takes a request of a peer, reads records and files, and
responds. `Talk` is the shape of what it does about requests: one request
after the other, and to each one response that the reads in between
account for (`Answers`). `served` says that every run of a node has this
shape, whatever the reads come back with.

A `Success` carries bytes that were read for this very request: the
metadata file in the directory of the published record, or the chunk file
that such a metadata names. A chunk of a pending download is given out
only when the record says that it was downloaded.
-/

set_option autoImplicit false

namespace RustDfs.Serving

open Lib Conc Prog

/-! ### Requests, reads and responses -/

/-- What the event loop reads for a request. -/
inductive Read where
  | published (key : PublishedFileKey)
      (answer : Except FileStoreError (Option PublishedFileRecord))
  | pending (key : PublishedFileKey)
      (answer : Except FileStoreError (Option PendingDownloadRecord))
  | file (path : PathBuf) (answer : Except IoError Bytes)
deriving DecidableEq

/-- The text of a read that failed. -/
def Read.error? : Read → Option String
  | .published _ (.error e) => some e.text
  | .pending _ (.error e) => some e.text
  | .file _ (.error e) => some e.text
  | _ => none

/-- What the event loop does about requests. -/
inductive Entry where
  | asked (request : PeerRequest) (channel : ResponseChannel)
  | read (x : Read)
  | replied (channel : ResponseChannel) (response : FileResponse)
  | crashed
deriving DecidableEq

def logged? : NodeEvent → Option Entry
  | .op _ (.swarm .selectNextSome) (.metadataDownload (.request request channel)) =>
      some (.asked (.metadata request) channel)
  | .op _ (.swarm .selectNextSome) (.fileDownload (.request request channel)) =>
      some (.asked (.chunk request) channel)
  | .op _ (.store (.getPublishedFile key)) answer => some (.read (.published key answer))
  | .op _ (.store (.getPendingDownload key)) answer => some (.read (.pending key answer))
  | .op _ (.fs (.read path)) answer => some (.read (.file path answer))
  | .op _ (.swarm (.sendResponse channel response)) _ => some (.replied channel response)
  | .crash => some .crashed
  | _ => none

/-- What the event loop did about requests, the latest first. -/
def talk (h : List NodeEvent) : List Entry := (own (L := lang) slotOf .eventLoop h).filterMap logged?

/-! ### Responses that are accounted for -/

section Answers

variable [Platform]

/-- The directory a chunk is looked up in: that of the published record,
or, where there is none, that of the pending record which says that the
chunk was downloaded. -/
inductive Located (request : FileChunkRequest) (reads : List Read) : PathBuf → Prop
  | published {record : PublishedFileRecord}
      (h : .published (.ofU64 request.fileId) (.ok (some record)) ∈ reads) :
      Located request reads record.chunksDir
  | pending {record : PendingDownloadRecord}
      (none : .published (.ofU64 request.fileId) (.ok none) ∈ reads)
      (h : .pending (.ofU64 request.fileId) (.ok (some record)) ∈ reads)
      (downloaded : request.chunkId ∈ record.downloadedChunks) :
      Located request reads record.chunksDir

/-- The reads found this metadata for the chunk. -/
def Described (request : FileChunkRequest) (reads : List Read)
    (decoded : Except String FileMetadata) : Prop :=
  ∃ dir data, Located request reads dir ∧ .file (metadataPath dir) (.ok data) ∈ reads ∧
    Platform.decodeMetadata data = decoded

/-- The response to a metadata request.
- `success`: there is a published record, and the data are the metadata
  file of its directory,
- `notFound`: there is no published record,
- `error`: a read failed with this text. -/
def AnswersMetadata (request : MetadataFileRequest) (reads : List Read) : FileResponse → Prop
  | .success data => ∃ record,
      .published (.ofU64 request.fileId) (.ok (some record)) ∈ reads ∧
        .file (metadataPath record.chunksDir) (.ok data) ∈ reads
  | .notFound => .published (.ofU64 request.fileId) (.ok none) ∈ reads
  | .error text => ∃ x ∈ reads, x.error? = some text

/-- The response to a chunk request.
- `success`: a metadata was found for the chunk, the number is one of its
  chunks, and the bytes are the file of this chunk,
- `notFound`: there is no published record, and no pending one that has the
  chunk,
- `error`: a read failed with this text, the metadata does not decode, or
  the number is none of its chunks. -/
def AnswersChunk (request : FileChunkRequest) (reads : List Read) : FileResponse → Prop
  | .success bytes => ∃ m, Described request reads (.ok m) ∧ request.chunkId < m.totalChunks ∧
      .file (m.chunksDir.join (chunkFileName request.chunkId m.chunkFileExtension)) (.ok bytes) ∈
        reads
  | .notFound => .published (.ofU64 request.fileId) (.ok none) ∈ reads ∧
      (.pending (.ofU64 request.fileId) (.ok none) ∈ reads ∨
        ∃ record, .pending (.ofU64 request.fileId) (.ok (some record)) ∈ reads ∧
          request.chunkId ∉ record.downloadedChunks)
  | .error text => (∃ x ∈ reads, x.error? = some text) ∨
      Described request reads (.error text) ∨
      ∃ m, Described request reads (.ok m) ∧ m.totalChunks ≤ request.chunkId ∧
        text = "incorrect chunk number: " ++ toString request.chunkId

/-- The reads account for the response. -/
def Answers : PeerRequest → List Read → FileResponse → Prop
  | .metadata request => AnswersMetadata request
  | .chunk request => AnswersChunk request

/-- What the event loop does about requests. The first argument is the
request in its hands, with what was read for it.
- `ask`: a request is taken when the one before was answered,
- `read`: something is read for the request in hand,
- `reply`: the request in hand is answered, once, and its reads account
  for the response,
- `idle`: a read when there is no request, at start-up,
- `crash`: the request in hand is cut off by a crash, and not answered. -/
inductive Talk : Option (PeerRequest × ResponseChannel × List Read) → List Entry → Prop
  | nil : Talk none []
  | ask {l : List Entry} {request : PeerRequest} {channel : ResponseChannel} (h : Talk none l) :
      Talk (some (request, channel, [])) (.asked request channel :: l)
  | read {l : List Entry} {request : PeerRequest} {channel : ResponseChannel} {reads : List Read}
      {x : Read} (h : Talk (some (request, channel, reads)) l) :
      Talk (some (request, channel, x :: reads)) (.read x :: l)
  | reply {l : List Entry} {request : PeerRequest} {channel : ResponseChannel} {reads : List Read}
      {response : FileResponse} (h : Talk (some (request, channel, reads)) l)
      (ha : Answers request reads response) : Talk none (.replied channel response :: l)
  | idle {l : List Entry} {x : Read} (h : Talk none l) : Talk none (.read x :: l)
  | crash {x : Option (PeerRequest × ResponseChannel × List Read)} {l : List Entry} (h : Talk x l) :
      Talk none (.crashed :: l)

/-- The channel a request came with, and the channel of a response. -/
def Entry.asked? : Entry → Option ResponseChannel
  | .asked _ channel => some channel
  | _ => none

def Entry.replied? : Entry → Option ResponseChannel
  | .replied channel _ => some channel
  | _ => none

/-- Every request is answered, once, and accounted for. -/
structure Served (v : NodeView) : Prop where
  /-- The event loop answers request after request. -/
  talks : ∃ x, Talk x (talk v.hist)
  /-- Between two passes it owes no response. -/
  rests : v.live .eventLoop = false → Talk none (talk v.hist)
  /-- Then, if nothing crashed, the channels it responded on are those of
  the requests, in their order. -/
  each : v.live .eventLoop = false → .crash ∉ v.hist →
    (talk v.hist).filterMap Entry.replied? = (talk v.hist).filterMap Entry.asked?

/-! ### The shape -/

variable {l : List Entry} {x : Option (PeerRequest × ResponseChannel × List Read)}

/-- Without a crash every request but the one in hand was answered. -/
theorem Talk.balanced (h : Talk x l) (hc : .crashed ∉ l) :
    l.filterMap Entry.asked? = (x.map fun y => y.2.1).toList ++ l.filterMap Entry.replied? := by
  induction h with
  | nil => rfl
  | ask _ ih => exact congrArg (List.cons _) (ih fun hm => hc (List.mem_cons_of_mem _ hm))
  | read _ ih => exact ih fun hm => hc (List.mem_cons_of_mem _ hm)
  | reply _ _ ih => exact ih fun hm => hc (List.mem_cons_of_mem _ hm)
  | idle _ ih => exact ih fun hm => hc (List.mem_cons_of_mem _ hm)
  | crash _ _ => exact absurd List.mem_cons_self hc

/-- The request in hand was asked before the reads for it. -/
theorem Talk.asked (h : Talk x l) : ∀ y ∈ x, ∃ earlier,
    l = y.2.2.map .read ++ .asked y.1 y.2.1 :: earlier := by
  induction h with
  | @ask l request channel _ _ =>
      rintro _ ⟨⟩
      exact ⟨l, rfl⟩
  | read _ ih =>
      rintro _ ⟨⟩
      obtain ⟨earlier, hl⟩ := ih _ rfl
      exact ⟨earlier, by rw [hl]; rfl⟩
  | _ =>
      rintro _ ⟨⟩

/-- A request, the reads for it and its response. -/
def Exchange (request : PeerRequest) (channel : ResponseChannel) (reads : List Read)
    (response : FileResponse) (l : List Entry) : Prop :=
  ∃ later earlier,
    l = later ++ .replied channel response :: (reads.map .read ++ .asked request channel :: earlier)

omit [Platform] in
theorem Exchange.cons {request : PeerRequest} {channel : ResponseChannel} {reads : List Read}
    {response : FileResponse} (h : Exchange request channel reads response l) (e : Entry) :
    Exchange request channel reads response (e :: l) := by
  obtain ⟨later, earlier, hl⟩ := h
  exact ⟨e :: later, earlier, by rw [hl]; rfl⟩

omit [Platform] in
/-- The request of an exchange was asked on its channel. -/
theorem Exchange.asked {request : PeerRequest} {channel : ResponseChannel} {reads : List Read}
    {response : FileResponse} (h : Exchange request channel reads response l) :
    .asked request channel ∈ l := by
  obtain ⟨later, earlier, rfl⟩ := h
  simp

/-- Every response ends an exchange, and answers its request by its
reads. -/
theorem Talk.replied {channel : ResponseChannel} {response : FileResponse} (h : Talk x l)
    (hr : .replied channel response ∈ l) :
    ∃ request reads, Answers request reads response ∧
      Exchange request channel reads response l := by
  have earlier : ∀ {e : Entry} {l : List Entry}, .replied channel response ≠ e →
      (.replied channel response ∈ l → ∃ request reads, Answers request reads response ∧
        Exchange request channel reads response l) →
      .replied channel response ∈ e :: l → ∃ request reads, Answers request reads response ∧
        Exchange request channel reads response (e :: l) := by
    intro e l hne ih hr
    obtain ⟨request, reads, ha, hx⟩ := ih ((List.mem_cons.mp hr).resolve_left hne)
    exact ⟨request, reads, ha, hx.cons e⟩
  -- The response is the latest entry, or belongs to what was said before.
  induction h with
  | nil => cases hr
  | ask _ ih => exact earlier (fun e => by cases e) ih hr
  | read _ ih => exact earlier (fun e => by cases e) ih hr
  | idle _ ih => exact earlier (fun e => by cases e) ih hr
  | crash _ ih => exact earlier (fun e => by cases e) ih hr
  | @reply l request channel' reads response' h ha ih =>
      by_cases e : Entry.replied channel response = .replied channel' response'
      · cases e
        obtain ⟨before, hl⟩ := h.asked _ rfl
        exact ⟨request, reads, ha, [], before, by rw [hl]; rfl⟩
      · exact earlier e ih hr

/-! ### The handlers -/

variable {h : List NodeEvent}

/-- The event loop talks. -/
def Talks (h : List NodeEvent) : Prop := ∃ x, Talk x (h.filterMap logged?)

/-- It owes no response. -/
def Rests (h : List NodeEvent) : Prop := Talk none (h.filterMap logged?)

/-- It has a request in its hands. -/
def Owes (request : PeerRequest) (channel : ResponseChannel) (reads : List Read)
    (h : List NodeEvent) : Prop :=
  Talk (some (request, channel, reads)) (h.filterMap logged?)

variable {request : PeerRequest} {channel : ResponseChannel} {reads : List Read}

theorem Owes.talks (ho : Owes request channel reads h) : Talks h := ⟨_, ho⟩

theorem Rests.talks (hr : Rests h) : Talks h := ⟨_, hr⟩

/-- It responds. -/
theorem sendFileResponse_follows {response : FileResponse} (ho : Owes request channel reads h)
    (ha : Answers request reads response) :
    (EventService.sendFileResponse channel response).Follows Talks .eventLoop (fun _ => Rests) h := by
  have replied : ∀ a, Rests (.op (L := lang) .eventLoop
      (.swarm (.sendResponse channel response)) a :: h) := fun a => by
    have entry : logged? (.op (L := lang) .eventLoop (.swarm (.sendResponse channel response)) a) =
        some (.replied channel response) := rfl
    show Talk none (List.filterMap logged? _)
    rw [List.filterMap_cons_some entry]
    exact ho.reply ha
  exact follows_seq (follows_perform (fun a => (replied a).talks) replied) fun _ _ hr => hr

/-- It reads. -/
theorem read_follows {o : Op} {x : o.Ans → Read} (ho : Owes request channel reads h)
    (hx : ∀ a, logged? (.op (L := lang) .eventLoop o a) = some (.read (x a))) :
    (Prog.perform (L := lang) o).Follows Talks .eventLoop
      (fun a h => Owes request channel (x a :: reads) h) h := by
  have read : ∀ a, Owes request channel (x a :: reads) (.op (L := lang) .eventLoop o a :: h) :=
    fun a => by
      show Talk _ (List.filterMap logged? _)
      rw [List.filterMap_cons_some (hx a)]
      exact ho.read
  exact follows_perform (fun a => (read a).talks) read

/-- A metadata request. -/
theorem metadataRequest_follows {request : MetadataFileRequest}
    (ho : Owes (.metadata request) channel [] h) :
    (EventService.metadataDownload (.request request channel)).Follows Talks .eventLoop
      (fun _ => Rests) h := by
  refine follows_seq (read_follows (o := .store (.getPublishedFile (.ofU64 request.fileId))) ho
    fun a => rfl) fun record h ho => ?_
  split
  · next record =>
      refine follows_seq (read_follows (o := .fs (.read (metadataPath record.chunksDir))) ho
        fun a => rfl) fun data h ho => ?_
      split
      · exact sendFileResponse_follows ho
          ⟨record, List.mem_cons_of_mem _ List.mem_cons_self, List.mem_cons_self⟩
      · exact sendFileResponse_follows ho ⟨_, List.mem_cons_self, rfl⟩
  · exact sendFileResponse_follows ho List.mem_cons_self
  · exact sendFileResponse_follows ho ⟨_, List.mem_cons_self, rfl⟩

omit [Platform] in
theorem Located.cons {request : FileChunkRequest} {dir : PathBuf} (hl : Located request reads dir)
    (x : Read) : Located request (x :: reads) dir := by
  cases hl with
  | published h => exact .published (List.mem_cons_of_mem _ h)
  | pending none h downloaded =>
      exact .pending (List.mem_cons_of_mem _ none) (List.mem_cons_of_mem _ h) downloaded

theorem Described.cons {request : FileChunkRequest} {decoded : Except String FileMetadata}
    (hd : Described request reads decoded) (x : Read) : Described request (x :: reads) decoded := by
  obtain ⟨dir, data, hl, hm, hd⟩ := hd
  exact ⟨dir, data, hl.cons x, List.mem_cons_of_mem _ hm, hd⟩

/-- A chunk that is looked up in its directory. -/
theorem getFromChunks_follows {request : FileChunkRequest} {dir : PathBuf}
    (ho : Owes (.chunk request) channel reads h) (hl : Located request reads dir) :
    (EventService.getFromChunks request.chunkId channel dir).Follows Talks .eventLoop
      (fun _ => Rests) h := by
  refine follows_seq (read_follows (o := .fs (.read (metadataPath dir))) ho fun a => rfl)
    fun data h ho => ?_
  split
  · next data =>
      have described : Described request (.file (metadataPath dir) (.ok data) :: reads)
          (Platform.decodeMetadata data) :=
        ⟨dir, data, hl.cons _, List.mem_cons_self, rfl⟩
      split
      · next m hm =>
          rw [hm] at described
          split
          · next hc => exact sendFileResponse_follows ho (.inr (.inr ⟨m, described, hc, rfl⟩))
          · next hc =>
              -- The chunk is one of the metadata, and its file is read.
              refine follows_seq (read_follows (o := .fs (.read (m.chunksDir.join
                (chunkFileName request.chunkId m.chunkFileExtension)))) ho fun a => rfl)
                fun bytes h ho => ?_
              split
              · exact sendFileResponse_follows ho
                  ⟨m, described.cons _, Nat.lt_of_not_le hc, List.mem_cons_self⟩
              · exact sendFileResponse_follows ho (.inl ⟨_, List.mem_cons_self, rfl⟩)
      · next e he =>
          rw [he] at described
          exact sendFileResponse_follows ho (.inr (.inl described))
  · exact sendFileResponse_follows ho (.inl ⟨_, List.mem_cons_self, rfl⟩)

/-- A chunk request. -/
theorem chunkRequest_follows {request : FileChunkRequest}
    (ho : Owes (.chunk request) channel [] h) :
    (EventService.fileDownload (.request request channel)).Follows Talks .eventLoop
      (fun _ => Rests) h := by
  refine follows_seq (read_follows (o := .store (.getPublishedFile (.ofU64 request.fileId))) ho
    fun a => rfl) fun record h ho => ?_
  split
  · refine follows_seq (read_follows (o := .store (.getPendingDownload (.ofU64 request.fileId))) ho
      fun a => rfl) fun record h ho => ?_
    -- The file is not published, so the pending downloads are looked through.
    have none : (.published (.ofU64 request.fileId) (.ok none) : Read) ∈
        [.pending (.ofU64 request.fileId) record, .published (.ofU64 request.fileId) (.ok none)] :=
      List.mem_cons_of_mem _ List.mem_cons_self
    split
    · exact sendFileResponse_follows ho ⟨none, .inl List.mem_cons_self⟩
    · next record =>
        split
        · next hc => exact getFromChunks_follows ho (.pending none List.mem_cons_self hc)
        · next hc =>
            exact sendFileResponse_follows ho ⟨none, .inr ⟨record, List.mem_cons_self, hc⟩⟩
    · exact sendFileResponse_follows ho (.inl ⟨_, List.mem_cons_self, rfl⟩)
  · exact getFromChunks_follows ho (.published List.mem_cons_self)
  · exact sendFileResponse_follows ho (.inl ⟨_, List.mem_cons_self, rfl⟩)

/-! ### The tasks -/

omit [Platform] in
theorem entries_cons {e : NodeEvent} (he : logged? e = none) (h : List NodeEvent) :
    (e :: h).filterMap logged? = h.filterMap logged? :=
  List.filterMap_cons_none he

/-- An operation that is a read at most leaves nothing owed. -/
theorem Rests.op {o : Op} (hr : Rests h)
    (ho : ∀ a, logged? (.op (L := lang) .eventLoop o a) = none ∨
      ∃ x, logged? (.op (L := lang) .eventLoop o a) = some (.read x)) (a : o.Ans) :
    Rests (.op (L := lang) .eventLoop o a :: h) := by
  show Talk none (List.filterMap logged? _)
  obtain hn | ⟨x, hx⟩ := ho a
  · rw [entries_cons hn]
    exact hr
  · rw [List.filterMap_cons_some hx]
    exact hr.idle

/-- A program that asks for no event and sends no response. -/
theorem quiet_follows {α : Type} {O : Op → Prop} {p : Proc α} (hp : p.Within (.ops O))
    (hO : ∀ o, O o → ∀ a, logged? (.op (L := lang) .eventLoop o a) = none ∨
      ∃ x, logged? (.op (L := lang) .eventLoop o a) = some (.read x)) (hr : Rests h) :
    p.Follows Talks .eventLoop (fun _ => Rests) h :=
  follows_within hp (fun _ => Rests.talks) (fun o _ a ho hr => hr.op (hO o ho) a)
    (fun _ _ ht => ht.elim) (fun _ _ _ hj => hj.elim) hr

omit [Platform] in
/-- The operations for the requests of this node. -/
theorem quiet_ask {o : Op} (ho : AskOp o) (a : o.Ans) :
    logged? (.op (L := lang) .eventLoop o a) = none ∨
      ∃ x, logged? (.op (L := lang) .eventLoop o a) = some (.read x) := by
  cases ho <;> exact .inl rfl

/-- A swarm event: a request of a peer, or something about the requests of
this node. -/
theorem swarmEvent_follows (hr : Rests h) :
    (body .swarmEvent).Follows Talks .eventLoop (fun _ => Rests) h := by
  intro event
  -- an event that is no request of a peer leaves nothing to answer
  have other : logged? (.op (L := lang) .eventLoop (.swarm .selectNextSome) event) = none →
      Rests (.op (L := lang) .eventLoop (.swarm .selectNextSome) event :: h) := fun hn => by
    show Talk none (List.filterMap logged? _)
    rw [entries_cons hn]
    exact hr
  have pass : Talks (.op (L := lang) .eventLoop (.swarm .selectNextSome) event :: h) →
      (EventService.handleSwarmEvent event).Follows Talks .eventLoop (fun _ => Rests)
        (.op (L := lang) .eventLoop (.swarm .selectNextSome) event :: h) →
      Talks (.op (L := lang) .eventLoop (.swarm .selectNextSome) event :: h) ∧
        (EventService.handleSwarmEvent event >>= fun _ => pure Res.unit).Follows Talks .eventLoop
          (fun _ => Rests) (.op (L := lang) .eventLoop (.swarm .selectNextSome) event :: h) :=
    fun ht hf => ⟨ht, follows_seq hf fun _ _ hr => hr⟩
  have quiet : logged? (.op (L := lang) .eventLoop (.swarm .selectNextSome) event) = none →
      (EventService.handleSwarmEvent event).Within (.ops AskOp) → _ := fun hn hw =>
    pass (other hn).talks (quiet_follows hw (fun _ ho a => quiet_ask ho a) (other hn))
  -- a request does, until the response is sent
  have asks : ∀ {request channel}, logged? (.op (L := lang) .eventLoop (.swarm .selectNextSome)
      event) = some (.asked request channel) →
      Owes request channel [] (.op (L := lang) .eventLoop (.swarm .selectNextSome) event :: h) :=
    fun hs => by
      show Talk _ (List.filterMap logged? _)
      rw [List.filterMap_cons_some hs]
      exact hr.ask
  cases event with
  | kademlia id result => exact quiet rfl (kademlia_within id result)
  | fileDownload event =>
      cases event with
      | request request channel =>
          exact pass (asks rfl).talks (chunkRequest_follows (asks rfl))
      | response requestId response => exact quiet rfl (chunkResponse_within requestId response)
      | _ => exact quiet rfl trivial
  | metadataDownload event =>
      cases event with
      | request request channel =>
          exact pass (asks rfl).talks (metadataRequest_follows (asks rfl))
      | response requestId response => exact quiet rfl (metadataResponse_within requestId response)
      | _ => exact quiet rfl trivial
  | other => exact quiet rfl trivial

omit [Platform] in
/-- The other tasks of the event loop read at most. -/
theorem quiet_of_footprint {t : Task} {o : Op} (hi : slotOf t = .eventLoop) (ht : t ≠ .swarmEvent)
    (ho : t.footprint.op o) (a : o.Ans) :
    logged? (.op (L := lang) .eventLoop o a) = none ∨
      ∃ x, logged? (.op (L := lang) .eventLoop o a) = some (.read x) := by
  cases t with
  | startUp =>
      cases ho with
      | read p => exact .inr ⟨_, rfl⟩
      | _ => exact .inl rfl
  | swarmEvent => exact absurd rfl ht
  | command => cases ho <;> exact .inl rfl
  | tick => cases ho <;> exact .inl rfl
  | publisher fuel => cases ho <;> exact .inl rfl
  | _ => cases hi

/-- The event loop rests between its passes. -/
theorem solo : Solo machine .eventLoop Talks Rests where
  nil := .nil
  inv _ := Rests.talks
  crash h hh := by
    obtain ⟨x, ht⟩ := hh
    exact ht.crash
  body t e h hi hb hr := by
    have began : Rests (e :: h) := by
      show Talk none (List.filterMap logged? _)
      cases hb <;> exact hr
    refine ⟨began.talks, ?_⟩
    by_cases ht : t = .swarmEvent
    · subst ht
      exact swarmEvent_follows began
    · refine follows_within (body_within t) (fun _ => Rests.talks)
        (fun o h a ho hr => hr.op (fun a => quiet_of_footprint hi ht ho a) a)
        (fun t' h _ hr => ?_) (fun j h r _ hr => ?_) began
      · show Talk none (List.filterMap logged? _)
        rw [entries_cons rfl]
        exact hr
      · show Talk none (List.filterMap logged? _)
        rw [entries_cons rfl]
        exact hr

omit [Platform] in
/-- Without a crash in the history there is none in the talk. -/
theorem not_crashed (hc : .crash ∉ h) : .crashed ∉ talk h := fun hm => by
  obtain ⟨e, he, hx⟩ := List.mem_filterMap.mp hm
  have crash : e = .crash := by
    unfold logged? at hx
    split at hx <;> first | rfl | cases hx
  subst crash
  exact hc ((own_sublist _ _ h).subset he)

/-- In every run of a node every request is answered once, and accounted
for. -/
theorem served {w : World} {p : NodePool} (h : Reach machine environment (.idle w) p) :
    Served p.view := by
  obtain ⟨talks, rests⟩ := solo.of_reach h
  exact ⟨talks, rests, fun idle hc => ((rests idle).balanced (not_crashed hc)).symm⟩

end Answers

/-! ### Two requests -/

section Example

open Reference

attribute [local instance] platform

/-- A node that has published a file of one byte. -/
def sharing : World :=
  { newWorld (files [([], .dir), (["src"], .dir), (["src", "f_chunks"], .dir),
      (["src", "f_chunks", ".metadata"], .file oneByte.toBytes),
      (["src", "f_chunks", "0.chunk"], .file [7])]) 1 with
    store := ⟨Std.ExtTreeMap.insert ∅ oneByte.key (.ofMetadata oneByte), ∅, ∅⟩ }

/-- One peer asks for metadata nobody published, another for the chunk. -/
def requests : List (Move lang Choice) :=
  swarmPass (.metadataDownload (.request ⟨5⟩ 3)) 2 ++
    swarmPass (.fileDownload (.request ⟨oneByte.key.toU64, 0⟩ 4)) 4

/-- The one is told so, the other gets the bytes of the chunk file. -/
def exchanges : List Entry :=
  [.replied 4 (.success [7]),
    .read (.file ⟨"/src/f_chunks/0.chunk"⟩ (.ok [7])),
    .read (.file ⟨"/src/f_chunks/.metadata"⟩ (.ok oneByte.toBytes)),
    .read (.published oneByte.key (.ok (some (.ofMetadata oneByte)))),
    .asked (.chunk ⟨oneByte.key.toU64, 0⟩) 4,
    .replied 3 .notFound,
    .read (.published (.ofU64 5) (.ok none)),
    .asked (.metadata ⟨5⟩) 3]

/-- Both are answered, one after the other. -/
theorem served_chunk :
    ∃ p, Reach machine environment (.idle sharing) p ∧
      (p.view.live .eventLoop = false ∧ talk p.hist = exchanges) ∧ Served p.view := by
  have run : ∃ p, Reach machine environment (.idle sharing) p ∧
      (p.view.live .eventLoop = false ∧ talk p.hist = exchanges) :=
    exists_reach_of_runScript requests (by decide +kernel)
  obtain ⟨p, hp, ht⟩ := run
  exact ⟨p, hp, ht, served hp⟩

end Example

end RustDfs.Serving
