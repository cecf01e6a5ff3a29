import RustDfs.Proofs.SearchCauses
import RustDfs.Proofs.SearchStream

/-!
# `RustDfs.Proofs.SearchHits`: who hears of which file

Two results about one node that searches and is searched.

`discreet` is about the answers it gives: what it sends to another node
is a public file of its database that matches, and goes to the node that
passed the search on.

`heard` is about the answers it gets: a response to a client is what some
node sent for the value of this client's call, and no other, after the
event loop published this search and registered its session. The id of a
session is the search value, so calls for one value share an entry of the
map; the channel of a session still belongs to one call.
-/

set_option autoImplicit false

namespace RustDfs.Search.Hits

open Lib Std Conc
open Causes (SearchPool Cause Found Sends Inserts Tells Stores Stored justified cause_of_mem
  cause_of_mem_suffix)
open RustDfs.Search.Stream (started? external)

/-- The searches of one node: the environment starts no search task and no
lookup. -/
def environment : SearchGuard := fun _ e => ∀ t ∈ started? e, external t = true

instance (v : SearchView) (e : SearchEvent) : Decidable (environment v e) :=
  inferInstanceAs (Decidable (∀ t ∈ started? e, external t = true))

/-! ### What is shown -/

/-- A result is sent to a peer. -/
def resultSent? : SearchEvent → Option (PeerId × FileSearchResult)
  | .op _ (.sendRequest peer result) _ => some (peer, result)
  | _ => none

/-- A response is handed to the client of a session. -/
def handed? : SearchEvent → Option (Nat × SearchResponse)
  | .op _ (.sendGrpc n response) _ => some (n, response)
  | _ => none

section Statement

variable [Config]

/-- The node has a hit for the peer.
- The peer passed on a search, on the topic of searches.
- `record` was in the database at the start or was stored since as a
  published file.
- It is public, and its name matches what the search is for.
- `result` names this record, under the session id of the search. -/
def Hit (published : ExtTreeMap PublishedFileKey PublishedFileRecord) (peer : PeerId)
    (result : FileSearchResult) (h : List SearchEvent) : Prop :=
  ∃ origin id topic data request record,
    .op .eventLoop .selectNextSome (.gossip peer origin id topic data) ∈ h ∧
      Config.fileSearchTopic = some topic ∧ Config.requests.fromSlice data = .ok request ∧
      Source Stored Stores (.start published) h record ∧
      Matches (Config.toLowercase request.searchValue) record ∧
      result = ⟨request.sessionId, ⟨record.key.toU64, record.originalFileName⟩⟩

end Statement

/-- Call `k` made session `n` for this value. -/
def Searches (n : Nat) (value : String) (h : List SearchEvent) : Prop :=
  ∃ k fuel e before,
    .op (.call k) .channels n :: e :: before <:+ own (L := lang) slotOf (.call k) h ∧
    Begins (L := lang) (.search k fuel value) e

/-- A node sent this file for this value. -/
def Told (value : String) (found : FileFound) (h : List SearchEvent) : Prop :=
  ∃ peer channel, .op .eventLoop .selectNextSome (.fileSearchResult peer ⟨value, found⟩ channel) ∈ h

section Statement

variable [Config]

/-- The event loop published the search for this value, and then put
session `n` under its id. -/
def Registered (n : Nat) (value : String) (h : List SearchEvent) : Prop :=
  ∃ topic data before,
    .op .eventLoop (.insertSession value n) () :: before <:+ own (L := lang) slotOf .eventLoop h ∧
      .op .eventLoop (.publish topic data) (.ok ()) ∈ before ∧
      Config.fileSearchTopic = some topic ∧ Config.requests.toVec 0 ⟨value, value⟩ = .ok data

/-- A response to the client of session `n`.
- The session is of a call for `value`, and for nothing else.
- A peer sent the response for the session id `value`.
- The event loop found session `n` under this id, and before that it had
  published the search for `value` and put session `n` under its id. -/
def Heard (n : Nat) (response : SearchResponse) (h : List SearchEvent) : Prop :=
  ∃ value before, Searches n value h ∧ (∀ value', Searches n value' h → value' = value) ∧
    Told value ⟨response.fileId, response.fileName⟩ h ∧
    .op .eventLoop (.getSession value) (some n) :: before <:+ h ∧ Registered n value before

end Statement

/-! ### Back through the places -/

section Places

variable {e : SearchEvent} {h : List SearchEvent} {i : Slot}

theorem mem_of_own (he : e ∈ own (L := lang) slotOf i h) : e ∈ h := (own_sublist _ _ h).subset he

/-- The operations of a slot are its own. -/
theorem slot_of_own {j : Slot} {o : Op} {a : o.Ans}
    (he : .op j o a ∈ own (L := lang) slotOf i h) : j = i :=
  of_decide_eq_true (List.mem_filter.mp he).2

theorem of_resultSent {peer : PeerId} {result : FileSearchResult}
    (hx : (peer, result) ∈ h.filterMap resultSent?) :
    ∃ i, .op i (.sendRequest peer result) () ∈ h := by
  obtain ⟨e, he, hx⟩ := List.mem_filterMap.mp hx
  unfold resultSent? at hx
  split at hx
  · cases hx
    exact ⟨_, he⟩
  · cases hx

theorem of_handed {n : Nat} {response : SearchResponse}
    (hx : (n, response) ∈ h.filterMap handed?) :
    ∃ i a, .op i (.sendGrpc n response) a ∈ h := by
  obtain ⟨e, he, hx⟩ := List.mem_filterMap.mp hx
  unfold handed? at hx
  split at hx
  · cases hx
    exact ⟨_, _, he⟩
  · cases hx

theorem of_sends {c : P2pCommand} (he : Sends e c) : ∃ i, e = .op i (.sendCommand c) (.ok ()) := by
  unfold Sends at he
  split at he
  · cases he
    exact ⟨_, rfl⟩
  · exact he.elim

theorem of_inserts {x : String × Nat} (he : Inserts e x) :
    ∃ i, e = .op i (.insertSession x.1 x.2) () := by
  unfold Inserts at he
  split at he
  · cases he
    exact ⟨_, rfl⟩
  · exact he.elim

theorem of_tells {x : Nat × FileFound} (he : Tells e x) :
    ∃ i, e = .op i (.sendFound x.1 x.2) (.ok ()) := by
  unfold Tells at he
  split at he
  · cases he
    exact ⟨_, rfl⟩
  · exact he.elim

variable [Config] {g : SearchGuard} {published : ExtTreeMap PublishedFileKey PublishedFileRecord}
  {p : SearchPool}

/-- A command that was received was sent. -/
theorem sent_of_received (hr : Reach machine g (.idle (.start published)) p) {c : P2pCommand}
    (he : .op i .recvCommand c ∈ p.hist) : ∃ j, .op j (.sendCommand c) (.ok ()) ∈ p.hist := by
  obtain ⟨before, hs⟩ := suffix_of_mem he
  obtain start | ⟨e, he, sends⟩ := (Causes.commands.of_reach hr).gets _ _ c hs rfl
  · cases start
  · obtain ⟨j, rfl⟩ := of_sends sends
    exact ⟨j, hs.mem (List.mem_cons_of_mem _ he)⟩

/-- A session that was found under an id was put there before. -/
theorem inserted_of_looked (hr : Reach machine g (.idle (.start published)) p) {id : String}
    {n : Nat} (he : .op i (.getSession id) (some n) ∈ p.hist) :
    ∃ before j, .op i (.getSession id) (some n) :: before <:+ p.hist ∧
      .op j (.insertSession id n) () ∈ before := by
  obtain ⟨before, hs⟩ := suffix_of_mem he
  obtain start | ⟨e, he, inserts⟩ := (Causes.sessions.of_reach hr).gets _ _ (id, n) hs rfl
  · cases start
  · obtain ⟨j, rfl⟩ := of_inserts inserts
    exact ⟨before, j, hs, he⟩

/-- A message that was taken was sent. -/
theorem told_of_taken (hr : Reach machine g (.idle (.start published)) p) {n : Nat}
    {found : FileFound} (he : .op i (.select n) (.msg (some found)) ∈ p.hist) :
    ∃ j, .op j (.sendFound n found) (.ok ()) ∈ p.hist := by
  obtain ⟨before, hs⟩ := suffix_of_mem he
  obtain start | ⟨e, he, tells⟩ := (Causes.messages.of_reach hr).gets _ _ (n, found) hs rfl
  · cases start
  · obtain ⟨j, rfl⟩ := of_tells tells
    exact ⟨j, hs.mem (List.mem_cons_of_mem _ he)⟩

/-- A record that was streamed was stored. -/
theorem stored_of_streamed (hr : Reach machine g (.idle (.start published)) p)
    {records : List PublishedFileRecord} (he : .op i .streamPublishedFiles records ∈ p.hist)
    {record : PublishedFileRecord} (hm : record ∈ records) :
    Source Stored Stores (.start published) p.hist record := by
  obtain ⟨before, hs⟩ := suffix_of_mem he
  obtain start | ⟨e, he, stores⟩ := (Causes.records.of_reach hr).gets _ _ record hs hm
  · exact .inl start
  · exact .inr ⟨e, hs.mem (List.mem_cons_of_mem _ he), stores⟩

/-! ### The answers a node gives -/

/-- A lookup is for a search that came by gossip. -/
theorem gossip_of_lookup (hr : Reach machine environment (.idle (.start published)) p) {id : Nat}
    {source : PeerId} {request : FileSearchRequest} (he : e ∈ p.hist)
    (hb : Begins (L := lang) (.fileSearch id source request) e) :
    ∃ origin topic data, .op .eventLoop .selectNextSome (.gossip source origin id topic data) ∈
        p.hist ∧ Config.fileSearchTopic = some topic ∧
      Config.requests.fromSlice data = .ok request := by
  cases hb with
  | start =>
      obtain ⟨_, allowed⟩ := hr.allowed he
      cases allowed _ rfl
  | spawn j =>
      obtain ⟨t, ht, starts⟩ := spawn_of_reach body_within hr he
      obtain ⟨_, hs, cause⟩ := (justified hr j).of_mem
        (List.mem_filter.mpr ⟨he, Bool.or_eq_true_iff.mpr (.inl (decide_eq_true rfl))⟩)
      have loop : j = .eventLoop := by
        cases t <;> cases ht <;> cases starts <;> rfl
      obtain ⟨origin, topic, data, gossip, found⟩ := cause loop
      exact ⟨origin, topic, data, mem_of_own (hs.mem (List.mem_cons_of_mem _ gossip)), found⟩

/-- What a node sends to another is a public file that matches a search
this node passed on. -/
theorem discreet (hr : Reach machine environment (.idle (.start published)) p) {peer : PeerId}
    {result : FileSearchResult} (hx : (peer, result) ∈ p.hist.filterMap resultSent?) :
    Hit published peer result p.hist := by
  obtain ⟨i, he⟩ := of_resultSent hx
  obtain ⟨_, hs, received⟩ := cause_of_mem hr he
  obtain ⟨j, sent⟩ := sent_of_received hr (mem_of_own (hs.mem (List.mem_cons_of_mem _ received)))
  obtain ⟨_, hs, id, request, record, rfl, ⟨⟨b, hb, begins⟩, ⟨records, streamed, hm⟩, matched⟩,
    hresult⟩ := cause_of_mem hr sent
  have earlier : ∀ {e : SearchEvent}, e ∈ _ → e ∈ p.hist :=
    fun he => mem_of_own (hs.mem (List.mem_cons_of_mem _ he))
  obtain ⟨origin, topic, data, gossip, htopic, hdata⟩ := gossip_of_lookup hr (earlier hb) begins
  exact ⟨origin, id, topic, data, request, record, gossip, htopic, hdata,
    stored_of_streamed hr (earlier streamed) hm, matched, hresult⟩

/-! ### The answers a node gets -/

/-- The session an event makes. -/
def made? : SearchEvent → Option Nat
  | .op _ .channels n => some n
  | _ => none

/-- Sessions have different numbers, below the counter. -/
structure Numbered (w : World) (h : List SearchEvent) : Prop where
  below : ∀ n ∈ h.filterMap made?, n < w.next
  once : (h.filterMap made?).Nodup

omit [Config] in
theorem Numbered.cons_none {w w' : World} (hn : Numbered w h) (he : made? e = none)
    (hw : w.next ≤ w'.next) : Numbered w' (e :: h) := by
  refine ⟨fun n hm => ?_, ?_⟩
  · rw [List.filterMap_cons_none he] at hm
    exact (hn.below n hm).trans_le hw
  · rw [List.filterMap_cons_none he]
    exact hn.once

/-- Every session gets a new number. -/
theorem numbered : Invariant machine g Numbered where
  op v i o c a w hn he _ := by
    by_cases ho : o = .channels
    · subst ho
      obtain ⟨rfl, hnext, -⟩ := exec_channels he
      have entry : made? (.op (L := lang) i .channels v.world.next) = some v.world.next := rfl
      refine ⟨fun n hm => ?_, ?_⟩
      · rw [List.filterMap_cons_some entry] at hm
        rw [hnext]
        obtain rfl | hm := List.mem_cons.mp hm
        · exact Nat.lt_succ_self _
        · exact (hn.below n hm).trans (Nat.lt_succ_self _)
      · rw [List.filterMap_cons_some entry]
        exact List.nodup_cons.mpr ⟨fun hm => Nat.lt_irrefl _ (hn.below _ hm), hn.once⟩
    · refine hn.cons_none ?_ (exec_next ho he).ge
      cases o <;> first | rfl | exact absurd rfl ho
  idle w e h he hn := by
    refine hn.cons_none ?_ le_rfl
    cases he <;> rfl
  crash w h hn := hn.cons_none rfl le_rfl

/-- A session is about one value. -/
theorem searches_unique (hr : Reach machine g (.idle (.start published)) p) {n : Nat}
    {value value' : String} (hs : Searches n value p.hist) (hs' : Searches n value' p.hist) :
    value' = value := by
  obtain ⟨k, fuel, e, before, made, begins⟩ := hs
  obtain ⟨k', fuel', e', before', made', begins'⟩ := hs'
  have init : Numbered (.start published) [] := ⟨fun n hm => (by cases hm), List.nodup_nil⟩
  have once : (p.hist.filterMap made?).Nodup := (numbered.of_reach init hr).once
  -- the two calls are one
  obtain ⟨_, there⟩ := suffix_of_mem (mem_of_own (made.mem List.mem_cons_self))
  obtain ⟨_, there'⟩ := suffix_of_mem (mem_of_own (made'.mem List.mem_cons_self))
  have same := (List.cons.inj (suffix_unique once there there' rfl rfl)).1
  cases same
  -- and so are their starts
  have same := suffix_unique (once.sublist ((own_sublist (L := lang) slotOf _ _).filterMap _))
    made made' rfl rfl
  cases same
  cases begins with
  | start =>
      cases begins'
      rfl
  | spawn j =>
      cases begins'
      rfl

/-- What a client is told was sent to this node for the value of the
client's call, whose search was published and registered before. -/
theorem heard (hr : Reach machine environment (.idle (.start published)) p) {n : Nat}
    {response : SearchResponse} (hx : (n, response) ∈ p.hist.filterMap handed?) :
    Heard n response p.hist := by
  obtain ⟨i, a, he⟩ := of_handed hx
  obtain ⟨_, hs, found, taken, rfl⟩ := cause_of_mem hr he
  obtain ⟨j, told⟩ := told_of_taken hr (mem_of_own (hs.mem (List.mem_cons_of_mem _ taken)))
  obtain ⟨_, hs, peer, channel, id, arrived, looked⟩ := cause_of_mem hr told
  obtain ⟨before, j', there, inserted⟩ :=
    inserted_of_looked hr (mem_of_own (hs.mem (List.mem_cons_of_mem _ looked)))
  -- The insertion follows a command, so it is the event loop's.
  have earlier : before <:+ p.hist := (List.suffix_cons _ _).trans there
  obtain ⟨_, hs', request, topic, data, received, rfl, published, htopic, hdata⟩ :=
    cause_of_mem_suffix hr earlier inserted
  have received' := hs'.mem (List.mem_cons_of_mem _ received)
  obtain rfl := slot_of_own received'
  obtain ⟨_, sent⟩ := sent_of_received hr (earlier.mem (mem_of_own received'))
  obtain ⟨_, hs'', k, fuel, value, e, _, rfl, rfl, begins, rfl⟩ := cause_of_mem hr sent
  have searches : Searches n value p.hist :=
    ⟨k, fuel, e, _, (List.suffix_cons _ _).trans hs'', begins⟩
  exact ⟨value, before, searches, fun value' h => searches_unique hr searches h,
    ⟨peer, channel, mem_of_own (hs.mem (List.mem_cons_of_mem _ arrived))⟩, there,
    topic, data, _, hs', published, htopic, hdata⟩

end Places

/-! ### A search from either side -/

section Example

open Search.Reference

attribute [local instance] config

/-- A public file and one that is not. -/
def song : PublishedFileRecord := ⟨.ofU64 5, "Song.mp3", ⟨"/s"⟩, true⟩

def diary : PublishedFileRecord := ⟨.ofU64 6, "Song of mine", ⟨"/t"⟩, false⟩

/-- A search passed on by the peer 1 comes in and is answered. -/
def answer : List (Move lang Choice) :=
  [.start .swarmEvent, .op .eventLoop (.event (.gossip 1 1 0 "files"
    (requestCodec.bytes ⟨"song", "song"⟩))), .spawn .eventLoop, .exit .eventLoop] ++
  ops (.fileSearch 0) 4 ++ [.exit (.fileSearch 0)] ++ commandPass 1

/-- The node gives away the public file only. -/
theorem discreet_answer :
    ∃ p, Reach machine environment
        (.idle (.start ((ExtTreeMap.insert ∅ song.key song).insert diary.key diary))) p ∧
      p.hist.filterMap resultSent? = [(1, ⟨"song", ⟨5, "Song.mp3"⟩⟩)] ∧
      Hit ((ExtTreeMap.insert ∅ song.key song).insert diary.key diary) 1
        ⟨"song", ⟨5, "Song.mp3"⟩⟩ p.hist := by
  have run : ∃ p, Reach machine environment
        (.idle (.start ((ExtTreeMap.insert ∅ song.key song).insert diary.key diary))) p ∧
      p.hist.filterMap resultSent? = [(1, ⟨"song", ⟨5, "Song.mp3"⟩⟩)] :=
    exists_reach_of_runScript answer (by decide +kernel)
  obtain ⟨p, hp, hsent⟩ := run
  exact ⟨p, hp, hsent, discreet hp (by rw [hsent]; exact List.mem_cons_self)⟩

/-- A call searches and gets a result of the peer 3. -/
def ask : List (Move lang Choice) :=
  call 0 4 "song" ++ commandPass 2 ++ result "song" ⟨5, "Song.mp3"⟩ ++ ops (.searchTask 0) 4

/-- Its client is told about this result. -/
theorem heard_ask :
    ∃ p, Reach machine environment (.idle (.start ∅)) p ∧
      p.hist.filterMap handed? = [(0, ⟨5, "Song.mp3"⟩)] ∧ Heard 0 ⟨5, "Song.mp3"⟩ p.hist := by
  have run : ∃ p, Reach machine environment (.idle (.start ∅)) p ∧
      p.hist.filterMap handed? = [(0, ⟨5, "Song.mp3"⟩)] :=
    exists_reach_of_runScript ask (by decide +kernel)
  obtain ⟨p, hp, hhanded⟩ := run
  exact ⟨p, hp, hhanded, heard hp (by rw [hhanded]; exact List.mem_cons_self)⟩

end Example

end RustDfs.Search.Hits
