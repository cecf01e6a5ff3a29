import RustDfs.Conc.Runs
import RustDfs.Model.Reference
import RustDfs.Proofs.Footprints
import RustDfs.Proofs.Joins

/-!
# `RustDfs.Proofs.RecordKeys`: the keys of the DHT

A file is announced under the eight bytes of its id, a chunk under the
CBOR form of its request. `Resource.key` is this namespace, and
`record_keys` says that everybody uses it: what is advertised for a
metadata is what is asked for by its file id, the serving handlers look
up the same key, and no two resources share a key.

An announcement is a put and a start to provide, in this order
(`Advertises`). It fails only with what the swarm answers, and where the
local store has room it has a run that succeeds.

`provideAll_eq` reads `provide_all` as one list of records (`entries`).
-/

set_option autoImplicit false

namespace RustDfs.RecordKeys

open Lib Conc Prog EventService Joins

/-! ### Resources -/

/-- What can be announced: a file, or a chunk of one. -/
inductive Resource where
  | file (fileId : UInt64)
  | chunk (fileId chunkId : UInt64)
deriving DecidableEq

/-- The record key of a resource. -/
def Resource.key : Resource → Bytes
  | .file fileId => (Octets.ofU64 fileId).bytes
  | .chunk fileId chunkId => FileChunkRequest.toBytes ⟨fileId, chunkId.toNat⟩

theorem toBytes_inj {r r' : FileChunkRequest} (h : r.toBytes = r'.toBytes) : r = r' := by
  have same := Codec.bytes_injective _ h
  obtain ⟨fileId, chunkId⟩ := r
  obtain ⟨fileId', chunkId'⟩ := r'
  obtain ⟨hf, rfl⟩ := Prod.mk.inj same
  obtain rfl : fileId = fileId' := UInt64.toNat_inj.mp hf
  rfl

/-- The form of a chunk request starts with the head of the map and the
name of the first field. -/
theorem lt_length_toBytes (r : FileChunkRequest) : 8 < r.toBytes.length := by
  -- One byte for the map, one for the head of the name, seven for its letters.
  have first : (Cbor.encHead 5 2 ++ (Cbor.text.enc "file_id").flatten).length = 9 := by
    decide +kernel
  have split : r.toBytes = (Cbor.encHead 5 2 ++ (Cbor.text.enc "file_id").flatten) ++
      ((Cbor.uint.enc r.fileId.toNat).flatten ++
        ((Cbor.field "chunk_id" Cbor.uint).enc r.chunkId).flatten) := by
    simp [FileChunkRequest.toBytes, Codec.bytes, Cbor.struct, Cbor.field, Codec.retract,
      Codec.pair, Codec.literal]
  rw [split, List.length_append, first]
  omega

theorem Resource.key_injective : Function.Injective Resource.key := by
  intro a b h
  cases a with
  | file fileId =>
      cases b with
      | file fileId' => rw [Octets.ofU64_inj.mp (Octets.ext h)]
      | chunk fileId' chunkId' =>
          -- A file has a key of eight bytes, a chunk a longer one.
          have long := lt_length_toBytes ⟨fileId', chunkId'.toNat⟩
          rw [show FileChunkRequest.toBytes ⟨fileId', chunkId'.toNat⟩ = _ from h.symm] at long
          have short := (Octets.ofU64 fileId).length_eq
          rw [Resource.key] at long
          omega
  | chunk fileId chunkId =>
      cases b with
      | file fileId' =>
          have long := lt_length_toBytes ⟨fileId, chunkId.toNat⟩
          rw [show FileChunkRequest.toBytes ⟨fileId, chunkId.toNat⟩ = _ from h] at long
          have short := (Octets.ofU64 fileId').length_eq
          rw [Resource.key] at long
          omega
      | chunk fileId' chunkId' =>
          have same := toBytes_inj h
          obtain ⟨rfl, hc⟩ := FileChunkRequest.mk.inj same
          rw [UInt64.toNat_inj.mp hc]

/-! ### What a run uses -/

/-- A call on the DHT. -/
inductive Call where
  | put (key value : Bytes)
  | provide (key : Bytes)
  | query (key : Bytes)
deriving DecidableEq

/-- The call of an operation, whatever it was answered. -/
def call? : Deed lang Choice → Option Call
  | .op (.swarm (.putRecord k v)) _ _ => some (.put k v)
  | .op (.swarm (.startProviding k)) _ _ => some (.provide k)
  | .op (.swarm (.getProviders k)) _ _ => some (.query k)
  | _ => none

/-- The calls of a run, in this order. -/
def calls (l : List (Deed lang Choice)) : List Call := l.filterMap call?

/-- The error a call was answered with. -/
def refusal? : Deed lang Choice → Option String
  | .op (.swarm (.putRecord _ _)) _ (.error e) => some e
  | .op (.swarm (.startProviding _)) _ (.error e) => some e
  | _ => none

/-- The errors the calls of a run were answered with. -/
def refusals (l : List (Deed lang Choice)) : List String := l.filterMap refusal?

/-- The database key of a lookup. -/
def lookup? : Deed lang Choice → Option PublishedFileKey
  | .op (.store (.getPublishedFile k)) _ _ => some k
  | .op (.store (.getPendingDownload k)) _ _ => some k
  | _ => none

/-- The database keys a run looks for, in this order. -/
def lookups (l : List (Deed lang Choice)) : List PublishedFileKey := l.filterMap lookup?

/-- The job a run of `publish_file` leaves. -/
def job? : Deed lang Choice → Option FileMetadata
  | .op (.store (.putFileMetadata m)) _ (.ok _) => some m
  | _ => none

section Keys

variable [Platform]

/-- The local store takes a record with this value and a provider for its
key.
- `small`: the value is not too large,
- `records`: the key has a record, or there is room for another one,
- `provided`: the key is provided, or there is room for another one. -/
structure Room (key value : Bytes) (s : Swarm) : Prop where
  small : value.length < MAX_VALUE_BYTES
  records : key ∈ s.records ∨ s.records.length < MAX_RECORDS
  provided : key ∈ s.provided ∨ s.provided.length ≠ MAX_PROVIDED_KEYS

/-- The program advertises one record:

- `returns`: it comes to its end in every world;
- `done`: where it succeeds it has put this record and started to provide
  its key, was refused nothing and asked for nothing;
- `failed`: where it fails it was refused one of the two, and ends with
  that error;
- `possible`: where there is room it has a run that succeeds. -/
structure Advertises (p : ExceptT String Proc Unit) (key value : Bytes) : Prop where
  returns : ∀ w, p.run.Returns Op.exec (fun _ => True) w
  done : ∀ l u w w', p.run.Runs Op.exec w l (.ok u) w' →
    calls l = [.put key value, .provide key] ∧ refusals l = []
  failed : ∀ l e w w', p.run.Runs Op.exec w l (.error e) w' →
    calls l <+: [.put key value, .provide key] ∧ refusals l = [e]
  possible : ∀ w, Room key value w.swarm → ∃ l u w', p.run.Runs Op.exec w l (.ok u) w'

/-- The program asks for the providers of a key.
- `returns`: it comes to its end in every world,
- `asked`: it has asked for this key, once, and did nothing else on the
  DHT. -/
structure Asks (p : Proc Unit) (key : Bytes) : Prop where
  returns : ∀ w, p.Returns Op.exec (fun _ => True) w
  asked : ∀ l w w', p.Runs Op.exec w l () w' → calls l = [.query key]

/-- The program looks in the database.
- `returns`: it comes to its end in every world,
- `looked`: it has looked there, and under this key only. -/
structure Looks (p : Proc Unit) (key : PublishedFileKey) : Prop where
  returns : ∀ w, p.Returns Op.exec (fun _ => True) w
  looked : ∀ l w w', p.Runs Op.exec w l () w' →
    ∃ k ks, lookups l = k :: ks ∧ ∀ k' ∈ lookups l, k' = key

/-- Who uses which key for the file of `m`.
- `advertised`, `requested`: a file is advertised and asked for under its
  key,
- `chunkAdvertised`, `chunkRequested`: a chunk is advertised and asked for
  under the encoding of its request,
- `served`, `chunkServed`: requests of peers for either are looked up under
  the key of the file. -/
structure KeysMatch (m : FileMetadata) : Prop where
  advertised : Advertises (provideMetadata m) m.key.bytes m.publishedFileBytes
  requested : ∀ s, Asks (handleCommand (.requestMetadata ⟨m.key.toU64⟩ s)) m.key.bytes
  chunkAdvertised : ∀ c, Advertises (provideFileChunk ⟨m.key.toU64, c⟩)
    (FileChunkRequest.toBytes ⟨m.key.toU64, c⟩) (FileChunkRequest.toBytes ⟨m.key.toU64, c⟩)
  chunkRequested : ∀ c s, Asks (handleCommand (.requestFileChunk ⟨m.key.toU64, c⟩ s))
    (FileChunkRequest.toBytes ⟨m.key.toU64, c⟩)
  served : ∀ ch, Looks (metadataDownload (.request ⟨m.key.toU64⟩ ch)) m.key
  chunkServed : ∀ c ch, Looks (fileDownload (.request ⟨m.key.toU64, c⟩ ch)) m.key

/-! ### The programs -/

section Programs

variable {w w' : World} {l l₁ l₂ : List (Deed lang Choice)}

/-- Putting a record: how it is answered, and that it can be. -/
theorem exec_putRecord_room {key value : Bytes} (h : Room key value w.swarm) :
    ∃ u w', Op.exec (.swarm (.putRecord key value)) .ok w = some (.ok u, w') ∧
      w'.swarm.provided = w.swarm.provided := by
  simp only [Op.exec, SwarmOp.exec, if_neg (Nat.not_le_of_lt h.small)]
  by_cases held : key ∈ w.swarm.records
  · rw [if_pos held]
    exact ⟨(), _, rfl, rfl⟩
  · have room := h.records.resolve_left held
    rw [if_neg held, if_neg (Nat.not_le_of_lt room)]
    exact ⟨(), _, rfl, rfl⟩

theorem exec_startProviding_room {key : Bytes}
    (h : key ∈ w.swarm.provided ∨ w.swarm.provided.length ≠ MAX_PROVIDED_KEYS) :
    ∃ u w', Op.exec (.swarm (.startProviding key)) .ok w = some (.ok u, w') := by
  simp only [Op.exec, SwarmOp.exec]
  by_cases held : key ∈ w.swarm.provided
  · rw [if_pos held]
    exact ⟨(), _, rfl⟩
  · rw [if_neg held, if_neg (h.resolve_left held)]
    exact ⟨(), _, rfl⟩

/-- Putting a record and providing it: the whole of an announcement. -/
theorem advertises (key value : Bytes) :
    Advertises (ExceptT.mk (swarm (.putRecord key value)) >>= fun _ =>
      ExceptT.mk (swarm (.startProviding key))) key value where
  returns w := by
    refine returns_of_prompt (within_bindE (swarm_within ?_) fun _ => swarm_within ?_)
      (joins_bindE (joins_perform (L := lang) (.swarm (.putRecord key value))) fun _ =>
        joins_perform (L := lang) (.swarm (.startProviding key))) w
    · exact prompt_swarm (putRecord_answers key value)
    · exact prompt_swarm (startProviding_answers key)
  done l u w w' h := by
    obtain ⟨l₁, u', w₁, l₂, h₁, h₂, rfl⟩ | ⟨e, -, he⟩ := runs_bindE.mp h
    · obtain ⟨c₁, _, rfl⟩ := runs_perform.mp h₁
      obtain ⟨c₂, _, rfl⟩ := runs_perform.mp h₂
      exact ⟨rfl, rfl⟩
    · cases he
  failed l e w w' h := by
    obtain ⟨l₁, u', w₁, l₂, h₁, h₂, rfl⟩ | ⟨e', h₁, he⟩ := runs_bindE.mp h
    · obtain ⟨c₁, _, rfl⟩ := runs_perform.mp h₁
      obtain ⟨c₂, _, rfl⟩ := runs_perform.mp h₂
      -- The record was put, and the key was refused.
      exact ⟨List.prefix_rfl, rfl⟩
    · cases he
      obtain ⟨c₁, _, rfl⟩ := runs_perform.mp h₁
      -- The record was refused, and the key was not tried.
      exact ⟨⟨[.provide key], rfl⟩, rfl⟩
  possible w room := by
    obtain ⟨u, w₁, put, same⟩ := exec_putRecord_room room
    obtain ⟨u', w₂, provide⟩ := exec_startProviding_room (same ▸ room.provided)
    exact ⟨_, u', w₂, runs_bindE.mpr (.inl ⟨_, u, w₁, _, runs_perform.mpr ⟨.ok, put, rfl⟩,
      runs_perform.mpr ⟨.ok, provide, rfl⟩, rfl⟩)⟩

/-- A request asks for the providers of one key and notes the query. -/
theorem asks (key : Bytes) (f : QueryId → EventService → EventService) :
    Asks (do
      let queryId ← swarm (.getProviders key)
      let self ← events .self
      events (.setSelf (f queryId self))) key where
  returns w := by
    refine returns_of_prompt ?_ ?_ w
    · refine within_bind (swarm_within (prompt_getProviders key)) fun queryId => ?_
      refine within_bind (events_within (prompt_events .self)) fun self => ?_
      exact events_within (prompt_events _)
    · refine joins_bind (joins_perform _) fun queryId => ?_
      exact joins_bind (joins_perform _) fun self => joins_perform _
  asked l w w' h := by
    obtain ⟨l₁, q, w₁, l₂, h₁, h₂, rfl⟩ := runs_bind.mp h
    obtain ⟨l₃, self, w₂, l₄, h₃, h₄, rfl⟩ := runs_bind.mp h₂
    obtain ⟨c₁, _, rfl⟩ := runs_perform.mp h₁
    obtain ⟨c₂, _, rfl⟩ := runs_perform.mp h₃
    obtain ⟨c₃, _, rfl⟩ := runs_perform.mp h₄
    rfl

/-! ### The serving handlers -/

/-- A handler that serves a request looks for one key, reads files and
answers. -/
inductive LookOp (key : PublishedFileKey) : Op → Prop
  | getPublishedFile : LookOp key (.store (.getPublishedFile key))
  | getPendingDownload : LookOp key (.store (.getPendingDownload key))
  | read (p : PathBuf) : LookOp key (.fs (.read p))
  | sendResponse (c : ResponseChannel) (r : FileResponse) :
      LookOp key (.swarm (.sendResponse c r))

variable {key : PublishedFileKey} {channel : ResponseChannel}

theorem LookOp.prompt {o : Op} (ho : LookOp key o) : Prompt o := by
  cases ho with
  | getPublishedFile => exact prompt_store _
  | getPendingDownload => exact prompt_store _
  | read p => exact prompt_fs _
  | sendResponse c r => exact prompt_sendResponse c r

omit [Platform] in
theorem send_within (r : FileResponse) :
    (sendFileResponse channel r).Within (.ops (LookOp key)) :=
  within_bind (swarm_within (.sendResponse channel r)) fun _ => trivial

theorem getFromChunks_looks (c : Nat) (dir : PathBuf) :
    (getFromChunks c channel dir).Within (.ops (LookOp key)) := by
  refine within_bind (fs_within (.read _)) fun r => ?_
  split
  · split
    · split
      · exact send_within _
      · refine within_bind (fs_within (.read _)) fun r => ?_
        split <;> exact send_within _
    · exact send_within _
  · exact send_within _

theorem tryFromPendingDownloads_looks (fileId : UInt64) (c : Nat) :
    (tryFromPendingDownloads fileId c channel).Within (.ops (LookOp (.ofU64 fileId))) := by
  refine within_bind (store_within .getPendingDownload) fun r => ?_
  split
  · exact send_within _
  · split
    · exact getFromChunks_looks _ _
    · exact send_within _
  · exact send_within _

omit [Platform] in
/-- What is done within `LookOp` looks for no other key. -/
theorem lookups_of_within (h : ∀ d ∈ l, d.Within (.ops (LookOp key))) :
    ∀ k ∈ lookups l, k = key := by
  intro k hk
  obtain ⟨d, hd, hdk⟩ := List.mem_filterMap.mp hk
  have looks := h d hd
  cases d with
  | op o c a =>
      cases looks with
      | getPublishedFile => exact (Option.some.inj hdk).symm
      | getPendingDownload => exact (Option.some.inj hdk).symm
      | read p => cases hdk
      | sendResponse c r => cases hdk
  | spawn t => cases hdk
  | await j r => cases hdk

/-- A handler starts with the published files. -/
theorem looks_of_first {f : Op.Ans (.store (.getPublishedFile key)) → Proc Unit}
    (hf : ∀ r, (f r).Within (.ops (LookOp key)))
    (hj : ((store (.getPublishedFile key)).run >>= f).Joins) :
    Looks ((store (.getPublishedFile key)).run >>= f) key where
  returns w := by
    refine returns_of_prompt (within_bind (store_within (prompt_store _)) fun r => ?_) hj w
    exact (hf r).mono_ops fun _ => LookOp.prompt
  looked l w w' h := by
    -- The published files come first, and the rest looks for no other key.
    obtain ⟨l₁, r, w₁, l₂, h₁, h₂, rfl⟩ := runs_bind.mp h
    obtain ⟨c, _, rfl⟩ := runs_perform.mp h₁
    refine ⟨key, lookups l₂, rfl, fun k' hk' => ?_⟩
    obtain rfl | hk' := List.mem_cons.mp (show k' ∈ key :: lookups l₂ from hk')
    · rfl
    · exact lookups_of_within (h₂.within (hf r)) k' hk'

/-- Whoever uses the file id of a metadata uses its key. -/
theorem keysMatch (m : FileMetadata) : KeysMatch m := by
  have back : Octets.ofU64 m.key.toU64 = m.key := Octets.ofU64_toU64 _
  -- The announcements are the same program with other values.
  refine ⟨advertises _ _, fun s => ?_, fun c => advertises _ _, fun c s => asks _ _, fun ch => ?_,
    fun c ch => ?_⟩
  · have asked : Asks (handleCommand (.requestMetadata ⟨m.key.toU64⟩ s))
      (Octets.ofU64 m.key.toU64).bytes := asks _ _
    rwa [back] at asked
  · have first : Looks (metadataDownload (.request ⟨m.key.toU64⟩ ch)) (.ofU64 m.key.toU64) :=
      looks_of_first (fun r => ?_) (metadataDownload_joins (.request ⟨m.key.toU64⟩ ch))
    · rwa [back] at first
    · split
      · refine within_bind (fs_within (.read _)) fun r => ?_
        split <;> exact send_within _
      · exact send_within _
      · exact send_within _
  · have first : Looks (fileDownload (.request ⟨m.key.toU64, c⟩ ch)) (.ofU64 m.key.toU64) :=
      looks_of_first (fun r => ?_) (fileDownload_joins (.request ⟨m.key.toU64, c⟩ ch))
    · rwa [back] at first
    · split
      · exact tryFromPendingDownloads_looks _ _
      · exact getFromChunks_looks _ _
      · exact send_within _

omit [Platform] in
theorem jobs_append : (l₁ ++ l₂).filterMap job? = l₁.filterMap job? ++ l₂.filterMap job? :=
  List.filterMap_append

omit [Platform] in
/-- Splitting a file does not touch the database. -/
theorem not_process_store {path : PathBuf} {o : StoreOp} : ¬ ProcessOp path (.store o) := by
  intro h
  cases h with
  | chunk _ _ ho => cases ho
  | save _ ho => cases ho

/-- The id `publish_file` returns is that of the job it leaves. -/
theorem published_id {fuel : Nat} {request : PublishFileRequest} {id : UInt64}
    (h : (publishFile fuel request).run.Runs Op.exec w l (.ok id) w') :
    ∃ m, l.filterMap job? = [m] ∧ id = m.key.toU64 := by
  obtain ⟨l₁, m, w₁, l₂, h₁, h₂, rfl⟩ | ⟨e, -, he⟩ := runs_bindA.mp h
  · obtain ⟨l₃, u, w₂, l₄, h₃, h₄, rfl⟩ | ⟨e, -, he⟩ := runs_bindA.mp h₂
    · obtain ⟨c, _, rfl⟩ := runs_perform.mp h₃
      obtain ⟨rfl, hid, rfl⟩ := runs_ret.mp h₄
      -- The job is left after the file was split, and splitting leaves none.
      have quiet : l₁.filterMap job? = [] := by
        refine List.filterMap_eq_nil_iff.mpr fun d hd => ?_
        have done := h₁.within (processFile_within _ _ _) d hd
        cases d with
        | op o c a =>
            cases o with
            | store o => exact (not_process_store done).elim
            | _ => rfl
        | _ => rfl
      refine ⟨m, ?_, Except.ok.inj hid⟩
      rw [jobs_append, quiet]
      rfl
    · cases he
  · cases he

end Programs

/-- The record keys of a node: the key of a file is the one its metadata
is announced, asked for and looked up under, and two resources never share
a key. -/
theorem record_keys :
    (∀ m, KeysMatch m) ∧
    (∀ fuel request l id w w', (publishFile fuel request).run.Runs Op.exec w l (.ok id) w' →
      ∃ m, l.filterMap job? = [m] ∧ id = m.key.toU64) ∧
    Function.Injective Resource.key :=
  ⟨keysMatch, fun _ _ _ _ _ _ h => published_id h, Resource.key_injective⟩

end Keys

section Example

open Reference

attribute [local instance] platform

/-- A node with the file of one byte. -/
def oneFile : World :=
  newWorld (files [([], .dir), (["src"], .dir), (["src", "f"], .file [7])]) 1

/-- The file is published, announced under its key, and asked for under
the same key; so is its chunk. -/
theorem record_keys_oneByte :
    ∃ l id w', (publishFile 3 ⟨"/src/f", true⟩).run.Runs Op.exec oneFile l (.ok id) w' ∧
      (∃ l u w', (provideMetadata oneByte).run.Runs Op.exec oneFile l (.ok u) w' ∧
        calls l = [.put oneByte.key.bytes oneByte.publishedFileBytes,
          .provide oneByte.key.bytes]) ∧
      (∃ l w', (handleCommand (.requestMetadata ⟨id⟩ ⟨0⟩)).Runs Op.exec oneFile l () w' ∧
        calls l = [.query oneByte.key.bytes]) ∧
      (∃ l u w', (provideFileChunk ⟨id, 0⟩).run.Runs Op.exec oneFile l (.ok u) w' ∧
        calls l = [.put (FileChunkRequest.toBytes ⟨id, 0⟩) (FileChunkRequest.toBytes ⟨id, 0⟩),
          .provide (FileChunkRequest.toBytes ⟨id, 0⟩)]) ∧
      ∃ l w', (handleCommand (.requestFileChunk ⟨id, 0⟩ ⟨0⟩)).Runs Op.exec oneFile l () w' ∧
        calls l = [.query (FileChunkRequest.toBytes ⟨id, 0⟩)] := by
  obtain ⟨keys, ids, -⟩ := record_keys
  have publish : ∃ l r w', (publishFile 3 ⟨"/src/f", true⟩).run.Runs Op.exec oneFile l r w' ∧
      (r.toBool = true ∧ l.filterMap job? = [oneByte]) :=
    exists_runs_of_play (List.replicate 20 (.choice .ok)) (by decide +kernel)
  obtain ⟨l, r, w', run, hr, hjob⟩ := publish
  cases r with
  | error e => cases hr
  | ok id =>
      obtain ⟨m, hm, rfl⟩ := ids _ _ _ _ _ _ run
      obtain rfl : oneByte = m := List.singleton_injective (hjob.symm.trans hm)
      have same := keys oneByte
      refine ⟨l, _, w', run, ?_, ?_, ?_, ?_⟩
      · have room : Room oneByte.key.bytes oneByte.publishedFileBytes oneFile.swarm :=
          ⟨by decide +kernel, .inr (by decide), .inr (by decide)⟩
        obtain ⟨l, u, w', h⟩ := same.advertised.possible oneFile room
        exact ⟨l, u, w', h, (same.advertised.done l u _ w' h).1⟩
      · obtain ⟨l, u, w', h, -⟩ := ((same.requested ⟨0⟩).returns oneFile).exists_runs
        exact ⟨l, w', h, (same.requested ⟨0⟩).asked l _ w' h⟩
      · have room : Room (FileChunkRequest.toBytes ⟨oneByte.key.toU64, 0⟩)
            (FileChunkRequest.toBytes ⟨oneByte.key.toU64, 0⟩) oneFile.swarm :=
          ⟨by decide +kernel, .inr (by decide), .inr (by decide)⟩
        obtain ⟨l, u, w', h⟩ := (same.chunkAdvertised 0).possible oneFile room
        exact ⟨l, u, w', h, ((same.chunkAdvertised 0).done l u _ w' h).1⟩
      · obtain ⟨l, u, w', h, -⟩ := ((same.chunkRequested 0 ⟨0⟩).returns oneFile).exists_runs
        exact ⟨l, w', h, (same.chunkRequested 0 ⟨0⟩).asked l _ w' h⟩

end Example

/-! ### `provide_all` as one list of records -/

variable [Platform]

/-- The records `provide_all` announces, with their values. -/
def entries (m : FileMetadata) : List (Bytes × Bytes) :=
  (m.key.bytes, m.publishedFileBytes) :: (List.range m.totalChunks).map fun c =>
    (FileChunkRequest.toBytes ⟨m.key.toU64, c⟩, FileChunkRequest.toBytes ⟨m.key.toU64, c⟩)

/-- Announce records one after the other, until one fails. -/
def provideEntries : List (Bytes × Bytes) → ExceptT String Proc Unit
  | [] => pure ()
  | (key, value) :: es => do
      ExceptT.mk (swarm (.putRecord key value))
      ExceptT.mk (swarm (.startProviding key))
      provideEntries es

omit [Platform] in
theorem provideFileChunks_eq (fileId : UInt64) (cs : List Nat) :
    provideFileChunks fileId cs = provideEntries (cs.map fun c =>
      (FileChunkRequest.toBytes ⟨fileId, c⟩, FileChunkRequest.toBytes ⟨fileId, c⟩)) := by
  induction cs with
  | nil => rfl
  | cons c cs ih =>
      rw [provideFileChunks, provideFileChunk, List.map_cons, provideEntries, ih,
        LawfulMonad.bind_assoc]

/-- `provide_all` announces its records in order. -/
theorem provideAll_eq (m : FileMetadata) : provideAll m = provideEntries (entries m) := by
  rw [provideAll, provideMetadata, entries, provideEntries, provideFileChunks_eq,
    LawfulMonad.bind_assoc]

end RustDfs.RecordKeys
