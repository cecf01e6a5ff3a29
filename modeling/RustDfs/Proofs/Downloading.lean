import RustDfs.Model.Reference
import RustDfs.Proofs.Calls
import RustDfs.Proofs.DownloadFiles

/-!
# `RustDfs.Proofs.Downloading`: one download among everything else

A pending download has a chunk directory with a metadata file, and
records chunk after chunk. This file follows one download through the
runs in which nothing else works in its directory or on its record: the
answers of the peers, the order of the chunk tasks, failing writes and
crashes are arbitrary.

`Sound` is the invariant. A chunk of the stored record is `Settled`: its
file holds bytes that pass, no task works on it, and whatever happens
next keeps it that way. A chunk that the running download holds in memory
but could not store is only safe as long as the download runs.

The history says what no part of the world does: which chunks the running
download holds in memory (`memory`), what peers answered (`answers`) and
which chunks the event loop served from a pending record (`served`).
-/

set_option autoImplicit false

namespace RustDfs.Downloading

open Lib Conc Std

/-! ### What happened so far -/

/-- The chunks the download of `k` that was started last holds in its
record. -/
def memory (k : PublishedFileKey) : List NodeEvent → Finset Nat
  | [] => ∅
  | .spawn _ (.download r) :: h => if r.key = k then r.downloadedChunks else memory k h
  | .await (.download k') _ (.chunk (.ok (some c))) :: h =>
      if k' = k then insert c (memory k h) else memory k h
  | _ :: h => memory k h

/-- How often that download has read its metadata. The second time is in
`restore_original_file`, after `download` returned `Ok(true)`. -/
def reads (m : FileMetadata) (k : PublishedFileKey) : List NodeEvent → Nat
  | [] => 0
  | .spawn _ (.download r) :: h => if r.key = k then 0 else reads m k h
  | .op (.download k') (.fs (.read p)) _ :: h =>
      if k' = k ∧ p = metadataPath m.chunksDir then reads m k h + 1 else reads m k h
  | _ :: h => reads m k h

/-- The bytes a chunk task of `k` got as an answer. -/
def answer? (k : PublishedFileKey) : NodeEvent → Option (Nat × Bytes)
  | .op (.chunk id c) (.chan (.chunk (.recv _))) (.ok (some (.success bytes))) =>
      if id = k.toU64 then some (c, bytes) else none
  | _ => none

/-- Everything the chunk tasks of `k` got as answers. -/
def answers (k : PublishedFileKey) (h : List NodeEvent) : List (Nat × Bytes) :=
  h.filterMap (answer? k)

/-- `process_completed` of `k` returned `Ok`: its last command was sent. -/
def completed? (k : PublishedFileKey) : NodeEvent → Bool
  | .op (.download k') (.chan (.sendCommand (.provideMetadata _))) (.ok _) => k' = k
  | _ => false

/-- The chunk request of a peer the event loop is at. -/
def chunkRequest? : List NodeEvent → Option FileChunkRequest
  | [] => none
  | .op .eventLoop (.swarm .selectNextSome) (.fileDownload (.request request _)) :: _ =>
      some request
  | .op .eventLoop (.swarm .selectNextSome) _ :: _ => none
  | _ :: h => chunkRequest? h

/-- The event loop found a pending record for the request it is at. -/
def fromPending : List NodeEvent → Bool
  | [] => false
  | .op .eventLoop (.swarm .selectNextSome) _ :: _ => false
  | .op .eventLoop (.store (.getPendingDownload _)) (.ok (some _)) :: _ => true
  | _ :: h => fromPending h

/-- The chunks served from pending downloads, with the requests. -/
def served : List NodeEvent → List (FileChunkRequest × Bytes)
  | [] => []
  | .op .eventLoop (.swarm (.sendResponse _ (.success bytes))) _ :: h =>
      match fromPending h, chunkRequest? h with
      | true, some request => (request, bytes) :: served h
      | _, _ => served h
  | _ :: h => served h

section Defs

variable [Platform] (m : FileMetadata)

/-- `verify_chunk` accepts these bytes as chunk `c`. -/
def Accepts (c : Nat) (bs : Bytes) : Prop :=
  ∃ proof ∈ m.merkleProofs[c]?,
    verifyChunk bs c proof m.merkleRoot m.totalChunks = some true

instance (c : Nat) (bs : Bytes) : Decidable (Accepts m c bs) :=
  inferInstanceAs (Decidable (∃ proof ∈ m.merkleProofs[c]?, _))

/-! ### The runs -/

/-- The slots of the download of `k` and of its chunk tasks. -/
def worksOn (k : PublishedFileKey) : Slot → Bool
  | .download k' => k' = k
  | .chunk id _ => id = k.toU64
  | _ => false

/-- The places changed by somebody else than the download of `k`. -/
def touches (k : PublishedFileKey) : NodeEvent → List Loc
  | .op i o _ => if worksOn k i then [] else o.writes
  | _ => []

/-- The runs in which the download has the places `ls` and its record for
itself:
- its task is started from the record that is stored,
- no call stores a record under its key,
- nobody but its own tasks changes one of the places. -/
def solitary (ls : List Loc) : NodeGuard := fun v e =>
  environment v e ∧
    (∀ r ∈ started? e, r.key = m.key → v.world.store.pending[m.key]? = some r) ∧
    (∀ x ∈ stored? e, x.2.key ≠ m.key) ∧ ∀ l ∈ touches m.key e, l ∉ ls

instance (ls : List Loc) (v : NodeView) (e : NodeEvent) : Decidable (solitary m ls v e) :=
  inferInstanceAs (Decidable (_ ∧ (∀ r ∈ started? e, _) ∧ (∀ x ∈ stored? e, _) ∧ _))

/-- A download as it is accepted.
- `pending`: its record is stored, with no chunk,
- `metadata`: its metadata file is saved. -/
structure Start (w : World) : Prop where
  pending : w.store.pending[m.key]? = some (pendingDownload m)
  metadata : w.fs.bytes (metadataLoc m) = some m.toBytes

/-! ### The invariant -/

/-- Chunk `c` is on disk: its file holds bytes, they pass the check against
the metadata, and a peer sent them as this chunk. -/
def Verified (c : Nat) (v : NodeView) : Prop :=
  ∃ bs, v.world.fs.bytes (chunkLoc m c) = some bs ∧ Accepts m c bs ∧
    (c, bs) ∈ answers m.key v.hist

/-- Chunk `c` is verified for good: no task works on it, and neither the
record in memory nor the stored record lacks it. -/
structure Settled (c : Nat) (v : NodeView) : Prop where
  verified : Verified m c v
  idle : v.live (.chunk m.key.toU64 c) = false
  memory : v.live (.download m.key) = true → c ∈ memory m.key v.hist
  stored : ∀ s, v.world.store.pending[m.key]? = some s → c ∈ s.downloadedChunks

/-- These bytes are chunks that pass, put together. -/
def Restored (v : NodeView) (bs : Bytes) : Prop :=
  ∃ cs : List Bytes, cs.length = m.totalChunks ∧
    (∀ c b, cs[c]? = some b → Accepts m c b ∧ (c, b) ∈ answers m.key v.hist) ∧ bs = cs.flatten

/-- The places beside the directory are the download's own, and every
chunk of the file has a proof. -/
def Exclusive (ls : List Loc) : Prop :=
  outside m ⊆ ls ∧ m.totalChunks ≤ m.merkleProofs.length

/-- The invariant of a download. -/
structure Sound (ls : List Loc) (v : NodeView) : Prop where
  metadata : v.world.fs.bytes (metadataLoc m) = some m.toBytes
  record : ∀ s, v.world.store.pending[m.key]? = some s → s.chunksDir = m.chunksDir
  stored : ∀ s, v.world.store.pending[m.key]? = some s → ∀ c ∈ s.downloadedChunks, Settled m c v
  memory : v.live (.download m.key) = true → ∀ c ∈ memory m.key v.hist,
    Verified m c v ∧ v.live (.chunk m.key.toU64 c) = false
  complete : v.live (.download m.key) = true → 2 ≤ reads m m.key v.hist →
    ∀ c < m.merkleProofs.length, c ∈ Downloading.memory m.key v.hist
  served : ∀ x ∈ served v.hist, x.1.fileId = m.key.toU64 → Accepts m x.1.chunkId x.2
  restored : Exclusive m ls → ∀ d, destination m = some d → v.world.fs (loc d) = none ∨
    ∃ bs, v.world.fs.bytes (loc d) = some bs ∧ Restored m v bs
  done : Exclusive m ls → ∀ d, destination m = some d → (∃ e ∈ v.hist, completed? m.key e) →
    ∃ bs, v.world.fs.bytes (loc d) = some bs ∧ Restored m v bs

/-- What slot `i` counts on. -/
structure Rely (ls : List Loc) (i : Slot) (v v' : NodeView) : Prop where
  download : i = .download m.key → v.live i = true → v'.live i = true ∧
    memory m.key v'.hist = memory m.key v.hist ∧ reads m m.key v'.hist = reads m m.key v.hist
  outside : i = .download m.key → outside m ⊆ ls →
    ∀ l ∈ outside m, v'.world.fs l = v.world.fs l
  chunk : ∀ c < m.merkleProofs.length, i = .chunk m.key.toU64 c →
    v'.world.fs (chunkLoc m c) = v.world.fs (chunkLoc m c)
  settled : ∀ c, Settled m c v → Settled m c v'
  request : i = .eventLoop → chunkRequest? v'.hist = chunkRequest? v.hist ∧
    fromPending v'.hist = fromPending v.hist

/-- What the download of the file knows about its record. -/
structure Holding (r : PendingDownloadRecord) (v : NodeView) : Prop where
  key : r.key = m.key
  dir : r.chunksDir = m.chunksDir
  live : v.live (.download m.key) = true
  memory : r.downloadedChunks = memory m.key v.hist

/-- What holds where a task starts. -/
structure Pre (t : Task) (v : NodeView) : Prop where
  download : ∀ r, t = .download r → r.key = m.key → Holding m r v ∧ reads m m.key v.hist = 0
  chunk : ∀ d, t = .chunk d → d.fileId = m.key.toU64 →
    d.targetDir = m.chunksDir ∧ d.chunkId < m.merkleProofs.length

/-- What holds where a task has ended: a chunk task that has its chunk has
written it. -/
def Post (i : Slot) (r : Res) (v : NodeView) : Prop :=
  ∀ c c', i = .chunk m.key.toU64 c → r = .chunk (.ok (some c')) → c' = c ∧ Verified m c v

/-- The protocol of a download. -/
def protocol (ls : List Loc) : Protocol lang World :=
  .ofRely (Sound m ls) (Rely m ls) (Pre m) (Post m)

end Defs

variable [Platform] {m : FileMetadata} {ls : List Loc}

/-! ### What is not disturbed -/

omit [Platform] in
theorem answers_mono {k : PublishedFileKey} {h h' : List NodeEvent} (hs : h <:+ h')
    {x : Nat × Bytes} (hx : x ∈ answers k h) : x ∈ answers k h' :=
  (hs.sublist.filterMap _).subset hx

theorem Restored.mono {v v' : NodeView} {bs : Bytes} (hs : v.hist <:+ v'.hist)
    (h : Restored m v bs) : Restored m v' bs := by
  obtain ⟨cs, length, all, rfl⟩ := h
  exact ⟨cs, length, fun c b hb => ⟨(all c b hb).1, answers_mono hs (all c b hb).2⟩, rfl⟩

theorem Accepts.lt {c : Nat} {bs : Bytes} (h : Accepts m c bs) : c < m.merkleProofs.length := by
  obtain ⟨proof, hp, -⟩ := h
  exact (List.getElem?_eq_some_iff.mp hp).1

theorem Verified.lt {c : Nat} {v : NodeView} (h : Verified m c v) : c < m.merkleProofs.length := by
  obtain ⟨_, -, ha, -⟩ := h
  exact ha.lt

theorem Verified.frame {c : Nat} {v v' : NodeView} (h : Verified m c v)
    (hf : v'.world.fs (chunkLoc m c) = v.world.fs (chunkLoc m c)) (hs : v.hist <:+ v'.hist) :
    Verified m c v' := by
  obtain ⟨bs, hb, ha, hc⟩ := h
  exact ⟨bs, (bytes_congr hf).trans hb, ha, answers_mono hs hc⟩

/-- A step that leaves the record and the metadata of the download alone,
and the chunk files no task works on. -/
structure Keeps (m : FileMetadata) (v v' : NodeView) : Prop where
  metadata : v'.world.fs (metadataLoc m) = v.world.fs (metadataLoc m)
  chunks : ∀ c < m.merkleProofs.length, v.live (.chunk m.key.toU64 c) = false →
    v'.world.fs (chunkLoc m c) = v.world.fs (chunkLoc m c)
  pending : v'.world.store.pending[m.key]? = v.world.store.pending[m.key]?
  memory : memory m.key v'.hist = memory m.key v.hist
  reads : 2 ≤ reads m m.key v'.hist → 2 ≤ reads m m.key v.hist ∨
    ∀ c < m.merkleProofs.length, c ∈ Downloading.memory m.key v.hist
  hist : v.hist <:+ v'.hist
  download : v'.live (.download m.key) = true → v.live (.download m.key) = true
  chunk : ∀ c, v'.live (.chunk m.key.toU64 c) = true → v.live (.chunk m.key.toU64 c) = true

variable {v v' : NodeView}

theorem Keeps.idle (hk : Keeps m v v') {c : Nat} (h : v.live (.chunk m.key.toU64 c) = false) :
    v'.live (.chunk m.key.toU64 c) = false := by
  by_contra hc
  have := hk.chunk c (Bool.eq_true_of_not_eq_false hc)
  rw [h] at this
  cases this

theorem Settled.frame {c : Nat} (h : Settled m c v) (hk : Keeps m v v') : Settled m c v' where
  verified := h.verified.frame (hk.chunks c h.verified.lt h.idle) hk.hist
  idle := hk.idle h.idle
  memory hl := by
    rw [hk.memory]
    exact h.memory (hk.download hl)
  stored s hs := by
    rw [hk.pending] at hs
    exact h.stored s hs

/-- A step that changes no file keeps what is said about the destination. -/
theorem Sound.whole (hv : Sound m ls v) (v' : NodeView) {e : NodeEvent} (hf : v'.world.fs = v.world.fs)
    (hh : v'.hist = e :: v.hist) (hc : completed? m.key e = false) :
    (Exclusive m ls → ∀ d, destination m = some d → v'.world.fs (loc d) = none ∨
      ∃ bs, v'.world.fs.bytes (loc d) = some bs ∧ Restored m v' bs) ∧
    (Exclusive m ls → ∀ d, destination m = some d → (∃ e ∈ v'.hist, completed? m.key e) →
      ∃ bs, v'.world.fs.bytes (loc d) = some bs ∧ Restored m v' bs) := by
  have suffix : v.hist <:+ v'.hist := by
    rw [hh]
    exact List.suffix_cons _ _
  rw [hf]
  constructor
  · intro hx d hd
    exact (hv.restored hx d hd).imp id fun ⟨bs, hb, h⟩ => ⟨bs, hb, h.mono suffix⟩
  · rintro hx d hd ⟨e', hmem, hc'⟩
    rw [hh] at hmem
    obtain rfl | hmem := List.mem_cons.mp hmem
    · rw [hc] at hc'
      cases hc'
    · obtain ⟨bs, hb, h⟩ := hv.done hx d hd ⟨e', hmem, hc'⟩
      exact ⟨bs, hb, h.mono suffix⟩

/-- What is left to say about a step that keeps the download's things:
what it serves, and what it does beside the directory. -/
theorem Sound.frame (hv : Sound m ls v) (hk : Keeps m v v')
    (hserved : ∀ x ∈ Downloading.served v'.hist, x.1.fileId = m.key.toU64 →
      Accepts m x.1.chunkId x.2)
    (hrestored : Exclusive m ls → ∀ d, destination m = some d → v'.world.fs (loc d) = none ∨
      ∃ bs, v'.world.fs.bytes (loc d) = some bs ∧ Restored m v' bs)
    (hdone : Exclusive m ls → ∀ d, destination m = some d →
      (∃ e ∈ v'.hist, completed? m.key e) →
      ∃ bs, v'.world.fs.bytes (loc d) = some bs ∧ Restored m v' bs) : Sound m ls v' where
  metadata := (bytes_congr hk.metadata).trans hv.metadata
  record s hs := by
    rw [hk.pending] at hs
    exact hv.record s hs
  stored s hs c hc := by
    rw [hk.pending] at hs
    exact (hv.stored s hs c hc).frame hk
  memory hl c hc := by
    rw [hk.memory] at hc
    obtain ⟨hver, hidle⟩ := hv.memory (hk.download hl) c hc
    exact ⟨hver.frame (hk.chunks c hver.lt hidle) hk.hist, hk.idle hidle⟩
  complete hl hr c hc := by
    rw [hk.memory]
    obtain hr | full := hk.reads hr
    · exact hv.complete (hk.download hl) hr c hc
    · exact full c hc
  served := hserved
  restored := hrestored
  done := hdone

/-- A step that also leaves alone what is beside the directory. -/
theorem Sound.frame_outside (hv : Sound m ls v) (hk : Keeps m v v')
    (hserved : ∀ x ∈ Downloading.served v'.hist, x.1.fileId = m.key.toU64 →
      Accepts m x.1.chunkId x.2)
    (houtside : outside m ⊆ ls → ∀ l ∈ outside m, v'.world.fs l = v.world.fs l)
    (hdone : (∃ e ∈ v'.hist, completed? m.key e) → ∃ e ∈ v.hist, completed? m.key e) :
    Sound m ls v' := by
  have same : Exclusive m ls → ∀ d, destination m = some d →
      v'.world.fs (loc d) = v.world.fs (loc d) := by
    intro hx d hd
    exact houtside hx.1 _ (destination_mem hd)
  refine hv.frame hk hserved (fun hx d hd => ?_) (fun hx d hd hc => ?_)
  · rw [same hx d hd, bytes_congr (same hx d hd)]
    obtain h | ⟨bs, hb, hr⟩ := hv.restored hx d hd
    · exact .inl h
    · exact .inr ⟨bs, hb, hr.mono hk.hist⟩
  · rw [bytes_congr (same hx d hd)]
    obtain ⟨bs, hb, hr⟩ := hv.done hx d hd (hdone hc)
    exact ⟨bs, hb, hr.mono hk.hist⟩

/-! ### Events -/

section Events

omit [Platform]

variable {i : Slot} {o : Op} {a : o.Ans} {h : List NodeEvent} {k : PublishedFileKey}

theorem reads_op (hi : i ≠ .download k) : reads m k (.op i o a :: h) = reads m k h := by
  rw [reads.eq_def]
  split
  · cases ‹_ = []›
  · cases ‹_ = _›
  · next heq =>
      cases heq
      exact if_neg fun hk => hi (congrArg Slot.download (And.left hk))
  · next heq =>
      cases heq
      rfl

theorem memory_await {j : Slot} {r : Res} (hi : i ≠ .download k) :
    memory k (.await (L := lang) i j r :: h) = memory k h := by
  rw [memory.eq_def]
  split
  · cases ‹_ = []›
  · cases ‹_ = _›
  · next heq =>
      cases heq
      exact if_neg fun hk => hi (congrArg Slot.download hk)
  · next heq =>
      cases heq
      rfl

theorem served_op (hs : i = .eventLoop → ∀ ch r, o ≠ .swarm (.sendResponse ch r)) :
    served (.op i o a :: h) = served h := by
  rw [served.eq_def]
  split
  · cases ‹_ = []›
  · next heq =>
      cases heq
      exact absurd rfl (hs rfl _ _)
  · next heq =>
      cases heq
      rfl

theorem request_op (hi : i ≠ .eventLoop) :
    chunkRequest? (.op i o a :: h) = chunkRequest? h ∧ fromPending (.op i o a :: h) = fromPending h := by
  constructor
  · rw [chunkRequest?.eq_def]
    split
    · cases ‹_ = []›
    · next heq =>
        cases heq
        exact absurd rfl hi
    · next heq =>
        cases heq
        exact absurd rfl hi
    · next heq =>
        cases heq
        rfl
  · rw [fromPending.eq_def]
    split
    · cases ‹_ = []›
    · next heq =>
        cases heq
        exact absurd rfl hi
    · next heq =>
        cases heq
        exact absurd rfl hi
    · next heq =>
        cases heq
        rfl

theorem completed_op (hi : i ≠ .download k) : completed? k (.op i o a) = false := by
  unfold completed?
  split
  · next heq =>
      cases heq
      exact decide_eq_false fun hk => hi (congrArg Slot.download hk)
  · rfl

end Events

section Guarantees

variable {i : Slot} {o : Op} {a : o.Ans} {c : Choice} {w : World}

/-- An operation that writes none of the download's files but, in a chunk
slot, the file of its chunk. -/
theorem guar_op (hv : Sound m ls v) (hl : v.live i = true) (he : o.exec c v.world = some (a, w))
    (hpending : w.store.pending[m.key]? = v.world.store.pending[m.key]?)
    (hmetadata : metadataLoc m ∉ o.writes)
    (hchunks : ∀ c < m.merkleProofs.length, i ≠ .chunk m.key.toU64 c → chunkLoc m c ∉ o.writes)
    (houtside : outside m ⊆ ls → ∀ l ∈ outside m, l ∉ o.writes)
    (hreads : i = .download m.key → 2 ≤ reads m m.key (.op i o a :: v.hist) →
      2 ≤ reads m m.key v.hist ∨ ∀ c < m.merkleProofs.length, c ∈ memory m.key v.hist)
    (hserved : ∀ x ∈ served (.op i o a :: v.hist), x.1.fileId = m.key.toU64 →
      Accepts m x.1.chunkId x.2)
    (hdone : i = .download m.key → completed? m.key (.op i o a) = false) :
    (protocol m ls).Guar i v (v.op i o a w) := by
  have keeps : Keeps m v (v.op i o a w) :=
    { metadata := exec_fs_apply he hmetadata
      chunks := fun c' hc' hidle => by
        refine exec_fs_apply he (hchunks c' hc' fun hi => ?_)
        rw [← hi, hl] at hidle
        cases hidle
      pending := hpending
      memory := rfl
      reads := by
        by_cases hi : i = .download m.key
        · exact hreads hi
        · exact fun h => .inl (le_of_le_of_eq h (reads_op hi))
      hist := List.suffix_cons _ _
      download := id
      chunk := fun _ h => h }
  have same : outside m ⊆ ls → ∀ l ∈ outside m, w.fs l = v.world.fs l := fun hx l hl =>
    exec_fs_apply he (houtside hx l hl)
  refine ⟨hv.frame_outside keeps hserved same ?_, fun j hj => ⟨?_, ?_, ?_, ?_, ?_⟩⟩
  · rintro ⟨e, hmem, hc⟩
    obtain rfl | hmem := List.mem_cons.mp hmem
    · by_cases hi : i = .download m.key
      · rw [hdone hi] at hc
        cases hc
      · rw [completed_op hi] at hc
        cases hc
    · exact ⟨e, hmem, hc⟩
  · rintro rfl hlive
    exact ⟨hlive, rfl, reads_op hj.symm⟩
  · exact fun _ => same
  · rintro c' hc' rfl
    exact exec_fs_apply he (hchunks c' hc' (fun hi => hj hi.symm))
  · exact fun c' h => h.frame keeps
  · rintro rfl
    exact request_op hj.symm

theorem metadataLoc_mem (hls : directory m ⊆ ls) : metadataLoc m ∈ ls :=
  hls List.mem_cons_self

theorem chunkLoc_mem (hls : directory m ⊆ ls) {c : Nat} (hc : c < m.merkleProofs.length) :
    chunkLoc m c ∈ ls :=
  hls (chunkLoc_mem_directory (by omega))

/-- An operation of somebody else. -/
theorem guar_other (hls : directory m ⊆ ls) (hi : worksOn m.key i = false) (hv : Sound m ls v)
    (hl : v.live i = true) (he : o.exec c v.world = some (a, w))
    (hg : solitary m ls v (.op i o a))
    (hpending : w.store.pending[m.key]? = v.world.store.pending[m.key]?)
    (hserved : ∀ x ∈ served (.op i o a :: v.hist), x.1.fileId = m.key.toU64 →
      Accepts m x.1.chunkId x.2) :
    (protocol m ls).Guar i v (v.op i o a w) := by
  have untouched : ∀ l ∈ ls, l ∉ o.writes := by
    intro l hl hw
    refine hg.2.2.2 l ?_ hl
    show l ∈ if worksOn m.key i then [] else o.writes
    rw [hi]
    exact hw
  have ne : i ≠ .download m.key := by
    rintro rfl
    exact absurd hi (by simp [worksOn])
  exact guar_op hv hl he hpending (untouched _ (metadataLoc_mem hls))
    (fun c hc _ => untouched _ (chunkLoc_mem hls hc)) (fun hx l hl => untouched l (hx hl))
    (fun hi => absurd hi ne) hserved (fun hi => absurd hi ne)

/-- Something happens in another slot, and nothing is written. -/
theorem guar_live (v' : NodeView) {e : NodeEvent} {j : Slot} {b : Bool} (hv : Sound m ls v)
    (hw : v'.world = v.world) (hh : v'.hist = e :: v.hist)
    (hlive : v'.live = Function.update v.live j b) (hj : worksOn m.key j = false)
    (hmemory : memory m.key (e :: v.hist) = memory m.key v.hist)
    (hreads : reads m m.key (e :: v.hist) = reads m m.key v.hist)
    (hserved : served (e :: v.hist) = served v.hist)
    (hrequest : chunkRequest? (e :: v.hist) = chunkRequest? v.hist ∧
      fromPending (e :: v.hist) = fromPending v.hist)
    (hdone : completed? m.key e = false) :
    Sound m ls v' ∧ ∀ j, Rely m ls j v v' := by
  have download : v'.live (.download m.key) = v.live (.download m.key) := by
    rw [hlive]
    refine Function.update_of_ne ?_ _ _
    rintro rfl
    exact absurd hj (by simp [worksOn])
  have chunk : ∀ c, v'.live (.chunk m.key.toU64 c) = v.live (.chunk m.key.toU64 c) := by
    intro c
    rw [hlive]
    refine Function.update_of_ne ?_ _ _
    rintro rfl
    exact absurd hj (by simp [worksOn])
  have keeps : Keeps m v v' :=
    { metadata := by rw [hw]
      chunks := fun _ _ _ => by rw [hw]
      pending := by rw [hw]
      memory := by rw [hh, hmemory]
      reads := fun h => by
        rw [hh, hreads] at h
        exact .inl h
      hist := by rw [hh]; exact List.suffix_cons _ _
      download := fun h => by rwa [← download]
      chunk := fun c h => by rwa [← chunk c] }
  refine ⟨hv.frame_outside keeps ?_ (fun _ l _ => by rw [hw]) ?_, fun i => ⟨?_, ?_, ?_, ?_, ?_⟩⟩
  · rw [hh, hserved]
    exact hv.served
  · rw [hh]
    rintro ⟨e', hmem, hc⟩
    obtain rfl | hmem := List.mem_cons.mp hmem
    · rw [hdone] at hc
      cases hc
    · exact ⟨e', hmem, hc⟩
  · rintro rfl h
    rw [hh]
    exact ⟨download.trans h, hmemory, hreads⟩
  · exact fun _ _ l _ => by rw [hw]
  · exact fun c _ _ => by rw [hw]
  · exact fun c h => h.frame keeps
  · intro _
    rw [hh]
    exact hrequest

/-- The download is started from the stored record. -/
theorem guar_startDownload {r : PendingDownloadRecord} (hv : Sound m ls v) (hk : r.key = m.key)
    (hf : v.live (.download m.key) = false) (hp : v.world.store.pending[m.key]? = some r) :
    (protocol m ls).Guar i v (v.spawn (L := lang) i (.download r) (.download r.key)) ∧
      Pre m (.download r) (v.spawn (L := lang) i (.download r) (.download r.key)) := by
  have held : memory m.key (.spawn (L := lang) i (.download r) :: v.hist) = r.downloadedChunks :=
    if_pos hk
  have none : reads m m.key (.spawn (L := lang) i (.download r) :: v.hist) = 0 := if_pos hk
  have suffix : v.hist <:+ .spawn (L := lang) i (.download r) :: v.hist := List.suffix_cons _ _
  have chunk : ∀ c, Function.update v.live (.download r.key) true (.chunk m.key.toU64 c)
      = v.live (.chunk m.key.toU64 c) := fun c => by
    have ne : Slot.chunk m.key.toU64 c ≠ .download r.key := nofun
    exact Function.update_of_ne ne _ _
  have settled : ∀ c, Settled m c v →
      Settled m c (v.spawn (L := lang) i (.download r) (.download r.key)) := by
    intro c h
    refine ⟨h.verified.frame rfl suffix, (chunk c).trans h.idle, fun _ => ?_, h.stored⟩
    show c ∈ memory m.key (.spawn (L := lang) i (.download r) :: v.hist)
    rw [held]
    exact h.stored r hp
  obtain ⟨restored, done⟩ := hv.whole
    (v.spawn (L := lang) i (.download r) (.download r.key)) rfl rfl rfl
  refine ⟨⟨⟨hv.metadata, hv.record, fun s hs c hc => settled c (hv.stored s hs c hc), ?_, ?_,
    hv.served, restored, done⟩, fun j hj => ⟨?_, fun _ _ _ _ => rfl, fun _ _ _ => rfl, settled,
    fun _ => ⟨rfl, rfl⟩⟩⟩, ?_, nofun⟩
  · intro _ c hc
    replace hc : c ∈ memory m.key (.spawn (L := lang) i (.download r) :: v.hist) := hc
    rw [held] at hc
    have h := settled c (hv.stored r hp c hc)
    exact ⟨h.verified, h.idle⟩
  · intro _ hr
    replace hr : 2 ≤ reads m m.key (.spawn (L := lang) i (.download r) :: v.hist) := hr
    rw [none] at hr
    omega
  · rintro rfl hlive
    rw [hf] at hlive
    cases hlive
  · rintro _ ⟨⟩ -
    refine ⟨⟨hk, hv.record r hp, ?_, held.symm⟩, none⟩
    show Function.update v.live (.download r.key) true (.download m.key) = true
    rw [hk, Function.update_self]

end Guarantees

/-! ### The programs of others -/

/-- A program that is not the download's, writes no pending record of its
key and sends no response. -/
theorem safe_other {α : Type} {F : Footprint lang} {p : Proc α} {i : Slot}
    (hls : directory m ⊆ ls) (hi : worksOn m.key i = false) (hp : p.Within F)
    (hop : ∀ o, F.op o → o.pendingKey ≠ some m.key)
    (hsend : i = .eventLoop → ∀ o, F.op o → ∀ ch r, o ≠ .swarm (.sendResponse ch r))
    (hsp : ∀ t, F.spawn t → (∃ r, t = .download r) ∨ ∃ d, t = .chunk d ∧ d.fileId ≠ m.key.toU64)
    (haw : ∀ j, F.await j → worksOn m.key j = false) :
    (protocol m ls).Safe machine (solitary m ls) i p (fun _ _ => True) v := by
  refine Protocol.safe_footprint hp (fun _ _ _ _ => trivial) ?_ ?_ ?_ trivial
  · intro v _ hinv hl o ho c a w he hg
    refine ⟨guar_other hls hi hinv hl he hg (exec_pending_get he (hop o ho)) ?_, trivial⟩
    rw [served_op fun hi => hsend hi o ho]
    exact hinv.served
  · intro v _ hinv _ t ht hf hg
    obtain ⟨r, rfl⟩ | ⟨d, rfl, hd⟩ := hsp t ht
    · by_cases hk : r.key = m.key
      · have hf' : v.live (.download m.key) = false := by
          rw [← hk]
          exact hf
        obtain ⟨hG, hpre⟩ := guar_startDownload hinv hk hf' (hg.2.1 r rfl hk)
        exact ⟨hG, hpre, trivial⟩
      · have other : worksOn m.key (.download r.key) = false := decide_eq_false hk
        obtain ⟨hs, hr⟩ := guar_live (v.spawn (L := lang) i (.download r) (.download r.key))
          hinv rfl rfl rfl other (if_neg hk) (if_neg hk) rfl ⟨rfl, rfl⟩ rfl
        refine ⟨⟨hs, fun j _ => hr j⟩, ⟨?_, nofun⟩, trivial⟩
        rintro _ ⟨⟩ h
        exact absurd h hk
    · have other : worksOn m.key (.chunk d.fileId d.chunkId) = false := decide_eq_false hd
      obtain ⟨hs, hr⟩ := guar_live
        (v.spawn (L := lang) i (.chunk d) (.chunk d.fileId d.chunkId))
        hinv rfl rfl rfl other rfl rfl rfl ⟨rfl, rfl⟩ rfl
      refine ⟨⟨hs, fun j _ => hr j⟩, ⟨nofun, ?_⟩, trivial⟩
      rintro _ ⟨⟩ h
      exact absurd h hd
  · intro v _ hinv _ j hj _ r _ hg
    have same : memory m.key (.await (L := lang) i j r :: v.hist) = memory m.key v.hist := by
      refine memory_await ?_
      rintro rfl
      exact absurd hi (by simp [worksOn])
    obtain ⟨hs, hr⟩ := guar_live (v.await (L := lang) i j r)
      hinv rfl rfl rfl (haw j hj) same rfl rfl ⟨rfl, rfl⟩ rfl
    exact ⟨⟨hs, fun j _ => hr j⟩, trivial⟩

end RustDfs.Downloading
