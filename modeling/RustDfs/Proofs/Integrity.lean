import RustDfs.Proofs.DownloadRuns
import RustDfs.Proofs.SplitRestore

/-!
# `RustDfs.Proofs.Integrity`: what a download can be trusted with

Three properties of a download that nothing else disturbs.

* What is recorded is verified (`recorded_verified`), when the places the
  download writes to are different places. The names come from the peer's
  metadata and nothing checks them: with an extension that steps up, two
  chunks share a file (`recorded_overwritten`).
* What is complete is complete (`complete_verified`), when there are
  chunks and a proof for each. `download` counts the proofs and
  `restore_original_file` the chunks (`complete_unverified`).
* What is put together is the content that was published, whatever the
  peers answered (`completed_content`).
-/

set_option autoImplicit false

namespace RustDfs.Downloading

open Lib Conc

section Proof

variable [Platform] {m : FileMetadata} {w : World} {p : NodePool}

/-! ### Recorded chunks -/

instance (c : Nat) (v : NodeView) : Decidable (Verified m c v) :=
  inferInstanceAs (Decidable (∃ bs ∈ v.world.fs.bytes (chunkLoc m c), _))

/-- What holds of the chunks that are recorded.
- `stored`: those of the record in the database are chunks of the file and
  verified,
- `memory`: those of the record the running task holds are, too,
- `served`: what is served of them to peers passes the check. -/
structure RecordedVerified (m : FileMetadata) (v : NodeView) : Prop where
  stored : ∀ s ∈ v.world.store.pending[m.key]?, ∀ c ∈ s.downloadedChunks,
    c < m.merkleProofs.length ∧ Verified m c v
  memory : v.live (.download m.key) = true → ∀ c ∈ memory m.key v.hist,
    c < m.merkleProofs.length ∧ Verified m c v
  served : ∀ x ∈ served v.hist, x.1.fileId = m.key.toU64 → Accepts m x.1.chunkId x.2

theorem recordedVerified_iff (v : NodeView) : RecordedVerified m v ↔
    (∀ s ∈ v.world.store.pending[m.key]?, ∀ c ∈ s.downloadedChunks,
      c < m.merkleProofs.length ∧ Verified m c v) ∧
    (v.live (.download m.key) = true → ∀ c ∈ memory m.key v.hist,
      c < m.merkleProofs.length ∧ Verified m c v) ∧
    ∀ x ∈ served v.hist, x.1.fileId = m.key.toU64 → Accepts m x.1.chunkId x.2 :=
  ⟨fun h => ⟨h.stored, h.memory, h.served⟩, fun h => ⟨h.1, h.2.1, h.2.2⟩⟩

instance (v : NodeView) : Decidable (RecordedVerified m v) :=
  decidable_of_iff' _ (recordedVerified_iff v)

/-- The directory is not the place of the file. -/
theorem Distinct.not_exclusive (hd : Distinct m) (hx : Exclusive m (directory m)) (d : PathBuf) :
    destination m ≠ some d := fun h =>
  hd.not_outside (hx.1 (destination_mem h)) (destination_mem h)

theorem sound_of_solitary (hdist : Distinct m) (hw : Start m w)
    (h : Reach machine (solitary m (directory m)) (.idle w) p) :
    Sound m (directory m) p.view :=
  sound_of_reach hdist (List.Subset.refl _) hw
    (fun hx d hd => absurd hd (hdist.not_exclusive hx d)) h

/-- In every run that leaves the directory and the record of a download
alone, its recorded chunks are verified. -/
theorem recorded_verified (hdist : Distinct m) (hw : Start m w)
    (h : Reach machine (solitary m (directory m)) (.idle w) p) : RecordedVerified m p.view := by
  have sound := sound_of_solitary hdist hw h
  refine ⟨fun s hs c hc => ?_, fun hl c hc => ?_, sound.served⟩
  · have verified := (sound.stored s hs c hc).verified
    exact ⟨verified.lt, verified⟩
  · have verified := (sound.memory hl c hc).1
    exact ⟨verified.lt, verified⟩

/-! ### Complete downloads -/

/-- When `download` has returned `Ok(true)`, there are chunks and all of
them are in memory and verified. -/
def CompleteVerified (m : FileMetadata) (v : NodeView) : Prop :=
  v.live (.download m.key) = true → 2 ≤ reads m m.key v.hist →
    0 < m.totalChunks ∧ ∀ c < m.totalChunks, c ∈ memory m.key v.hist ∧ Verified m c v

instance (v : NodeView) : Decidable (CompleteVerified m v) :=
  inferInstanceAs (Decidable (_ → _ → _))

/-- In every run that leaves the directory and the record of a download
alone, a complete download is complete. -/
theorem complete_verified (hdist : Distinct m) (hpos : 0 < m.totalChunks)
    (hproofs : m.totalChunks ≤ m.merkleProofs.length) (hw : Start m w)
    (h : Reach machine (solitary m (directory m)) (.idle w) p) : CompleteVerified m p.view := by
  have sound := sound_of_solitary hdist hw h
  refine fun hl hr => ⟨hpos, fun c hc => ?_⟩
  have held := sound.complete hl hr c (by omega)
  exact ⟨held, (sound.memory hl c held).1⟩

/-! ### The content -/

section Content

open SplitRestore

variable {content : Bytes} {path dir downloadPath : PathBuf} {name : String} {isPublic : Bool}
  {m₀ : FileMetadata} {w₀ : World}

/-- A published file as it is downloaded: its names are what
`process_file` made them. -/
structure Downloaded (m : FileMetadata) (downloadPath : PathBuf) (name : String)
    (content : Bytes) : Prop where
  normal : PathBuf.IsNormal name
  name_eq : m.originalFileName = name
  extension : m.chunkFileExtension = FILE_CHUNK_EXTENSION
  total : m.totalChunks = chunkCount CHUNK_SIZE content
  proofs : m.merkleProofs.length = chunkCount CHUNK_SIZE content
  dir : m.chunksDir = downloadPath.join (chunksDirName name)
  root : Platform.merkleRoot (ChunkProofs.leaves (chunks CHUNK_SIZE content)) = some m.merkleRoot

theorem downloaded_of_split (hname : PathBuf.IsNormal name)
    (hm : IsSplit name dir isPublic content m₀ w₀) :
    Downloaded (localMetadata downloadPath m₀) downloadPath name content := by
  have metadata := hm.metadata
  generalize m₀.merkleRoot = root at metadata
  subst metadata
  exact
    { normal := hname
      name_eq := rfl
      extension := rfl
      total := rfl
      proofs := by simp only [localMetadata, splitMetadata, List.length_map, List.length_range]
      dir := by
        simp only [localMetadata, splitMetadata, FileMetadata.getChunksDirNamePrefix, chunksDirName]
      root := hm.root }

theorem Downloaded.loc_dir (h : Downloaded m downloadPath name content) :
    loc m.chunksDir = loc downloadPath ++ [chunksDirName name] := by
  rw [h.dir]
  exact loc_join (isNormal_chunksDirName h.normal) downloadPath

theorem Downloaded.loc_metadata (h : Downloaded m downloadPath name content) :
    metadataLoc m = loc downloadPath ++ [chunksDirName name, METADATA_FILE_NAME] := by
  rw [metadataLoc, RustDfs.loc_metadata, h.loc_dir, List.append_assoc]
  rfl

theorem Downloaded.loc_chunk (h : Downloaded m downloadPath name content) (c : Nat) :
    chunkLoc m c
      = loc downloadPath ++ [chunksDirName name, chunkFileName c FILE_CHUNK_EXTENSION] := by
  rw [chunkLoc, h.extension, loc_join (isNormal_chunkFileName c (by decide)), h.loc_dir,
    List.append_assoc]
  rfl

/-- The file is put together next to its directory. -/
theorem Downloaded.destination (h : Downloaded m downloadPath name content) :
    ∃ d t, Downloading.destination m = some d ∧ part m = some t ∧
      loc d = loc downloadPath ++ [name] ∧ loc t = loc downloadPath ++ [name ++ ".part"] := by
  obtain ⟨q, hq, hl⟩ := parent_join (isNormal_chunksDirName h.normal) downloadPath
  rw [← h.dir] at hq
  refine ⟨q.join name, q.join (name ++ ".part"), ?_, ?_, ?_, ?_⟩
  · rw [Downloading.destination, hq, h.name_eq]
    rfl
  · rw [part, hq, h.name_eq]
    rfl
  · rw [loc_join h.normal, hl]
  · rw [loc_join (isNormal_part h.normal), hl]

/-- What the node makes of names it made itself are different places. -/
theorem Downloaded.distinct (h : Downloaded m downloadPath name content) : Distinct m := by
  obtain ⟨d, t, hd, ht, hloc, hpart⟩ := h.destination
  have outside : Downloading.outside m
      = [loc downloadPath ++ [name], loc downloadPath ++ [name ++ ".part"]] := by
    rw [Downloading.outside, hd, ht]
    show [loc d, loc t] = _
    rw [hloc, hpart]
  have longer : name ≠ name ++ ".part" := by
    intro he
    have := congrArg String.length he
    simp at this
  have inside : ∀ l ∈ directory m, l.length = (loc downloadPath).length + 2 := by
    intro l hl
    obtain rfl | hl := List.mem_cons.mp hl
    · rw [h.loc_metadata, List.length_append]
      rfl
    · obtain ⟨c, -, rfl⟩ := List.mem_map.mp hl
      rw [h.loc_chunk, List.length_append]
      rfl
  refine List.nodup_append.mpr ⟨List.nodup_cons.mpr ⟨fun hl => ?_, ?_⟩, ?_, ?_⟩
  · obtain ⟨c, -, he⟩ := List.mem_map.mp hl
    rw [h.loc_metadata, h.loc_chunk] at he
    have names := List.append_cancel_left he
    exact chunkFileName_ne_metadata c _ (by simpa using names)
  · refine List.Nodup.map (fun c c' he => ?_) List.nodup_range
    rw [h.loc_chunk, h.loc_chunk] at he
    have names := List.append_cancel_left he
    exact chunkFileName_inj (by simpa using names)
  · rw [outside]
    refine List.nodup_cons.mpr ⟨fun hl => ?_, List.nodup_singleton _⟩
    have names := List.append_cancel_left (List.mem_singleton.mp hl)
    exact longer (by simpa using names)
  · rintro l hl l' hl' rfl
    have two := inside l hl
    rw [outside] at hl'
    obtain rfl | hl' := List.mem_cons.mp hl'
    · simp at two
    · obtain rfl := List.mem_singleton.mp hl'
      simp at two

/-- Chunks that pass, put together, are the content. -/
theorem Downloaded.content_eq [ChunkProofs.RsMerkle] (h : Downloaded m downloadPath name content)
    {v : NodeView} {bs : Bytes} (hr : Restored m v bs)
    (hfree : ∀ x ∈ answers m.key v.hist, ∀ proof ∈ m.merkleProofs[x.1]?,
      ChunkProofs.CollisionFree
        (ChunkProofs.hashed (chunks CHUNK_SIZE content) x.2 x.1 proof)) :
    bs = content := by
  obtain ⟨cs, length, all, rfl⟩ := hr
  have total : (chunks CHUNK_SIZE content).length = m.totalChunks := by
    rw [length_chunks, h.total]
  have same : cs = chunks CHUNK_SIZE content := by
    refine List.ext_getElem (length.trans total.symm) fun i hi hi' => ?_
    have chunk := List.getElem?_eq_getElem hi'
    obtain ⟨⟨proof, hproof, pass⟩, answer⟩ := all i cs[i] (List.getElem?_eq_getElem hi)
    rw [← total] at pass
    exact ChunkProofs.verifyChunk_sound chunk h.root (hfree _ answer proof hproof) pass
  rw [same, flatten_chunks (by decide)]

/-- End to end: a file that was split with a content in it is downloaded
under its metadata. When its download is completed, the destination is
the content, whatever peers answered. -/
theorem completed_content [ChunkProofs.RsMerkle] (hname : path.fileName = some name)
    (hm : IsSplit name dir isPublic content m₀ w₀)
    (hw : Start (localMetadata downloadPath m₀) w)
    (habsent : w.fs (loc (downloadPath.join name)) = none)
    (h : Reach machine (solitary (localMetadata downloadPath m₀)
      (directory (localMetadata downloadPath m₀) ++ outside (localMetadata downloadPath m₀)))
      (.idle w) p)
    (hfree : ∀ x ∈ answers (localMetadata downloadPath m₀).key p.hist,
      ∀ proof ∈ m₀.merkleProofs[x.1]?, ChunkProofs.CollisionFree
        (ChunkProofs.hashed (chunks CHUNK_SIZE content) x.2 x.1 proof))
    (hdone : ∃ e ∈ p.hist, completed? (localMetadata downloadPath m₀).key e) :
    p.world.fs.bytes (loc (downloadPath.join name)) = some content := by
  have normal := isNormal_of_fileName hname
  have downloaded : Downloaded (localMetadata downloadPath m₀) downloadPath name content :=
    downloaded_of_split normal hm
  have place := loc_join normal downloadPath
  obtain ⟨d, t, hd, -, hloc, -⟩ := downloaded.destination
  have exclusive : Exclusive (localMetadata downloadPath m₀)
      (directory (localMetadata downloadPath m₀) ++ outside (localMetadata downloadPath m₀)) :=
    ⟨List.subset_append_right _ _, (downloaded.total.trans downloaded.proofs.symm).le⟩
  have free : ∀ d', destination (localMetadata downloadPath m₀) = some d' →
      w.fs (loc d') = none := by
    intro d' hd'
    rw [hd] at hd'
    cases hd'
    rw [hloc, ← place]
    exact habsent
  have sound := sound_of_reach downloaded.distinct (List.subset_append_left _ _) hw
    (fun _ => free) h
  obtain ⟨bs, hb, restored⟩ := sound.done exclusive d hd hdone
  have same : bs = content := downloaded.content_eq restored hfree
  rw [place, ← hloc]
  exact hb.trans (congrArg some same)

end Content

end Proof

/-! ### Runs -/

section Example

open Reference

attribute [local instance] platform

/-- A node that has accepted the download with the metadata `m` into a
directory with these other entries. -/
def accepted (m : FileMetadata) (entries : List (Loc × Node)) : World :=
  let w := newWorld (files ([([], .dir), (["d"], .dir), (["d", "f_chunks"], .dir),
    (metadataLoc m, .file m.toBytes)] ++ entries)) 2
  { w with store := ⟨∅, w.store.pending.insert m.key (pendingDownload m), ∅⟩ }

theorem start_accepted {m : FileMetadata} {entries : List (Loc × Node)}
    (h : (accepted m entries).fs.bytes (metadataLoc m) = some m.toBytes) :
    Start m (accepted m entries) := by
  refine ⟨?_, h⟩
  show (Std.ExtTreeMap.insert _ m.key (pendingDownload m))[m.key]? = _
  rw [get_put, if_pos rfl]

/-- Two chunks arrive and are written; then the first one is recorded. -/
def bothSaved (key : PublishedFileKey) : List (Move lang Choice) :=
  tickStream ++ tickStart ++ openDownload key 2 ++
    askChunk key 0 ++ askProvider 0 (.fileDownload (.response 0 (.success [7]))) ++
    saveChunk key 0 ++ commandPass 2 ++
    askChunk key 1 ++ askProvider 1 (.fileDownload (.response 1 (.success [8]))) ++
    saveChunk key 1 ++ recordChunk key 0

/-- Two chunks whose extension steps up to one file. -/
def steppingUp : FileMetadata :=
  { metadataOf "f" [[7], [8]] with
    chunksDir := ⟨"/d/f_chunks"⟩
    chunkFileExtension := "/../f" }

/-- The directories the extension steps through. -/
def steps : List (Loc × Node) :=
  [(["d", "f_chunks", "0."], .dir), (["d", "f_chunks", "1."], .dir)]

/-- The second chunk overwrites the first one, which is recorded then. -/
theorem recorded_overwritten :
    ∃ w p, Start steppingUp w ∧
      Reach machine (solitary steppingUp (directory steppingUp)) (.idle w) p ∧
      ¬ RecordedVerified steppingUp p.view := by
  have run : ∃ p, Reach machine (solitary steppingUp (directory steppingUp))
      (.idle (accepted steppingUp steps)) p ∧ ¬ RecordedVerified steppingUp p.view :=
    exists_reach_of_runScript (bothSaved steppingUp.key) (by decide +kernel)
  obtain ⟨p, h⟩ := run
  exact ⟨_, p, start_accepted (by decide +kernel), h⟩

/-- Two chunks with the extension of a published file. -/
def twoChunks : FileMetadata :=
  { metadataOf "f" [[7], [8]] with chunksDir := ⟨"/d/f_chunks"⟩ }

/-- With that extension the first chunk is still there. -/
theorem recorded_verified_twoChunks :
    ∃ w p, Reach machine (solitary twoChunks (directory twoChunks)) (.idle w) p ∧
      (p.world.store.pending[twoChunks.key]?).map PendingDownloadRecord.downloadedChunks
        = some {0} ∧
      RecordedVerified twoChunks p.view := by
  have distinct : Distinct twoChunks := by decide +kernel
  have start : Start twoChunks (accepted twoChunks []) := start_accepted (by decide +kernel)
  have run : ∃ p, Reach machine (solitary twoChunks (directory twoChunks))
      (.idle (accepted twoChunks [])) p ∧
      (p.world.store.pending[twoChunks.key]?).map PendingDownloadRecord.downloadedChunks
        = some {0} :=
    exists_reach_of_runScript (bothSaved twoChunks.key) (by decide +kernel)
  obtain ⟨p, h, hs⟩ := run
  exact ⟨_, p, h, hs, recorded_verified distinct start h⟩

/-- One chunk and no proof for it. -/
def noProofs : FileMetadata :=
  { metadataOf "f" [[7]] with
    chunksDir := ⟨"/d/f_chunks"⟩
    merkleProofs := [] }

/-- Without proofs a download is complete from the start. -/
theorem complete_unverified :
    ∃ w p, Start noProofs w ∧
      Reach machine (solitary noProofs (directory noProofs)) (.idle w) p ∧
      ¬ CompleteVerified noProofs p.view := by
  have run : ∃ p, Reach machine (solitary noProofs (directory noProofs))
      (.idle (accepted noProofs [])) p ∧ ¬ CompleteVerified noProofs p.view :=
    exists_reach_of_runScript (tickStream ++ tickStart ++ openDownload noProofs.key 0 ++
      ops (.download noProofs.key) 1) (by decide +kernel)
  obtain ⟨p, h⟩ := run
  exact ⟨_, p, start_accepted (by decide +kernel), h⟩

/-- One chunk as it was published. -/
def oneChunk : FileMetadata := localMetadata ⟨"/d"⟩ (metadataOf "f" [[7]])

/-- The chunk arrives, is written and recorded. -/
def saved (key : PublishedFileKey) : List (Move lang Choice) :=
  tickStream ++ tickStart ++ openDownload key 1 ++
    askChunk key 0 ++ askProvider 0 (.fileDownload (.response 0 (.success [7]))) ++
    saveChunk key 0 ++ commandPass 2 ++ recordChunk key 0

/-- With a proof for every chunk a complete download has them all. -/
theorem complete_verified_oneChunk :
    ∃ w p, Reach machine (solitary oneChunk (directory oneChunk)) (.idle w) p ∧
      p.view.live (.download oneChunk.key) = true ∧ 2 ≤ reads oneChunk oneChunk.key p.hist ∧
      CompleteVerified oneChunk p.view := by
  have distinct : Distinct oneChunk := by decide +kernel
  have start : Start oneChunk (accepted oneChunk []) := start_accepted (by decide +kernel)
  have run : ∃ p, Reach machine (solitary oneChunk (directory oneChunk))
      (.idle (accepted oneChunk [])) p ∧
      p.view.live (.download oneChunk.key) = true ∧ 2 ≤ reads oneChunk oneChunk.key p.hist :=
    exists_reach_of_runScript (saved oneChunk.key ++ ops (.download oneChunk.key) 1)
      (by decide +kernel)
  obtain ⟨p, h, hl, hr⟩ := run
  exact ⟨_, p, h, hl, hr, complete_verified distinct (by decide) (by decide) start h⟩

/-- A file of one byte as `process_file` leaves it. -/
def published : World :=
  newWorld (files [([], .dir), (["src"], .dir), (["src", "f_chunks"], .dir),
    (["src", "f_chunks", "0.chunk"], .file [7]),
    (["src", "f_chunks", ".metadata"], .file (metadataOf "f" [[7]]).toBytes)]) 1

theorem isSplit_published :
    SplitRestore.IsSplit "f" ⟨"/src/f_chunks"⟩ true [7] (metadataOf "f" [[7]]) published where
  root := by decide +kernel
  metadata := by decide +kernel
  saved := by decide +kernel
  chunks i hi := by
    have first : i = 0 := by
      have one : chunkCount CHUNK_SIZE ([7] : Bytes) = 1 := by decide +kernel
      omega
    subst first
    decide +kernel

/-- It is downloaded to `/d`. -/
theorem completed_content_oneByte :
    ∃ w p, Reach machine (solitary oneChunk (directory oneChunk ++ outside oneChunk)) (.idle w) p ∧
      w.fs.bytes ["d", "f"] = none ∧ p.world.fs.bytes ["d", "f"] = some [7] := by
  have name : (PathBuf.mk "/src/f").fileName = some "f" := by decide
  have start : Start (localMetadata ⟨"/d"⟩ (metadataOf "f" [[7]])) (accepted oneChunk []) :=
    start_accepted (by decide +kernel)
  have absent : (accepted oneChunk []).fs (loc ((PathBuf.mk "/d").join "f")) = none := by
    decide +kernel
  have run : ∃ p, Reach machine (solitary oneChunk (directory oneChunk ++ outside oneChunk))
      (.idle (accepted oneChunk [])) p ∧
      (∃ e ∈ p.hist, completed? oneChunk.key e) ∧
      ∀ x ∈ answers oneChunk.key p.hist, ∀ proof ∈ oneChunk.merkleProofs[x.1]?,
        ChunkProofs.CollisionFree (ChunkProofs.hashed (chunks CHUNK_SIZE [7]) x.2 x.1 proof) :=
    exists_reach_of_runScript (saved oneChunk.key ++ complete oneChunk.key 1) (by decide +kernel)
  obtain ⟨p, h, hdone, hfree⟩ := run
  have place : loc ((PathBuf.mk "/d").join "f") = ["d", "f"] := by decide
  rw [← place]
  have content := completed_content name isSplit_published start absent h hfree hdone
  exact ⟨_, p, h, by rw [Fs.bytes, absent], content⟩

end Example

end RustDfs.Downloading
