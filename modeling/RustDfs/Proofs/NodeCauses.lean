import RustDfs.Conc.Flow
import RustDfs.Conc.Solo
import RustDfs.Proofs.Tasks

/-!
# `RustDfs.Proofs.NodeCauses`: why a node announces and deletes

`Cause` says of each event that announces a key, queues a job or deletes
a record what must have happened before it in its slot: a chunk is only
announced by a task that verified and wrote it, a pending record is only
deleted where the published record of its key was stored. `justified`
shows it of every slot in every run, program by program.

Between slots things go through three places of the world: the command
channel, the jobs and the published files. Each of them is a `Flow`.
-/

set_option autoImplicit false

namespace RustDfs.Causes

open Lib Std Conc Prog

variable [Platform]

/-! ### Facts about a slot -/

/-- What `provide_all` announces for a file: the keys, and the record put
for each. -/
inductive Announces (m : FileMetadata) : Bytes → Bytes → Prop
  | metadata : Announces m m.key.bytes m.publishedFileBytes
  | chunk (c : Nat) (hc : c < m.totalChunks) :
      Announces m (FileChunkRequest.toBytes ⟨m.key.toU64, c⟩)
        (FileChunkRequest.toBytes ⟨m.key.toU64, c⟩)

/-- Slot `i` has read this metadata in the directory. -/
def HasRead (i : Slot) (dir : PathBuf) (m : FileMetadata) (h : List NodeEvent) : Prop :=
  ∃ data, .op i (.fs (.read (metadataPath dir))) (.ok data) ∈ h ∧
    Platform.decodeMetadata data = .ok m

/-- Slot `i` has written these bytes to the file. -/
def HasWritten (i : Slot) (p : PathBuf) (bytes : Bytes) (h : List NodeEvent) : Prop :=
  .op i (.fs (.writeAt p 0 bytes)) (.ok ()) ∈ h

/-- Slot `i` has stored the published record. -/
def HasPublished (i : Slot) (r : PublishedFileRecord) (h : List NodeEvent) : Prop :=
  .op i (.store (.putPublishedFile r)) (.ok ()) ∈ h

/-- Slot `i` has written the files of the first `n` chunks. -/
def Chunked (i : Slot) (dir : PathBuf) (n : Nat) (h : List NodeEvent) : Prop :=
  ∀ c < n, ∃ bytes, HasWritten i (dir.join (chunkFileName c FILE_CHUNK_EXTENSION)) bytes h

/-- Slot `i` has split a file: every chunk of the metadata was written to
its chunk directory. -/
def Split (i : Slot) (m : FileMetadata) : List NodeEvent → Prop :=
  Chunked i m.chunksDir m.totalChunks

/-- Slot `i` has prepared a download: it got a metadata as an answer, `m` is
this metadata with a directory of this node, and it created the metadata
file in this directory. -/
def Prepared (i : Slot) (m : FileMetadata) (h : List NodeEvent) : Prop :=
  ∃ tx answer dir, .op i (.chan (.metadata (.recv tx))) (.ok (some answer)) ∈ h ∧
    m = localMetadata dir answer ∧
    .op i (.fs (.createFile (metadataPath m.chunksDir))) (.ok ()) ∈ h

/-- Slot `i` has completed a download.
- It is the task of the download of a record.
- It read the metadata in the directory of the record.
- It published the record and deleted the pending one. -/
def Completed (i : Slot) (m : FileMetadata) (h : List NodeEvent) : Prop :=
  ∃ r : PublishedFileRecord, i = .download r.key ∧ HasRead i r.chunksDir m h ∧
    HasPublished i r h ∧ .op i (.store (.deletePendingDownload r.key)) (.ok ()) ∈ h

/-- Slot `i` has a chunk.
- It is the task of this chunk, and got the bytes as an answer.
- It read the metadata in a directory, and the bytes passed the check
  against the proof for this chunk there.
- It wrote them to the file of the chunk in this directory. -/
def Verified (i : Slot) (r : FileChunkRequest) (h : List NodeEvent) : Prop :=
  i = .chunk r.fileId r.chunkId ∧ ∃ tx bytes dir m proof,
    .op i (.chan (.chunk (.recv tx))) (.ok (some (.success bytes))) ∈ h ∧
    HasRead i dir m h ∧ m.merkleProofs[r.chunkId]? = some proof ∧
    verifyChunk bytes r.chunkId proof m.merkleRoot m.totalChunks = some true ∧
    HasWritten i (dir.join (chunkFileName r.chunkId m.chunkFileExtension)) bytes h

/-- The event loop has a reason to announce the key with this record: a
job, a record it found when it started, or a command. -/
inductive Entitled (key value : Bytes) (h : List NodeEvent) : Prop
  | job (m : FileMetadata)
      (hm : .op .eventLoop (.store .getNextFileMetadata) (.ok (some m)) ∈ h)
      (hk : Announces m key value)
  | stored (records : List PublishedFileRecord) (r : PublishedFileRecord) (m : FileMetadata)
      (hs : .op .eventLoop (.store .streamPublishedFiles) (.ok records) ∈ h) (hr : r ∈ records)
      (hm : HasRead .eventLoop r.chunksDir m h) (hk : Announces m key value)
  | metadata (m : FileMetadata)
      (hc : .op .eventLoop (.chan .recvCommand) (.provideMetadata m) ∈ h)
      (hk : key = m.key.bytes) (hv : value = m.publishedFileBytes)
  | chunk (r : FileChunkRequest)
      (hc : .op .eventLoop (.chan .recvCommand) (.provideFileChunk r) ∈ h)
      (hk : key = r.toBytes) (hv : value = r.toBytes)

section Growing

variable {i : Slot} {h h' : List NodeEvent}

theorem HasRead.mono {dir : PathBuf} {m : FileMetadata} (hm : HasRead i dir m h) (hs : h ⊆ h') :
    HasRead i dir m h' := by
  obtain ⟨data, hd, hm⟩ := hm
  exact ⟨data, hs hd, hm⟩

omit [Platform] in
theorem Chunked.mono {dir : PathBuf} {n : Nat} (hc : Chunked i dir n h) (hs : h ⊆ h') :
    Chunked i dir n h' := by
  intro c hlt
  obtain ⟨bytes, hw⟩ := hc c hlt
  exact ⟨bytes, hs hw⟩

omit [Platform] in
theorem Prepared.mono {m : FileMetadata} (hm : Prepared i m h) (hs : h ⊆ h') :
    Prepared i m h' := by
  obtain ⟨tx, answer, dir, received, moved, created⟩ := hm
  exact ⟨tx, answer, dir, hs received, moved, hs created⟩

theorem Completed.mono {m : FileMetadata} (hm : Completed i m h) (hs : h ⊆ h') :
    Completed i m h' := by
  obtain ⟨r, own, read, published, deleted⟩ := hm
  exact ⟨r, own, read.mono hs, hs published, hs deleted⟩

theorem Verified.mono {r : FileChunkRequest} (hr : Verified i r h) (hs : h ⊆ h') :
    Verified i r h' := by
  obtain ⟨own, tx, bytes, dir, m, proof, received, read, listed, valid, written⟩ := hr
  exact ⟨own, tx, bytes, dir, m, proof, hs received, read.mono hs, listed, valid, hs written⟩

theorem Entitled.mono {key value : Bytes} (he : Entitled key value h) (hs : h ⊆ h') :
    Entitled key value h' := by
  cases he with
  | job m hm hk => exact .job m (hs hm) hk
  | stored records r m hst hr hm hk => exact .stored records r m (hs hst) hr (hm.mono hs) hk
  | metadata m hc hk hv => exact .metadata m (hs hc) hk hv
  | chunk r hc hk hv => exact .chunk r (hs hc) hk hv

end Growing

/-! ### Causes -/

/-- The operations that need a cause. -/
def caused : Op → Bool
  | .store (.deletePendingDownload _) | .store (.deleteFileMetadata _)
  | .store (.putFileMetadata _) | .chan (.sendCommand (.provideMetadata _))
  | .chan (.sendCommand (.provideFileChunk _)) | .swarm (.putRecord ..)
  | .swarm (.startProviding _) => true
  | _ => false

/-- What comes before an event in slot `i`. -/
def Cause (i : Slot) : NodeEvent → List NodeEvent → Prop
  | .op _ (.store (.deletePendingDownload k)) _, h => ∃ r, r.key = k ∧ HasPublished i r h
  | .op _ (.store (.deleteFileMetadata k)) _, h => ∃ r, r.key = k ∧ HasPublished i r h
  | .op _ (.store (.putFileMetadata m)) _, h => (∃ n, i = .call n) ∧ Split i m h
  | .op _ (.chan (.sendCommand (.provideMetadata m))) _, h =>
      ((∃ n, i = .call n) ∧ Prepared i m h) ∨ Completed i m h
  | .op _ (.chan (.sendCommand (.provideFileChunk r))) _, h => Verified i r h
  | .op _ (.swarm (.putRecord key value)) _, h => Entitled key value h
  | .op _ (.swarm (.startProviding key)) _, h => ∃ value,
      .op i (.swarm (.putRecord key value)) (.ok ()) ∈ h ∧ Entitled key value h
  | _, _ => True

variable {i : Slot} {h : List NodeEvent}

/-- What needs no cause has one. -/
theorem cause_of_not_caused {o : Op} (ho : caused o = false) (a : o.Ans)
    (h : List NodeEvent) : Cause i (.op i o a) h := by
  unfold Cause
  split <;> first | trivial | (next e => cases e; cases ho)

/-- What happened in slot `i` had its causes. -/
abbrev Sound (i : Slot) : List NodeEvent → Prop := Justified (Cause i)

/-- A program ends with its causes, and with `P` of its value if there is
one. -/
abbrev Yields {α ε : Type} (i : Slot) (P : α → List NodeEvent → Prop) :
    Except ε α → List NodeEvent → Prop := Gives (Sound i) P

/-- A program that does nothing that needs a cause. -/
theorem quiet_follows {α : Type} {F : Footprint lang} {p : Proc α} (hp : p.Within F)
    (hF : ∀ o, F.op o → caused o = false) (hj : Sound i h) :
    p.Follows (Sound i) i (fun _ => Sound i) h :=
  follows_free hp (fun _ a h ho => cause_of_not_caused (hF _ ho) a h) (fun _ _ _ => trivial)
    (fun _ _ _ _ => trivial) hj

/-- One operation on files. -/
theorem fs_follows {o : FsOp} (hj : Sound i h) :
    (fs o).run.Follows (Sound i) i (Yields i fun v h => .op i (.fs o) (.ok v) ∈ h) h :=
  follows_just hj (fun _ => trivial) fun _ hj =>
    ⟨hj, fun v e => by cases e; exact List.mem_cons_self⟩

/-- One operation on the database. -/
theorem store_follows {o : StoreOp} (hj : Sound i h)
    (cause : ∀ a, Cause i (.op i (.store o) a) h) :
    (store o).run.Follows (Sound i) i (Yields i fun v h => .op i (.store o) (.ok v) ∈ h) h :=
  follows_just hj cause fun _ hj => ⟨hj, fun v e => by cases e; exact List.mem_cons_self⟩

/-- One operation on a channel. -/
theorem chan_follows {o : ChanOp} (hj : Sound i h) (cause : ∀ a, Cause i (.op i (.chan o) a) h) :
    (chan o).Follows (Sound i) i (fun a h => Sound i h ∧ .op i (.chan o) a ∈ h) h :=
  follows_just hj cause fun _ hj => ⟨hj, List.mem_cons_self⟩

/-! ### Chunk directories -/

theorem readMetadata_follows (dir : PathBuf) (hj : Sound i h) :
    (readMetadata dir).run.Follows (Sound i) i (Yields i (HasRead i dir)) h := by
  refine follows_bindE (follows_adapt _ (fs_follows hj)) fun bytes h' _ hj read => ?_
  split
  · next m hm => exact gives_ok hj ⟨bytes, read, hm⟩
  · exact gives_error hj

theorem writeFile_follows (p : PathBuf) (bytes : Bytes) (hj : Sound i h) :
    (writeFile p bytes).run.Follows (Sound i) i (Yields i fun _ h => HasWritten i p bytes h) h :=
  follows_bindE (fs_follows hj) fun _ _ _ hj _ => fs_follows hj

theorem saveMetadata_follows (m : FileMetadata) (hj : Sound i h) :
    (saveMetadata m).run.Follows (Sound i) i (Yields i fun m' h =>
      m' = m ∧ .op i (.fs (.createFile (metadataPath m.chunksDir))) (.ok ()) ∈ h) h := by
  have files : ∀ o, SaveOp (metadataPath m.chunksDir) o → caused o = false := by
    rintro _ (_ | _) <;> rfl
  refine follows_bindE (follows_adapt _ (fs_follows hj)) fun _ h _ hj created => ?_
  refine follows_bindE (follows_adapt _ (follows_gives
    (quiet_follows (writePieces_within _ _) files hj))) fun w h hs hj _ => ?_
  have created := hs.mem created
  refine follows_bindE (follows_lift (P := fun _ _ => True)
    (follows_mono (fun _ _ hj => ⟨hj, trivial⟩) (quiet_follows (flushBuf_within w) files hj)))
    fun _ h hs hj _ => ?_
  exact gives_ok hj ⟨rfl, hs.mem created⟩

theorem split_follows (path dir : PathBuf) (fuel offset : Nat) (leaves : List Hash)
    (hj : Sound i h) (hc : Chunked i dir leaves.length h) :
    (split path dir fuel offset leaves).run.Follows (Sound i) i
      (Yields i fun leaves => Chunked i dir leaves.length) h := by
  induction fuel generalizing offset leaves h with
  | zero => exact fun x => nomatch x
  | succ fuel ih =>
      refine follows_bindE (follows_gives (quiet_follows (fillBuffer_within _ _ _ _) ?_ hj))
        fun bytes h' hs hj _ => ?_
      · rintro _ (_ | _ | _ | _ | ⟨_, _, _ | _⟩ | ⟨_, _ | _⟩ | _) <;> rfl
      · split
        · exact gives_ok hj (hc.mono hs.subset)
        · refine follows_bindE (follows_adapt _ (writeFile_follows _ _ hj))
            fun _ h'' hs' hj written => ih _ _ hj fun c hlt => ?_
          -- the chunk just written is the last one
          rw [List.length_append, List.length_singleton] at hlt
          obtain hlt | rfl := Nat.lt_succ_iff_lt_or_eq.mp hlt
          · exact hc.mono (hs.trans hs').subset c hlt
          · exact ⟨bytes, written⟩

theorem processFile_follows (fuel : Nat) (filePath : String) (isPublic : Bool) (hj : Sound i h) :
    (processFile fuel filePath isPublic).run.Follows (Sound i) i (Yields i (Split i)) h := by
  refine follows_bindE (follows_adapt _ (fs_follows hj)) fun t h _ hj _ => ?_
  split
  · exact gives_error hj
  refine follows_bindE (follows_adapt _ (fs_follows hj)) fun _ h _ hj _ => ?_
  split
  · exact gives_error hj
  split
  · exact gives_error hj
  refine follows_bindE (follows_adapt _ (fs_follows hj)) fun _ h _ hj _ => ?_
  refine follows_bindE (split_follows _ _ _ _ _ hj fun c hc => absurd hc (Nat.not_lt_zero c))
    fun leaves h _ hj chunked => ?_
  split
  · exact gives_error hj
  · refine follows_mono (fun r h' hr => ⟨hr.1.1, fun m hm => ?_⟩)
      (follows_grow (saveMetadata_follows _ hj))
    obtain ⟨rfl, -⟩ := hr.1.2 m hm
    exact chunked.mono hr.2.subset

/-! ### The calls -/

theorem publishFile_follows (fuel : Nat) (request : PublishFileRequest) (hi : ∃ n, i = .call n)
    (hj : Sound i h) :
    (publishFile fuel request).run.Follows (Sound i) i (Yields i fun _ _ => True) h := by
  refine follows_bindE (follows_adapt _ (processFile_follows _ _ _ hj)) fun m h _ hj split => ?_
  exact follows_bindE (follows_adapt _ (store_follows hj fun _ => ⟨hi, split⟩))
    fun _ _ _ hj _ => gives_ok hj trivial

/-- The messages of a call need no cause, but for an announcement. -/
theorem sendOrInternal_follows {command : P2pCommand} (message : String) (hj : Sound i h)
    (cause : ∀ a, Cause i (.op i (.chan (.sendCommand command)) a) h) :
    (sendOrInternal command message).run.Follows (Sound i) i (Yields i fun _ _ => True) h := by
  refine follows_seq (chan_follows hj cause) fun r _ hq => ?_
  split
  · exact gives_ok (P := fun _ _ => True) hq.1 trivial
  · exact gives_error (P := fun _ _ => True) hq.1

theorem ensureDir_follows (p : PathBuf) (hj : Sound i h) :
    (ensureDirExistsOrCreate p).run.Follows (Sound i) i (Yields i fun _ _ => True) h := by
  refine follows_gives (quiet_follows (ensureDirExistsOrCreate_within p) ?_ hj)
  rintro _ (_ | _ | _) <;> rfl

theorem fetchMetadata_follows (request : DownloadFileRequest) (hj : Sound i h) :
    (fetchMetadata request).run.Follows (Sound i) i
      (Yields i fun m h => ∃ tx, .op i (.chan (.metadata (.recv tx))) (.ok (some m)) ∈ h) h := by
  refine follows_bindE (follows_adapt _ (ensureDir_follows _ hj)) fun _ h _ hj _ => ?_
  refine follows_bindE (follows_lift (chan_follows hj fun _ => trivial)) fun tx h _ hj _ => ?_
  refine follows_bindE (sendOrInternal_follows _ hj fun _ => trivial) fun _ h _ hj _ => ?_
  refine follows_bindE (follows_lift (chan_follows hj fun _ => trivial)) fun r h _ hj received => ?_
  split
  · exact gives_error hj
  · exact gives_error hj
  · exact gives_ok hj ⟨tx, received⟩

theorem prepareDownload_follows (downloadPath : PathBuf) (m : FileMetadata)
    (hi : ∃ n, i = .call n) (hj : Sound i h)
    (answer : ∃ tx, .op i (.chan (.metadata (.recv tx))) (.ok (some m)) ∈ h) :
    (prepareDownload downloadPath m).run.Follows (Sound i) i (Yields i fun _ _ => True) h := by
  obtain ⟨tx, received⟩ := answer
  refine follows_bindE (follows_adapt _ (fs_follows hj)) fun found h hs hj _ => ?_
  have received := hs.mem received
  split
  · exact gives_error hj
  refine follows_bindE (follows_adapt _ (ensureDir_follows _ hj)) fun _ h hs hj _ => ?_
  have received := hs.mem received
  refine follows_bindE (follows_adapt _ (saveMetadata_follows _ hj)) fun _ h hs hj saved => ?_
  have prepared : Prepared i (localMetadata downloadPath m) h :=
    ⟨tx, m, downloadPath, hs.mem received, rfl, saved.2⟩
  exact follows_bindE (sendOrInternal_follows _ hj fun _ => .inl ⟨hi, prepared⟩)
    fun _ _ _ hj _ => gives_ok hj trivial

theorem downloadFile_follows (request : DownloadFileRequest) (hi : ∃ n, i = .call n)
    (hj : Sound i h) :
    (downloadFile request).run.Follows (Sound i) i (Yields i fun _ _ => True) h := by
  refine follows_bindE (follows_adapt _ (store_follows hj fun _ => trivial))
    fun published h _ hj _ => ?_
  split
  · exact gives_error hj
  refine follows_bindE (follows_adapt _ (store_follows hj fun _ => trivial))
    fun pending h _ hj _ => ?_
  split
  · exact gives_error hj
  refine follows_bindE (fetchMetadata_follows request hj) fun m h _ hj answer => ?_
  refine follows_bindE (prepareDownload_follows _ m hi hj answer) fun r h _ hj _ => ?_
  exact follows_adapt _ (follows_mono (fun _ _ hr => ⟨hr.1, fun _ _ => trivial⟩)
    (store_follows hj fun _ => trivial))

/-! ### The downloads -/

section Downloads

open FileDownloadService

theorem restoreOriginalFile_follows (r : PendingDownloadRecord) (hj : Sound i h) :
    (restoreOriginalFile r).run.Follows (Sound i) i (Yields i (HasRead i r.chunksDir)) h := by
  have quiet : ∀ o, RestoreOp o → caused o = false := by
    rintro _ (_ | _ | _ | ⟨_ | _⟩ | _) <;> rfl
  refine follows_bindE (readMetadata_follows _ hj) fun m h _ hj read => ?_
  split
  · exact gives_error hj
  refine follows_bindE (follows_adapt _ (fs_follows hj)) fun found h hs hj _ => ?_
  have read := read.mono hs.subset
  split
  · refine follows_bindE (follows_adapt _ (fs_follows hj)) fun t h hs hj _ => ?_
    split
    · exact gives_error hj
    · exact gives_ok hj (read.mono hs.subset)
  · refine follows_bindE (follows_adapt _ (fs_follows hj)) fun _ h hs hj _ => ?_
    have read := read.mono hs.subset
    refine follows_bindE (follows_gives (quiet_follows (copyChunks_within _ _ _ _) quiet hj))
      fun w h hs hj _ => ?_
    have read := read.mono hs.subset
    refine follows_bindE (follows_adapt _ (follows_gives
      (quiet_follows ((tokioFlush_within w).mono_ops fun _ => .save) quiet hj)))
      fun _ h hs hj _ => ?_
    have read := read.mono hs.subset
    refine follows_bindE (follows_adapt _ (fs_follows hj)) fun _ h hs hj _ => ?_
    exact gives_ok hj (read.mono hs.subset)

theorem processCompleted_follows (r : PendingDownloadRecord) (hi : i = .download r.key)
    (hj : Sound i h) :
    (processCompleted r).run.Follows (Sound i) i (Yields i fun _ _ => True) h := by
  refine follows_bindE (follows_adapt _ (restoreOriginalFile_follows r hj))
    fun m h _ hj read => ?_
  refine follows_bindE (follows_adapt _ (store_follows hj fun _ => trivial))
    fun _ h hs hj published => ?_
  have read := read.mono hs.subset
  refine follows_bindE (follows_adapt _ (store_follows hj fun _ => ⟨_, rfl, published⟩))
    fun _ h hs hj deleted => ?_
  have completed : Completed i m h :=
    ⟨⟨r.key, r.originalFileName, r.chunksDir, m.isPublic⟩, hi, read.mono hs.subset, hs.mem published,
      deleted⟩
  refine follows_bindE (follows_lift (chan_follows hj fun _ => .inr completed))
    fun sent h _ hj _ => ?_
  split
  · exact gives_ok hj trivial
  · exact gives_error hj

theorem downloadTask_follows (r : PendingDownloadRecord) (hi : i = .download r.key)
    (hj : Sound i h) : (downloadTask r).Follows (Sound i) i (fun _ => Sound i) h := by
  have quiet : ∀ o, (downloadFootprint r.key).op o → caused o = false := by
    rintro _ (_ | _) <;> rfl
  have leave : ∀ {k : PublishedFileKey} {h : List NodeEvent}, Sound i h →
      (sync (.removeActive k) >>= fun _ => pure Res.unit).Follows (Sound i) i (fun _ => Sound i) h :=
    fun hj => follows_seq (follows_just hj (fun _ => trivial) fun _ hj => hj) fun _ _ hj => hj
  refine follows_seq (follows_ends (download_ends r) (quiet_follows (download_within r) quiet hj))
    fun x h hx => ?_
  obtain ⟨completed, r'⟩ := x
  obtain ⟨same, hj⟩ := hx
  replace same : r'.key = r.key := same
  dsimp only
  split
  · exact follows_seq (processCompleted_follows r' (hi.trans (by rw [same])) hj)
      fun _ _ hr => leave hr.1
  · exact leave hj

theorem verifyAndSaveFileChunk_follows (d : DownloadFileChunk) (bytes : Bytes)
    {tx : OneshotSender (Option FileResponse)} (hi : i = .chunk d.fileId d.chunkId)
    (hj : Sound i h)
    (received : .op i (.chan (.chunk (.recv tx))) (.ok (some (.success bytes))) ∈ h) :
    (verifyAndSaveFileChunk d bytes).run.Follows (Sound i) i
      (Yields i fun _ => Verified i ⟨d.fileId, d.chunkId⟩) h := by
  refine follows_bindE (follows_adapt _ (readMetadata_follows _ hj)) fun m h hs hj read => ?_
  have received := hs.mem received
  split
  · exact gives_error hj
  · next proof hproof =>
      split
      · next valid =>
          refine follows_adapt _ (follows_mono (fun r h' hr => ⟨hr.1.1, fun v e => ?_⟩)
            (follows_grow (writeFile_follows _ _ hj)))
          exact ⟨hi, tx, bytes, d.targetDir, m, proof, hr.2.mem received, read.mono hr.2.subset, hproof,
            valid, hr.1.2 v e⟩
      · exact gives_error hj
      · exact gives_error hj

theorem downloadFileChunk_follows (d : DownloadFileChunk) (hi : i = .chunk d.fileId d.chunkId)
    (hj : Sound i h) :
    (downloadFileChunk d).run.Follows (Sound i) i (Yields i fun _ _ => True) h := by
  refine follows_bindE (follows_lift (chan_follows hj fun _ => trivial)) fun tx h _ hj _ => ?_
  refine follows_bindE (follows_lift (chan_follows hj fun _ => trivial)) fun sent h _ hj _ => ?_
  split
  · exact gives_error hj
  refine follows_bindE (follows_lift (chan_follows hj fun _ => trivial))
    fun answer h _ hj received => ?_
  split
  · exact gives_error hj
  · refine follows_bindE (verifyAndSaveFileChunk_follows d _ hi hj received)
      fun _ h _ hj verified => ?_
    refine follows_bindE (follows_lift (chan_follows hj fun _ => verified))
      fun sent h _ hj _ => ?_
    split
    · exact gives_ok hj trivial
    · exact gives_ok hj trivial
  · exact gives_ok hj trivial
  · exact gives_ok hj trivial

theorem chunkTask_follows (d : DownloadFileChunk) (hi : i = .chunk d.fileId d.chunkId)
    (hj : Sound i h) : (chunkTask d).Follows (Sound i) i (fun _ => Sound i) h := by
  refine follows_seq (follows_just hj (fun _ => trivial) fun _ hj => hj) fun _ h hj => ?_
  refine follows_seq (downloadFileChunk_follows d hi hj) fun result h hr => ?_
  exact follows_seq (follows_just hr.1 (fun _ => trivial) fun _ hj => hj) fun _ _ hj => hj

end Downloads

/-! ### The event loop -/

section EventLoop

open EventService

variable {key value : Bytes}

/-- Putting a record and announcing its key. -/
theorem announce_follows (hj : Sound .eventLoop h) (entitled : Entitled key value h) :
    (ExceptT.mk (swarm (.putRecord key value)) >>= fun _ =>
      ExceptT.mk (swarm (.startProviding key)) : ExceptT String Proc Unit).run.Follows
        (Sound .eventLoop) .eventLoop (Yields .eventLoop fun _ _ => True) h := by
  refine follows_seqE (B := fun r h => Sound .eventLoop h ∧ Entitled key value h ∧
      ∀ v, r = .ok v → .op .eventLoop (.swarm (.putRecord key value)) (.ok ()) ∈ h)
    (follows_just hj (fun _ => entitled) fun a hj =>
      ⟨hj, entitled.mono (List.subset_cons_self _ _), fun v e => ?_⟩)
    (fun a h hb => ?_) fun e h hb => gives_error hb.1
  · cases e
    exact List.mem_cons_self
  · obtain ⟨hj, entitled, put⟩ := hb
    exact follows_just hj (fun _ => ⟨value, put a rfl, entitled⟩) fun _ hj =>
      ⟨hj, fun _ _ => trivial⟩

theorem provideFileChunks_follows (id : UInt64) (cs : List Nat) (hj : Sound .eventLoop h)
    (entitled : ∀ c ∈ cs, Entitled (FileChunkRequest.toBytes ⟨id, c⟩)
      (FileChunkRequest.toBytes ⟨id, c⟩) h) :
    (provideFileChunks id cs).run.Follows (Sound .eventLoop) .eventLoop
      (Yields .eventLoop fun _ _ => True) h := by
  induction cs generalizing h with
  | nil => exact gives_ok (P := fun _ _ => True) hj trivial
  | cons c cs ih =>
      refine follows_bindE (announce_follows hj (entitled c List.mem_cons_self))
        fun _ h hs hj _ => ih hj fun c hc => ?_
      exact (entitled c (List.mem_cons_of_mem _ hc)).mono hs.subset

theorem provideAll_follows (m : FileMetadata) (hj : Sound .eventLoop h)
    (entitled : ∀ key value, Announces m key value → Entitled key value h) :
    (provideAll m).run.Follows (Sound .eventLoop) .eventLoop
      (Yields .eventLoop fun _ _ => True) h := by
  refine follows_bindE (announce_follows hj (entitled _ _ .metadata)) fun _ h hs hj _ => ?_
  exact provideFileChunks_follows _ _ hj fun c hc =>
    (entitled _ _ (.chunk c (List.mem_range.mp hc))).mono hs.subset

/-- A retry loop ends where its action succeeds. -/
theorem retry_follows {α ε : Type} {action : ExceptT ε Proc α} {A : List NodeEvent → Prop}
    {P : α → List NodeEvent → Prop}
    (hA : ∀ h, A h → action.run.Follows (Sound i) i (Gives A P) h) (fuel : Nat) (start : A h) :
    (retry action fuel).Follows (Sound i) i (fun a h => A h ∧ P a h) h := by
  induction fuel generalizing h with
  | zero => exact fun x => nomatch x
  | succ fuel ih =>
      refine follows_seq (hA h start) fun r h hr => ?_
      split
      · exact ⟨hr.1, hr.2 _ rfl⟩
      · exact ih hr.1

/-- Announcing what a job stands for, over and over. -/
theorem retryProvideAll_follows (m : FileMetadata) (fuel : Nat) (hj : Sound .eventLoop h)
    (job : .op .eventLoop (.store .getNextFileMetadata) (.ok (some m)) ∈ h) :
    (retry (provideAll m) fuel).Follows (Sound .eventLoop) .eventLoop
      (fun _ => Sound .eventLoop) h := by
  refine follows_mono (fun _ _ hr => hr.1.1) (retry_follows (P := fun _ _ => True)
    (A := fun h => Sound .eventLoop h ∧
      .op .eventLoop (.store .getNextFileMetadata) (.ok (some m)) ∈ h)
    (fun h hb => ?_) fuel ⟨hj, job⟩)
  obtain ⟨hj, job⟩ := hb
  exact follows_mono (fun _ _ hr => ⟨⟨hr.1.1, hr.2.mem job⟩, hr.1.2⟩)
    (follows_grow (provideAll_follows m hj fun _ _ hk => .job m job hk))

theorem filePublish_follows (fuel : Nat) (m : FileMetadata) (hj : Sound .eventLoop h)
    (job : .op .eventLoop (.store .getNextFileMetadata) (.ok (some m)) ∈ h) :
    (filePublish fuel (.ok m)).Follows (Sound .eventLoop) .eventLoop
      (fun _ => Sound .eventLoop) h := by
  refine follows_seq (retryProvideAll_follows m fuel hj job) fun _ h hj => ?_
  refine follows_seq (retry_follows
    (fun h hj => store_follows (o := .putPublishedFile (.ofMetadata m)) hj fun _ => trivial) fuel hj)
    fun _ h hb => ?_
  -- what was published is remembered while the job is deleted
  refine follows_mono (fun _ _ hr => hr.1.1) (retry_follows (P := fun _ _ => True)
    (A := fun h => Sound .eventLoop h ∧ HasPublished .eventLoop (.ofMetadata m) h)
    (fun h hb => ?_) fuel hb)
  obtain ⟨hj, published⟩ := hb
  exact follows_mono (fun _ _ hr => ⟨⟨hr.1.1, hr.2.mem published⟩, fun _ _ => trivial⟩)
    (follows_grow (store_follows hj fun _ => ⟨_, rfl, published⟩))

theorem publisherPass_follows (fuel : Nat) (hj : Sound .eventLoop h) :
    (publisherPass fuel).Follows (Sound .eventLoop) .eventLoop (fun _ => Sound .eventLoop) h := by
  refine follows_seq (store_follows hj fun _ => trivial) fun r h hr => ?_
  split
  · exact hr.1
  · next m => exact filePublish_follows fuel m hr.1 (hr.2 _ rfl)
  · exact hr.1

theorem provideEach_follows (records rs : List PublishedFileRecord) (hj : Sound .eventLoop h)
    (streamed : .op .eventLoop (.store .streamPublishedFiles) (.ok records) ∈ h)
    (hsub : ∀ r ∈ rs, r ∈ records) :
    (provideEach rs).run.Follows (Sound .eventLoop) .eventLoop
      (Yields .eventLoop fun _ _ => True) h := by
  induction rs generalizing h with
  | nil => exact gives_ok (P := fun _ _ => True) hj trivial
  | cons r rs ih =>
      have rest : ∀ r' ∈ rs, r' ∈ records := fun r' hr' => hsub r' (List.mem_cons_of_mem _ hr')
      refine follows_bindE (follows_adapt _ (store_follows hj fun _ => trivial))
        fun _ h hs hj _ => ?_
      have streamed := hs.mem streamed
      refine follows_bindE (follows_lift (P := fun x h => ∀ data, x = .ok data →
          .op .eventLoop (.fs (.read (metadataPath r.chunksDir))) (.ok data) ∈ h)
        (fs_follows hj)) fun x h hs hj read => ?_
      have streamed := hs.mem streamed
      split
      · next data =>
          split
          · next m hm =>
              refine follows_bindE (provideAll_follows m hj fun key value hk =>
                .stored records r m streamed (hsub r List.mem_cons_self) ⟨data, read data rfl, hm⟩
                  hk) fun _ h hs hj _ => ?_
              exact ih hj (hs.mem streamed) rest
          · exact gives_error hj
      · exact ih hj streamed rest

theorem provideAllPublishedFiles_follows (hj : Sound .eventLoop h) :
    provideAllPublishedFiles.run.Follows (Sound .eventLoop) .eventLoop
      (Yields .eventLoop fun _ _ => True) h :=
  follows_bindE (follows_adapt _ (store_follows hj fun _ => trivial)) fun records _ _ hj streamed =>
    provideEach_follows records records hj streamed fun _ hr => hr

theorem handleCommand_follows (command : P2pCommand) (hj : Sound .eventLoop h)
    (received : .op .eventLoop (.chan .recvCommand) command ∈ h) :
    (handleCommand command).Follows (Sound .eventLoop) .eventLoop (fun _ => Sound .eventLoop) h := by
  cases command with
  | provideMetadata m =>
      exact follows_seq (announce_follows hj (.metadata m received rfl rfl)) fun _ _ hr => hr.1
  | provideFileChunk r =>
      exact follows_seq (announce_follows hj (.chunk r received rfl rfl)) fun _ _ hr => hr.1
  | requestMetadata request result =>
      refine follows_seq (follows_just hj (fun _ => trivial) fun _ hj => hj) fun _ h hj => ?_
      refine follows_seq (follows_just hj (fun _ => trivial) fun _ hj => hj) fun _ h hj => ?_
      exact follows_just hj (fun _ => trivial) fun _ hj => hj
  | requestFileChunk request result =>
      refine follows_seq (follows_just hj (fun _ => trivial) fun _ hj => hj) fun _ h hj => ?_
      refine follows_seq (follows_just hj (fun _ => trivial) fun _ hj => hj) fun _ h hj => ?_
      exact follows_just hj (fun _ => trivial) fun _ hj => hj

end EventLoop

/-! ### Tasks -/

/-- A start has its cause where it was made. -/
theorem cause_of_begins {t : Task} {e : NodeEvent} (hb : Begins (L := lang) t e)
    (h : List NodeEvent) : Cause i e h := by
  cases hb <;> trivial

theorem body_follows (t : Task) (hj : Sound (slotOf t) h) :
    (body t).Follows (Sound (slotOf t)) (slotOf t) (fun _ => Sound (slotOf t)) h := by
  cases t with
  | publishFile n fuel request =>
      exact follows_seq (publishFile_follows fuel request ⟨n, rfl⟩ hj) fun _ _ hr => hr.1
  | downloadFile n request =>
      exact follows_seq (downloadFile_follows request ⟨n, rfl⟩ hj) fun _ _ hr => hr.1
  | startUp => exact follows_seq (provideAllPublishedFiles_follows hj) fun _ _ hr => hr.1
  | swarmEvent =>
      refine quiet_follows (body_within .swarmEvent) ?_ hj
      rintro _ (_ | ⟨_ | _⟩) <;> rfl
  | command =>
      refine follows_seq (chan_follows hj fun _ => trivial) fun command h hb => ?_
      exact follows_seq (handleCommand_follows command hb.1 hb.2) fun _ _ hj => hj
  | tick =>
      refine quiet_follows (body_within .tick) ?_ hj
      rintro _ (_ | _) <;> rfl
  | publisher fuel =>
      exact follows_seq (publisherPass_follows fuel hj) fun _ _ hj => hj
  | download r => exact downloadTask_follows r rfl hj
  | chunk d => exact chunkTask_follows d rfl hj
  | writeFile n path bytes =>
      refine quiet_follows (body_within (.writeFile n path bytes)) ?_ hj
      rintro _ (_ | _) <;> rfl

/-- In every run the events of a slot have their causes. -/
theorem justified {g : NodeGuard} {w : World} {p : NodePool} (hr : Reach machine g (.idle w) p)
    (i : Slot) : Sound i (own (L := lang) slotOf i p.hist) :=
  justified_of_reach (M := machine) (fun _ _ h hb _ => cause_of_begins hb h) (fun _ => trivial)
    (fun t e h hi _ hj => by
      subst hi
      exact body_follows t hj) hr

omit [Platform] in
/-- What a slot did is part of the run. -/
theorem subset_of_own {p : NodePool} {e : NodeEvent} {before : List NodeEvent}
    (hs : e :: before <:+ own (L := lang) slotOf i p.hist) : before ⊆ p.hist := fun _ he =>
  (own_sublist slotOf i p.hist).subset (hs.mem (List.mem_cons_of_mem _ he))

/-- An operation of a run has its cause before it in the same slot. -/
theorem cause_of_mem {g : NodeGuard} {w : World} {p : NodePool} (hr : Reach machine g (.idle w) p)
    {o : Op} {a : o.Ans} (ho : .op i o a ∈ p.hist) :
    ∃ before, .op i o a :: before <:+ own slotOf i p.hist ∧ Cause i (.op i o a) before :=
  (justified hr i).of_mem (List.mem_filter.mpr ⟨ho, decide_eq_true rfl⟩)

/-! ### Between slots -/

/-- A command is sent, and received. -/
def Sends : NodeEvent → P2pCommand → Prop
  | .op _ (.chan (.sendCommand command)) (.ok _), x => x = command
  | _, _ => False

def Receives : NodeEvent → P2pCommand → Prop
  | .op _ (.chan .recvCommand) command, x => x = command
  | _, _ => False

/-- A job is queued, and found. -/
def Queues : NodeEvent → FileMetadata → Prop
  | .op _ (.store (.putFileMetadata m)) (.ok _), x => x = m
  | _, _ => False

def Finds : NodeEvent → FileMetadata → Prop
  | .op _ (.store .getNextFileMetadata) (.ok job), x => job = some x
  | _, _ => False

/-- A published record is stored, and streamed. -/
def Stores : NodeEvent → PublishedFileRecord → Prop
  | .op _ (.store (.putPublishedFile r)) (.ok _), x => x = r
  | _, _ => False

def Streams : NodeEvent → PublishedFileRecord → Prop
  | .op _ (.store .streamPublishedFiles) (.ok records), x => x ∈ records
  | _, _ => False

/-- A key is announced; nothing takes it back. -/
def Provides : NodeEvent → Bytes → Prop
  | .op _ (.swarm (.startProviding key)) _, x => x = key
  | _, _ => False

/-- The job waits in the database. -/
def Queued (w : World) (m : FileMetadata) : Prop := ∃ k : PublishedFileKey, w.store.jobs[k]? = some m

/-- The published record is in the database. -/
def Stored (w : World) (r : PublishedFileRecord) : Prop :=
  ∃ k : PublishedFileKey, w.store.published[k]? = some r

section Flows

variable {o : Op} {c : Choice} {w w' : World} {a : o.Ans}

/-- The command channel holds what was sent. -/
theorem commands_of_exec (he : o.exec c w = some (a, w')) {x : P2pCommand}
    (hx : x ∈ w'.chan.commands) : x ∈ w.chan.commands ∨ Sends (.op (L := lang) i o a) x := by
  -- a command comes into the queue by being sent
  cases o with
  | chan o =>
      obtain ⟨⟨_, y⟩, hy, e⟩ := Option.map_eq_some_iff.mp he
      cases e
      cases o with
      | sendCommand command =>
          cases c with
          | ok =>
              simp only [ChanOp.exec] at hy
              split at hy <;> cases hy
              obtain hx | hx := List.mem_append.mp hx
              · exact .inl hx
              · exact .inr (List.mem_singleton.mp hx)
          | closed =>
              cases hy
              exact .inl hx
          | _ => cases hy
      | recvCommand =>
          cases c <;> first | cases hy | skip
          simp only [ChanOp.exec] at hy
          split at hy <;> cases hy
          next heq =>
            rw [heq]
            exact .inl (List.mem_cons_of_mem _ hx)
      | metadata o =>
          cases c <;> first | cases hy | skip
          obtain ⟨_, _, e⟩ := Option.map_eq_some_iff.mp hy
          cases e
          exact .inl hx
      | chunk o =>
          cases c <;> first | cases hy | skip
          obtain ⟨_, _, e⟩ := Option.map_eq_some_iff.mp hy
          cases e
          exact .inl hx
  | events o =>
      cases he
      exact .inl hx
  | diverge => cases he
  | _ =>
      obtain ⟨_, _, e⟩ := Option.map_eq_some_iff.mp he
      cases e
      exact .inl hx

/-- The jobs are what was queued. -/
theorem queued_of_exec (he : o.exec c w = some (a, w')) {x : FileMetadata}
    (hx : Queued w' x) : Queued w x ∨ Queues (.op (L := lang) i o a) x := by
  obtain ⟨k, hk⟩ := hx
  by_cases hw : o.writesStore = false
  · rw [exec_store_eq he hw] at hk
    exact .inl ⟨k, hk⟩
  cases o with
  | store o =>
      obtain ⟨rfl, rfl⟩ | ⟨_, rfl, rfl⟩ := exec_store he
      · cases o with
        | putFileMetadata m =>
            replace hk : (w.store.jobs.insert m.key m)[k]? = some x := hk
            rw [get_put] at hk
            split at hk
            · cases hk
              exact .inr rfl
            · exact .inl ⟨k, hk⟩
        | deleteFileMetadata k' =>
            replace hk : (w.store.jobs.erase k')[k]? = some x := hk
            rw [get_delete] at hk
            split at hk
            · cases hk
            · exact .inl ⟨k, hk⟩
        | _ => exact .inl ⟨k, hk⟩
      · exact .inl ⟨k, hk⟩
  | _ => exact absurd rfl hw

/-- The published records are what was stored. -/
theorem stored_of_exec (he : o.exec c w = some (a, w')) {x : PublishedFileRecord}
    (hx : Stored w' x) : Stored w x ∨ Stores (.op (L := lang) i o a) x := by
  obtain ⟨k, hk⟩ := hx
  by_cases hw : o.writesStore = false
  · rw [exec_store_eq he hw] at hk
    exact .inl ⟨k, hk⟩
  cases o with
  | store o =>
      obtain ⟨rfl, rfl⟩ | ⟨_, rfl, rfl⟩ := exec_store he
      · cases o with
        | putPublishedFile r =>
            replace hk : (w.store.published.insert r.key r)[k]? = some x := hk
            rw [get_put] at hk
            split at hk
            · cases hk
              exact .inr rfl
            · exact .inl ⟨k, hk⟩
        | _ => exact .inl ⟨k, hk⟩
      · exact .inl ⟨k, hk⟩
  | _ => exact absurd rfl hw

/-- The provided keys are what was announced. -/
theorem provided_of_exec (he : o.exec c w = some (a, w')) {x : Bytes}
    (hx : x ∈ w'.swarm.provided) :
    x ∈ w.swarm.provided ∨ Provides (.op (L := lang) i o a) x := by
  cases o with
  | swarm o =>
      obtain ⟨⟨_, y⟩, hy, e⟩ := Option.map_eq_some_iff.mp he
      cases e
      cases o with
      | startProviding key =>
          cases c <;> simp only [SwarmOp.exec, reduceCtorEq] at hy
          split at hy
          · cases hy
            exact .inl hx
          · split at hy <;> cases hy
            · exact .inl hx
            · obtain rfl | hx := List.mem_cons.mp hx
              · exact .inr rfl
              · exact .inl hx
      | _ =>
          cases c <;> simp only [SwarmOp.exec, reduceCtorEq] at hy
          all_goals repeat' split at hy
          all_goals cases hy
          all_goals exact .inl hx
  | events o =>
      cases he
      exact .inl hx
  | diverge => cases he
  | _ =>
      obtain ⟨_, _, e⟩ := Option.map_eq_some_iff.mp he
      cases e
      exact .inl hx

/-- The command channel. -/
theorem commands : Flow (L := lang) machine (fun w x => x ∈ w.chan.commands) Sends Receives where
  put _ _ _ _ _ _ _ he hx := commands_of_exec he hx
  get i o c a w w' x he hx := by
    unfold Receives at hx
    split at hx
    · next e =>
        cases e
        subst hx
        obtain ⟨⟨_, y⟩, hy, e⟩ := Option.map_eq_some_iff.mp he
        cases e
        cases c <;> first | cases hy | skip
        simp only [ChanOp.exec] at hy
        split at hy <;> cases hy
        next heq =>
          rw [heq]
          exact List.mem_cons_self
    · exact hx.elim
  idle e x he hx := by cases he <;> exact hx
  crash w x hx := by cases hx
  crashed x hx := hx

/-- The jobs. -/
theorem jobs : Flow (L := lang) machine Queued Queues Finds where
  put _ _ _ _ _ _ _ he hx := queued_of_exec he hx
  get i o c a w w' x he hx := by
    unfold Finds at hx
    split at hx
    · next e =>
        cases e
        subst hx
        obtain ⟨found, -⟩ | ⟨_, e, -⟩ := exec_store he
        · exact get_of_head (Except.ok.inj found).symm
        · cases e
    · exact hx.elim
  idle e x he hx := by cases he <;> exact hx
  crash w x hx := hx
  crashed x hx := hx

/-- The published files. -/
theorem records : Flow (L := lang) machine Stored Stores Streams where
  put _ _ _ _ _ _ _ he hx := stored_of_exec he hx
  get i o c a w w' x he hx := by
    unfold Streams at hx
    split at hx
    · next e =>
        cases e
        obtain ⟨found, -⟩ | ⟨_, e, -⟩ := exec_store he
        · cases found
          obtain ⟨⟨k, r⟩, hmem, e⟩ := List.mem_map.mp hx
          cases e
          exact ⟨k, ExtTreeMap.mem_toList_iff_getElem?_eq_some.mp hmem⟩
        · cases e
    · exact hx.elim
  idle e x he hx := by cases he <;> exact hx
  crash w x hx := hx
  crashed x hx := hx

/-- The provided keys of a running process. -/
theorem provided : Flow (L := lang) machine (fun w x => x ∈ w.swarm.provided) Provides
    (fun _ _ => False) where
  put _ _ _ _ _ _ _ he hx := provided_of_exec he hx
  get _ _ _ _ _ _ _ _ hx := hx.elim
  idle _ _ _ hx := hx
  crash w x hx := by cases hx
  crashed _ hx := hx

end Flows

end RustDfs.Causes
