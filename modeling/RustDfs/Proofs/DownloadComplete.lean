import RustDfs.Proofs.DownloadTasks

/-!
# `RustDfs.Proofs.DownloadComplete`: a download is put together

`process_completed` after a download that holds every chunk: the chunk
files are appended one after the other to a temporary file, which is then
renamed. What is in the temporary file is the concatenation of the chunks
copied so far (`Joined`), and each of them was verified.

Where the places beside the directory belong to nobody else (`Exclusive`),
the file is there and whole when the pending record is deleted.
-/

set_option autoImplicit false

namespace RustDfs.Downloading

open Lib Conc Std FileDownloadService

variable [Platform] {m : FileMetadata} {ls : List Loc} {v v' : NodeView}
  {r : PendingDownloadRecord}

/-- What the download knows when it holds every chunk. -/
structure Full (m : FileMetadata) (r : PendingDownloadRecord) (v : NodeView) : Prop where
  holding : Holding m r v
  all : ∀ c < m.merkleProofs.length, c ∈ memory m.key v.hist

theorem Full.stable (h : Full m r v) (hi : (protocol m ls).Interferes (.download m.key) v v') :
    Full m r v' := by
  refine ⟨h.holding.stable hi, fun c hc => ?_⟩
  rw [(hi.1.download rfl h.holding.live).2.1]
  exact h.all c hc

theorem Full.op (h : Full m r v) {o : Op} {a : o.Ans} {w : World} {i : Slot} :
    Full m r (v.op (L := lang) i o a w) :=
  ⟨⟨h.holding.key, h.holding.dir, h.holding.live, h.holding.memory⟩, h.all⟩

/-- As many chunks as there are proofs are all of them. -/
theorem full_of_card (hv : Sound m ls v) (h : Holding m r v)
    (hcard : r.downloadedChunks.card = m.merkleProofs.length) : Full m r v := by
  refine ⟨h, fun c hc => ?_⟩
  have below : r.downloadedChunks ⊆ Finset.range m.merkleProofs.length := by
    intro c hc
    rw [h.memory] at hc
    exact Finset.mem_range.mpr (hv.memory h.live c hc).1.lt
  have all : r.downloadedChunks = Finset.range m.merkleProofs.length := by
    refine Finset.eq_of_subset_of_card_le below ?_
    rw [hcard, Finset.card_range]
  rw [← h.memory, all]
  exact Finset.mem_range.mpr hc

/-- The second reading of the metadata, with every chunk in memory. -/
theorem readMetadata_second (hv : Holding m r v)
    (hcard : r.downloadedChunks.card = m.merkleProofs.length) :
    (protocol m ls).Safe machine (solitary m ls) (.download m.key)
      (readMetadata r.chunksDir).run
      (fun x v => Full m r v ∧ ∀ m', x = .ok m' → m' = m) v := by
  rw [hv.dir]
  refine safe_readMetadata ?_
  intro v₁ hi hinv hl ch a w he _
  replace he : Op.exec (.fs (.read (metadataPath m.chunksDir))) ch v₁.world = some (a, w) := he
  have full : Full m r v₁ := full_of_card hinv (hv.stable hi) hcard
  refine ⟨guar_quiet hinv hl he ⟨rfl, rfl⟩ (fun _ => .inr full.all) rfl, full.op, ?_⟩
  rintro bytes rfl
  exact Option.some.inj ((exec_read he).symm.trans hinv.metadata)

/-! ### Beside the directory -/

/-- The destination is the whole file. -/
def Finished (m : FileMetadata) (ls : List Loc) (v : NodeView) : Prop :=
  Exclusive m ls → ∀ d, destination m = some d →
    ∃ bs, v.world.fs.bytes (loc d) = some bs ∧ Restored m v bs

theorem Finished.frame (h : Finished m ls v) (hs : v.hist <:+ v'.hist)
    (hf : Exclusive m ls → ∀ d, destination m = some d → v'.world.fs (loc d) = v.world.fs (loc d)) :
    Finished m ls v' := by
  intro hx d hd
  obtain ⟨bs, hb, hr⟩ := h hx d hd
  exact ⟨bs, (bytes_congr (hf hx d hd)).trans hb, hr.mono hs⟩

theorem Finished.stable (h : Finished m ls v)
    (hi : (protocol m ls).Interferes (.download m.key) v v') : Finished m ls v' :=
  h.frame hi.2 fun hx _ hd => hi.1.outside rfl hx.1 _ (destination_mem hd)

/-- An operation of the download that writes beside its directory: the
destination stays as it is or becomes the whole file. -/
theorem guar_outside (hd : Distinct m) (hv : Sound m ls v) (hf : Full m r v) {o : Op} {a : o.Ans}
    {ch : Choice} {w : World} (he : o.exec ch v.world = some (a, w)) (ho : o.pendingKey = none)
    (hw : ∀ l ∈ o.writes, l ∈ outside m)
    (hdone : completed? m.key (.op (.download m.key) o a) = false)
    (hdest : Exclusive m ls → ∀ d, destination m = some d → w.fs (loc d) = v.world.fs (loc d) ∨
      ∃ bs, w.fs.bytes (loc d) = some bs ∧ Restored m v bs) :
    (protocol m ls).Guar (.download m.key) v (v.op (.download m.key) o a w) := by
  have suffix : v.hist <:+ .op (L := lang) (.download m.key) o a :: v.hist := List.suffix_cons _ _
  have inside : ∀ l ∈ directory m, w.fs l = v.world.fs l := fun l hl =>
    exec_fs_apply he fun h => hd.not_outside hl (hw l h)
  have keeps : Keeps m v (v.op (.download m.key) o a w) :=
    { metadata := inside _ List.mem_cons_self
      chunks := fun c hc _ => inside _ (chunkLoc_mem_directory (by omega))
      pending := exec_pending_get he (by rw [ho]; nofun)
      memory := rfl
      reads := fun _ => .inr hf.all
      hist := suffix
      download := id
      chunk := fun _ h => h }
  have notLoop : Slot.download m.key ≠ .eventLoop := nofun
  have served : ∀ x ∈ served (.op (L := lang) (.download m.key) o a :: v.hist),
      x.1.fileId = m.key.toU64 → Accepts m x.1.chunkId x.2 := by
    rw [served_op fun h => absurd h notLoop]
    exact hv.served
  refine ⟨hv.frame keeps served (fun hx d hdest' => ?_) (fun hx d hdest' hc => ?_),
    fun j hj => ⟨fun h => absurd h hj, fun h => absurd h hj,
      fun c hc _ => inside _ (chunkLoc_mem_directory (by omega)), fun c h => h.frame keeps,
      fun h => request_op (by rw [← h]; exact hj.symm)⟩⟩
  · obtain same | ⟨bs, hb, hr⟩ := hdest hx d hdest'
    · show w.fs (loc d) = none ∨ ∃ bs, w.fs.bytes (loc d) = some bs ∧ _
      rw [same, bytes_congr same]
      exact (hv.restored hx d hdest').imp id fun ⟨bs, hb, h⟩ => ⟨bs, hb, h.mono suffix⟩
    · exact .inr ⟨bs, hb, hr.mono suffix⟩
  · obtain same | ⟨bs, hb, hr⟩ := hdest hx d hdest'
    · obtain ⟨e, hmem, hc⟩ := hc
      obtain rfl | hmem := List.mem_cons.mp hmem
      · rw [hdone] at hc
        cases hc
      · obtain ⟨bs, hb, hr⟩ := hv.done hx d hdest' ⟨e, hmem, hc⟩
        exact ⟨bs, (bytes_congr same).trans hb, hr.mono suffix⟩
    · exact ⟨bs, hb, hr.mono suffix⟩

/-- An operation of the download that writes at most the temporary file. -/
theorem guar_part (hd : Distinct m) (hv : Sound m ls v) (hf : Full m r v) {t : PathBuf}
    (ht : part m = some t) {o : FsOp} {a : Op.Ans (.fs o)} {ch : Choice} {w : World}
    (he : Op.exec (.fs o) ch v.world = some (a, w)) (hw : ∀ l ∈ o.writes, l = loc t) :
    (protocol m ls).Guar (.download m.key) v (v.op (.download m.key) (.fs o) a w) := by
  refine guar_outside hd hv hf he rfl (fun l hl => ?_) rfl fun _ d hdest => .inl ?_
  · rw [hw l hl]
    exact part_mem ht
  · exact exec_fs_apply he fun h => hd.destination_ne hdest ht (hw _ h)

/-! ### Copying the chunks -/

/-- Each chunk read so far was verified, and the temporary file holds what
has been written of them. -/
def Joined (m : FileMetadata) (ls : List Loc) (t : PathBuf) (cs : List Bytes)
    (held : Option Bytes) (v : NodeView) : Prop :=
  Exclusive m ls →
    (∀ i b, cs[i]? = some b → Accepts m i b ∧ (i, b) ∈ answers m.key v.hist) ∧
    ∀ bs ∈ held, v.world.fs.bytes (loc t) = some bs

theorem Joined.frame {t : PathBuf} {cs : List Bytes} {held : Option Bytes}
    (h : Joined m ls t cs held v) (hs : v.hist <:+ v'.hist)
    (hf : Exclusive m ls → v'.world.fs (loc t) = v.world.fs (loc t)) :
    Joined m ls t cs held v' := by
  intro hx
  obtain ⟨all, hb⟩ := h hx
  exact ⟨fun i b hi => ⟨(all i b hi).1, answers_mono hs (all i b hi).2⟩,
    fun bs hbs => (bytes_congr (hf hx)).trans (hb bs hbs)⟩

theorem Joined.stable {t : PathBuf} {cs : List Bytes} {held : Option Bytes}
    (h : Joined m ls t cs held v) (ht : part m = some t)
    (hi : (protocol m ls).Interferes (.download m.key) v v') : Joined m ls t cs held v' :=
  h.frame hi.2 fun hx => hi.1.outside rfl hx.1 _ (part_mem ht)

/-- Reading a chunk. The chunk file of a chunk in memory holds bytes that
pass. -/
theorem readChunk_download (hd : Distinct m) {t : PathBuf} (ht : part m = some t)
    {cs : List Bytes} {held : Option Bytes} (hc : cs.length < m.totalChunks) (hf : Full m r v)
    (hj : Joined m ls t cs held v) :
    (protocol m ls).Safe machine (solitary m ls) (.download m.key)
      (fs (.read (m.chunksDir.join (chunkFileName cs.length m.chunkFileExtension)))).run
      (fun x v => ∀ bs, x = .ok bs → Full m r v ∧ Joined m ls t (cs ++ [bs]) held v) v := by
  intro v₁ hi hinv _ ch a w he _
  have full := hf.stable hi
  have none : ∀ l ∈ FsOp.writes
      (.read (m.chunksDir.join (chunkFileName cs.length m.chunkFileExtension))), l = loc t := nofun
  refine ⟨guar_part hd hinv full ht he none, ?_⟩
  rintro bs rfl
  have stays : Joined m ls t cs held (v₁.op (L := lang) (.download m.key) (.fs (.read _))
      (.ok bs) w) := by
    refine (hj.stable ht hi).frame (List.suffix_cons _ _) fun _ => ?_
    exact exec_fs_apply (o := .fs (.read _)) he fun h => absurd h List.not_mem_nil
  refine ⟨full.op, fun hx => ⟨fun i b h => ?_, (stays hx).2⟩⟩
  obtain h | ⟨rfl, rfl⟩ := getElem?_snoc h
  · exact (stays hx).1 i b h
  · obtain ⟨bs', hb, accepts, answer⟩ :=
      (hinv.memory full.holding.live _ (full.all _ (Nat.lt_of_lt_of_le hc hx.2))).1
    have read : v₁.world.fs.bytes (chunkLoc m cs.length) = some b := exec_read he
    rw [hb] at read
    cases read
    exact ⟨accepts, answers_mono (List.suffix_cons _ _) answer⟩

/-- Appending to the temporary file. -/
theorem writeAt_download (hd : Distinct m) {t : PathBuf} (ht : part m = some t)
    (cs : List Bytes) :
    Writes (protocol m ls) (solitary m ls) (.download m.key) t
      (fun held v => Full m r v ∧ Joined m ls t cs held v) := by
  intro written bs v hv v₁ hi hinv _ ch a w he _
  have full := hv.1.stable hi
  have only : ∀ l ∈ FsOp.writes (.writeAt t written.length bs), l = loc t :=
    fun l h => List.mem_singleton.mp h
  refine ⟨guar_part hd hinv full ht he only, full.op, fun hx => ?_⟩
  obtain ⟨all, file⟩ := hv.2.stable ht hi hx
  have later : ∀ i b, cs[i]? = some b → Accepts m i b ∧ (i, b) ∈ answers m.key
      (v₁.op (L := lang) (.download m.key) (.fs (.writeAt t written.length bs)) a w).hist :=
    fun i b h => ⟨(all i b h).1, answers_mono (List.suffix_cons _ _) (all i b h).2⟩
  refine ⟨later, ?_⟩
  cases a with
  | error e => exact nofun
  | ok u =>
      rintro _ ⟨⟩
      have after := exec_writeAt he (file _ rfl)
      rwa [overwrite_end] at after

/-! ### The destination -/

/-- The temporary file becomes the destination. -/
theorem rename_safe (hd : Distinct m) {t d : PathBuf} (ht : part m = some t)
    (hdest : destination m = some d) {cs : List Bytes} (length : cs.length = m.totalChunks)
    (hf : Full m r v) (hj : Joined m ls t cs (some cs.flatten) v) :
    (protocol m ls).Safe machine (solitary m ls) (.download m.key) (fs (.rename t d)).run
      (fun x v => ∀ u, x = .ok u → Finished m ls v) v := by
  intro v₁ hi hinv _ ch a w he _
  have full := hf.stable hi
  have places : ∀ l ∈ Op.writes (.fs (.rename t d)), l ∈ outside m := by
    intro l hl
    obtain rfl | hl := List.mem_cons.mp hl
    · exact part_mem ht
    · rw [List.mem_singleton.mp hl]
      exact destination_mem hdest
  have whole : Exclusive m ls → ∀ u, a = .ok u → ∃ bs, w.fs.bytes (loc d) = some bs ∧
      Restored m v₁ bs := by
    rintro hx u rfl
    obtain ⟨all, file⟩ := hj.stable ht hi hx
    exact ⟨_, exec_rename he (file _ rfl), cs, length, all, rfl⟩
  have dest : ∀ d', destination m = some d' → d' = d := fun d' h =>
    Option.some.inj (h.symm.trans hdest)
  refine ⟨guar_outside hd hinv full he rfl places rfl fun hx d' hd' => ?_, ?_⟩
  · rw [dest d' hd']
    cases a with
    | ok u => exact .inr (whole hx u rfl)
    | error e =>
        obtain ⟨_, rfl⟩ := exec_fs_error he
        exact .inl rfl
  · intro u hu hx d' hd'
    subst hu
    rw [dest d' hd']
    obtain ⟨bs, hb, hr⟩ := whole hx u rfl
    exact ⟨bs, hb, hr.mono (List.suffix_cons _ _)⟩

/-- Looking at the destination. What is there as a file is whole. -/
theorem tryExists_safe (hd : Distinct m) {t d : PathBuf} (ht : part m = some t) (hf : Full m r v) :
    (protocol m ls).Safe machine (solitary m ls) (.download m.key) (fs (.tryExists d)).run
      (fun _ v => Full m r v) v := by
  intro v₁ hi hinv _ ch a w he _
  have none : ∀ l ∈ FsOp.writes (.tryExists d), l = loc t := nofun
  exact ⟨guar_part hd hinv (hf.stable hi) ht he none, (hf.stable hi).op⟩

theorem metadata_safe (hd : Distinct m) {t d : PathBuf} (ht : part m = some t)
    (hdest : destination m = some d) (hf : Full m r v) :
    (protocol m ls).Safe machine (solitary m ls) (.download m.key) (fs (.metadata d)).run
      (fun x v => x = .ok .file → Finished m ls v) v := by
  intro v₁ hi hinv _ ch a w he _
  have none : ∀ l ∈ FsOp.writes (.metadata d), l = loc t := nofun
  refine ⟨guar_part hd hinv (hf.stable hi) ht he none, ?_⟩
  intro hfile hx d' hd'
  subst hfile
  obtain rfl : d' = d := Option.some.inj (hd'.symm.trans hdest)
  obtain ⟨bs, hb⟩ := exec_metadata_file he
  have same : w.fs (loc d') = v₁.world.fs (loc d') :=
    exec_fs_apply (o := .fs (.metadata d')) he List.not_mem_nil
  obtain free | ⟨bs', hb', hr⟩ := hinv.restored hx d' hd'
  · rw [Fs.bytes, free] at hb
    cases hb
  · exact ⟨bs', (bytes_congr same).trans hb', hr.mono (List.suffix_cons _ _)⟩

/-- The temporary file is created empty. -/
theorem createFile_safe (hd : Distinct m) {t : PathBuf} (ht : part m = some t) (hf : Full m r v) :
    (protocol m ls).Safe machine (solitary m ls) (.download m.key) (fs (.createFile t)).run
      (fun x v => ∀ u, x = .ok u → Full m r v ∧ Joined m ls t [] (some []) v) v := by
  intro v₁ hi hinv _ ch a w he _
  have only : ∀ l ∈ FsOp.writes (.createFile t), l = loc t := fun l h => List.mem_singleton.mp h
  refine ⟨guar_part hd hinv (hf.stable hi) ht he only, ?_⟩
  rintro u rfl
  refine ⟨(hf.stable hi).op, fun _ => ⟨nofun, ?_⟩⟩
  rintro _ ⟨⟩
  exact exec_createFile he

/-- `restore_original_file` after a download that is complete. -/
theorem restoreOriginalFile_safe (hd : Distinct m) (hv : Holding m r v)
    (hcard : r.downloadedChunks.card = m.merkleProofs.length) :
    (protocol m ls).Safe machine (solitary m ls) (.download m.key) (restoreOriginalFile r).run
      (fun x v => ∀ m', x = .ok m' → m' = m ∧ Finished m ls v) v :=
  safe_restore
    (A := fun t cs held v => Full m r v ∧ Joined m ls t cs held v)
    (readMetadata_second hv hcard)
    (fun _ _ _ _ ht hf => tryExists_safe hd ht hf)
    (fun _ _ _ hdest ht hf => metadata_safe hd ht hdest hf)
    (fun _ _ ht hf => createFile_safe hd ht hf)
    (fun _ _ _ _ ht hc h => readChunk_download hd ht hc h.1 h.2)
    (fun _ cs ht => writeAt_download hd ht cs)
    (fun _ _ _ _ hdest ht length h => rename_safe hd ht hdest length h.1 h.2)

/-! ### The records -/

/-- The pending record is deleted. -/
theorem guar_delete (hv : Sound m ls v) :
    (protocol m ls).Guar (.download m.key) v
      (v.op (L := lang) (.download m.key) (.store (.deletePendingDownload m.key)) (.ok ())
        { v.world with
          store := (StoreOp.run v.world.store (.deletePendingDownload m.key)).2 }) := by
  have gone : (v.world.store.pending.erase m.key)[m.key]? = none := by
    rw [get_delete, if_pos rfl]
  have suffix : v.hist <:+ .op (L := lang) (.download m.key)
    (.store (.deletePendingDownload m.key)) (.ok ()) :: v.hist := List.suffix_cons _ _
  have nothing : ∀ s, (v.world.store.pending.erase m.key)[m.key]? ≠ some s := by
    rw [gone]
    nofun
  have whole := hv.whole (v.op (L := lang) (.download m.key)
    (.store (.deletePendingDownload m.key)) (.ok ())
    { v.world with store := (StoreOp.run v.world.store (.deletePendingDownload m.key)).2 })
    rfl rfl rfl
  refine ⟨⟨hv.metadata, fun s hs => absurd hs (nothing s), fun s hs => absurd hs (nothing s),
    fun hl c hc => ?_, hv.complete, hv.served, whole.1, whole.2⟩, fun j hj =>
    ⟨fun h => absurd h hj, fun h => absurd h hj, fun _ _ _ => rfl,
      fun c h => ⟨h.verified.frame rfl suffix, h.idle, h.memory, fun s hs => absurd hs (nothing s)⟩,
      fun _ => ⟨rfl, rfl⟩⟩⟩
  obtain ⟨verified, idle⟩ := hv.memory hl c hc
  exact ⟨verified.frame rfl suffix, idle⟩

/-- The last command of `process_completed`. -/
theorem guar_completed (hv : Sound m ls v) (hf : Finished m ls v) {o : Op} {a : o.Ans}
    {ch : Choice} {w : World} (he : o.exec ch v.world = some (a, w)) (ho : Quiet o)
    (hreads : reads m m.key (.op (.download m.key) o a :: v.hist) = reads m m.key v.hist) :
    (protocol m ls).Guar (.download m.key) v (v.op (.download m.key) o a w) := by
  have suffix : v.hist <:+ .op (L := lang) (.download m.key) o a :: v.hist := List.suffix_cons _ _
  have same : ∀ l, w.fs l = v.world.fs l := fun l =>
    exec_fs_apply he (by rw [ho.2]; exact List.not_mem_nil)
  have keeps : Keeps m v (v.op (.download m.key) o a w) :=
    { metadata := same _
      chunks := fun _ _ _ => same _
      pending := exec_pending_get he (by rw [ho.1]; nofun)
      memory := rfl
      reads := fun h => .inl (le_of_le_of_eq h hreads)
      hist := suffix
      download := id
      chunk := fun _ h => h }
  have notLoop : Slot.download m.key ≠ .eventLoop := nofun
  have served : ∀ x ∈ served (.op (L := lang) (.download m.key) o a :: v.hist),
      x.1.fileId = m.key.toU64 → Accepts m x.1.chunkId x.2 := by
    rw [served_op fun h => absurd h notLoop]
    exact hv.served
  have finished : Finished m ls (v.op (.download m.key) o a w) :=
    hf.frame suffix fun _ _ _ => same _
  exact ⟨hv.frame keeps served (fun hx d hd => .inr (finished hx d hd))
      (fun hx d hd _ => finished hx d hd),
    fun j hj => ⟨fun h => absurd h hj, fun h => absurd h hj, fun _ _ _ => same _,
      fun c h => h.frame keeps, fun h => request_op (by rw [← h]; exact hj.symm)⟩⟩

/-- An operation of the download on the database that changes no pending
record. -/
theorem putPublishedFile_safe (record : PublishedFileRecord) (hf : Finished m ls v) :
    (protocol m ls).Safe machine (solitary m ls) (.download m.key)
      (store (.putPublishedFile record)).run (fun _ v => Finished m ls v) v := by
  intro v₁ hi hinv hl ch a w he _
  refine ⟨guar_quiet hinv hl he ⟨rfl, rfl⟩ .inl rfl, ?_⟩
  refine (hf.stable hi).frame (List.suffix_cons _ _) fun _ _ _ => ?_
  exact exec_fs_apply (o := .store (.putPublishedFile record)) he List.not_mem_nil

theorem deletePendingDownload_safe (hf : Finished m ls v) :
    (protocol m ls).Safe machine (solitary m ls) (.download m.key)
      (store (.deletePendingDownload m.key)).run (fun _ v => Finished m ls v) v := by
  intro v₁ hi hinv hl ch a w he _
  have finished := hf.stable hi
  obtain ⟨rfl, rfl⟩ | ⟨err, rfl, rfl⟩ := exec_store he
  · exact ⟨guar_delete hinv, finished.frame (List.suffix_cons _ _) fun _ _ _ => rfl⟩
  · have failed : Op.exec (.store (.deletePendingDownload m.key)) ch v₁.world
        = some (.error err, v₁.world) := he
    have notLoop : Slot.download m.key ≠ .eventLoop := nofun
    refine ⟨guar_op hinv hl failed rfl List.not_mem_nil (fun _ _ _ => List.not_mem_nil)
      (fun _ _ _ => List.not_mem_nil) (fun _ => Or.inl) ?_ (fun _ => rfl),
      finished.frame (List.suffix_cons _ _) fun _ _ _ => rfl⟩
    rw [served_op fun h => absurd h notLoop]
    exact hinv.served

/-- `process_completed` after a download that is complete. -/
theorem processCompleted_safe (hd : Distinct m) (hv : Holding m r v)
    (hcard : r.downloadedChunks.card = m.merkleProofs.length) :
    (protocol m ls).Safe machine (solitary m ls) (.download m.key) (processCompleted r).run
      (fun _ _ => True) v := by
  refine Protocol.safe_seqA (restoreOriginalFile_safe hd hv hcard) ?_ (fun _ _ _ => trivial)
  intro m' v hrestored
  obtain ⟨-, hf⟩ := hrestored m' rfl
  refine Protocol.safe_seqA (putPublishedFile_safe _ hf) ?_ (fun _ _ _ => trivial)
  intro _ v hf
  rw [hv.key]
  refine Protocol.safe_seqA (deletePendingDownload_safe hf) ?_ (fun _ _ _ => trivial)
  intro _ v hf
  have sent : (protocol m ls).Safe machine (solitary m ls) (.download m.key)
      (chan (.sendCommand (.provideMetadata m'))) (fun _ _ => True) v := by
    intro v₁ hi hinv _ ch a w he _
    exact ⟨guar_completed hinv (hf.stable hi) he ⟨rfl, rfl⟩ rfl, trivial⟩
  refine Protocol.safe_seqL sent ?_
  intro answer v _
  cases answer <;> trivial

/-- The download task. -/
theorem downloadTask_safe (hd : Distinct m) (hv : HoldingAt m 0 r v) :
    (protocol m ls).Safe machine (solitary m ls) (.download m.key) (downloadTask r)
      (fun _ _ => True) v := by
  have remove : ∀ (k : PublishedFileKey) (v : NodeView),
      (protocol m ls).Safe machine (solitary m ls) (.download m.key)
        (sync (.removeActive k) >>= fun _ => pure Res.unit) (fun _ _ => True) v := by
    intro k v v₁ _ hinv hl ch a w he _
    replace he : Op.exec (.sync (.removeActive k)) ch v₁.world = some (a, w) := he
    exact ⟨guar_quiet hinv hl he ⟨rfl, rfl⟩ .inl rfl, trivial⟩
  refine Protocol.safe_seq (download_safe hv) ?_
  rintro ⟨completed, r'⟩ v ⟨⟨holding, -⟩, hcard⟩
  dsimp only
  split
  · refine Protocol.safe_seq (processCompleted_safe hd holding (hcard rfl)) ?_
    exact fun _ v _ => remove _ v
  · exact remove _ v

end RustDfs.Downloading
