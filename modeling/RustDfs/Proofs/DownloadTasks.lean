import RustDfs.Proofs.Downloading

/-!
# `RustDfs.Proofs.DownloadTasks`: the programs of a download

The chunk tasks of the download, the download itself and the passes of
the event loop that serve its chunks, each under the protocol of
`RustDfs.Proofs.Downloading`.

A chunk task owns the file of its chunk: what it writes there is what a
peer answered and the proof accepted. The download owns the record: it
records a chunk when the task of the chunk has ended, and puts the file
together when every chunk is recorded.
-/

set_option autoImplicit false

namespace RustDfs.Downloading

open Lib Conc Std

variable [Platform] {m : FileMetadata} {ls : List Loc} {v v' : NodeView}

/-! ### A chunk task -/

section Chunk

open FileDownloadService

variable {c : Nat}

/-- An operation of a chunk task: it writes the file of its chunk only. -/
theorem guar_chunk (hd : Distinct m) (hc : c < m.merkleProofs.length) (hv : Sound m ls v)
    {o : Op} {a : o.Ans} {ch : Choice} {w : World}
    (hl : v.live (.chunk m.key.toU64 c) = true) (he : o.exec ch v.world = some (a, w))
    (ho : o.pendingKey = none) (hw : ∀ l ∈ o.writes, l = chunkLoc m c) :
    (protocol m ls).Guar (.chunk m.key.toU64 c) v (v.op (.chunk m.key.toU64 c) o a w) := by
  have ne : Slot.chunk m.key.toU64 c ≠ .download m.key := nofun
  have notLoop : Slot.chunk m.key.toU64 c ≠ .eventLoop := nofun
  refine guar_op hv hl he (exec_pending_get he (by rw [ho]; nofun)) ?_ ?_ ?_
    (fun h => absurd h ne) ?_ (fun h => absurd h ne)
  · exact fun h => hd.metadata_ne hc (hw _ h)
  · rintro c' hc' hi h
    refine hi ?_
    rw [hd.chunk_inj hc' hc (hw _ h)]
  · intro _ l hl h
    rw [hw l h] at hl
    exact hd.not_outside (chunkLoc_mem_directory (by omega)) hl
  · rw [served_op fun h => absurd h notLoop]
    exact hv.served

/-- Assertions that hold as long as the file of chunk `c` stays the same. -/
def OnChunk (m : FileMetadata) (c : Nat) (A : NodeView → Prop) : Prop :=
  ∀ v v', v.hist <:+ v'.hist → v'.world.fs (chunkLoc m c) = v.world.fs (chunkLoc m c) → A v → A v'

theorem OnChunk.stable {A : NodeView → Prop} (hA : OnChunk m c A) (hc : c < m.merkleProofs.length)
    (hi : (protocol m ls).Interferes (.chunk m.key.toU64 c) v v') (hv : A v) : A v' :=
  hA v v' hi.2 (hi.1.chunk c hc rfl) hv

/-- The operations of a chunk task that write nothing. -/
def Quiet (o : Op) : Prop := o.pendingKey = none ∧ o.writes = []

/-- A part of a chunk task that writes nothing. -/
theorem safe_quiet {α : Type} {p : Proc α} {A : NodeView → Prop} (hd : Distinct m)
    (hc : c < m.merkleProofs.length) (hA : OnChunk m c A) (hp : p.Within (.ops Quiet)) (hv : A v) :
    (protocol m ls).Safe machine (solitary m ls) (.chunk m.key.toU64 c) p (fun _ v => A v) v := by
  refine Protocol.safe_within hp (fun v v' hi h => hA.stable hc hi h) ?_ hv
  intro v hv hinv hl o ho ch a w he _
  have none : ∀ l, l ∉ o.writes := by
    rw [ho.2]
    exact fun _ => List.not_mem_nil
  have same : w.fs (chunkLoc m c) = v.world.fs (chunkLoc m c) := exec_fs_apply he (none _)
  exact ⟨guar_chunk hd hc hinv hl he ho.1 fun l h => absurd h (none l),
    hA v _ (List.suffix_cons _ _) same hv⟩

/-- Reading the metadata in a chunk task returns the metadata. -/
theorem readMetadata_chunk (hd : Distinct m) (hc : c < m.merkleProofs.length)
    {A : NodeView → Prop} (hA : OnChunk m c A) (hv : A v) :
    (protocol m ls).Safe machine (solitary m ls) (.chunk m.key.toU64 c)
      (readMetadata m.chunksDir).run (fun r v => A v ∧ ∀ m', r = .ok m' → m' = m) v := by
  refine safe_readMetadata ?_
  intro v₁ hi hinv hl ch a w he _
  replace he : Op.exec (.fs (.read (metadataPath m.chunksDir))) ch v₁.world = some (a, w) := he
  have same : w.fs (chunkLoc m c) = v₁.world.fs (chunkLoc m c) :=
    exec_fs_apply he List.not_mem_nil
  have none : ∀ l ∈ Op.writes (.fs (.read (metadataPath m.chunksDir))), l = chunkLoc m c := nofun
  refine ⟨guar_chunk hd hc hinv hl he rfl none,
    hA v₁ _ (List.suffix_cons _ _) same (hA.stable hc hi hv), ?_⟩
  rintro bytes rfl
  exact Option.some.inj ((exec_read he).symm.trans hinv.metadata)

theorem onChunk_answer {bs : Bytes} :
    OnChunk m c fun v => (c, bs) ∈ answers m.key v.hist :=
  fun _ _ hs _ h => answers_mono hs h

theorem onChunk_verified : OnChunk m c (Verified m c) :=
  fun _ _ hs hf h => h.frame hf hs

/-- Writing bytes that pass. -/
theorem writeFile_chunk (hd : Distinct m) (hc : c < m.merkleProofs.length) {bs : Bytes}
    (ha : Accepts m c bs) (hv : (c, bs) ∈ answers m.key v.hist) :
    (protocol m ls).Safe machine (solitary m ls) (.chunk m.key.toU64 c)
      (writeFile (m.chunksDir.join (chunkFileName c m.chunkFileExtension)) bs).run
      (fun r v => ∀ u, r = .ok u → Verified m c v) v := by
  intro v₁ hi hinv hl ch a w he _
  have answer := onChunk_answer.stable hc hi hv
  have place : ∀ l ∈ [chunkLoc m c], l = chunkLoc m c := fun l h => List.mem_singleton.mp h
  refine ⟨guar_chunk hd hc hinv hl he rfl place, ?_⟩
  cases a with
  | error e => exact nofun
  | ok u =>
      have empty : w.fs.bytes (chunkLoc m c) = some [] := exec_createFile he
      intro v₂ hi₂ hinv₂ hl₂ ch₂ a₂ w₂ he₂ _
      refine ⟨guar_chunk hd hc hinv₂ hl₂ he₂ rfl place, ?_⟩
      cases a₂ with
      | error e => exact nofun
      | ok u₂ =>
          rintro _ ⟨⟩
          have before : v₂.world.fs.bytes (chunkLoc m c) = some [] :=
            (bytes_congr (hi₂.1.chunk c hc rfl)).trans empty
          have after : w₂.fs.bytes (chunkLoc m c) = some (overwrite [] 0 bs) :=
            exec_writeAt he₂ before
          rw [show overwrite [] 0 bs = bs from overwrite_end [] bs] at after
          refine ⟨bs, after, ha, ?_⟩
          have later : (c, bs) ∈ answers m.key v₂.hist :=
            answers_mono ((List.suffix_cons _ _).trans hi₂.2) answer
          exact answers_mono (List.suffix_cons _ _) later

/-- What passes is written, and nothing else is. -/
theorem verifyAndSaveFileChunk_safe (hd : Distinct m) (hc : c < m.merkleProofs.length) {bs : Bytes}
    (hv : (c, bs) ∈ answers m.key v.hist) :
    (protocol m ls).Safe machine (solitary m ls) (.chunk m.key.toU64 c)
      (verifyAndSaveFileChunk ⟨m.key.toU64, c, m.chunksDir⟩ bs).run
      (fun r v => ∀ u, r = .ok u → Verified m c v) v := by
  refine Protocol.safe_seqA (readMetadata_chunk hd hc onChunk_answer hv) ?_ (fun _ _ _ => (by simp))
  rintro m' v ⟨answer, hm⟩
  obtain rfl := hm m' rfl
  split
  · simp
  · next proof hproof =>
      split
      · next pass =>
          refine Protocol.safe_seq (writeFile_chunk hd hc ⟨proof, hproof, pass⟩ answer) ?_
          intro r v hr
          cases r with
          | error e =>
              intro u h
              cases h
          | ok u => exact fun _ _ => hr u rfl
      · simp
      · simp

/-- A chunk task that ends with its chunk has written it. -/
theorem downloadFileChunk_safe (hd : Distinct m) (hc : c < m.merkleProofs.length) :
    (protocol m ls).Safe machine (solitary m ls) (.chunk m.key.toU64 c)
      (downloadFileChunk ⟨m.key.toU64, c, m.chunksDir⟩).run
      (fun r v => ∀ c', r = .ok (some c') → c' = c ∧ Verified m c v) v := by
  have always : OnChunk m c fun _ => True := fun _ _ _ _ _ => trivial
  have quiet : ∀ o : ChanOp, Quiet (.chan o) := fun o => ⟨rfl, rfl⟩
  refine Protocol.safe_seqL (safe_quiet hd hc always (chan_within (quiet _)) trivial) ?_
  intro tx v _
  refine Protocol.safe_seqL (safe_quiet hd hc always (chan_within (quiet _)) trivial) ?_
  intro sent v _
  split
  · simp
  have answered : (protocol m ls).Safe machine (solitary m ls) (.chunk m.key.toU64 c)
      (chan (.chunk (.recv tx)))
      (fun r v => ∀ bs, r = .ok (some (.success bs)) → (c, bs) ∈ answers m.key v.hist) v := by
    intro v₁ hi hinv hl ch a w he _
    refine ⟨guar_chunk hd hc hinv hl he rfl (fun l hl => absurd hl List.not_mem_nil), ?_⟩
    rintro bs rfl
    have now : answer? m.key (.op (L := lang) (.chunk m.key.toU64 c) (.chan (.chunk (.recv tx)))
        (.ok (some (.success bs)))) = some (c, bs) := if_pos rfl
    exact List.mem_filterMap.mpr ⟨_, List.mem_cons_self, now⟩
  refine Protocol.safe_seqL answered ?_
  intro answer v hv
  split
  · simp
  · next bs =>
      refine Protocol.safe_seqE (verifyAndSaveFileChunk_safe hd hc (hv bs rfl)) ?_ (fun _ _ _ => (by simp))
      intro u v hver
      refine Protocol.safe_seqL (safe_quiet hd hc onChunk_verified (chan_within (quiet _))
        (hver u rfl)) ?_
      intro sent v hver
      split
      · simp
      · rintro _ ⟨⟩
        exact ⟨rfl, hver⟩
  · simp
  · simp

/-- A chunk task. -/
theorem chunkTask_safe (hd : Distinct m) (hc : c < m.merkleProofs.length) :
    (protocol m ls).Safe machine (solitary m ls) (.chunk m.key.toU64 c)
      (chunkTask ⟨m.key.toU64, c, m.chunksDir⟩) (Post m (.chunk m.key.toU64 c)) v := by
  have always : OnChunk m c fun _ => True := fun _ _ _ _ _ => trivial
  refine Protocol.safe_seq (safe_quiet hd hc always (sync_within ⟨rfl, rfl⟩) trivial) ?_
  intro _ v _
  refine Protocol.safe_seq (downloadFileChunk_safe hd hc) ?_
  intro result v hv
  have kept : OnChunk m c fun v => ∀ c', result = .ok (some c') → c' = c ∧ Verified m c v :=
    fun v v' hs hf h c' hr => ⟨(h c' hr).1, (h c' hr).2.frame hf hs⟩
  refine Protocol.safe_seq (safe_quiet hd hc kept (sync_within ⟨rfl, rfl⟩) hv) ?_
  rintro _ v hv c₀ c' ⟨⟩ ⟨⟩
  exact hv c' rfl

end Chunk

/-! ### The download: its chunks -/

section Download

open FileDownloadService

variable {r : PendingDownloadRecord}

theorem Holding.stable (h : Holding m r v)
    (hi : (protocol m ls).Interferes (.download m.key) v v') : Holding m r v' := by
  obtain ⟨live, memory, -⟩ := hi.1.download rfl h.live
  exact ⟨h.key, h.dir, live, h.memory.trans memory.symm⟩

/-- What the download knows, with the number of its reads so far. -/
def HoldingAt (m : FileMetadata) (n : Nat) (r : PendingDownloadRecord) (v : NodeView) : Prop :=
  Holding m r v ∧ reads m m.key v.hist = n

theorem HoldingAt.stable {n : Nat} (h : HoldingAt m n r v)
    (hi : (protocol m ls).Interferes (.download m.key) v v') : HoldingAt m n r v' :=
  ⟨h.1.stable hi, (hi.1.download rfl h.1.live).2.2.trans h.2⟩

/-- An operation of the download that changes no file and no pending
record. -/
theorem guar_quiet (hv : Sound m ls v) {o : Op} {a : o.Ans} {ch : Choice} {w : World}
    (hl : v.live (.download m.key) = true) (he : o.exec ch v.world = some (a, w)) (ho : Quiet o)
    (hreads : 2 ≤ reads m m.key (.op (.download m.key) o a :: v.hist) →
      2 ≤ reads m m.key v.hist ∨ ∀ c < m.merkleProofs.length, c ∈ memory m.key v.hist)
    (hdone : completed? m.key (.op (.download m.key) o a) = false) :
    (protocol m ls).Guar (.download m.key) v (v.op (.download m.key) o a w) := by
  have none : ∀ l, l ∉ o.writes := by
    rw [ho.2]
    exact fun _ => List.not_mem_nil
  have notLoop : Slot.download m.key ≠ .eventLoop := nofun
  refine guar_op hv hl he (exec_pending_get he (by rw [ho.1]; nofun)) (none _)
    (fun _ _ _ => none _) (fun _ _ _ => none _) (fun _ => hreads) ?_ (fun _ => hdone)
  rw [served_op fun h => absurd h notLoop]
  exact hv.served

/-- The first reading of the metadata. -/
theorem readMetadata_first (hv : HoldingAt m 0 r v) :
    (protocol m ls).Safe machine (solitary m ls) (.download m.key)
      (readMetadata r.chunksDir).run
      (fun x v => HoldingAt m 1 r v ∧ ∀ m', x = .ok m' → m' = m) v := by
  rw [hv.1.dir]
  refine safe_readMetadata ?_
  intro v₁ hi hinv hl ch a w he _
  replace he : Op.exec (.fs (.read (metadataPath m.chunksDir))) ch v₁.world = some (a, w) := he
  obtain ⟨holding, zero⟩ := hv.stable hi
  have one : reads m m.key (.op (.download m.key) (.fs (.read (metadataPath m.chunksDir))) a ::
      v₁.hist) = 1 := (if_pos ⟨rfl, rfl⟩).trans (congrArg (· + 1) zero)
  refine ⟨guar_quiet hinv hl he ⟨rfl, rfl⟩ (fun h => ?_) rfl,
    ⟨⟨holding.key, holding.dir, holding.live, holding.memory⟩, one⟩, ?_⟩
  · rw [one] at h
    omega
  · rintro bytes rfl
    exact Option.some.inj ((exec_read he).symm.trans hinv.metadata)

/-- The download starts the task of a chunk it does not hold. -/
theorem guar_startChunk (hv : Sound m ls v) (hl : v.live (.download m.key) = true)
    (d : DownloadFileChunk) {c : Nat} (hc : c ∉ memory m.key v.hist) :
    (protocol m ls).Guar (.download m.key) v
      (v.spawn (L := lang) (.download m.key) (.chunk d) (.chunk m.key.toU64 c)) := by
  have suffix : v.hist <:+ .spawn (L := lang) (.download m.key) (.chunk d) :: v.hist :=
    List.suffix_cons _ _
  have others : ∀ j, j ≠ .chunk m.key.toU64 c →
      Function.update v.live (.chunk m.key.toU64 c) true j = v.live j := fun j hj =>
    Function.update_of_ne hj _ _
  have chunk : ∀ c', c' ≠ c → Slot.chunk m.key.toU64 c' ≠ .chunk m.key.toU64 c := by
    intro c' hne he
    exact hne (Slot.chunk.inj he).2
  have settled : ∀ c', Settled m c' v →
      Settled m c' (v.spawn (L := lang) (.download m.key) (.chunk d) (.chunk m.key.toU64 c)) := by
    intro c' h
    have held : c' ∈ memory m.key v.hist := h.memory hl
    have ne : c' ≠ c := by
      rintro rfl
      exact hc held
    exact ⟨h.verified.frame rfl suffix, (others _ (chunk c' ne)).trans h.idle, fun _ => held,
      h.stored⟩
  have running : ∀ j, j ≠ .download m.key → Rely m ls j v
      (v.spawn (L := lang) (.download m.key) (.chunk d) (.chunk m.key.toU64 c)) := fun j hj =>
    ⟨fun h => absurd h hj, fun h => absurd h hj, fun _ _ _ => rfl, settled, fun _ => ⟨rfl, rfl⟩⟩
  have whole := hv.whole (v.spawn (L := lang) (.download m.key) (.chunk d)
    (.chunk m.key.toU64 c)) rfl rfl rfl
  refine ⟨⟨hv.metadata, hv.record, fun s hs c' h => settled c' (hv.stored s hs c' h), ?_,
    fun _ => hv.complete hl, hv.served, whole.1, whole.2⟩, running⟩
  · intro _ c' h
    obtain ⟨verified, idle⟩ := hv.memory hl c' h
    have ne : c' ≠ c := by
      rintro rfl
      exact hc h
    exact ⟨verified.frame rfl suffix, (others _ (chunk c' ne)).trans idle⟩

/-- The download starts its chunk tasks. -/
theorem spawnChunks_safe (cs : List Nat) (hcs : ∀ c ∈ cs, c < m.merkleProofs.length)
    (hv : HoldingAt m 1 r v) :
    (protocol m ls).Safe machine (solitary m ls) (.download m.key) (spawnChunks r cs)
      (fun _ v => HoldingAt m 1 r v) v := by
  induction cs generalizing v with
  | nil => exact hv
  | cons c cs ih =>
      have rest : ∀ c ∈ cs, c < m.merkleProofs.length :=
        fun c' h => hcs c' (List.mem_cons_of_mem _ h)
      unfold spawnChunks
      split
      · exact ih rest hv
      · next hc =>
          intro v₁ hi hinv hl _ _
          obtain ⟨holding, one⟩ := hv.stable hi
          rw [holding.memory] at hc
          rw [holding.key, holding.dir]
          have live : Function.update v₁.live (.chunk m.key.toU64 c) true (.download m.key) = true := by
            have ne : Slot.download m.key ≠ .chunk m.key.toU64 c := by simp
            rw [Function.update_of_ne ne]
            exact hl
          refine ⟨guar_startChunk hinv hl _ hc, ⟨(by simp), ?_⟩, ?_⟩
          · rintro _ ⟨⟩ _
            exact ⟨rfl, hcs c List.mem_cons_self⟩
          · show (protocol m ls).Safe machine _ _ (spawnChunks r cs >>= _) _ _
            refine Protocol.safe_seq (ih rest ?_) fun _ _ h => h
            exact ⟨⟨holding.key, holding.dir, live, holding.memory⟩, one⟩

/-- The chunk a chunk task ends with. -/
def gain : Res → Finset Nat
  | .chunk (.ok (some c)) => {c}
  | _ => ∅

/-- A record with one chunk task's chunk. -/
def gaining (r : PendingDownloadRecord) (result : Res) : PendingDownloadRecord :=
  { r with downloadedChunks := gain result ∪ r.downloadedChunks }

omit [Platform] in
theorem memory_join {k : PublishedFileKey} {j : Slot} (result : Res) (h : List NodeEvent) :
    memory k (.await (L := lang) (.download k) j result :: h) = gain result ∪ memory k h := by
  rw [memory.eq_def, gain.eq_def]
  split
  · cases ‹_ = []›
  · cases ‹_ = _›
  · next heq =>
      cases heq
      exact if_pos rfl
  · next hne heq =>
      cases heq
      split
      · exact (hne _ _ _ rfl).elim
      · exact (Finset.empty_union _).symm

/-- The download takes the result of a chunk task. -/
theorem guar_join (hv : Sound m ls v) (hl : v.live (.download m.key) = true) {c : Nat}
    {result : Res} (hp : Post m (.chunk m.key.toU64 c) result v) :
    (protocol m ls).Guar (.download m.key) v
      (v.await (L := lang) (.download m.key) (.chunk m.key.toU64 c) result) := by
  have suffix : v.hist <:+ .await (L := lang) (.download m.key) (.chunk m.key.toU64 c) result ::
    v.hist := List.suffix_cons _ _
  have held := memory_join (k := m.key) (j := .chunk m.key.toU64 c) result v.hist
  have idle : ∀ c', v.live (.chunk m.key.toU64 c') = false →
      Function.update v.live (.chunk m.key.toU64 c) false (.chunk m.key.toU64 c') = false := by
    intro c' h
    by_cases hc : c' = c
    · rw [hc, Function.update_self]
    · rw [Function.update_of_ne fun he => hc (Slot.chunk.inj he).2]
      exact h
  have kept : ∀ c' ∈ memory m.key v.hist,
      c' ∈ memory m.key (.await (L := lang) (.download m.key) (.chunk m.key.toU64 c) result ::
        v.hist) := by
    intro c' h
    rw [held]
    exact Finset.mem_union_right _ h
  have settled : ∀ c', Settled m c' v →
      Settled m c' (v.await (L := lang) (.download m.key) (.chunk m.key.toU64 c) result) :=
    fun c' h => ⟨h.verified.frame rfl suffix, idle c' h.idle, fun _ => kept c' (h.memory hl),
      h.stored⟩
  have running : ∀ j, j ≠ .download m.key → Rely m ls j v
      (v.await (L := lang) (.download m.key) (.chunk m.key.toU64 c) result) := fun j hj =>
    ⟨fun h => absurd h hj, fun h => absurd h hj, fun _ _ _ => rfl, settled, fun _ => ⟨rfl, rfl⟩⟩
  have whole := hv.whole (v.await (L := lang) (.download m.key) (.chunk m.key.toU64 c)
    result) rfl rfl rfl
  refine ⟨⟨hv.metadata, hv.record, fun s hs c' h => settled c' (hv.stored s hs c' h), ?_,
    fun _ hr c' h => kept c' (hv.complete hl hr c' h), hv.served, whole.1, whole.2⟩, running⟩
  · intro _ c' h
    replace h : c' ∈ memory m.key (.await (L := lang) (.download m.key)
      (.chunk m.key.toU64 c) result :: v.hist) := h
    rw [held] at h
    obtain h | h := Finset.mem_union.mp h
    · -- The chunk is the task's own, and the task has ended.
      unfold gain at h
      split at h
      · obtain rfl := Finset.mem_singleton.mp h
        obtain ⟨rfl, verified⟩ := hp c _ rfl rfl
        exact ⟨verified.frame rfl suffix, Function.update_self ..⟩
      · exact absurd h (Finset.notMem_empty _)
    · obtain ⟨verified, h⟩ := hv.memory hl c' h
      exact ⟨verified.frame rfl suffix, idle c' h⟩

/-- The download stores its record. -/
theorem guar_put (hv : Sound m ls v) (h : Holding m r v) :
    (protocol m ls).Guar (.download m.key) v
      (v.op (L := lang) (.download m.key) (.store (.putPendingDownload r)) (.ok ())
        { v.world with store := (StoreOp.run v.world.store (.putPendingDownload r)).2 }) := by
  have now : (v.world.store.pending.insert r.key r)[m.key]? = some r := by
    rw [get_put, if_pos h.key]
  have suffix : v.hist <:+ .op (L := lang) (.download m.key) (.store (.putPendingDownload r))
    (.ok ()) :: v.hist := List.suffix_cons _ _
  have settled : ∀ c ∈ memory m.key v.hist, Settled m c (v.op (L := lang) (.download m.key)
      (.store (.putPendingDownload r)) (.ok ())
      { v.world with store := (StoreOp.run v.world.store (.putPendingDownload r)).2 }) := by
    intro c hc
    obtain ⟨verified, idle⟩ := hv.memory h.live c hc
    refine ⟨verified.frame rfl suffix, idle, fun _ => hc, fun s hs => ?_⟩
    replace hs : (v.world.store.pending.insert r.key r)[m.key]? = some s := hs
    rw [now] at hs
    cases hs
    rw [h.memory]
    exact hc
  have running : ∀ j, j ≠ .download m.key → Rely m ls j v (v.op (L := lang) (.download m.key)
      (.store (.putPendingDownload r)) (.ok ())
      { v.world with store := (StoreOp.run v.world.store (.putPendingDownload r)).2 }) := fun j hj =>
    ⟨fun h => absurd h hj, fun h => absurd h hj, fun _ _ _ => rfl,
      fun c hc => settled c (hc.memory h.live), fun _ => ⟨rfl, rfl⟩⟩
  have whole := hv.whole (v.op (L := lang) (.download m.key) (.store (.putPendingDownload r))
    (.ok ()) { v.world with store := (StoreOp.run v.world.store (.putPendingDownload r)).2 })
    rfl rfl rfl
  refine ⟨⟨hv.metadata, ?_, ?_, fun _ c hc => ?_, fun hl => hv.complete hl, hv.served, whole.1,
    whole.2⟩, running⟩
  · intro s hs
    replace hs : (v.world.store.pending.insert r.key r)[m.key]? = some s := hs
    rw [now] at hs
    cases hs
    exact h.dir
  · intro s hs c hc
    replace hs : (v.world.store.pending.insert r.key r)[m.key]? = some s := hs
    rw [now] at hs
    cases hs
    rw [h.memory] at hc
    exact settled c hc
  · obtain ⟨verified, idle⟩ := hv.memory h.live c hc
    exact ⟨verified.frame rfl suffix, idle⟩

/-- The download records the chunk of a task that has ended. -/
theorem recordChunk_safe (e : Option String) (result : Res)
    (hv : HoldingAt m 1 (gaining r result) v) :
    (protocol m ls).Safe machine (solitary m ls) (.download m.key) (recordChunk r e result)
      (fun x v => HoldingAt m 1 x.1 v) v := by
  have same : gain result = ∅ → gaining r result = r := by
    intro hg
    rw [gaining, hg, Finset.empty_union]
  unfold recordChunk
  split
  · next c =>
      split
      · next hc =>
          have nothing : gaining r (.chunk (.ok (some c))) = r := by
            rw [gaining, gain, ← Finset.insert_eq, Finset.insert_eq_of_mem hc]
          rw [nothing] at hv
          exact hv
      · have grown : gaining r (.chunk (.ok (some c))) = r.insertChunk c := by
          rw [gaining, gain, ← Finset.insert_eq]
          rfl
        rw [grown] at hv
        intro v₁ hi hinv hl c' a w he _
        obtain ⟨holding, one⟩ := hv.stable hi
        obtain ⟨rfl, rfl⟩ | ⟨err, rfl, rfl⟩ := exec_store he
        · exact ⟨guar_put hinv holding,
            ⟨holding.key, holding.dir, holding.live, holding.memory⟩, one⟩
        · have failed : Op.exec (.store (.putPendingDownload (r.insertChunk c))) c' v₁.world
              = some (.error err, v₁.world) := he
          have notLoop : Slot.download m.key ≠ .eventLoop := by simp
          refine ⟨guar_op hinv hl failed rfl List.not_mem_nil (fun _ _ _ => List.not_mem_nil)
            (fun _ _ _ => List.not_mem_nil) (fun _ => Or.inl) ?_ (fun _ => rfl),
            ⟨holding.key, holding.dir, holding.live, holding.memory⟩, one⟩
          rw [served_op fun h => absurd h notLoop]
          exact hinv.served
  · rw [same rfl] at hv
    exact hv
  · next hne _ =>
      rw [same ?_] at hv
      · exact hv
      · unfold gain
        split
        · exact absurd rfl (hne _)
        · rfl

/-- The download waits for its chunk tasks. The induction is on the tasks
left. -/
theorem joinChunks_safe (n : Nat) {js : List Slot}
    (hjs : ∀ j ∈ js, ∃ c, j = .chunk m.key.toU64 c) (e : Option String) (hv : HoldingAt m 1 r v) :
    (protocol m ls).Safe machine (solitary m ls) (.download m.key) (joinChunks n js r e)
      (fun x v => HoldingAt m 1 x.1 v) v := by
  induction n generalizing js r e v with
  | zero => exact hv
  | succ n ih =>
      intro v₁ hi hinv hl j hj _ result hp _
      obtain ⟨holding, one⟩ := hv.stable hi
      obtain ⟨c, rfl⟩ := hjs j hj
      refine ⟨guar_join hinv hl hp, ?_⟩
      have live : Function.update v₁.live (.chunk m.key.toU64 c) false (.download m.key) = true := by
        have ne : Slot.download m.key ≠ .chunk m.key.toU64 c := nofun
        rw [Function.update_of_ne ne]
        exact hl
      have gained : HoldingAt m 1 (gaining r result)
          (v₁.await (L := lang) (.download m.key) (.chunk m.key.toU64 c) result) := by
        refine ⟨⟨holding.key, holding.dir, live, ?_⟩, one⟩
        rw [gaining, holding.memory]
        exact (memory_join result v₁.hist).symm
      refine Protocol.safe_seq (recordChunk_safe e result gained) fun x v hx => ?_
      exact ih (fun j hj => hjs j (List.mem_of_mem_erase hj)) _ hx

/-- A download that returns `Ok(true)` holds as many chunks as there are
proofs. -/
theorem download_safe (hv : HoldingAt m 0 r v) :
    (protocol m ls).Safe machine (solitary m ls) (.download m.key) (download r)
      (fun x v => HoldingAt m 1 x.2 v ∧
        (x.1 = .ok true → x.2.downloadedChunks.card = m.merkleProofs.length)) v := by
  refine Protocol.safe_seq (readMetadata_first hv) ?_
  rintro metadata v ⟨hv, hm⟩
  split
  · exact ⟨hv, (by simp)⟩
  · next m' =>
      obtain rfl := hm m' rfl
      have range : ∀ c ∈ List.range m'.merkleProofs.length, c < m'.merkleProofs.length :=
        fun c hc => List.mem_range.mp hc
      refine Protocol.safe_seq (Protocol.safe_ends (spawnChunks_ends r _)
        (spawnChunks_safe _ range hv)) ?_
      rintro js v ⟨slots, hv⟩
      rw [hv.1.key] at slots
      refine Protocol.safe_seq (joinChunks_safe js.length slots none hv) ?_
      rintro ⟨r', e⟩ v hv
      cases e with
      | some e => exact ⟨hv, (by simp)⟩
      | none =>
          refine ⟨hv, fun he => ?_⟩
          have card : (r'.downloadedChunks.card == m'.merkleProofs.length) = true :=
            Except.ok.inj he
          exact eq_of_beq card

end Download

end RustDfs.Downloading
