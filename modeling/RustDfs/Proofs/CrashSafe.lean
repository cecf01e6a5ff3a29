import RustDfs.Model.Reference
import RustDfs.Proofs.Calls
import RustDfs.Proofs.Downloading

/-!
# `RustDfs.Proofs.CrashSafe`: a completion that is cut off

A download that has recorded all its chunks puts its file together,
stores the published record, deletes the pending record and sends a last
command. Each of these steps can fail or be the last before a crash, and
later ticks start the download again.

`crash_safe` says what that can leave behind: the destination is absent
or whole, the pending record is there as long as the published one is
not, and after the last command everything is as after one run. It holds
when the temporary file is none of the other files of the download. Both
names come from the peer's metadata; `destination_torn` is a run in which
the temporary file is the file of chunk 0.

The invariant is `Kept`. The temporary file is the download's own, so
only what its program has copied so far matters (`Copied`).
-/

set_option autoImplicit false

namespace RustDfs.CrashSafe

open Lib Conc Std Downloading

/-! ### The property -/

section Defs

variable [Platform] (m : FileMetadata) (r : PendingDownloadRecord) (w₀ : World)

/-- The chunks of the file as they stand in `x`, put together. -/
def whole (x : Fs) : Option Bytes :=
  ((List.range m.totalChunks).mapM fun c => x.bytes (chunkLoc m c)).map List.flatten

/-- The record `process_completed` stores. -/
def published : PublishedFileRecord :=
  ⟨r.key, r.originalFileName, r.chunksDir, m.isPublic⟩

/-- A pending download that is complete.
- `key`, `dir`: the record `r` is for the file of `m` and its directory,
- `all`: it has all the chunks,
- `pending`: it is stored as the pending record,
- `keyed`: pending records are stored under their own keys,
- `metadata`: the metadata file is there,
- `absent`: nothing stands at the destination. -/
structure Recorded : Prop where
  key : r.key = m.key
  dir : r.chunksDir = m.chunksDir
  all : ∀ c < m.merkleProofs.length, c ∈ r.downloadedChunks
  pending : w₀.store.pending[m.key]? = some r
  keyed : ∀ (k : PublishedFileKey) (s : PendingDownloadRecord),
    w₀.store.pending[k]? = some s → s.key = k
  metadata : w₀.fs.bytes (metadataLoc m) = some m.toBytes
  absent : ∀ d ∈ destination m, w₀.fs (loc d) = none

/-- The whole file is at the destination. -/
def Restored (x : Fs) : Prop :=
  ∃ d ∈ destination m, ∃ bs ∈ whole m w₀.fs, x (loc d) = some (.file bs)

/-- What is left behind at any moment.
- `atomic`: at the destination is nothing or the whole file,
- `kept`: the pending record is gone only when the file is published,
- `done`: when the download was completed, the file is published, its
  pending record is gone and the whole file is at the destination. -/
structure Safe (v : NodeView) : Prop where
  atomic : ∀ d ∈ destination m, v.world.fs (loc d) = none ∨ Restored m w₀ v.world.fs
  kept : v.world.store.pending[m.key]? = none → v.world.store.published[m.key]? ≠ none
  done : (∃ e ∈ v.hist, completed? m.key e) →
    v.world.store.published[m.key]? = some (published m r) ∧
    v.world.store.pending[m.key]? = none ∧ Restored m w₀ v.world.fs

theorem safe_iff (v : NodeView) : Safe m r w₀ v ↔
    (∀ d ∈ destination m, v.world.fs (loc d) = none ∨ Restored m w₀ v.world.fs) ∧
    (v.world.store.pending[m.key]? = none → v.world.store.published[m.key]? ≠ none) ∧
    ((∃ e ∈ v.hist, completed? m.key e) →
      v.world.store.published[m.key]? = some (published m r) ∧
      v.world.store.pending[m.key]? = none ∧ Restored m w₀ v.world.fs) :=
  ⟨fun h => ⟨h.atomic, h.kept, h.done⟩, fun h => ⟨h.1, h.2.1, h.2.2⟩⟩

instance (x : Fs) : Decidable (Restored m w₀ x) :=
  inferInstanceAs (Decidable (∃ d ∈ destination m, ∃ bs ∈ whole m w₀.fs, _))

instance (v : NodeView) : Decidable (Safe m r w₀ v) := decidable_of_iff' _ (safe_iff m r w₀ v)

/-! ### The runs -/

/-- The key of the stored record an operation changes. -/
def recordKey : Op → Option PublishedFileKey
  | .store (.putPublishedFile r) => some r.key
  | o => o.pendingKey

/-- What others leave alone: an operation that is not one of the download
changes neither its records nor a file in its directory or at the
destination. -/
def Leaves : NodeEvent → Prop
  | .op i o _ => i = .download m.key ∨
      (recordKey o ≠ some m.key ∧ ∀ l ∈ o.writes, l ∉ directory m ++ outside m)
  | _ => True

/-- The runs in which nothing else writes the records and the files of the
download. Crashes and failures are allowed. -/
def undisturbed : NodeGuard := fun v e => environment v e ∧ Leaves m e

instance (e : NodeEvent) : Decidable (Leaves m e) :=
  match e with
  | .op i o _ => inferInstanceAs (Decidable (i = .download m.key ∨
      (recordKey o ≠ some m.key ∧ ∀ l ∈ o.writes, l ∉ directory m ++ outside m)))
  | .spawn .. | .await .. | .start .. | .exit .. | .crash => inferInstanceAs (Decidable True)

instance (v : NodeView) (e : NodeEvent) : Decidable (undisturbed m v e) :=
  inferInstanceAs (Decidable (_ ∧ _))

/-- The temporary file is none of the other files of the download: neither
the metadata file nor a chunk file nor the destination. -/
def PartApart : Prop :=
  ∀ t ∈ part m, metadataLoc m ≠ loc t ∧ (∀ c < m.totalChunks, chunkLoc m c ≠ loc t) ∧
    ∀ d ∈ destination m, loc d ≠ loc t

instance : Decidable (PartApart m) := inferInstanceAs (Decidable (∀ t ∈ part m, _))

/-! ### The protocol -/

/-- The invariant. -/
structure Kept (v : NodeView) : Prop where
  metadata : v.world.fs (metadataLoc m) = w₀.fs (metadataLoc m)
  chunks : ∀ c < m.totalChunks, v.world.fs (chunkLoc m c) = w₀.fs (chunkLoc m c)
  restored : ∀ d ∈ destination m, v.world.fs (loc d) = none ∨ Restored m w₀ v.world.fs
  pending : v.world.store.pending[m.key]? = some r ∨
    (v.world.store.pending[m.key]? = none ∧ v.world.store.published[m.key]? ≠ none)
  keyed : ∀ (k : PublishedFileKey) (s : PendingDownloadRecord),
    v.world.store.pending[k]? = some s → s.key = k
  done : (∃ e ∈ v.hist, completed? m.key e) →
    v.world.store.published[m.key]? = some (published m r) ∧
    v.world.store.pending[m.key]? = none ∧ Restored m w₀ v.world.fs

/-- What the download counts on: its files and its records are its own. -/
structure Own (v v' : NodeView) : Prop where
  files : ∀ l ∈ directory m ++ outside m, v'.world.fs l = v.world.fs l
  pending : v'.world.store.pending[m.key]? = v.world.store.pending[m.key]?
  published : v'.world.store.published[m.key]? = v.world.store.published[m.key]?

/-- The protocol of a completion: downloads of the file are started from
the record. -/
def protocol : Protocol lang World :=
  .ofRely (Kept m r w₀) (fun i v v' => i = .download m.key → Own m v v')
    (fun t _ => ∀ r', t = .download r' → r'.key = m.key → r' = r) (fun _ _ _ => True)

end Defs

section Proofs

variable [Platform] {m : FileMetadata} {r : PendingDownloadRecord} {w₀ : World} {v v' : NodeView}

/-! ### What a step may do -/

theorem Restored.congr {x x' : Fs} (h : Restored m w₀ x)
    (hx : ∀ d ∈ destination m, x' (loc d) = x (loc d)) : Restored m w₀ x' := by
  obtain ⟨d, hd, bs, hbs, hfile⟩ := h
  exact ⟨d, hd, bs, hbs, (hx d hd).trans hfile⟩

/-- A step that leaves the records alone: the files stay, or the file is
put together. -/
theorem Kept.frame (hv : Kept m r w₀ v)
    (metadata : v'.world.fs (metadataLoc m) = v.world.fs (metadataLoc m))
    (chunks : ∀ c < m.totalChunks, v'.world.fs (chunkLoc m c) = v.world.fs (chunkLoc m c))
    (restored : (∀ d ∈ destination m, v'.world.fs (loc d) = v.world.fs (loc d)) ∨
      Restored m w₀ v'.world.fs)
    (pending : v'.world.store.pending[m.key]? = v.world.store.pending[m.key]?)
    (published : v'.world.store.published[m.key]? = v.world.store.published[m.key]?)
    (keyed : ∀ (k : PublishedFileKey) (s : PendingDownloadRecord),
      v'.world.store.pending[k]? = some s → s.key = k)
    (done : (∃ e ∈ v'.hist, completed? m.key e) → ∃ e ∈ v.hist, completed? m.key e) :
    Kept m r w₀ v' where
  metadata := metadata.trans hv.metadata
  chunks c hc := (chunks c hc).trans (hv.chunks c hc)
  restored d hd := by
    obtain same | whole := restored
    · rw [same d hd]
      exact (hv.restored d hd).imp id fun h => h.congr same
    · exact .inr whole
  pending := by
    rw [pending, published]
    exact hv.pending
  keyed := keyed
  done hc := by
    obtain ⟨hpub, hpend, hres⟩ := hv.done (done hc)
    refine ⟨published.trans hpub, pending.trans hpend, ?_⟩
    obtain same | whole := restored
    · exact hres.congr same
    · exact whole

/-- Every operation keeps the records under their keys. -/
theorem keyed_exec {o : Op} {a : o.Ans} {c : Choice} {w w' : World}
    (he : o.exec c w = some (a, w'))
    (hk : ∀ (k : PublishedFileKey) (s : PendingDownloadRecord),
      w.store.pending[k]? = some s → s.key = k)
    (k : PublishedFileKey) (s : PendingDownloadRecord) (hs : w'.store.pending[k]? = some s) :
    s.key = k := by
  by_cases ho : o.pendingKey = some k
  · cases o with
    | store o =>
        obtain ⟨-, rfl⟩ | ⟨_, -, rfl⟩ := exec_store he
        · cases o with
          | putPendingDownload r' =>
              obtain rfl : r'.key = k := Option.some.inj ho
              replace hs : (w.store.pending.insert r'.key r')[r'.key]? = some s := hs
              rw [get_put, if_pos rfl] at hs
              cases hs
              rfl
          | deletePendingDownload k' =>
              obtain rfl : k' = k := Option.some.inj ho
              replace hs : (w.store.pending.erase k')[k']? = some s := hs
              rw [get_delete, if_pos rfl] at hs
              cases hs
          | _ => cases ho
        · exact hk k s hs
    | _ => cases ho
  · rw [exec_pending_get he ho] at hs
    exact hk k s hs

/-- An operation leaves the published records of other keys alone. -/
theorem exec_published_get {o : Op} {a : o.Ans} {c : Choice} {w w' : World} {k : PublishedFileKey}
    (he : o.exec c w = some (a, w')) (ho : recordKey o ≠ some k) :
    w'.store.published[k]? = w.store.published[k]? := by
  cases o with
  | store o =>
      obtain ⟨-, rfl⟩ | ⟨_, -, rfl⟩ := exec_store he
      · cases o with
        | putPublishedFile r' =>
            have ne : r'.key ≠ k := fun h => ho (congrArg some h)
            show (w.store.published.insert r'.key r')[k]? = _
            rw [get_put, if_neg ne]
        | _ => rfl
      · rfl
  | _ => rw [exec_store_eq he rfl]

omit [Platform] in
theorem pendingKey_ne {o : Op} {k : PublishedFileKey} (h : recordKey o ≠ some k) :
    o.pendingKey ≠ some k := by
  intro hp
  cases o with
  | store o =>
      cases o with
      | putPublishedFile r' => cases hp
      | _ => exact h hp
  | _ => cases hp

omit [Platform] in
theorem completed_of_cons {e : NodeEvent} {h : List NodeEvent} {k : PublishedFileKey}
    (he : completed? k e = false) (hc : ∃ e' ∈ e :: h, completed? k e') :
    ∃ e' ∈ h, completed? k e' := by
  obtain ⟨e', hmem, hc⟩ := hc
  obtain rfl | hmem := List.mem_cons.mp hmem
  · rw [he] at hc
    cases hc
  · exact ⟨e', hmem, hc⟩

theorem metadataLoc_mem' : metadataLoc m ∈ directory m ++ outside m :=
  List.mem_append_left _ List.mem_cons_self

theorem chunkLoc_mem' {c : Nat} (hc : c < m.totalChunks) :
    chunkLoc m c ∈ directory m ++ outside m :=
  List.mem_append_left _ (chunkLoc_mem_directory (by omega))

theorem destination_mem' {d : PathBuf} (hd : d ∈ destination m) :
    loc d ∈ directory m ++ outside m :=
  List.mem_append_right _ (destination_mem hd)

/-- An operation of somebody else. -/
theorem guar_other (hv : Kept m r w₀ v) {i : Slot} {o : Op} {a : o.Ans} {c : Choice} {w : World}
    (hi : i ≠ .download m.key) (he : o.exec c v.world = some (a, w))
    (hg : undisturbed m v (.op i o a)) : (protocol m r w₀).Guar i v (v.op i o a w) := by
  obtain ⟨hkey, hw⟩ := hg.2.resolve_left hi
  have same : ∀ l ∈ directory m ++ outside m, w.fs l = v.world.fs l := fun l hl =>
    exec_fs_apply he fun h => hw l h hl
  have pending := exec_pending_get he (pendingKey_ne hkey)
  have published := exec_published_get he hkey
  refine ⟨hv.frame (same _ metadataLoc_mem') (fun c hc => same _ (chunkLoc_mem' hc))
    (.inl fun d hd => same _ (destination_mem' hd)) pending published (keyed_exec he hv.keyed)
    (completed_of_cons (completed_op hi)), fun j _ _ => ⟨same, pending, published⟩⟩

/-- A step that changes nothing in the world. -/
theorem guar_still (hv : Kept m r w₀ v) (v' : NodeView) {e : NodeEvent} (hw : v'.world = v.world)
    (hh : v'.hist = e :: v.hist) (he : completed? m.key e = false) :
    Kept m r w₀ v' ∧ Own m v v' := by
  refine ⟨hv.frame (by rw [hw]) (fun _ _ => by rw [hw]) (.inl fun _ _ => by rw [hw]) (by rw [hw])
    (by rw [hw]) (by rw [hw]; exact hv.keyed) ?_, fun _ _ => by rw [hw], by rw [hw], by rw [hw]⟩
  rw [hh]
  exact completed_of_cons he

/-! ### The program of the download -/

section Download

open FileDownloadService

/-- The steps of the download are its own: it keeps the invariant. -/
theorem guar_own (h : Kept m r w₀ v') : (protocol m r w₀).Guar (.download m.key) v v' :=
  ⟨h, fun _ hj hi => absurd hi hj⟩

/-- An operation of the download that writes nothing. -/
theorem kept_quiet (hv : Kept m r w₀ v) {o : Op} {a : o.Ans} {c : Choice} {w : World}
    (he : o.exec c v.world = some (a, w)) (hkey : recordKey o = none) (hw : o.writes = [])
    (hdone : completed? m.key (.op (.download m.key) o a) = false) :
    Kept m r w₀ (v.op (.download m.key) o a w) := by
  have same : ∀ l, w.fs l = v.world.fs l := fun l =>
    exec_fs_apply he (by rw [hw]; exact List.not_mem_nil)
  have other : recordKey o ≠ some m.key := by
    rw [hkey]
    nofun
  exact hv.frame (same _) (fun _ _ => same _) (.inl fun _ _ => same _)
    (exec_pending_get he (pendingKey_ne other)) (exec_published_get he other)
    (keyed_exec he hv.keyed) (completed_of_cons hdone)

/-- An operation of the download on the temporary file. -/
theorem kept_part (hp : PartApart m) {t : PathBuf} (ht : part m = some t) (hv : Kept m r w₀ v)
    {o : FsOp} {a : Op.Ans (.fs o)} {c : Choice} {w : World}
    (he : Op.exec (.fs o) c v.world = some (a, w)) (hw : ∀ l ∈ o.writes, l = loc t) :
    Kept m r w₀ (v.op (.download m.key) (.fs o) a w) := by
  obtain ⟨metadata, chunks, dest⟩ := hp t ht
  have same : ∀ l, l ≠ loc t → w.fs l = v.world.fs l := fun l hl =>
    exec_fs_apply he fun h => hl (hw l h)
  have none : recordKey (.fs o) ≠ some m.key := nofun
  exact hv.frame (same _ metadata) (fun c hc => same _ (chunks c hc))
    (.inl fun d hd => same _ (dest d hd))
    (exec_pending_get he (pendingKey_ne none)) (exec_published_get he none)
    (keyed_exec he hv.keyed) (completed_of_cons rfl)

/-- Reading the metadata returns the metadata. -/
theorem readMetadata_safe (hr : Recorded m r w₀) :
    (protocol m r w₀).Safe machine (undisturbed m) (.download m.key) (readMetadata r.chunksDir).run
      (fun x _ => True ∧ ∀ m', x = .ok m' → m' = m) v := by
  rw [hr.dir]
  refine safe_readMetadata ?_
  intro v₁ _ hinv _ c a w he _
  replace he : Op.exec (.fs (.read (metadataPath m.chunksDir))) c v₁.world = some (a, w) := he
  refine ⟨guar_own (kept_quiet hinv he rfl rfl rfl), trivial, ?_⟩
  rintro bytes rfl
  have read : v₁.world.fs.bytes (metadataLoc m) = some bytes := exec_read he
  rw [bytes_congr hinv.metadata, hr.metadata] at read
  exact (Option.some.inj read).symm

/-! ### Copying the chunks -/

/-- The chunks read so far are the first ones, and the temporary file
holds what has been written of them. -/
structure Copied (m : FileMetadata) (w₀ : World) (t : PathBuf) (cs : List Bytes)
    (held : Option Bytes) (v : NodeView) : Prop where
  chunks : ∀ i b, cs[i]? = some b → w₀.fs.bytes (chunkLoc m i) = some b
  file : ∀ bs ∈ held, v.world.fs.bytes (loc t) = some bs

theorem Copied.frame {t : PathBuf} {cs : List Bytes} {held : Option Bytes}
    (h : Copied m w₀ t cs held v) (hf : v'.world.fs (loc t) = v.world.fs (loc t)) :
    Copied m w₀ t cs held v' :=
  ⟨h.chunks, fun bs hbs => (bytes_congr hf).trans (h.file bs hbs)⟩

theorem Copied.stable {t : PathBuf} (ht : part m = some t) {cs : List Bytes}
    {held : Option Bytes} (h : Copied m w₀ t cs held v)
    (hi : (protocol m r w₀).Interferes (.download m.key) v v') : Copied m w₀ t cs held v' :=
  h.frame ((hi.1 rfl).files _ (List.mem_append_right _ (part_mem ht)))

/-- Reading a chunk. -/
theorem readChunk_safe (hp : PartApart m) {t : PathBuf} (ht : part m = some t) {cs : List Bytes}
    {held : Option Bytes} (hc : cs.length < m.totalChunks) (hv : Copied m w₀ t cs held v) :
    (protocol m r w₀).Safe machine (undisturbed m) (.download m.key)
      (fs (.read (m.chunksDir.join (chunkFileName cs.length m.chunkFileExtension)))).run
      (fun x v => ∀ bs, x = .ok bs → Copied m w₀ t (cs ++ [bs]) held v) v := by
  intro v₁ hi hinv _ ch a w he _
  have none : ∀ l ∈ FsOp.writes
      (.read (m.chunksDir.join (chunkFileName cs.length m.chunkFileExtension))), l = loc t := nofun
  refine ⟨guar_own (kept_part hp ht hinv he none), ?_⟩
  rintro bs rfl
  have same : w.fs (loc t) = v₁.world.fs (loc t) :=
    exec_fs_apply (o := .fs (.read _)) he List.not_mem_nil
  refine ⟨fun i b h => ?_, fun f hf => (bytes_congr same).trans ((hv.stable ht hi).file f hf)⟩
  obtain h | ⟨rfl, rfl⟩ := getElem?_snoc h
  · exact hv.chunks i b h
  · rw [← bytes_congr (hinv.chunks _ hc)]
    exact exec_read he

/-- Appending to the temporary file. -/
theorem writeAt_safe (hp : PartApart m) {t : PathBuf} (ht : part m = some t) (cs : List Bytes) :
    Writes (protocol m r w₀) (undisturbed m) (.download m.key) t (Copied m w₀ t cs) := by
  intro written bs v hv v₁ hi hinv _ ch a w he _
  have only : ∀ l ∈ FsOp.writes (.writeAt t written.length bs), l = loc t :=
    fun l h => List.mem_singleton.mp h
  refine ⟨guar_own (kept_part hp ht hinv he only), hv.chunks, ?_⟩
  cases a with
  | error e => exact nofun
  | ok u =>
      rintro _ ⟨⟩
      have after := exec_writeAt he ((hv.stable ht hi).file _ rfl)
      rwa [overwrite_end] at after

/-- The chunks, one by one, are the whole. -/
theorem whole_of_chunks {x : Fs} {cs : List Bytes} (hn : cs.length = m.totalChunks)
    (hall : ∀ i b, cs[i]? = some b → x.bytes (chunkLoc m i) = some b) :
    whole m x = some cs.flatten := by
  have each : (List.range m.totalChunks).map (fun c => x.bytes (chunkLoc m c)) = cs.map some := by
    refine List.ext_getElem (by simp [hn]) fun i _ hi => ?_
    rw [List.length_map] at hi
    simpa using hall i cs[i] (List.getElem?_eq_getElem hi)
  have read : (List.range m.totalChunks).mapM (fun c => x.bytes (chunkLoc m c)) = some cs := by
    rw [← Function.id_comp fun c => x.bytes (chunkLoc m c), ← List.mapM_map, each, List.mapM_map]
    exact (List.mapM_pure (m := Option)).trans (congrArg some (List.map_id cs))
  rw [whole, read]
  rfl

/-! ### The destination -/

theorem Restored.stable (h : Restored m w₀ v.world.fs)
    (hi : (protocol m r w₀).Interferes (.download m.key) v v') : Restored m w₀ v'.world.fs :=
  h.congr fun _ hd => (hi.1 rfl).files _ (destination_mem' hd)

/-- The temporary file becomes the destination. Nothing of the download
stood there. -/
theorem rename_safe (hr : Recorded m r w₀) (hp : PartApart m) {t d : PathBuf}
    (ht : part m = some t) (hdest : destination m = some d) {cs : List Bytes}
    (length : cs.length = m.totalChunks) (hv : Copied m w₀ t cs (some cs.flatten) v) :
    (protocol m r w₀).Safe machine (undisturbed m) (.download m.key) (fs (.rename t d)).run
      (fun x v => ∀ u, x = .ok u → Restored m w₀ v.world.fs) v := by
  intro v₁ hi hinv _ ch a w he _
  replace he : Op.exec (.fs (.rename t d)) ch v₁.world = some (a, w) := he
  cases a with
  | error e =>
      obtain ⟨_, rfl⟩ := exec_fs_error he
      exact ⟨guar_own (hinv.frame rfl (fun _ _ => rfl) (.inl fun _ _ => rfl) rfl rfl hinv.keyed
        (completed_of_cons rfl)), (by simp)⟩
  | ok u =>
      have all := hv.chunks
      have held := (hv.stable ht hi).file _ rfl
      have moved : w.fs.bytes (loc d) = some cs.flatten := exec_rename he held
      have restored : Restored m w₀ w.fs :=
        ⟨d, hdest, _, whole_of_chunks length all, file_of_bytes moved⟩
      have free : w₀.fs.bytes (loc d) = none := by
        rw [Fs.bytes, hr.absent d hdest]
      have stays : ∀ l, l ≠ loc t → w₀.fs.bytes l ≠ none → w.fs l = v₁.world.fs l := by
        intro l hl hsome
        refine exec_fs_apply he fun h => ?_
        obtain rfl | h := List.mem_cons.mp h
        · exact hl rfl
        · rw [List.mem_singleton.mp h] at hsome
          exact hsome free
      refine ⟨guar_own (hinv.frame ?_ (fun c hc => ?_) (.inr restored) ?_ ?_ ?_ ?_),
        fun _ _ => restored⟩
      · refine stays _ (hp t ht).1 ?_
        rw [hr.metadata]
        exact Option.some_ne_none _
      · refine stays _ ((hp t ht).2.1 c hc) ?_
        rw [all c cs[c] (List.getElem?_eq_getElem (by omega))]
        exact Option.some_ne_none _
      · exact exec_pending_get he fun h => by cases h
      · exact exec_published_get he fun h => by cases h
      · exact keyed_exec he hinv.keyed
      · exact completed_of_cons rfl

/-- What is at the destination as a file is the whole file. -/
theorem metadata_safe {d : PathBuf} (hdest : destination m = some d) :
    (protocol m r w₀).Safe machine (undisturbed m) (.download m.key) (fs (.metadata d)).run
      (fun x v => x = .ok .file → Restored m w₀ v.world.fs) v := by
  intro v₁ _ hinv _ ch a w he _
  replace he : Op.exec (.fs (.metadata d)) ch v₁.world = some (a, w) := he
  refine ⟨guar_own (kept_quiet hinv he rfl rfl rfl), ?_⟩
  rintro rfl
  obtain ⟨bs, hb⟩ := exec_metadata_file he
  have same : ∀ l, w.fs l = v₁.world.fs l := fun l => exec_fs_apply he List.not_mem_nil
  obtain free | restored := hinv.restored d hdest
  · rw [Fs.bytes, free] at hb
    cases hb
  · exact restored.congr fun _ _ => same _

/-- `restore_original_file`. -/
theorem restoreOriginalFile_safe (hr : Recorded m r w₀) (hp : PartApart m) :
    (protocol m r w₀).Safe machine (undisturbed m) (.download m.key) (restoreOriginalFile r).run
      (fun x v => ∀ m', x = .ok m' → m' = m ∧ Restored m w₀ v.world.fs) v := by
  refine safe_restore (A := Copied m w₀) (readMetadata_safe hr) ?_ ?_ ?_ ?_ ?_ ?_
  · intro d t v hdest ht _ v₁ _ hinv _ ch a w he _
    replace he : Op.exec (.fs (.tryExists d)) ch v₁.world = some (a, w) := he
    exact ⟨guar_own (kept_quiet hinv he rfl rfl rfl), trivial⟩
  · intro d t v hdest ht _
    exact metadata_safe hdest
  · intro t v ht _ v₁ _ hinv _ ch a w he _
    replace he : Op.exec (.fs (.createFile t)) ch v₁.world = some (a, w) := he
    have only : ∀ l ∈ FsOp.writes (.createFile t), l = loc t := fun l h => List.mem_singleton.mp h
    refine ⟨guar_own (kept_part hp ht hinv he only), ?_⟩
    rintro u rfl
    refine ⟨nofun, ?_⟩
    rintro _ ⟨⟩
    exact exec_createFile he
  · intro t cs held v ht hc h
    exact readChunk_safe hp ht hc h
  · intro t cs ht
    exact writeAt_safe hp ht cs
  · intro d t cs v hdest ht length h
    exact rename_safe hr hp ht hdest length h

/-! ### The records -/

/-- The published record is stored. -/
theorem putPublishedFile_safe (hr : Recorded m r w₀) (hv : Restored m w₀ v.world.fs) :
    (protocol m r w₀).Safe machine (undisturbed m) (.download m.key)
      (store (.putPublishedFile (published m r))).run
      (fun x v => ∀ u, x = .ok u → Restored m w₀ v.world.fs ∧
        v.world.store.published[m.key]? = some (published m r)) v := by
  intro v₁ hi hinv _ ch a w he _
  have restored := hv.stable hi
  obtain ⟨rfl, rfl⟩ | ⟨err, rfl, rfl⟩ := exec_store he
  · have put : (v₁.world.store.published.insert r.key (published m r))[m.key]?
        = some (published m r) := by
      rw [get_put, if_pos hr.key]
    refine ⟨guar_own ⟨hinv.metadata, hinv.chunks, hinv.restored, ?_, hinv.keyed, ?_⟩,
      fun _ _ => ⟨restored, put⟩⟩
    · refine hinv.pending.imp id fun ⟨gone, _⟩ => ⟨gone, ?_⟩
      show (v₁.world.store.published.insert r.key (published m r))[m.key]? ≠ none
      rw [put]
      nofun
    · intro hc
      obtain ⟨-, gone, whole⟩ := hinv.done (completed_of_cons rfl hc)
      exact ⟨put, gone, whole⟩
  · exact ⟨guar_own (hinv.frame rfl (fun _ _ => rfl) (.inl fun _ _ => rfl) rfl rfl hinv.keyed
      (completed_of_cons rfl)), nofun⟩

/-- The pending record is deleted after the published one was stored. -/
theorem deletePendingDownload_safe (hr : Recorded m r w₀) (hv : Restored m w₀ v.world.fs)
    (hpub : v.world.store.published[m.key]? = some (published m r)) :
    (protocol m r w₀).Safe machine (undisturbed m) (.download m.key)
      (store (.deletePendingDownload r.key)).run
      (fun x v => ∀ u, x = .ok u → v.world.store.published[m.key]? = some (published m r) ∧
        v.world.store.pending[m.key]? = none ∧ Restored m w₀ v.world.fs) v := by
  intro v₁ hi hinv _ ch a w he _
  have restored := hv.stable hi
  have stored : v₁.world.store.published[m.key]? = some (published m r) :=
    (hi.1 rfl).published.trans hpub
  obtain ⟨rfl, rfl⟩ | ⟨err, rfl, rfl⟩ := exec_store he
  · have gone : (v₁.world.store.pending.erase r.key)[m.key]? = none := by
      rw [get_delete, if_pos hr.key]
    have some' : v₁.world.store.published[m.key]? ≠ none := by
      rw [stored]
      nofun
    refine ⟨guar_own ⟨hinv.metadata, hinv.chunks, hinv.restored, .inr ⟨gone, some'⟩, ?_,
      fun _ => ⟨stored, gone, restored⟩⟩, fun _ _ => ⟨stored, gone, restored⟩⟩
    exact keyed_exec (o := .store (.deletePendingDownload r.key)) he hinv.keyed
  · exact ⟨guar_own (hinv.frame rfl (fun _ _ => rfl) (.inl fun _ _ => rfl) rfl rfl hinv.keyed
      (completed_of_cons rfl)), nofun⟩

/-- The last command: everything is in place. -/
theorem sendCommand_safe (m' : FileMetadata)
    (hv : v.world.store.published[m.key]? = some (published m r) ∧
      v.world.store.pending[m.key]? = none ∧ Restored m w₀ v.world.fs) :
    (protocol m r w₀).Safe machine (undisturbed m) (.download m.key)
      (chan (.sendCommand (.provideMetadata m'))) (fun _ _ => True) v := by
  obtain ⟨stored, gone, restored⟩ := hv
  intro v₁ hi hinv _ ch a w he _
  replace he : Op.exec (.chan (.sendCommand (.provideMetadata m'))) ch v₁.world = some (a, w) := he
  have same : ∀ l, w.fs l = v₁.world.fs l := fun l => exec_fs_apply he List.not_mem_nil
  have records : w.store = v₁.world.store := exec_store_eq he rfl
  have stored' : w.store.published[m.key]? = some (published m r) := by
    rw [records]
    exact (hi.1 rfl).published.trans stored
  have gone' : w.store.pending[m.key]? = none := by
    rw [records]
    exact (hi.1 rfl).pending.trans gone
  have restored' : Restored m w₀ w.fs := (restored.stable hi).congr fun _ _ => same _
  have published' : w.store.published[m.key]? ≠ none := by
    rw [stored']
    nofun
  refine ⟨guar_own ⟨(same _).trans hinv.metadata, fun c hc => (same _).trans (hinv.chunks c hc),
    fun _ _ => .inr restored', .inr ⟨gone', published'⟩, keyed_exec he hinv.keyed,
    fun _ => ⟨stored', gone', restored'⟩⟩, trivial⟩

/-- `process_completed`. -/
theorem processCompleted_safe (hr : Recorded m r w₀) (hp : PartApart m) :
    (protocol m r w₀).Safe machine (undisturbed m) (.download m.key) (processCompleted r).run
      (fun _ _ => True) v := by
  refine Protocol.safe_seqA (restoreOriginalFile_safe hr hp) ?_ (fun _ _ _ => trivial)
  intro m' v hrestored
  obtain ⟨rfl, restored⟩ := hrestored m' rfl
  refine Protocol.safe_seqA (putPublishedFile_safe hr restored) ?_ (fun _ _ _ => trivial)
  intro u v hput
  obtain ⟨restored, stored⟩ := hput u rfl
  refine Protocol.safe_seqA (deletePendingDownload_safe hr restored stored) ?_
    (fun _ _ _ => trivial)
  intro u v hdeleted
  refine Protocol.safe_seqL (sendCommand_safe m' (hdeleted u rfl)) ?_
  intro answer v _
  cases answer <;> trivial

omit [Platform] in
/-- With every chunk recorded no task is started. -/
theorem spawnChunks_recorded {cs : List Nat} (h : ∀ c ∈ cs, c ∈ r.downloadedChunks) :
    spawnChunks r cs = pure [] := by
  induction cs with
  | nil => rfl
  | cons c cs ih =>
      rw [spawnChunks, if_pos (h c List.mem_cons_self)]
      exact ih fun c hc => h c (List.mem_cons_of_mem _ hc)

/-- The download task. -/
theorem downloadTask_safe (hr : Recorded m r w₀) (hp : PartApart m) :
    (protocol m r w₀).Safe machine (undisturbed m) (.download m.key) (downloadTask r)
      (fun _ _ => True) v := by
  have remove : ∀ (k : PublishedFileKey) (v : NodeView),
      (protocol m r w₀).Safe machine (undisturbed m) (.download m.key)
        (sync (.removeActive k) >>= fun _ => pure Res.unit) (fun _ _ => True) v := by
    intro k v v₁ _ hinv hl ch a w he _
    replace he : Op.exec (.sync (.removeActive k)) ch v₁.world = some (a, w) := he
    exact ⟨guar_own (kept_quiet hinv he rfl rfl rfl), trivial⟩
  have downloaded : (protocol m r w₀).Safe machine (undisturbed m) (.download m.key) (download r)
      (fun x _ => x.2 = r) v := by
    refine Protocol.safe_seq (readMetadata_safe hr) ?_
    rintro x v ⟨-, hm⟩
    cases x with
    | error e => exact rfl
    | ok m' =>
        obtain rfl := hm m' rfl
        dsimp only
        rw [spawnChunks_recorded fun c hc => hr.all c (List.mem_range.mp hc)]
        exact rfl
  refine Protocol.safe_seq downloaded ?_
  rintro ⟨completed, r'⟩ v (rfl : r' = r)
  dsimp only
  split
  · refine Protocol.safe_seq (processCompleted_safe hr hp) ?_
    exact fun _ v _ => remove _ v
  · exact remove _ v

end Download

/-! ### The other tasks -/

/-- A program of somebody else. Only downloads are started from records. -/
theorem safe_other {α : Type} {F : Footprint lang} {p : Proc α} {i : Slot}
    (hi : i ≠ .download m.key) (hp : p.Within F)
    (hsp : ∀ t, F.spawn t → ∀ r', t = .download r' → r'.key = m.key → r' = r) :
    (protocol m r w₀).Safe machine (undisturbed m) i p (fun _ _ => True) v := by
  refine Protocol.safe_footprint hp (fun _ _ _ _ => trivial) ?_ ?_ ?_ trivial
  · intro v _ hinv _ o _ c a w he hg
    exact ⟨guar_other hinv hi he hg, trivial⟩
  · intro v _ hinv _ t ht _ _
    obtain ⟨kept, own⟩ := guar_still hinv (v.spawn (L := lang) i t (slotOf t)) rfl rfl rfl
    exact ⟨⟨kept, fun _ _ _ => own⟩, hsp t ht, trivial⟩
  · intro v _ hinv _ j _ _ res _ _
    obtain ⟨kept, own⟩ := guar_still hinv (v.await (L := lang) i j res) rfl rfl rfl
    exact ⟨⟨kept, fun _ _ _ => own⟩, trivial⟩

/-- The loop of a tick over records of which `r` is the one of the key. -/
theorem workOn_safe {records : List PendingDownloadRecord}
    (h : ∀ s ∈ records, s.key = m.key → s = r) :
    (protocol m r w₀).Safe machine (undisturbed m) .eventLoop
      (FileDownloadService.workOn records) (fun _ _ => True) v := by
  have notOwn : Slot.eventLoop ≠ .download m.key := nofun
  refine safe_other (F := ⟨fun _ => True, fun t => ∀ r', t = .download r' → r'.key = m.key → r' = r,
    fun _ => False⟩) notOwn ?_ (fun _ h => h)
  induction records with
  | nil => trivial
  | cons s records ih =>
      have rest := ih fun s' hs => h s' (List.mem_cons_of_mem _ hs)
      refine Prog.within_bind (perform_within trivial) fun item => ?_
      refine Prog.within_bind (perform_within trivial) fun permits => ?_
      split
      · trivial
      · split
        · refine Prog.within_bind (perform_within trivial) fun fresh => ?_
          split
          · refine ⟨?_, rest⟩
            rintro _ ⟨⟩
            exact h s List.mem_cons_self
          · exact rest
        · exact rest

/-- A tick. Its stream has the record `r` for the key, if any. -/
theorem tick_safe :
    (protocol m r w₀).Safe machine (undisturbed m) .eventLoop
      FileDownloadService.workOnPendingDownloads (fun _ _ => True) v := by
  have notOwn : Slot.eventLoop ≠ .download m.key := nofun
  have permits : (protocol m r w₀).Safe machine (undisturbed m) .eventLoop
      (sync .availablePermits) (fun _ _ => True) v :=
    safe_other notOwn (F := .ops fun _ => True) (sync_within trivial) fun _ h => h.elim
  refine Protocol.safe_seq permits ?_
  intro permits v _
  split
  · trivial
  have stream : (protocol m r w₀).Safe machine (undisturbed m) .eventLoop
      (store .streamPendingDownloads).run
      (fun x _ => ∀ records, x = .ok records → ∀ s ∈ records, s.key = m.key → s = r) v := by
    intro v₁ _ hinv _ ch a w he hg
    replace he : Op.exec (.store .streamPendingDownloads) ch v₁.world = some (a, w) := he
    refine ⟨guar_other hinv notOwn he hg, ?_⟩
    rintro records rfl s hs hk
    obtain ⟨ha, -⟩ | ⟨_, ha, -⟩ := exec_store he
    · cases ha
      obtain ⟨⟨k, s'⟩, hmem, rfl⟩ := List.mem_map.mp hs
      have pending : v₁.world.store.pending[k]? = some s' :=
        ExtTreeMap.mem_toList_iff_getElem?_eq_some.mp hmem
      obtain rfl : s'.key = k := hinv.keyed k s' pending
      replace hk : s'.key = m.key := hk
      rw [hk] at pending
      obtain h | ⟨h, -⟩ := hinv.pending
      · exact Option.some.inj (pending.symm.trans h)
      · rw [pending] at h
        cases h
    · cases ha
  refine Protocol.safe_seq stream ?_
  intro x v hx
  split
  · exact workOn_safe (hx _ rfl)
  · trivial

/-- Every task keeps to the protocol. -/
theorem body_safe (hr : Recorded m r w₀) (hp : PartApart m) (t : Task)
    (hpre : (protocol m r w₀).Pre t v) :
    (protocol m r w₀).Safe machine (undisturbed m) (slotOf t) (body t) (fun _ _ => True) v := by
  by_cases hi : slotOf t = .download m.key
  · obtain ⟨r', rfl⟩ : ∃ r', t = .download r' := by
      cases t with
      | download r' => exact ⟨r', rfl⟩
      | _ => cases hi
    replace hi : r'.key = m.key := Slot.download.inj hi
    obtain rfl : r' = r := hpre r' rfl hi
    show (protocol m r' w₀).Safe machine _ (.download r'.key) _ _ _
    rw [hi]
    exact downloadTask_safe hr hp
  · by_cases ht : t = .tick
    · subst ht
      exact Protocol.safe_seq tick_safe fun _ _ _ => trivial
    · refine safe_other hi (body_within t) fun t' ht' r' he => ?_
      obtain ⟨_, rfl⟩ | ⟨_, -, c, dir, rfl⟩ := of_spawn ht'
      · cases t with
        | tick => exact absurd rfl ht
        | download r => obtain ⟨c, dir, h⟩ := ht'; cases h
        | _ => exact ht'.elim
      · cases he

/-! ### Runs -/

theorem valid (hr : Recorded m r w₀) (hp : PartApart m) :
    (protocol m r w₀).Valid machine (undisturbed m) where
  rely_refl _ _ _ := ⟨fun _ _ => rfl, rfl, rfl⟩
  rely_trans _ _ _ _ h₁ h₂ hi :=
    ⟨fun l hl => ((h₂ hi).files l hl).trans ((h₁ hi).files l hl),
      (h₂ hi).pending.trans (h₁ hi).pending, (h₂ hi).published.trans (h₁ hi).published⟩
  guar_rely _ _ _ _ hij _ hG := hG.2 _ hij.symm
  guar_inv _ _ _ _ hG := hG.1
  post_stable _ _ _ _ _ _ := trivial
  start_rely t v hv _ _ _ _ :=
    (guar_still hv (v.start (L := lang) t (slotOf t)) rfl rfl rfl).2
  start_inv t v hv _ _ := (guar_still hv (v.start (L := lang) t (slotOf t)) rfl rfl rfl).1
  start_pre t v _ _ hg := by
    rintro r' rfl _
    cases hg.1.1
  exit_guar i res v hv _ _ _ := by
    obtain ⟨kept, own⟩ := guar_still hv (v.exit (L := lang) i res) rfl rfl rfl
    exact ⟨kept, fun _ _ _ => own⟩
  crash_inv v hv _ :=
    hv.frame rfl (fun _ _ => rfl) (.inl fun _ _ => rfl) rfl rfl hv.keyed (completed_of_cons rfl)
  body_safe t v _ hpre := body_safe hr hp t hpre

theorem kept_idle (hr : Recorded m r w₀) : Kept m r w₀ (Pool.idle (L := lang) w₀).view where
  metadata := rfl
  chunks _ _ := rfl
  restored d hd := .inl (hr.absent d hd)
  pending := .inl hr.pending
  keyed := hr.keyed
  done := by
    rintro ⟨e, he, -⟩
    cases he

/-- In every run that leaves the records and the files of the download
alone: whatever cuts its completion off, and however often ticks start it
again, the destination is absent or whole, one of the two records is
stored, and after the last command everything is in place. -/
theorem crash_safe (hr : Recorded m r w₀) (hp : PartApart m) {p : NodePool}
    (h : Reach machine (undisturbed m) (.idle w₀) p) : Safe m r w₀ p.view := by
  have kept := ((valid hr hp).holds_of_reach (kept_idle hr) h).1
  refine ⟨kept.restored, fun gone => ?_, kept.done⟩
  obtain there | ⟨-, published⟩ := kept.pending
  · rw [there] at gone
    cases gone
  · exact published

end Proofs

section Example

open Reference

attribute [local instance] platform

/-- The record of a download whose chunks are all recorded. -/
def allRecorded (m : FileMetadata) : PendingDownloadRecord :=
  { pendingDownload m with downloadedChunks := Finset.range m.merkleProofs.length }

/-- A node that has downloaded the chunks `0..` with these bytes. -/
def recordedWorld (m : FileMetadata) (dirs : List Loc) (chunks : List Bytes) : World :=
  let w := newWorld (files (dirs.map (·, .dir) ++ [(metadataLoc m, .file m.toBytes)] ++
    chunks.mapIdx fun c bs => (chunkLoc m c, .file bs))) 2
  { w with store := ⟨∅, w.store.pending.insert m.key (allRecorded m), ∅⟩ }

theorem recorded_recordedWorld {m : FileMetadata} {dirs : List Loc} {chunks : List Bytes}
    (hmetadata : (recordedWorld m dirs chunks).fs.bytes (metadataLoc m) = some m.toBytes)
    (habsent : ∀ d ∈ destination m, (recordedWorld m dirs chunks).fs (loc d) = none) :
    Recorded m (allRecorded m) (recordedWorld m dirs chunks) := by
  have get : ∀ k, (recordedWorld m dirs chunks).store.pending[k]?
      = if m.key = k then some (allRecorded m) else none := by
    intro k
    show (ExtTreeMap.insert _ m.key (allRecorded m))[k]? = _
    rw [get_put]
    rfl
  refine ⟨rfl, rfl, fun c hc => Finset.mem_range.mpr hc, ?_, fun k s hs => ?_, hmetadata, habsent⟩
  · rw [get, if_pos rfl]
  · rw [get] at hs
    split at hs
    · cases hs
      assumption
    · cases hs

/-- The file `0.chunk`, with the temporary file `0.chunk.part` in the
chunk directory. -/
def nested : FileMetadata :=
  localMetadata ⟨"/d"⟩ { metadataOf "0_chunk_chunks/0.chunk" [[7]] with
    chunkFileExtension := "chunk.part" }

/-- Its directories. -/
def nestedDirs : List Loc :=
  [[], ["d"], ["d", "0_chunk_chunks"], ["d", "0_chunk_chunks", "0_chunk_chunks"]]

/-- The temporary file is chunk 0: creating it empties the chunk, and the
file is put together from nothing. -/
theorem destination_torn :
    ∃ w p, Recorded nested (allRecorded nested) w ∧
      Reach machine (undisturbed nested) (.idle w) p ∧ ¬ Safe nested (allRecorded nested) w p.view := by
  have run : ∃ p, Reach machine (undisturbed nested) (.idle (recordedWorld nested nestedDirs [[7]])) p ∧
      ¬ Safe nested (allRecorded nested) (recordedWorld nested nestedDirs [[7]]) p.view :=
    exists_reach_of_runScript (tickStream ++ tickStart ++ openDownload nested.key 0 ++
      ops (.download nested.key) 9 ++ [.exit (.download nested.key)]) (by decide +kernel)
  obtain ⟨p, h⟩ := run
  exact ⟨_, p, recorded_recordedWorld (by decide +kernel) (by decide +kernel), h⟩

/-- A file of one chunk as it was published. -/
def oneChunk : FileMetadata := localMetadata ⟨"/d"⟩ (metadataOf "f" [[7]])

/-- A crash between the two records, and a completion after it. -/
theorem crash_safe_oneChunk :
    ∃ w p, Reach machine (undisturbed oneChunk) (.idle w) p ∧
      (∃ e ∈ p.hist, completed? oneChunk.key e) ∧ Safe oneChunk (allRecorded oneChunk) w p.view := by
  have recorded : Recorded oneChunk (allRecorded oneChunk)
      (recordedWorld oneChunk [[], ["d"], ["d", "f_chunks"]] [[7]]) :=
    recorded_recordedWorld (by decide +kernel) (by decide +kernel)
  have apart : PartApart oneChunk := by decide +kernel
  have run : ∃ p, Reach machine (undisturbed oneChunk)
      (.idle (recordedWorld oneChunk [[], ["d"], ["d", "f_chunks"]] [[7]])) p ∧
      ∃ e ∈ p.hist, completed? oneChunk.key e :=
    exists_reach_of_runScript (tickStream ++ tickStart ++ openDownload oneChunk.key 0 ++
      ops (.download oneChunk.key) 7 ++ [.crash] ++
      tickStream ++ tickStart ++ openDownload oneChunk.key 0 ++
      ops (.download oneChunk.key) 6) (by decide +kernel)
  obtain ⟨p, h, hdone⟩ := run
  exact ⟨_, p, h, hdone, crash_safe recorded apart h⟩

end Example

end RustDfs.CrashSafe
