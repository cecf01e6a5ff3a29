import RustDfs.Lib.Chunks
import RustDfs.Proofs.Rules

/-!
# `RustDfs.Proofs.DownloadFiles`: the files of a download

The places a download writes to: its directory with the metadata and the
chunk files, the temporary file and the destination. All of them follow
from the metadata, which a peer sent. `Distinct` says that they are
different places.

`safe_readMetadata`, `safe_copyChunks` and `safe_restore` are rules for
the programs that work on these files, under any protocol.
-/

set_option autoImplicit false

namespace RustDfs.Downloading

open Lib Conc

section Places

variable [Platform] (m : FileMetadata)

/-- The place of its metadata. -/
def metadataLoc : Loc := loc (metadataPath m.chunksDir)

/-- The place of chunk `c`. -/
def chunkLoc (c : Nat) : Loc := loc (m.chunksDir.join (chunkFileName c m.chunkFileExtension))

/-- The places in its directory. -/
def directory : List Loc :=
  metadataLoc m :: (List.range (max m.totalChunks m.merkleProofs.length)).map (chunkLoc m)

omit [Platform] in
/-- The path of the file it is put together in. -/
def part : Option PathBuf := m.chunksDir.parent.map (·.join (m.originalFileName ++ ".part"))

omit [Platform] in
/-- The path of the whole file. -/
def destination : Option PathBuf := m.chunksDir.parent.map (·.join m.originalFileName)

/-- The places beside its directory. -/
def outside : List Loc := ((destination m).toList ++ (part m).toList).map loc

/-- The places the download writes to are different places. -/
def Distinct : Prop := (directory m ++ outside m).Nodup

instance : Decidable (Distinct m) := inferInstanceAs (Decidable (List.Nodup _))

variable {m}

theorem chunkLoc_mem_directory {c : Nat} (hc : c < max m.totalChunks m.merkleProofs.length) :
    chunkLoc m c ∈ directory m :=
  List.mem_cons_of_mem _ (List.mem_map_of_mem (List.mem_range.mpr hc))

theorem destination_mem {d : PathBuf} (hd : destination m = some d) : loc d ∈ outside m := by
  refine List.mem_map_of_mem (List.mem_append_left _ ?_)
  rw [hd]
  exact List.mem_cons_self

theorem part_mem {t : PathBuf} (ht : part m = some t) : loc t ∈ outside m := by
  refine List.mem_map_of_mem (List.mem_append_right _ ?_)
  rw [ht]
  exact List.mem_cons_self

theorem Distinct.metadata_ne (hd : Distinct m) {c : Nat} (hc : c < m.merkleProofs.length) :
    metadataLoc m ≠ chunkLoc m c := by
  intro he
  have nodup : (directory m).Nodup := (List.nodup_append.mp hd).1
  refine (List.nodup_cons.mp nodup).1 ?_
  rw [he]
  exact List.mem_map_of_mem (List.mem_range.mpr (by omega))

theorem Distinct.chunk_inj (hd : Distinct m) {c c' : Nat} (hc : c < m.merkleProofs.length)
    (hc' : c' < m.merkleProofs.length) (he : chunkLoc m c = chunkLoc m c') : c = c' := by
  have nodup : (directory m).Nodup := (List.nodup_append.mp hd).1
  exact List.inj_on_of_nodup_map (List.nodup_cons.mp nodup).2 (List.mem_range.mpr (by omega))
    (List.mem_range.mpr (by omega)) he

theorem Distinct.not_outside (hd : Distinct m) {l : Loc} (hl : l ∈ directory m) :
    l ∉ outside m :=
  fun h => (List.nodup_append.mp hd).2.2 l hl l h rfl

theorem Distinct.destination_ne (hd : Distinct m) {d t : PathBuf} (hdest : destination m = some d)
    (ht : part m = some t) : loc d ≠ loc t := by
  have nodup : (outside m).Nodup := (List.nodup_append.mp hd).2.1
  rw [outside, hdest, ht] at nodup
  have apart := (List.nodup_cons.mp nodup).1
  exact fun he => apart (List.mem_singleton.mpr he)

end Places

/-! ### Writers -/

section Writers

variable {t : PathBuf} {buf all : Bytes} {held : Option Bytes}

/-- What a writer has been given is `all`: `held` stands in the file and
the rest is buffered. Nothing is said of the file once a write has
failed. -/
inductive Holds (file : Tokio.File t) (buf all : Bytes) : Option Bytes → Prop
  | good {written : Bytes} (hfile : file = ⟨written.length, none⟩)
      (hall : written ++ buf = all) : Holds file buf all (some written)
  | failed {e : IoError} (he : file.lastWriteErr = some e) : Holds file buf all none

/-- What stands in the file after a write that leaves `bs` there. -/
def afterWrite (bs : Bytes) : Except IoError Unit → Option Bytes
  | .ok _ => some bs
  | .error _ => none

/-- More is buffered. -/
theorem Holds.buffer {file : Tokio.File t} (h : Holds file buf all held) (bs : Bytes) :
    Holds file (buf ++ bs) (all ++ bs) held := by
  cases h with
  | good hfile hall => exact .good hfile (by rw [← hall, List.append_assoc])
  | failed he => exact .failed he

end Writers

/-! ### Rules -/

section Rules

variable [Platform] {P : Protocol lang World} {g : NodeGuard} {i : Slot} {m : FileMetadata}
  {r : PendingDownloadRecord} {v : NodeView} {F Q : NodeView → Prop}

/-- Reading a metadata whose bytes are known. -/
theorem safe_readMetadata {dir : PathBuf}
    (read : P.Safe machine g i (fs (.read (metadataPath dir))).run
      (fun x v => F v ∧ ∀ bs, x = .ok bs → bs = m.toBytes) v) :
    P.Safe machine g i (readMetadata dir).run (fun x v => F v ∧ ∀ m', x = .ok m' → m' = m) v := by
  refine Protocol.safe_seqA read ?_ (fun _ _ h => ⟨h.1, nofun⟩)
  rintro bs v ⟨hF, hbs⟩
  obtain rfl := hbs bs rfl
  rw [Platform.decode_toBytes]
  refine ⟨hF, ?_⟩
  rintro _ ⟨⟩
  rfl

/-! A writer is followed with a predicate `A held` on the views: `held` is
what stands in the file, or `none` once a write has failed. -/

section Writer

variable {t : PathBuf} {A : Option Bytes → NodeView → Prop} {held : Option Bytes}
  {all bs : Bytes}

/-- Writing to the file, wherever nothing has failed yet. -/
abbrev Writes (P : Protocol lang World) (g : NodeGuard) (i : Slot) (t : PathBuf)
    (A : Option Bytes → NodeView → Prop) : Prop :=
  ∀ written bs v, A (some written) v →
    P.Safe machine g i (fs (.writeAt t written.length bs)).run
      (fun x v => A (afterWrite (written ++ bs) x) v) v

/-- What was still buffered is written. -/
theorem safe_fileWrite (write : Writes P g i t A) {file : Tokio.File t}
    (hf : Holds file bs all held) (hv : A held v) :
    P.Safe machine g i (file.write bs).run
      (fun x v => ∀ file', x = .ok file' → ∃ held', A held' v ∧ Holds file' [] all held') v := by
  unfold Tokio.File.write
  cases hf with
  | failed he =>
      rw [he]
      exact nofun
  | @good written hfile hall =>
      subst hfile hall
      refine Protocol.safe_seqL (write written bs v hv) fun x v hx => ?_
      cases x with
      | ok u =>
          rintro _ ⟨⟩
          exact ⟨_, hx, .good (by rw [List.length_append]) (List.append_nil _)⟩
      | error e =>
          rintro _ ⟨⟩
          exact ⟨_, hx, .failed rfl⟩

theorem safe_flushBuf (write : Writes P g i t A) {w : Tokio.BufWriter t}
    (hw : Holds w.file w.buf all held) (hv : A held v) :
    P.Safe machine g i w.flushBuf.run
      (fun x v => ∀ w', x = .ok w' → w'.buf = [] ∧
        ∃ held', A held' v ∧ Holds w'.file w'.buf all held') v := by
  unfold Tokio.BufWriter.flushBuf
  split
  · next hbuf =>
      rintro _ ⟨⟩
      exact ⟨hbuf, held, hv, hw⟩
  · refine Protocol.safe_seqE (safe_fileWrite write hw hv) ?_ (fun _ _ _ => nofun)
    rintro file v h _ ⟨⟩
    exact ⟨rfl, h file rfl⟩

theorem safe_write (write : Writes P g i t A) {w : Tokio.BufWriter t}
    (hw : Holds w.file w.buf all held) (hv : A held v) :
    P.Safe machine g i (w.write bs).run
      (fun x v => ∀ w', x = .ok w' →
        ∃ held', A held' v ∧ Holds w'.file w'.buf (all ++ bs) held') v := by
  have room : P.Safe machine g i (w.makeRoom bs.length).run
      (fun x v => ∀ w', x = .ok w' → (BUF_CAPACITY ≤ bs.length → w'.buf = []) ∧
        ∃ held', A held' v ∧ Holds w'.file w'.buf all held') v := by
    unfold Tokio.BufWriter.makeRoom
    split
    · refine Protocol.safe_mono (fun x v h w' hx => ?_) (safe_flushBuf write hw hv)
      exact ⟨fun _ => (h w' hx).1, (h w' hx).2⟩
    · next hfits =>
        rintro _ ⟨⟩
        refine ⟨fun hlong => List.eq_nil_of_length_eq_zero ?_, held, hv, hw⟩
        omega
  refine Protocol.safe_seqE room ?_ (fun _ _ _ => nofun)
  intro w v h
  obtain ⟨hempty, held', hv', hw'⟩ := h w rfl
  split
  · next hlong =>
      -- what is too long for the buffer goes behind what the file holds
      have hbuf := hempty hlong
      have hw' := hw'.buffer bs
      rw [hbuf, List.nil_append] at hw'
      refine Protocol.safe_seqE (safe_fileWrite write hw' hv') ?_ (fun _ _ _ => nofun)
      rintro file v hfile _ ⟨⟩
      show ∃ _, _ ∧ Holds file w.buf _ _
      rw [hbuf]
      exact hfile file rfl
  · rintro _ ⟨⟩
    exact ⟨held', hv', hw'.buffer bs⟩

theorem safe_writeAll (write : Writes P g i t A) {w : Tokio.BufWriter t}
    (hw : Holds w.file w.buf all held) (hv : A held v) :
    P.Safe machine g i (w.writeAll bs).run
      (fun x v => ∀ w', x = .ok w' →
        ∃ held', A held' v ∧ Holds w'.file w'.buf (all ++ bs) held') v := by
  have pieces : ∀ (pieces : List Bytes) {w : Tokio.BufWriter t} {all : Bytes}
      {held : Option Bytes} {v : NodeView}, Holds w.file w.buf all held → A held v →
      P.Safe machine g i (w.writePieces pieces).run
        (fun x v => ∀ w' : Tokio.BufWriter t, x = .ok w' →
          ∃ held', A held' v ∧ Holds w'.file w'.buf (all ++ pieces.flatten) held') v := by
    intro pieces
    induction pieces with
    | nil =>
        rintro w all held v hw hv _ ⟨⟩
        exact ⟨held, hv, by rwa [List.flatten_nil, List.append_nil]⟩
    | cons bs pieces ih =>
        intro w all held v hw hv
        refine Protocol.safe_seqE (safe_write write hw hv) ?_ (fun _ _ _ => nofun)
        intro w v h
        obtain ⟨held', hv', hw'⟩ := h w rfl
        rw [List.flatten_cons, ← List.append_assoc]
        exact ih hw' hv'
  have whole := pieces (chunks Tokio.MAX_BUF_SIZE bs) hw hv
  rwa [flatten_chunks (by decide)] at whole

/-- After a flush all of it stands in the file. -/
theorem safe_flush (write : Writes P g i t A) {w : Tokio.BufWriter t}
    (hw : Holds w.file w.buf all held) (hv : A held v) :
    P.Safe machine g i w.flush.run (fun x v => ∀ u, x = .ok u → A (some all) v) v := by
  refine Protocol.safe_seqE (safe_flushBuf write hw hv) ?_ (fun _ _ _ => nofun)
  intro w v h
  obtain ⟨hbuf, held', hv', hw'⟩ := h w rfl
  unfold Tokio.File.flush
  cases hw' with
  | failed he =>
      rw [he]
      exact nofun
  | good hfile hall =>
      rw [hfile]
      rw [hbuf, List.append_nil] at hall
      rintro _ ⟨⟩
      rwa [← hall]

end Writer

/-- The loop of `restore_original_file`: `A cs held` holds where the chunks
`cs` have been read. The induction is on the chunks left. -/
theorem safe_copyChunks {t : PathBuf} {A : List Bytes → Option Bytes → NodeView → Prop}
    (read : ∀ cs held v, cs.length < m.totalChunks → A cs held v →
      P.Safe machine g i
        (fs (.read (m.chunksDir.join (chunkFileName cs.length m.chunkFileExtension)))).run
        (fun x v => ∀ bs, x = .ok bs → A (cs ++ [bs]) held v) v)
    (write : ∀ cs, Writes P g i t (A cs))
    (count : Nat) {cs : List Bytes} {held : Option Bytes} {w : Tokio.BufWriter t}
    (hc : cs.length + count = m.totalChunks) (hw : Holds w.file w.buf cs.flatten held)
    (hv : A cs held v) :
    P.Safe machine g i (copyChunks m count cs.length w).run
      (fun x v => ∀ w', x = .ok w' → ∃ cs held, cs.length = m.totalChunks ∧ A cs held v ∧
        Holds w'.file w'.buf cs.flatten held) v := by
  induction count generalizing cs held w v with
  | zero =>
      rintro _ ⟨⟩
      exact ⟨cs, held, hc, hv, hw⟩
  | succ count ih =>
      refine Protocol.safe_seqA (read cs held v (by omega) hv) ?_ (fun _ _ _ => nofun)
      intro bs v hread
      refine Protocol.safe_seqA (safe_writeAll (write _) hw (hread bs rfl)) ?_
        (fun _ _ _ => nofun)
      intro w v h
      obtain ⟨held', hv', hw'⟩ := h w rfl
      have length : (cs ++ [bs]).length = cs.length + 1 := List.length_append
      rw [← length]
      refine ih (by omega) ?_ hv'
      rwa [List.flatten_append, List.flatten_singleton]

/-- `restore_original_file`, from the metadata `m` on. -/
theorem safe_restore {A : PathBuf → List Bytes → Option Bytes → NodeView → Prop}
    (metadata : P.Safe machine g i (readMetadata r.chunksDir).run
      (fun x v => F v ∧ ∀ m', x = .ok m' → m' = m) v)
    (look : ∀ d t v, destination m = some d → part m = some t → F v →
      P.Safe machine g i (fs (.tryExists d)).run (fun _ v => F v) v)
    (found : ∀ d t v, destination m = some d → part m = some t → F v →
      P.Safe machine g i (fs (.metadata d)).run (fun x v => x = .ok .file → Q v) v)
    (create : ∀ t v, part m = some t → F v →
      P.Safe machine g i (fs (.createFile t)).run
        (fun x v => ∀ u, x = .ok u → A t [] (some []) v) v)
    (read : ∀ t cs held v, part m = some t → cs.length < m.totalChunks → A t cs held v →
      P.Safe machine g i
        (fs (.read (m.chunksDir.join (chunkFileName cs.length m.chunkFileExtension)))).run
        (fun x v => ∀ bs, x = .ok bs → A t (cs ++ [bs]) held v) v)
    (write : ∀ t cs, part m = some t → Writes P g i t (A t cs))
    (rename : ∀ d t cs v, destination m = some d → part m = some t →
      cs.length = m.totalChunks → A t cs (some cs.flatten) v →
      P.Safe machine g i (fs (.rename t d)).run (fun x v => ∀ u, x = .ok u → Q v) v) :
    P.Safe machine g i (restoreOriginalFile r).run (fun x v => ∀ m', x = .ok m' → m' = m ∧ Q v) v := by
  -- the steps in the order of the source, each with its own assumption
  refine Protocol.safe_seqE metadata ?_ (fun _ _ _ => nofun)
  rintro m' v ⟨hF, hm⟩
  obtain rfl := hm m' rfl
  split
  · exact nofun
  · next parentDir hparent =>
      have hd : destination m' = some (parentDir.join m'.originalFileName) := by
        rw [destination, hparent]
        rfl
      have ht : part m' = some (parentDir.join (m'.originalFileName ++ ".part")) := by
        rw [part, hparent]
        rfl
      -- the rest depends on the two paths, not on how they are built
      generalize parentDir.join m'.originalFileName = d at hd
      generalize parentDir.join (m'.originalFileName ++ ".part") = t at ht
      refine Protocol.safe_seqA (look d t v hd ht hF) ?_ (fun _ _ _ => nofun)
      intro there v hF
      split
      · refine Protocol.safe_seqA (found d t v hd ht hF) ?_ (fun _ _ _ => nofun)
        intro kind v hfile
        cases kind with
        | dir => exact nofun
        | file =>
            rintro _ ⟨⟩
            exact ⟨rfl, hfile rfl⟩
      · refine Protocol.safe_seqA (create t v ht hF) ?_ (fun _ _ _ => nofun)
        intro u v hcreated
        refine Protocol.safe_seqE (safe_copyChunks (fun cs held v => read t cs held v ht)
          (fun cs => write t cs ht) m'.totalChunks (Nat.zero_add _)
          (.good rfl rfl) (hcreated u rfl)) ?_ (fun _ _ _ => nofun)
        intro w v hcopied
        obtain ⟨cs, held, length, hA, hw⟩ := hcopied w rfl
        refine Protocol.safe_seqA (safe_flush (write t cs ht) hw hA) ?_ (fun _ _ _ => nofun)
        intro u v hflushed
        refine Protocol.safe_seqA (rename d t cs v hd ht length (hflushed u rfl)) ?_
          (fun _ _ _ => nofun)
        rintro u v hrenamed _ ⟨⟩
        exact ⟨rfl, hrenamed u rfl⟩

end Rules

end RustDfs.Downloading
