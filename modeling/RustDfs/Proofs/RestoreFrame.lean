import RustDfs.Conc.Runs
import RustDfs.Model.Reference
import RustDfs.Proofs.DownloadFiles
import RustDfs.Proofs.Footprints
import RustDfs.Proofs.Places
import RustDfs.Proofs.SplitRestore

/-!
# `RustDfs.Proofs.RestoreFrame`: what restoring does to other files

`restore_original_file` puts the file together under the name of the file
with `.part` behind it, in the directory of the user, and renames it. It
creates this file without looking, so a file that stands there under that
name is lost. `restore_harmless` says for every state of the files when
no run can do harm to another file: the file there is left over from an
earlier call for this download, nothing stands there, or it is empty and
the call does not get to write (`Spared`).

The chunks go through a buffer, which is lost when the call fails. So the
call does not get to write when a chunk is missing and the chunks before
it fit into the buffer (`Dry`).
-/

set_option autoImplicit false

namespace RustDfs.RestoreFrame

open Lib Conc Prog Downloading

section Defs

variable [Platform] (m : FileMetadata)

/-- What a call leaves alone.
- `kept`: a file that was there before is there now, with the same bytes,
  but for the temporary file if it was `leftover` from this download,
- `added`: what is there now and was not before is the temporary file or
  the destination. -/
structure Harmless (leftover : Prop) (w w' : World) : Prop where
  kept : ∀ l bs, w.fs l = some (.file bs) → (leftover → ∀ t ∈ part m, l ≠ loc t) →
    w'.fs l = w.fs l
  added : ∀ l, w.fs l = none → w'.fs l ≠ none →
    ∃ p, (p ∈ part m ∨ p ∈ destination m) ∧ l = loc p

/-- The size of chunk `c`; a chunk that is missing has none. -/
def size (w : World) (c : Nat) : Nat := ((w.fs.bytes (chunkLoc m c)).getD []).length

/-- The size of the first `c` chunks together. -/
def before (w : World) (c : Nat) : Nat := ((List.range c).map (size m w)).sum

/-- The call ends before it writes a byte:

- some chunk is missing;
- each chunk before it is smaller than the buffer, so it is not written
  past the buffer;
- together they fit into the buffer, so it is never flushed. -/
def Dry (w : World) : Prop :=
  ∃ c < m.totalChunks, w.fs.bytes (chunkLoc m c) = none ∧
    (∀ c' < c, size m w c' < BUF_CAPACITY) ∧ before m w c ≤ BUF_CAPACITY

/-- No other file is in the way. Where nothing stands at the destination
and the directory is there, a file at the place of the temporary file is
empty, and the call adds nothing to it. -/
def Spared (w : World) : Prop :=
  ∀ d ∈ destination m, ∀ t ∈ part m, w.fs (loc d) = none →
    w.fs (loc t).dropLast = some .dir → ∀ bs, w.fs (loc t) = some (.file bs) → bs = [] ∧ Dry m w

/-- The runs of the call. -/
abbrev Restores (r : PendingDownloadRecord) (w : World) (l : List (Deed lang Choice))
    (x : Except FileProcessingError FileMetadata) (w' : World) : Prop :=
  (restoreOriginalFile r).run.Runs Op.exec w l x w'

/-- The end of the call, where `count` chunks are left. -/
def assemble {t : PathBuf} (d : PathBuf) (count chunk : Nat) (writer : Tokio.BufWriter t) :
    ExceptT FileProcessingError Proc FileMetadata := do
  let bufWriter ← copyChunks m count chunk writer
  bufWriter.flush.adapt .io
  (fs (.rename t d)).adapt .io
  return m

end Defs

/-! ### What a run can change -/

section Frame

variable [Platform] {m : FileMetadata} {t d : PathBuf} {w w' : World}
  {l : List (Deed lang Choice)} {r : PendingDownloadRecord}

/-- A run leaves a place alone that none of its operations writes. -/
theorem runs_fs_apply {α : Type} {p : Proc α} {O : Op → Prop} {a : α} {x : Loc}
    (h : p.Runs Op.exec w l a w') (hp : p.Within (.ops O)) (hO : ∀ o, O o → x ∉ o.writes) :
    w'.fs x = w.fs x := by
  induction h with
  | ret => rfl
  | op he _ ih => exact (ih (hp.2 _)).trans (exec_fs_apply he (hO _ hp.1))
  | spawn _ _ => exact hp.1.elim
  | await hj _ _ => exact (hp.1 _ hj).elim

/-- Putting the file together reads anything and writes the two files. -/
inductive AssembleOp (t d : PathBuf) : Op → Prop
  | read (p : PathBuf) : AssembleOp t d (.fs (.read p))
  | save {o : Op} (ho : SaveOp t o) : AssembleOp t d o
  | rename : AssembleOp t d (.fs (.rename t d))

omit [Platform] in
theorem assemble_within (count chunk : Nat) (writer : Tokio.BufWriter t) :
    (assemble m d count chunk writer).run.Within (.ops (AssembleOp t d)) := by
  have copy : ∀ n c (writer : Tokio.BufWriter t), (copyChunks m n c writer).run.Within
      (.ops (AssembleOp t d)) := by
    intro n
    induction n with
    | zero => exact fun _ _ => trivial
    | succ n ih =>
        intro c writer
        refine within_bindE (within_adapt _ (fs_within (.read _))) fun bytes => ?_
        exact within_bindE (within_adapt _ ((tokioWriteAll_within writer _).mono_ops
          fun _ => .save)) fun _ => ih _ _
  refine within_bindE (copy _ _ _) fun writer => ?_
  refine within_bindE (within_adapt _ ((tokioFlush_within writer).mono_ops fun _ => .save))
    fun _ => ?_
  exact within_bindE (within_adapt _ (fs_within .rename)) fun _ => trivial

/-- Other places stay as they are. -/
theorem assemble_fs_apply {x : Loc} {y : Except FileProcessingError FileMetadata}
    {count chunk : Nat} {writer : Tokio.BufWriter t}
    (h : (assemble m d count chunk writer).run.Runs Op.exec w l y w') (ht : x ≠ loc t)
    (hd : x ≠ loc d) : w'.fs x = w.fs x := by
  refine runs_fs_apply h (assemble_within _ _ _) fun o ho => ?_
  cases ho with
  | read p => exact List.not_mem_nil
  | save ho =>
      have only : ∀ l ∈ o.writes, l = loc t := by
        intro l hl
        cases ho with
        | createFile => exact List.mem_singleton.mp hl
        | writeAt offset bs => exact List.mem_singleton.mp hl
      exact fun h => ht (only x h)
  | rename =>
      intro h
      obtain h | h := List.mem_pair.mp h
      · exact ht h
      · exact hd h

/-- Reading a metadata changes nothing and gives this metadata. -/
theorem runs_metadata {data : Bytes} {dir : PathBuf}
    {y : Except FileProcessingError FileMetadata}
    (hdata : w.fs.bytes (loc (metadataPath dir)) = some data)
    (hm : Platform.decodeMetadata data = .ok m)
    (h : (readMetadata dir).run.Runs Op.exec w l y w') :
    w'.fs = w.fs ∧ ∀ m', y = .ok m' → m' = m := by
  obtain ⟨l₁, bs, w₁, l₂, h₁, h₂, rfl⟩ | ⟨e, hf, rfl⟩ := runs_bindA.mp h
  · obtain ⟨c, he, rfl⟩ := runs_perform.mp h₁
    replace he : Op.exec (.fs (.read (metadataPath dir))) c w = some (.ok bs, w₁) := he
    have read := exec_read he
    rw [hdata] at read
    cases read
    rw [hm] at h₂
    obtain ⟨rfl, rfl, rfl⟩ := runs_ret.mp h₂
    refine ⟨exec_fs_eq he rfl, fun m' h => ?_⟩
    cases h
    rfl
  · obtain ⟨c, he, rfl⟩ := runs_perform.mp hf
    exact ⟨exec_fs_eq (o := .fs (.read (metadataPath dir))) he rfl, nofun⟩

/-- A run changes no file, or it has created the temporary file. -/
theorem runs_restore {data : Bytes} {x : Except FileProcessingError FileMetadata}
    (hdata : w.fs.bytes (loc (metadataPath r.chunksDir)) = some data)
    (hm : Platform.decodeMetadata data = .ok m) (h : Restores r w l x w') :
    w'.fs = w.fs ∨ ∃ d ∈ destination m, ∃ t ∈ part m, w.fs (loc d) = none ∧
      w.fs (loc t).dropLast = some .dir ∧ ∃ w₁ l₁, w₁.fs = w.fs.setBytes (loc t) [] ∧
        (assemble (t := t) m d m.totalChunks 0 .new).run.Runs Op.exec w₁ l₁ x w' := by
  obtain ⟨l₁, m', w₁, l₂, h₁, h₂, rfl⟩ | ⟨e, h₁, rfl⟩ := runs_bindE.mp h
  · obtain ⟨same₁, hm'⟩ := runs_metadata hdata hm h₁
    obtain rfl := hm' m' rfl
    split at h₂
    · obtain ⟨-, -, rfl⟩ := runs_ret.mp h₂
      exact .inl same₁
    · next parentDir hparent =>
        -- the source builds both paths from the parent directory
        have hd : parentDir.join m'.originalFileName ∈ destination m' := by
          rw [destination, hparent]
          rfl
        have ht : parentDir.join (m'.originalFileName ++ ".part") ∈ part m' := by
          rw [part, hparent]
          rfl
        obtain ⟨l₃, there, w₂, l₄, h₃, h₄, rfl⟩ | ⟨e, h₃, rfl⟩ := runs_bindA.mp h₂
        · obtain ⟨c, he, rfl⟩ := runs_perform.mp h₃
          replace he : Op.exec (.fs (.tryExists (parentDir.join m'.originalFileName))) c w₁
              = some (.ok there, w₂) := he
          have same₂ : w₂.fs = w.fs := (exec_fs_eq he rfl).trans same₁
          split at h₄
          · -- Something is there: it is only looked at.
            refine .inl ?_
            obtain ⟨l₅, kind, w₃, l₆, h₅, h₆, -⟩ | ⟨e, h₅, -⟩ := runs_bindA.mp h₄
            · obtain ⟨c', he', -⟩ := runs_perform.mp h₅
              have same₃ : w₃.fs = w₂.fs := exec_fs_eq (o := .fs (.metadata _)) he' rfl
              cases kind with
              | dir =>
                  obtain ⟨-, -, rfl⟩ := runs_ret.mp h₆
                  exact same₃.trans same₂
              | file =>
                  obtain ⟨-, -, rfl⟩ := runs_ret.mp h₆
                  exact same₃.trans same₂
            · obtain ⟨c', he', -⟩ := runs_perform.mp h₅
              exact (exec_fs_eq (o := .fs (.metadata _)) he' rfl).trans same₂
          · next absent =>
              have free : w.fs (loc (parentDir.join m'.originalFileName)) = none := by
                obtain ⟨x, hx, -⟩ := exec_fs_ok he (by simp)
                cases hx
                rw [← same₁]
                simpa using absent
              obtain ⟨l₅, u, w₃, l₆, h₅, h₆, -⟩ | ⟨e, h₅, -⟩ := runs_bindA.mp h₄
              · obtain ⟨c', he', -⟩ := runs_perform.mp h₅
                replace he' : Op.exec (.fs (.createFile
                  (parentDir.join (m'.originalFileName ++ ".part")))) c' w₂ = some (.ok u, w₃) := he'
                obtain ⟨x, hx, rfl⟩ := exec_fs_ok he' (by simp)
                simp only [FsOp.run, Option.ite_none_right_eq_some] at hx
                obtain ⟨⟨hdir, -⟩, hx⟩ := hx
                cases hx
                rw [same₂] at hdir
                -- from here on the temporary file is there, and empty
                refine .inr ⟨_, hd, _, ht, free, hdir, _, l₆, ?_, h₆⟩
                show w₂.fs.setBytes _ [] = _
                rw [same₂]
              · obtain ⟨c', he', -⟩ := runs_perform.mp h₅
                obtain ⟨done, rfl⟩ := exec_fs_error (o := .createFile _) he'
                exact .inl same₂
        · obtain ⟨c, he, rfl⟩ := runs_perform.mp h₃
          exact .inl ((exec_fs_eq (o := .fs (.tryExists _)) he rfl).trans same₁)
  · exact .inl (runs_metadata hdata hm h₁).1

end Frame

/-! ### Runs that write nothing -/

section Dry

variable [Platform] {m : FileMetadata} {t d : PathBuf} {w w' : World}
  {l : List (Deed lang Choice)}

omit [Platform] in
theorem setBytes_self {x : Fs} {p : Loc} {bs : Bytes} (h : x.bytes p = some bs) :
    x.setBytes p bs = x := by
  rw [Fs.setBytes, ← file_of_bytes h, Function.update_eq_self]

theorem before_succ (w : World) (c : Nat) : before m w (c + 1) = before m w c + size m w c := by
  rw [before, List.range_succ, List.map_append, List.sum_append, List.map_singleton,
    List.sum_singleton, before]

theorem before_mono (w : World) : Monotone (before m w) :=
  monotone_nat_of_le_succ fun c => by rw [before_succ]; exact Nat.le_add_right _ _

theorem size_of_bytes {c : Nat} {bs : Bytes} (h : w.fs.bytes (chunkLoc m c) = some bs) :
    size m w c = bs.length := by
  rw [size, h, Option.getD_some]

/-- Only the chunk files count. -/
theorem before_congr (h : w'.fs = w.fs) : size m w' = size m w ∧ before m w' = before m w := by
  have sizes : size m w' = size m w := by
    funext c
    rw [size, size, h]
  refine ⟨sizes, ?_⟩
  funext c
  rw [before, before, sizes]

theorem Dry.congr (dry : Dry m w) (h : w'.fs = w.fs) : Dry m w' := by
  obtain ⟨sizes, total⟩ := before_congr (m := m) h
  rw [Dry, sizes, total, h]
  exact dry

omit [Platform] in
/-- Bytes that fit are buffered, and nothing else happens. -/
theorem writeAll_fits {writer : Tokio.BufWriter t} {bs : Bytes} (h : SplitRestore.Fits writer bs) :
    writer.writeAll bs = pure ⟨writer.file, writer.buf ++ bs⟩ := by
  obtain ⟨short, room⟩ := h
  have size : 0 < Tokio.MAX_BUF_SIZE := by decide
  have small : BUF_CAPACITY ≤ Tokio.MAX_BUF_SIZE := by decide
  rw [Tokio.BufWriter.writeAll]
  by_cases hbs : bs = []
  · rw [hbs, chunks_nil size, List.append_nil]
    rfl
  · rw [chunks_of_length_le size hbs (by omega)]
    simp only [Tokio.BufWriter.writePieces, Tokio.BufWriter.write, Tokio.BufWriter.makeRoom]
    rw [if_neg (by omega), pure_bind, if_neg (by omega), pure_bind]

/-- Copying up to a chunk that is missing, where all before it fits into
the buffer. The induction is on the chunks left. -/
theorem copyChunks_dry {count chunk c : Nat} {writer : Tokio.BufWriter t} (hc : chunk ≤ c)
    (hlt : c < chunk + count) (missing : w.fs.bytes (chunkLoc m c) = none)
    (short : ∀ c' < c, size m w c' < BUF_CAPACITY) (room : before m w c ≤ BUF_CAPACITY)
    (hbuf : writer.buf.length = before m w chunk)
    {x : Except FileProcessingError (Tokio.BufWriter t)}
    (h : (copyChunks m count chunk writer).run.Runs Op.exec w l x w') :
    w'.fs = w.fs ∧ ∃ e, x = .error e := by
  induction count generalizing chunk writer w l with
  | zero => omega
  | succ count ih =>
      obtain ⟨l₁, bs, w₁, l₂, h₁, h₂, rfl⟩ | ⟨e, h₁, rfl⟩ := runs_bindA.mp h
      · obtain ⟨ch, he, rfl⟩ := runs_perform.mp h₁
        replace he : Op.exec (.fs (.read (m.chunksDir.join
          (chunkFileName chunk m.chunkFileExtension)))) ch w = some (.ok bs, w₁) := he
        have read : w.fs.bytes (chunkLoc m chunk) = some bs := exec_read he
        have same₁ : w₁.fs = w.fs := exec_fs_eq he rfl
        -- The chunk was read, so it is not the missing one but comes before it.
        have earlier : chunk < c := by
          refine lt_of_le_of_ne hc ?_
          rintro rfl
          rw [missing] at read
          cases read
        have len := size_of_bytes read
        -- With it the buffer holds no more than all chunks before the missing one.
        have next : before m w (chunk + 1) ≤ before m w c := before_mono w earlier
        rw [before_succ, len, ← hbuf] at next
        have fits : SplitRestore.Fits writer bs := ⟨len ▸ short chunk earlier, by omega⟩
        rw [writeAll_fits fits] at h₂
        replace h₂ : (copyChunks m count (chunk + 1) (⟨writer.file, writer.buf ++ bs⟩ :
          Tokio.BufWriter t)).run.Runs Op.exec w₁ l₂ x w' := h₂
        obtain ⟨sizes, total⟩ := before_congr (m := m) same₁
        rw [← same₁] at missing ⊢
        refine ih earlier (by omega) missing (by rwa [sizes]) (by rwa [total]) ?_ h₂
        rw [List.length_append, total, before_succ, hbuf, len]
      · obtain ⟨ch, he, rfl⟩ := runs_perform.mp h₁
        exact ⟨exec_fs_eq (o := .fs (.read _)) he rfl, _, rfl⟩

/-- A dry call leaves all files alone. -/
theorem assemble_dry {x : Except FileProcessingError FileMetadata} (dry : Dry m w)
    (h : (assemble (t := t) m d m.totalChunks 0 .new).run.Runs Op.exec w l x w') :
    w'.fs = w.fs := by
  obtain ⟨c, hc, missing, short, room⟩ := dry
  have copied : ∀ {l : List (Deed lang Choice)} {w' : World}
      {x : Except FileProcessingError (Tokio.BufWriter t)},
      (copyChunks m m.totalChunks 0 .new).run.Runs Op.exec w l x w' →
        w'.fs = w.fs ∧ ∃ e, x = .error e :=
    copyChunks_dry (Nat.zero_le c) (by omega) missing short room rfl
  obtain ⟨l₁, b, w₁, l₂, h₁, -, -⟩ | ⟨e, h₁, -⟩ := runs_bindE.mp h
  · obtain ⟨-, e, he⟩ := copied h₁
    cases he
  · exact (copied h₁).1

end Dry

/-! ### Runs that do harm -/

section Harm

variable [Platform] {m : FileMetadata} {t d : PathBuf} {w w' : World}
  {l : List (Deed lang Choice)} {x : Except FileProcessingError FileMetadata}

/-- The end of a call may fail at once, with a chunk still to be read or
with nothing copied. -/
theorem assemble_stops (w : World) {count chunk : Nat} {writer : Tokio.BufWriter t}
    (h : 0 < count ∨ writer = .new) :
    ∃ l e, (assemble m d count chunk writer).run.Runs Op.exec w l (.error e) w := by
  have err : IoError := ⟨.other, ""⟩
  cases count with
  | zero =>
      -- Nothing is in the buffer to flush, and the rename may fail.
      obtain rfl := h.resolve_left (Nat.lt_irrefl 0)
      have rename : (do (fs (.rename t d)).adapt .io; return m :
          ExceptT FileProcessingError Proc FileMetadata).run.Runs Op.exec w
          [.op (.fs (.rename t d)) (.ioError err 0) (.error err)] (.error (.io err)) w :=
        runs_bindA.mpr (.inr ⟨err, runs_perform.mpr ⟨_, rfl, rfl⟩, rfl⟩)
      have flush : (Tokio.BufWriter.new : Tokio.BufWriter t).flush.run.Runs Op.exec w []
          (.ok ()) w := .ret
      exact ⟨_, _, runs_bindE.mpr (.inl ⟨[], .new, w, _, .ret,
        runs_bindA.mpr (.inl ⟨[], (), w, _, flush, rename, rfl⟩), rfl⟩)⟩
  | succ count =>
      -- The read of the next chunk may fail.
      have read : (copyChunks m (count + 1) chunk writer).run.Runs Op.exec w
          [.op (.fs (.read (m.chunksDir.join (chunkFileName chunk m.chunkFileExtension))))
            (.ioError err 0) (.error err)] (.error (.io err)) w :=
        runs_bindA.mpr (.inr ⟨err, runs_perform.mpr ⟨_, rfl, rfl⟩, rfl⟩)
      exact ⟨_, _, runs_bindE.mpr (.inr ⟨_, read, rfl⟩)⟩

/-- A chunk is copied. -/
theorem assemble_copies {count chunk : Nat} {writer b : Tokio.BufWriter t} {bs : Bytes}
    {w₁ : World} {l₁ : List (Deed lang Choice)} (read : w.fs.bytes (chunkLoc m chunk) = some bs)
    (write : (writer.writeAll bs).run.Runs Op.exec w l₁ (.ok b) w₁)
    (h : (assemble m d count (chunk + 1) b).run.Runs Op.exec w₁ l x w') :
    ∃ l', (assemble m d (count + 1) chunk writer).run.Runs Op.exec w l' x w' := by
  have hread : Op.exec (.fs (.read (m.chunksDir.join
      (chunkFileName chunk m.chunkFileExtension)))) .ok w = some (.ok bs, w) := by
    refine exec_fs_run ?_
    simp only [FsOp.run]
    rw [show w.fs.bytes (loc (m.chunksDir.join (chunkFileName chunk m.chunkFileExtension)))
      = some bs from read]
    rfl
  have step : ∀ {l₁ : List (Deed lang Choice)}
      {y : Except FileProcessingError (Tokio.BufWriter t)} {w₂ : World},
      (copyChunks m count (chunk + 1) b).run.Runs Op.exec w₁ l₁ y w₂ →
        ∃ l₂, (copyChunks m (count + 1) chunk writer).run.Runs Op.exec w l₂ y w₂ :=
    fun h => ⟨_, runs_bindA.mpr (.inl ⟨_, bs, w, _, runs_perform.mpr ⟨.ok, hread, rfl⟩,
      runs_bindA.mpr (.inl ⟨_, b, w₁, _, write, h, rfl⟩), rfl⟩)⟩
  obtain ⟨l₁, b', w₂, l₂, h₁, h₂, rfl⟩ | ⟨e, h₁, rfl⟩ := runs_bindE.mp h
  · obtain ⟨l₃, h₃⟩ := step h₁
    exact ⟨_, runs_bindE.mpr (.inl ⟨l₃, b', w₂, l₂, h₃, h₂, rfl⟩)⟩
  · obtain ⟨l₃, h₃⟩ := step h₁
    exact ⟨_, runs_bindE.mpr (.inr ⟨e, h₃, rfl⟩)⟩

/-- Chunks that fit into the buffer are copied without a trace in the
files. -/
theorem assemble_skips {P : World → Prop} {k count chunk : Nat} {writer : Tokio.BufWriter t}
    (hbuf : writer.buf.length = before m w chunk)
    (there : ∀ c, chunk ≤ c → c < chunk + k → ∃ bs, w.fs.bytes (chunkLoc m c) = some bs ∧
      bs.length < BUF_CAPACITY)
    (room : before m w (chunk + k) ≤ BUF_CAPACITY)
    (h : ∀ buf, buf.length = before m w (chunk + k) → ∃ l x w',
      (assemble m d count (chunk + k) (⟨writer.file, buf⟩ : Tokio.BufWriter t)).run.Runs
        Op.exec w l x w' ∧ P w') :
    ∃ l x w', (assemble m d (k + count) chunk writer).run.Runs Op.exec w l x w' ∧ P w' := by
  -- The chunks up to `chunk + k` go into the buffer, one after the other.
  induction k generalizing chunk writer with
  | zero =>
      rw [Nat.zero_add]
      exact h writer.buf hbuf
  | succ k ih =>
      obtain ⟨bs, read, short⟩ := there chunk (Nat.le_refl _) (by omega)
      have next : before m w (chunk + 1) = writer.buf.length + bs.length := by
        rw [before_succ, size_of_bytes read, hbuf]
      have fits : SplitRestore.Fits writer bs := by
        have := before_mono (m := m) w (show chunk + 1 ≤ chunk + (k + 1) by omega)
        exact ⟨short, by omega⟩
      have shift : chunk + 1 + k = chunk + (k + 1) := by omega
      obtain ⟨l, x, w', run, hP⟩ := @ih (chunk + 1) ⟨writer.file, writer.buf ++ bs⟩
        (by rw [List.length_append, next])
        (fun c h₁ h₂ => there c (by omega) (by omega)) (shift ▸ room) (by rwa [shift])
      have write : (writer.writeAll bs).run.Runs Op.exec w []
          (.ok ⟨writer.file, writer.buf ++ bs⟩) w := by
        rw [writeAll_fits fits]
        exact .ret
      rw [Nat.add_right_comm]
      obtain ⟨l', run'⟩ := assemble_copies read write run
      exact ⟨l', x, w', run', hP⟩

/-- A file that is not empty is emptied. -/
theorem harm_of_nonempty {bs : Bytes} (hbs : bs ≠ []) (w₁ : World)
    (hfs : w₁.fs = w.fs.setBytes (loc t) []) :
    ∃ l x w', (assemble (t := t) m d m.totalChunks 0 .new).run.Runs Op.exec w₁ l x w' ∧
      w'.fs (loc t) ≠ some (.file bs) := by
  obtain ⟨l, e, run⟩ : ∃ l e, (assemble (t := t) m d m.totalChunks 0 .new).run.Runs Op.exec w₁ l
      (.error e) w₁ := assemble_stops w₁ (.inr rfl)
  refine ⟨l, _, w₁, run, ?_⟩
  rw [hfs, Fs.setBytes, Function.update_self]
  intro h
  cases h
  exact hbs rfl

/-- In front of an empty file a writer has written nothing yet. -/
theorem queued_empty (empty : w.fs.bytes (loc t) = some []) (buf : Bytes) :
    SplitRestore.Queued w [] buf (⟨⟨0, none⟩, buf⟩ : Tokio.BufWriter t) w := by
  refine ⟨?_, rfl, rfl⟩
  show w = { w with fs := w.fs.setBytes (loc t) [] }
  rw [setBytes_self empty]

/-- The temporary file becomes the destination, where nothing stands. -/
theorem run_rename {done : Bytes} (empty : w.fs.bytes (loc t) = some [])
    (free : w.fs (loc d) = none) (hdir : w.fs (loc d).dropLast = some .dir)
    (hne : loc t ≠ loc d) :
    (FsOp.rename t d).run (w.fs.setBytes (loc t) done) = some ((),
      Fs.setBytes (Function.update (w.fs.setBytes (loc t) done) (loc t) none) (loc d) done) := by
  have held : (w.fs.setBytes (loc t) done).bytes (loc t) = some done := by
    rw [bytes_setBytes, if_pos rfl]
  simp only [FsOp.run, held]
  refine if_pos ⟨?_, ?_⟩
  -- the temporary file is a file, so it is not the directory of the destination
  · by_cases up : (loc d).dropLast = loc t
    · rw [up] at hdir
      rw [Fs.bytes, hdir] at empty
      cases empty
    · rw [setBytes_of_ne up, hdir]
  · rw [setBytes_of_ne hne.symm, free]
    intro h
    cases h

/-- Where all chunks are there, an empty file becomes the destination. -/
theorem harm_of_all (empty : w.fs.bytes (loc t) = some [])
    (all : ∀ c < m.totalChunks, ∃ bs, w.fs.bytes (chunkLoc m c) = some bs)
    (free : w.fs (loc d) = none) (hdir : w.fs (loc d).dropLast = some .dir)
    (hne : loc t ≠ loc d) :
    ∃ l x w', (assemble (t := t) m d m.totalChunks 0 .new).run.Runs Op.exec w l x w' ∧
      w'.fs (loc t) ≠ some (.file []) := by
  have read : ∀ c f (done : Bytes), c < m.totalChunks → True → ∃ bs, True ∧
      (w.fs.setBytes (loc t) f).bytes
        (loc (m.chunksDir.join (chunkFileName c m.chunkFileExtension))) = some bs := by
    intro c f _ hc _
    rw [bytes_setBytes]
    split
    · exact ⟨f, trivial, rfl⟩
    · obtain ⟨bs, hbs⟩ := all c hc
      exact ⟨bs, trivial, hbs⟩
  -- No operation need fail: the chunks are copied, flushed and renamed.
  have whole : SplitRestore.Runs (assemble (t := t) m d m.totalChunks 0 .new).run
      (fun _ w' => w'.fs (loc t) ≠ some (.file [])) w := by
    refine total_seqE (SplitRestore.copyChunks_runs (D := fun _ _ => True) m.totalChunks read
      m.totalChunks (Nat.zero_add _) trivial (queued_empty empty [])) ?_
    rintro b w₁ ⟨f, done, -, hb⟩
    refine total_seqA (SplitRestore.tokioFlush_runs hb) ?_
    rintro _ w₂ rfl
    refine total_seqA (B := fun _ w' => w'.fs (loc t) = none)
      (SplitRestore.runs_fs rfl (run_rename empty free hdir hne) ⟨_, rfl, ?_⟩) fun _ w' gone => ?_
    · show Fs.setBytes (Function.update _ (loc t) none) (loc d) done (loc t) = none
      rw [setBytes_of_ne hne, Function.update_self]
    · show w'.fs (loc t) ≠ _
      rw [gone]
      intro h
      cases h
  obtain ⟨l, x, w', run, -, gone⟩ := whole.exists_runs
  exact ⟨l, x, w', run, gone⟩

/-- Of chunks that do not fit into the buffer there is a first one that does
not. -/
theorem exists_overflow {c : Nat}
    (full : ¬ ((∀ c' < c, size m w c' < BUF_CAPACITY) ∧ before m w c ≤ BUF_CAPACITY)) :
    ∃ k < c, (∀ j < k, size m w j < BUF_CAPACITY) ∧ before m w k ≤ BUF_CAPACITY ∧
      ¬ (size m w k < BUF_CAPACITY ∧ before m w (k + 1) ≤ BUF_CAPACITY) := by
  have found : ∃ k, k < c ∧ ¬ (size m w k < BUF_CAPACITY ∧ before m w (k + 1) ≤ BUF_CAPACITY) := by
    by_contra none
    have fits : ∀ k < c, size m w k < BUF_CAPACITY ∧ before m w (k + 1) ≤ BUF_CAPACITY :=
      fun k hk => by_contra fun h => none ⟨k, hk, h⟩
    refine full ⟨fun k hk => (fits k hk).1, ?_⟩
    cases c with
    | zero => exact Nat.zero_le _
    | succ c => exact (fits c (Nat.lt_succ_self c)).2
  obtain ⟨hk, hfull⟩ := Nat.find_spec found
  have earlier : ∀ j < Nat.find found, size m w j < BUF_CAPACITY ∧
      before m w (j + 1) ≤ BUF_CAPACITY := by
    intro j hj
    by_contra h
    exact Nat.find_min found hj ⟨hj.trans hk, h⟩
  refine ⟨Nat.find found, hk, fun j hj => (earlier j hj).1, ?_, hfull⟩
  cases hn : Nat.find found with
  | zero => exact Nat.zero_le _
  | succ k => exact (earlier k (by omega)).2

/-- Chunks that do not fit into the buffer get to the file. -/
theorem harm_of_full (empty : w.fs.bytes (loc t) = some []) {c : Nat} (hc : c < m.totalChunks)
    (there : ∀ c' < c, ∃ bs, w.fs.bytes (chunkLoc m c') = some bs)
    (full : ¬ ((∀ c' < c, size m w c' < BUF_CAPACITY) ∧ before m w c ≤ BUF_CAPACITY)) :
    ∃ l x w', (assemble (t := t) m d m.totalChunks 0 .new).run.Runs Op.exec w l x w' ∧
      w'.fs (loc t) ≠ some (.file []) := by
  obtain ⟨k, hk, short, room, hfull⟩ := exists_overflow full
  obtain ⟨bs, hbs⟩ := there k hk
  obtain ⟨n, hn⟩ : ∃ n, m.totalChunks = k + (n + 1) := ⟨m.totalChunks - k - 1, by omega⟩
  rw [hn]
  have nothing : (Tokio.BufWriter.new : Tokio.BufWriter t).buf.length = before m w 0 := rfl
  refine assemble_skips nothing (fun j _ hj => ?_) ?_ fun buf hbuf => ?_
  · obtain ⟨bs, hbs⟩ := there j (by omega)
    exact ⟨bs, hbs, size_of_bytes hbs ▸ short j (by omega)⟩
  · rw [Nat.zero_add]
    exact room
  · rw [Nat.zero_add] at hbuf ⊢
    rw [before_succ, size_of_bytes hbs, ← hbuf] at hfull
    -- The chunk goes past the buffer into the file, and the call may stop there.
    obtain ⟨l₁, r, w₁, write, -, written⟩ :=
      (SplitRestore.tokioWriteAll_runs (queued_empty empty buf)).exists_runs
    obtain ⟨b, rfl, f, -, hb, grown⟩ : ∃ b, r = .ok b ∧ ∃ f, [] <+: f ∧
      SplitRestore.Queued w f (buf ++ bs) b w₁ ∧ (bs ≠ [] → _ → f ≠ []) := written
    -- An empty chunk would have fitted.
    have some : bs ≠ [] := by
      rintro rfl
      exact hfull ⟨by decide, by rw [hbuf]; exact room⟩
    obtain ⟨l₂, e, stop⟩ : ∃ l e, (assemble m d n (k + 1) b).run.Runs Op.exec w₁ l (.error e) w₁ :=
      assemble_stops w₁ (.inl (by omega))
    obtain ⟨l₃, run⟩ := assemble_copies hbs write stop
    refine ⟨l₃, _, _, run, ?_⟩
    rw [hb.world]
    show Fs.setBytes w.fs (loc t) f (loc t) ≠ _
    rw [Fs.setBytes, Function.update_self]
    intro h
    cases h
    exact grown some hfull rfl

/-- An empty file gets some bytes, or becomes the destination. -/
theorem harm_of_empty (empty : w.fs.bytes (loc t) = some []) (dry : ¬ Dry m w)
    (free : w.fs (loc d) = none) (hdir : w.fs (loc d).dropLast = some .dir)
    (hne : loc t ≠ loc d) :
    ∃ l x w', (assemble (t := t) m d m.totalChunks 0 .new).run.Runs Op.exec w l x w' ∧
      w'.fs (loc t) ≠ some (.file []) := by
  by_cases all : ∀ c < m.totalChunks, ∃ bs, w.fs.bytes (chunkLoc m c) = some bs
  · exact harm_of_all empty all free hdir hne
  · -- the first chunk that is missing
    have found : ∃ c, c < m.totalChunks ∧ w.fs.bytes (chunkLoc m c) = none := by
      by_contra none
      refine all fun c hc => Option.ne_none_iff_exists'.mp fun h => none ⟨c, hc, h⟩
    obtain ⟨hlt, missing⟩ := Nat.find_spec found
    have there : ∀ c' < Nat.find found, ∃ bs, w.fs.bytes (chunkLoc m c') = some bs := by
      intro c' hc'
      refine Option.ne_none_iff_exists'.mp fun h => ?_
      exact Nat.find_min found hc' ⟨hc'.trans hlt, h⟩
    exact harm_of_full empty hlt there fun fits => dry ⟨_, hlt, missing, fits⟩

end Harm

/-! ### The frame -/

section Result

variable [Platform] {m : FileMetadata} {t d : PathBuf} {w w' : World}
  {l : List (Deed lang Choice)} {x : Except FileProcessingError FileMetadata}
  {r : PendingDownloadRecord} {data : Bytes}

omit [Platform] in
/-- The two files of a download are named from one directory. -/
theorem destination_part (hd : d ∈ destination m) (ht : t ∈ part m) :
    ∃ p, m.chunksDir.parent = some p ∧ d = p.join m.originalFileName ∧
      t = p.join (m.originalFileName ++ ".part") := by
  obtain ⟨p, hp, rfl⟩ := Option.map_eq_some_iff.mp hd
  obtain ⟨q, hq, rfl⟩ := Option.map_eq_some_iff.mp ht
  cases hp.symm.trans hq
  exact ⟨p, hp, rfl, rfl⟩

/-- They stand side by side under different names. -/
theorem loc_destination_part (hname : PathBuf.IsNormal m.originalFileName)
    (hd : d ∈ destination m) (ht : t ∈ part m) :
    (loc d).dropLast = (loc t).dropLast ∧ loc t ≠ loc d := by
  obtain ⟨p, -, rfl, rfl⟩ := destination_part hd ht
  rw [loc_join hname, loc_join (isNormal_part hname), List.dropLast_concat, List.dropLast_concat]
  refine ⟨rfl, fun h => ?_⟩
  have names := List.singleton_injective (List.append_cancel_left h)
  have length := congrArg String.length names
  rw [String.length_append] at length
  have : ".part".length = 5 := rfl
  omega

/-- A call that gets to write is a run. -/
theorem restores_of_assemble (hdata : w.fs.bytes (loc (metadataPath r.chunksDir)) = some data)
    (hm : Platform.decodeMetadata data = .ok m) (hd : d ∈ destination m) (ht : t ∈ part m)
    (free : w.fs (loc d) = none) (hdir : w.fs (loc t).dropLast = some .dir) {bs : Bytes}
    (hfile : w.fs (loc t) = some (.file bs))
    (h : (assemble (t := t) m d m.totalChunks 0 .new).run.Runs Op.exec
      { w with fs := w.fs.setBytes (loc t) [] } l x w') :
    ∃ l', Restores r w l' x w' := by
  obtain ⟨p, hp, rfl, rfl⟩ := destination_part hd ht
  have read : Op.exec (.fs (.read (metadataPath r.chunksDir))) .ok w = some (.ok data, w) :=
    exec_fs_run (by simp only [FsOp.run, hdata, Option.map_some])
  have metadata : (readMetadata r.chunksDir).run.Runs Op.exec w
      [.op (.fs (.read (metadataPath r.chunksDir))) .ok (.ok data)] (.ok m) w := by
    refine runs_bindA.mpr (.inl ⟨_, data, w, [], runs_perform.mpr ⟨_, read, rfl⟩, ?_, rfl⟩)
    rw [hm]
    exact .ret
  have look : Op.exec (.fs (.tryExists (p.join m.originalFileName))) .ok w
      = some (.ok false, w) :=
    exec_fs_run (by simp only [FsOp.run, free, Option.isSome_none])
  have create : Op.exec (.fs (.createFile (p.join (m.originalFileName ++ ".part")))) .ok w
      = some (.ok (),
        { w with fs := w.fs.setBytes (loc (p.join (m.originalFileName ++ ".part"))) [] }) := by
    refine exec_fs_run ?_
    simp only [FsOp.run]
    rw [if_pos ⟨hdir, by rw [hfile]; exact fun h => by cases h⟩]
  have opened : ∃ l', (do
      (fs (.createFile (p.join (m.originalFileName ++ ".part")))).adapt .io
      assemble (t := p.join (m.originalFileName ++ ".part")) m (p.join m.originalFileName)
        m.totalChunks 0 .new : ExceptT FileProcessingError Proc FileMetadata).run.Runs
        Op.exec w l' x w' :=
    ⟨_, runs_bindA.mpr (.inl ⟨_, (), _, l, runs_perform.mpr ⟨_, create, rfl⟩, h, rfl⟩)⟩
  obtain ⟨l₁, h₁⟩ := opened
  refine ⟨_, runs_bindE.mpr (.inl ⟨_, m, w, .op (.fs (.tryExists
    (p.join m.originalFileName))) .ok (.ok false) :: l₁, metadata, ?_, rfl⟩)⟩
  rw [hp]
  exact runs_bindA.mpr (.inl ⟨_, false, w, l₁, runs_perform.mpr ⟨_, look, rfl⟩, h₁, rfl⟩)

/-- What a run does to the files. -/
theorem harmless_of_runs (hdata : w.fs.bytes (loc (metadataPath r.chunksDir)) = some data)
    (hm : Platform.decodeMetadata data = .ok m) {leftover : Prop}
    (h : Restores r w l x w') (spared : leftover ∨ Spared m w) : Harmless m leftover w w' := by
  obtain same | ⟨d, hd, t, ht, free, hdir, w₁, l₁, hw₁, run⟩ := runs_restore hdata hm h
  · exact ⟨fun l _ _ _ => by rw [same], fun l hl hl' => absurd hl (by rwa [← same])⟩
  · -- Only the two files of the call itself are in question.
    have others : ∀ l, l ≠ loc t → l ≠ loc d → w'.fs l = w.fs l := by
      intro l hlt hld
      rw [assemble_fs_apply run hlt hld, hw₁, setBytes_of_ne hlt]
    refine ⟨fun l bs hl hleft => ?_, fun l hl hl' => ?_⟩
    · by_cases hld : l = loc d
      · rw [hld, free] at hl
        cases hl
      · by_cases hlt : l = loc t
        · obtain own | spared := spared
          · exact absurd hlt (hleft own t ht)
          · -- An empty file in the way of a dry call.
            subst hlt
            obtain ⟨rfl, dry⟩ := spared d hd t ht free hdir bs hl
            have empty : w.fs.bytes (loc t) = some [] := by rw [Fs.bytes, hl]
            rw [setBytes_self empty] at hw₁
            rw [assemble_dry (dry.congr hw₁) run, hw₁]
        · exact others l hlt hld
    · by_cases hlt : l = loc t
      · exact ⟨t, .inl ht, hlt⟩
      · by_cases hld : l = loc d
        · exact ⟨d, .inr hd, hld⟩
        · exact absurd (others l hlt hld ▸ hl) hl'

/-- Exactly when the file at the place of the temporary file is left over
from this download, or no other file is in the way, no run of the call
does harm to another file. -/
theorem restore_harmless (hdata : w.fs.bytes (loc (metadataPath r.chunksDir)) = some data)
    (hm : Platform.decodeMetadata data = .ok m) (hname : PathBuf.IsNormal m.originalFileName)
    (leftover : Prop) :
    (∀ l x w', Restores r w l x w' → Harmless m leftover w w') ↔ leftover ∨ Spared m w := by
  constructor
  · intro h
    by_contra hnot
    obtain ⟨hleft, hspared⟩ := not_or.mp hnot
    apply hspared
    intro d hd t ht free hdir bs hfile
    obtain ⟨side, hne⟩ := loc_destination_part hname hd ht
    -- A run that gets to write has to give the file back as it was.
    have harm : ∀ {l x w'}, (assemble (t := t) m d m.totalChunks 0 .new).run.Runs Op.exec
        { w with fs := w.fs.setBytes (loc t) [] } l x w' → w'.fs (loc t) = some (.file bs) := by
      intro l x w' run
      obtain ⟨l', hr⟩ := restores_of_assemble hdata hm hd ht free hdir hfile run
      rw [(h l' x w' hr).kept (loc t) bs hfile fun own => absurd own hleft, hfile]
    -- A file with bytes is emptied at once, and the run may stop there.
    have hempty : bs = [] := by
      by_contra hbs
      obtain ⟨l, x, w', run, changed⟩ := harm_of_nonempty (m := m) (d := d) hbs
        { w with fs := w.fs.setBytes (loc t) [] } rfl
      exact changed (harm run)
    subst hempty
    refine ⟨rfl, ?_⟩
    -- An empty one gets bytes or is renamed, unless the call is dry.
    by_contra dry
    have empty : w.fs.bytes (loc t) = some [] := by rw [Fs.bytes, hfile]
    rw [setBytes_self empty] at harm
    obtain ⟨l, x, w', run, changed⟩ := harm_of_empty empty dry free (by rwa [side]) hne
    exact changed (harm run)
  · exact fun spared l x w' h => harmless_of_runs hdata hm h spared

end Result

section Example

open Reference

attribute [local instance] platform

/-- A download of one chunk into `/d`. -/
def oneChunk : FileMetadata := { oneByte with chunksDir := ⟨"/d/f_chunks"⟩ }

/-- Its record. -/
def oneRecord : PendingDownloadRecord := pendingDownload oneChunk

/-- A node that has downloaded the chunk, with the file `/d/f.part` of
somebody else. -/
def downloaded : World :=
  newWorld (files [([], .dir), (["d"], .dir), (["d", "f.part"], .file [1, 2, 3]),
    (["d", "f_chunks"], .dir), (["d", "f_chunks", ".metadata"], .file oneChunk.toBytes),
    (["d", "f_chunks", "0.chunk"], .file [7])]) 1

/-- The download of `f` ends well and the file `f.part` is gone. -/
theorem part_file_lost :
    ∃ l x w', Restores oneRecord downloaded l x w' ∧ x = .ok oneChunk ∧
      w'.fs ["d", "f.part"] = none ∧ ¬ Harmless oneChunk False downloaded w' := by
  have run : ∃ l x w', Restores oneRecord downloaded l x w' ∧
      (x.toOption = some oneChunk ∧ w'.fs ["d", "f.part"] = none) :=
    exists_runs_of_play [.choice .ok, .choice .ok, .choice .ok, .choice .ok, .choice .ok,
      .choice .ok] (by decide +kernel)
  obtain ⟨l, x, w', h, hx, gone⟩ := run
  refine ⟨l, x, w', h, ?_, gone, fun harmless => ?_⟩
  · cases x with
    | ok m => exact congrArg Except.ok (Option.some.inj hx)
    | error e => cases hx
  · have there : downloaded.fs ["d", "f.part"] = some (.file [1, 2, 3]) := rfl
    have kept := harmless.kept _ _ there False.elim
    rw [gone, there] at kept
    cases kept

/-- A download of two chunks into `/d`. -/
def halfChunks : FileMetadata := { twoChunks with chunksDir := ⟨"/d/f_chunks"⟩ }

/-- A node that has only the first chunk, with an empty file `/d/f.part` of
somebody else. -/
def halfDownloaded : World :=
  newWorld (files [([], .dir), (["d"], .dir), (["d", "f.part"], .file []),
    (["d", "f_chunks"], .dir), (["d", "f_chunks", ".metadata"], .file halfChunks.toBytes),
    (["d", "f_chunks", "0.chunk"], .file [7])]) 1

/-- The first chunk stays in the buffer and the second is missing: the
empty file is left alone by every run. -/
theorem restore_harmless_halfChunks :
    Spared halfChunks halfDownloaded ∧
      ∀ l x w', Restores (pendingDownload halfChunks) halfDownloaded l x w' →
        Harmless halfChunks False halfDownloaded w' := by
  have metadata : halfDownloaded.fs.bytes
      (loc (metadataPath (pendingDownload halfChunks).chunksDir)) = some halfChunks.toBytes := by
    have place : loc (metadataPath (pendingDownload halfChunks).chunksDir)
        = ["d", "f_chunks", ".metadata"] := by decide
    rw [place]
    rfl
  have dry : Dry halfChunks halfDownloaded := ⟨1, by decide, by decide, by decide, by decide⟩
  have spared : Spared halfChunks halfDownloaded := by
    intro d hd t ht _ _ bs hfile
    have place : loc t = ["d", "f.part"] := by
      cases ht
      decide
    rw [place] at hfile
    cases hfile
    exact ⟨rfl, dry⟩
  exact ⟨spared, (restore_harmless metadata (platform.decode_toBytes _) (by decide) False).mpr
    (.inr spared)⟩

end Example

end RustDfs.RestoreFrame
