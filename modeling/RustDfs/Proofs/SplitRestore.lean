import RustDfs.Conc.Sequential
import RustDfs.Lib.Chunks
import RustDfs.Proofs.ChunkProofs
import RustDfs.Proofs.Effects
import RustDfs.Proofs.Places

/-!
# `RustDfs.Proofs.SplitRestore`: a file taken apart and put together

`process_file` cuts a file into chunk files and `restore_original_file`
joins them. `split_restore` says that the second undoes the first for
every content and every way the reads come up short, when no operation
on files fails.

The loop of `split` keeps three numbers in step: the chunks written, the
leaves collected and the bytes read. Its invariant is that the bytes read
are the first chunks of the content. `copyChunks` runs through the same
chunks; its invariant is that what it has written and what is still in
its buffer are together the first chunks.
-/

set_option autoImplicit false

namespace RustDfs.SplitRestore

open Lib Conc

section Proof

variable [Platform]

/-- No operation on files or on the database fails. -/
def NoError : (o : Op) → o.Ans → Prop
  | .fs _, r => ∃ v, r = .ok v
  | .store _, r => ∃ v, r = .ok v
  | _, _ => True

/-- Run alone from a world, without errors, the program ends with `Q`. -/
abbrev Runs {α : Type} (p : Proc α) (Q : α → World → Prop) (w : World) : Prop :=
  p.Total (L := lang) (fun o c w => Op.exec o c w) NoError Q w

/-- A read from a handle, which may come up short. -/
def reads : FsOp → Bool
  | .readAt .. => true
  | _ => false

/-- An operation on files other than a read from a handle. -/
theorem runs_fs {o : FsOp} {w : World} {v : o.Val} {x : Fs}
    {Q : Except IoError o.Val → World → Prop} (hr : reads o = false)
    (h : o.run w.fs = some (v, x)) (hQ : Q (.ok v) { w with fs := x }) : Runs (fs o).run Q w := by
  refine Prog.total_perform (L := lang) ⟨.ok, .ok v, { w with fs := x }, ?_, v, rfl⟩ ?_
  · show (o.exec .ok w.fs).map _ = _
    rw [FsOp.exec, h]
    rfl
  · intro c a w' he ha
    obtain ⟨⟨a, y⟩, hx, e⟩ := Option.map_eq_some_iff.mp he
    cases e
    obtain ⟨u, rfl⟩ := ha
    cases c with
    | ok =>
        rw [FsOp.exec, h] at hx
        cases hx
        exact hQ
    | short n =>
        cases o with
        | readAt p offset count => cases hr
        | _ => cases hx
    | ioError e done => cases hx
    | _ => cases hx

/-- A read from a handle returns some of what is there, but something. -/
theorem runs_readAt {p : PathBuf} {offset count : Nat} {bs : Bytes} {w : World}
    {Q : Except IoError Bytes → World → Prop} (hb : w.fs.bytes (loc p) = some bs)
    (hc : 0 < count) (hQ : ∀ k, 0 < k → k ≤ count → Q (.ok ((bs.drop offset).take k)) w) :
    Runs (fs (.readAt p offset count)).run Q w := by
  refine Prog.total_perform (L := lang) ⟨.ok, .ok ((bs.drop offset).take count), w, ?_, _, rfl⟩ ?_
  · show (FsOp.exec _ .ok w.fs).map _ = _
    rw [FsOp.exec, FsOp.run, hb]
    rfl
  · intro c a w' he ha
    obtain ⟨⟨a, y⟩, hx, e⟩ := Option.map_eq_some_iff.mp he
    cases e
    obtain ⟨u, rfl⟩ := ha
    cases c with
    | ok =>
        rw [FsOp.exec, FsOp.run, hb] at hx
        cases hx
        exact hQ count hc (Nat.le_refl _)
    | short n =>
        simp only [FsOp.exec, hb] at hx
        split at hx
        · cases hx
          exact hQ (min n count) (by omega) (Nat.min_le_right _ _)
        · cases hx
    | ioError e done => cases hx
    | _ => cases hx

/-! ### Files -/

/-- The world with other bytes in the file at `l`. -/
abbrev setFile (w : World) (l : Loc) (bs : Bytes) : World := { w with fs := w.fs.setBytes l bs }

/-- The world with the directory at `l`. -/
abbrev makeDir (w : World) (l : Loc) : World := { w with fs := w.fs.mkDirs l l.length }

omit [Platform] in
/-- Where something stands, no directory is made. -/
theorem mkDirs_of_some {x : Fs} {l : Loc} {node : Node} (h : x l = some node) (d : Loc) (n : Nat) :
    x.mkDirs d n l = some node := by
  have taken : ¬ (l <+: d ∧ l.length ≤ n ∧ x l = none) := by
    rw [h]
    nofun
  exact (if_neg taken).trans h

omit [Platform] in
/-- The directory is there when no file stands in its place. -/
theorem mkDirs_self {x : Fs} {l : Loc} (h : (x.bytes l).isNone) :
    x.mkDirs l l.length l = some .dir := by
  cases hl : x l with
  | none => exact if_pos ⟨List.prefix_rfl, Nat.le_refl _, hl⟩
  | some node =>
      rw [mkDirs_of_some hl]
      cases node with
      | dir => rfl
      | file bs =>
          rw [Fs.bytes, hl] at h
          cases h

omit [Platform] in
/-- No directory is made below. -/
theorem mkDirs_of_not_below (x : Fs) {l d : Loc} (h : ¬ l <+: d) (n : Nat) :
    x.mkDirs d n l = x l :=
  if_neg fun h' => h h'.1

/-- `tokio::fs::write` leaves the file with these bytes. -/
theorem writeFile_runs {p : PathBuf} (bs : Bytes) {w : World} (h : Writable w.fs (loc p)) :
    Runs (writeFile p bs).run
      (fun r w' => ∃ u, r = .ok u ∧ w' = setFile w (loc p) bs) w := by
  have create : (FsOp.createFile p).run w.fs = some ((), w.fs.setBytes (loc p) []) := if_pos h
  have write : (FsOp.writeAt p 0 bs).run (w.fs.setBytes (loc p) [])
      = some ((), w.fs.setBytes (loc p) bs) := by
    have old : (w.fs.setBytes (loc p) []).bytes (loc p) = some [] := by
      rw [bytes_setBytes, if_pos rfl]
    rw [FsOp.run, old, Option.map_some, setBytes_setBytes]
    exact congrArg (fun bs => some ((), Fs.setBytes w.fs (loc p) bs)) (overwrite_end [] bs)
  refine Prog.total_seqE (B := fun _ w' => w' = setFile w (loc p) [])
    (runs_fs rfl create ⟨(), rfl, rfl⟩) ?_
  rintro _ w' rfl
  exact runs_fs rfl write ⟨(), rfl, rfl⟩

/-! ### Splitting -/

/-- The buffer is filled with the next chunk, however the reads come up
short. -/
theorem fillBuffer_runs {path : PathBuf} {content : Bytes} {w : World} {offset : Nat}
    (hb : w.fs.bytes (loc path) = some content) (fuel : Nat) {filled : Bytes}
    (hf : filled <+: content.drop offset) (hl : filled.length ≤ CHUNK_SIZE)
    (hfuel : content.length - (offset + filled.length) < fuel) :
    Runs (fillBuffer path offset fuel filled).run
      (fun r w' => ∃ bs, r = .ok bs ∧ bs = (content.drop offset).take CHUNK_SIZE ∧ w' = w) w := by
  induction fuel generalizing filled with
  | zero => omega
  | succ fuel ih =>
      have eq_take := List.prefix_iff_eq_take.mp hf
      rw [fillBuffer]
      by_cases hlt : filled.length < CHUNK_SIZE
      · rw [if_pos hlt]
        refine Prog.total_seqA (B := fun bs w' => w' = w ∧ ∃ k, 0 < k ∧
          filled.length + k ≤ CHUNK_SIZE ∧
          bs = (content.drop (offset + filled.length)).take k) ?_ ?_
        · refine runs_readAt hb (by omega) fun k hk hle => ?_
          exact ⟨_, rfl, rfl, k, hk, by omega, rfl⟩
        · rintro bs w' ⟨rfl, k, hk, hle, hbs⟩
          have length : bs.length = min k (content.length - (offset + filled.length)) := by
            rw [hbs, List.length_take, List.length_drop]
          by_cases hend : bs = []
          · -- The end of the file: nothing is left to read.
            rw [if_pos hend]
            rw [hend, List.length_nil] at length
            have rest : (content.drop offset).length ≤ filled.length := by
              rw [List.length_drop]
              omega
            rw [List.take_of_length_le rest] at eq_take
            exact ⟨_, rfl, by rw [List.take_of_length_le (by omega), ← eq_take], rfl⟩
          · rw [if_neg hend]
            have some : 0 < bs.length := List.length_pos_of_ne_nil hend
            have joined : filled ++ bs = (content.drop offset).take (filled.length + k) := by
              rw [List.take_add, ← eq_take, List.drop_drop, hbs]
            refine ih ?_ ?_ ?_
            · rw [joined]
              exact List.take_prefix _ _
            · rw [List.length_append]
              omega
            · rw [List.length_append]
              omega
      · rw [if_neg hlt]
        have full : filled.length = CHUNK_SIZE := by omega
        exact ⟨_, rfl, by rw [← full, ← eq_take], rfl⟩

/-- The place of chunk `i` in a chunk directory of the node. -/
def chunkPlace (dir : PathBuf) (i : Nat) : Loc :=
  loc dir ++ [chunkFileName i FILE_CHUNK_EXTENSION]

theorem loc_chunkFile (dir : PathBuf) (i : Nat) :
    loc (dir.join (chunkFileName i FILE_CHUNK_EXTENSION)) = chunkPlace dir i :=
  loc_join (isNormal_chunkFileName i (by decide)) dir

theorem metadata_ne_chunkPlace (dir : PathBuf) (i : Nat) :
    loc (metadataPath dir) ≠ chunkPlace dir i := by
  intro h
  rw [loc_metadata] at h
  exact chunkFileName_ne_metadata i _ (List.cons.inj (List.append_cancel_left h)).1.symm

theorem chunkPlace_inj {dir : PathBuf} {i j : Nat} (h : chunkPlace dir i = chunkPlace dir j) :
    i = j :=
  chunkFileName_inj (List.cons.inj (List.append_cancel_left h)).1

/-- The files in `dir` while a content is being split: the first `n`
chunks are written and nothing but chunk files has changed since `w₀`. -/
structure Written (dir : PathBuf) (content : Bytes) (w₀ : World) (n : Nat) (w : World) : Prop where
  files_only : w = { w₀ with fs := w.fs }
  others : ∀ l, (∀ i, l ≠ chunkPlace dir i) → w.fs l = w₀.fs l
  noDir : ∀ i, w.fs (chunkPlace dir i) ≠ some .dir
  written : ∀ i < n, w.fs.bytes (chunkPlace dir i) = some (chunk CHUNK_SIZE content i)

/-- A chunk directory as `split` finds it. -/
structure SplitDir (path dir : PathBuf) (content : Bytes) (w : World) : Prop where
  content : w.fs.bytes (loc path) = some content
  apart : ∀ i, loc path ≠ chunkPlace dir i
  isDir : w.fs (loc dir) = some .dir
  noDir : ∀ i, w.fs (chunkPlace dir i) ≠ some .dir

section Split

variable {path dir : PathBuf} {content : Bytes} {w₀ w : World} {n : Nat}

theorem dir_ne_chunkPlace (dir : PathBuf) (i : Nat) : loc dir ≠ chunkPlace dir i := by
  intro h
  have := congrArg List.length h
  simp [chunkPlace] at this

theorem Written.zero (h : SplitDir path dir content w) : Written dir content w 0 w where
  files_only := rfl
  others _ _ := rfl
  noDir := h.noDir
  written _ hi := absurd hi (Nat.not_lt_zero _)

/-- One chunk more. -/
theorem Written.succ (h : Written dir content w₀ n w) :
    Written dir content w₀ (n + 1)
      (setFile w (chunkPlace dir n) (chunk CHUNK_SIZE content n)) where
  files_only := by
    rw [h.files_only]
  others l hl := by
    show w.fs.setBytes _ _ l = _
    rw [Fs.setBytes, Function.update_of_ne (hl n)]
    exact h.others l hl
  noDir i := by
    show w.fs.setBytes _ _ _ ≠ _
    by_cases hi : chunkPlace dir i = chunkPlace dir n
    · rw [Fs.setBytes, hi, Function.update_self]
      intro h
      cases h
    · rw [Fs.setBytes, Function.update_of_ne hi]
      exact h.noDir i
  written i hi := by
    show (w.fs.setBytes _ _).bytes _ = _
    rw [bytes_setBytes]
    by_cases hn : i = n
    · rw [hn, if_pos rfl]
    · rw [if_neg fun he => hn (chunkPlace_inj he)]
      exact h.written i (by omega)

/-- The content is still there. -/
theorem Written.content_eq (hd : SplitDir path dir content w₀) (h : Written dir content w₀ n w) :
    w.fs.bytes (loc path) = some content := by
  rw [← hd.content, Fs.bytes, Fs.bytes, h.others _ hd.apart]

theorem Written.writable (hd : SplitDir path dir content w₀) (h : Written dir content w₀ n w)
    (i : Nat) : Writable w.fs (chunkPlace dir i) := by
  refine ⟨?_, h.noDir i⟩
  rw [chunkPlace, List.dropLast_concat, h.others _ (dir_ne_chunkPlace dir)]
  exact hd.isDir

omit [Platform] in
/-- Chunk `n` starts where the chunks before it end. -/
theorem drop_chunks (content : Bytes) (n : Nat) :
    (content.drop (content.take (n * CHUNK_SIZE)).length).take CHUNK_SIZE
      = chunk CHUNK_SIZE content n := by
  rw [chunk, List.length_take]
  obtain h | h := Nat.le_total (n * CHUNK_SIZE) content.length
  · rw [Nat.min_eq_left h]
  · rw [Nat.min_eq_right h, List.drop_length, List.drop_eq_nil_of_le h]

/-- From any point on, `split` writes the chunks that are missing and
adds their leaves. -/
theorem split_runs (hd : SplitDir path dir content w₀) (fuel : Nat) {offset : Nat}
    {leaves : List Hash}
    (hleaves : leaves = (List.range n).map fun i => Platform.sha256 (chunk CHUNK_SIZE content i))
    (hoffset : offset = (content.take (n * CHUNK_SIZE)).length)
    (hn : n ≤ chunkCount CHUNK_SIZE content) (hfuel : content.length - offset < fuel)
    (h : Written dir content w₀ n w) :
    Runs (split path dir fuel offset leaves).run
      (fun r w' => ∃ ls, r = .ok ls ∧ ls = ChunkProofs.leaves (chunks CHUNK_SIZE content) ∧
        Written dir content w₀ (chunkCount CHUNK_SIZE content) w') w := by
  have size : 0 < CHUNK_SIZE := by decide
  have fewer : ∀ {length offset k fuel : Nat}, length - offset < fuel + 1 → 0 < k →
      offset < length → length - (offset + k) < fuel := by omega
  -- on the passes of the loop: each starts with `n` chunks written
  induction fuel generalizing n offset leaves w with
  | zero => omega
  | succ fuel ih =>
      -- fill the buffer with the next chunk
      rw [split]
      refine Prog.total_seqE (B := fun bs w' => bs = chunk CHUNK_SIZE content n ∧ w' = w) ?_ ?_
      · refine Prog.total_mono ?_ (fillBuffer_runs (h.content_eq hd) (fuel + 1) List.nil_prefix
          (Nat.zero_le _) (by simpa using hfuel))
        rintro r w' ⟨bs, rfl, hbs, rfl⟩
        exact ⟨bs, rfl, by rw [hbs, hoffset, drop_chunks], rfl⟩
      · rintro bytes w' ⟨rfl, rfl⟩
        by_cases hend : chunk CHUNK_SIZE content n = []
        · -- Every chunk has been written.
          rw [if_pos hend]
          have last : n = chunkCount CHUNK_SIZE content :=
            Nat.le_antisymm hn ((chunk_eq_nil size n).mp hend)
          refine ⟨leaves, rfl, ?_, last ▸ h⟩
          rw [hleaves, ChunkProofs.leaves, chunks, List.map_map, last]
          rfl
        · rw [if_neg hend]
          have more : n < chunkCount CHUNK_SIZE content :=
            Nat.lt_of_not_le fun hle => hend ((chunk_eq_nil size n).mpr hle)
          have length : leaves.length = n := by rw [hleaves, List.length_map, List.length_range]
          have place : loc (dir.join (chunkFileName leaves.length FILE_CHUNK_EXTENSION))
              = chunkPlace dir n := by rw [length, loc_chunkFile]
          refine Prog.total_seqA (B := fun _ w' => Written dir content w₀ (n + 1) w') ?_ ?_
          · refine Prog.total_mono ?_ (writeFile_runs (chunk CHUNK_SIZE content n)
              (by rw [place]; exact h.writable hd n))
            rintro r w'' ⟨u, rfl, rfl⟩
            rw [place]
            exact ⟨u, rfl, h.succ⟩
          · intro _ w'' h''
            have start : n * CHUNK_SIZE < content.length := (lt_chunkCount size n).mp more
            have next : offset + (chunk CHUNK_SIZE content n).length
                = (content.take ((n + 1) * CHUNK_SIZE)).length := by
              rw [hoffset, ← take_append_chunk, List.length_append]
            have grown : 0 < (chunk CHUNK_SIZE content n).length := List.length_pos_of_ne_nil hend
            have rest : offset < content.length := by
              rw [hoffset, List.length_take]
              exact Nat.lt_of_le_of_lt (Nat.min_le_left _ _) start
            refine ih ?_ next more (fewer hfuel grown rest) h''
            rw [hleaves, List.range_succ, List.map_append]
            rfl

end Split

/-! ### Saving a metadata -/

section Save

variable {path : PathBuf} {done bs : Bytes} {writer : BufWriter path} {w₀ w : World}

/-- What has been written so far is in the file up to the writer's
offset, and in its buffer from there on. -/
def Buffered (w₀ : World) (done : Bytes) (writer : BufWriter path) (w : World) : Prop :=
  ∃ f, w = setFile w₀ (loc path) f ∧ writer.offset = f.length ∧
    f ++ writer.buf = done

/-- Bytes written at the writer's offset go to the end of the file. -/
theorem writeAt_runs {f : Bytes} {Q : Except IoError Unit → World → Prop}
    (hQ : Q (.ok ()) (setFile w₀ (loc path) (f ++ bs))) :
    Runs (fs (.writeAt path f.length bs)).run Q
      (setFile w₀ (loc path) f) := by
  have write : (FsOp.writeAt path f.length bs).run (w₀.fs.setBytes (loc path) f)
      = some ((), w₀.fs.setBytes (loc path) (f ++ bs)) := by
    have old : (w₀.fs.setBytes (loc path) f).bytes (loc path) = some f := by
      rw [bytes_setBytes, if_pos rfl]
    rw [FsOp.run, old, Option.map_some, setBytes_setBytes, overwrite_end]
  exact runs_fs rfl write hQ

theorem flushBuf_runs (h : Buffered w₀ done writer w) :
    Runs writer.flushBuf.run
      (fun r w' => ∃ b, r = .ok b ∧ b.buf = [] ∧ Buffered w₀ done b w') w := by
  obtain ⟨f, rfl, hoffset, hdone⟩ := h
  rw [BufWriter.flushBuf]
  by_cases he : writer.buf = []
  · rw [if_pos he]
    exact ⟨writer, rfl, he, f, rfl, hoffset, hdone⟩
  · rw [if_neg he, hoffset]
    refine Prog.total_seqE (B := fun _ w' => w' = setFile w₀ (loc path) (f ++ writer.buf))
      (writeAt_runs ⟨(), rfl, rfl⟩) ?_
    rintro _ w' rfl
    refine ⟨_, rfl, rfl, _, rfl, ?_, ?_⟩
    · rw [List.length_append]
    · rw [List.append_nil, hdone]

theorem writeAll_runs (h : Buffered w₀ done writer w) :
    Runs (writer.writeAll bs).run
      (fun r w' => ∃ b, r = .ok b ∧ Buffered w₀ (done ++ bs) b w') w := by
  rw [BufWriter.writeAll]
  by_cases hroom : bs.length < BUF_CAPACITY - writer.buf.length
  · rw [if_pos hroom]
    obtain ⟨f, hw, hoffset, hdone⟩ := h
    exact ⟨_, rfl, f, hw, hoffset, by rw [← hdone, List.append_assoc]⟩
  · rw [if_neg hroom]
    refine Prog.total_seqE (B := fun b w' => Buffered w₀ done b w' ∧
      (BUF_CAPACITY ≤ bs.length → b.buf = [])) ?_ ?_
    · rw [BufWriter.makeRoom]
      by_cases hflush : BUF_CAPACITY - writer.buf.length < bs.length
      · rw [if_pos hflush]
        refine Prog.total_mono ?_ (flushBuf_runs h)
        rintro r w' ⟨b, rfl, he, hb⟩
        exact ⟨b, rfl, hb, fun _ => he⟩
      · rw [if_neg hflush]
        -- The piece fits exactly: what is longer than the buffer has been flushed for.
        refine ⟨writer, rfl, h, fun hlong => List.eq_nil_of_length_eq_zero ?_⟩
        have : 0 < BUF_CAPACITY := by decide
        omega
    · rintro b w' ⟨⟨f, rfl, hoffset, hdone⟩, hempty⟩
      by_cases hlong : BUF_CAPACITY ≤ bs.length
      · rw [if_pos hlong, hoffset]
        rw [hempty hlong, List.append_nil] at hdone
        refine Prog.total_seqE (B := fun _ w' => w' = setFile w₀ (loc path) (f ++ bs))
          (writeAt_runs ⟨(), rfl, rfl⟩) ?_
        rintro _ w' rfl
        refine ⟨_, rfl, _, rfl, ?_, ?_⟩
        · rw [List.length_append]
        · rw [hempty hlong, List.append_nil, hdone]
      · rw [if_neg hlong]
        exact ⟨_, rfl, f, rfl, hoffset, by rw [← hdone, List.append_assoc]⟩

theorem writePieces_runs (pieces : List Bytes) (h : Buffered w₀ done writer w) :
    Runs (writer.writePieces pieces).run
      (fun r w' => ∃ b, r = .ok b ∧ Buffered w₀ (done ++ pieces.flatten) b w') w := by
  induction pieces generalizing done writer w with
  | nil => exact ⟨writer, rfl, by rwa [List.flatten_nil, List.append_nil]⟩
  | cons bs pieces ih =>
      refine Prog.total_seqE (writeAll_runs h) fun b w' hb => ?_
      have := ih hb
      rwa [List.append_assoc, ← List.flatten_cons] at this

/-- `save_metadata` leaves the metadata in its file. -/
theorem saveMetadata_runs {m : FileMetadata} {w : World}
    (h : Writable w.fs (loc (metadataPath m.chunksDir))) :
    Runs (saveMetadata m).run
      (fun r w' => r = .ok m ∧
        w' = setFile w (loc (metadataPath m.chunksDir)) m.toBytes) w := by
  have create : (FsOp.createFile (metadataPath m.chunksDir)).run w.fs
      = some ((), w.fs.setBytes (loc (metadataPath m.chunksDir)) []) := if_pos h
  rw [saveMetadata, saveBlocking]
  refine Prog.total_seqA (B := fun _ w' => w' = setFile w (loc (metadataPath m.chunksDir)) [])
    (runs_fs rfl create ⟨(), rfl, rfl⟩) ?_
  rintro _ w' rfl
  have fresh : Buffered w [] (⟨0, []⟩ : BufWriter (metadataPath m.chunksDir))
      (setFile w (loc (metadataPath m.chunksDir)) []) := ⟨[], rfl, rfl, rfl⟩
  refine Prog.total_seqA (writePieces_runs _ fresh) fun b w' hb => ?_
  refine Prog.total_seqL (flushBuf_runs hb) ?_
  rintro _ w'' ⟨b', rfl, he, f, rfl, -, hdone⟩
  rw [he, List.append_nil, List.nil_append] at hdone
  exact ⟨rfl, by rw [hdone]; rfl⟩

end Save

/-! ### `process_file` -/

/-- The chunk files of a content stand in `dir`. -/
def HasChunks (dir : PathBuf) (content : Bytes) (w : World) : Prop :=
  ∀ i < chunkCount CHUNK_SIZE content,
    w.fs.bytes (chunkPlace dir i) = some (chunk CHUNK_SIZE content i)

/-- A file whose chunk directory can be made and written to.
- `publishDir`: `dir` is the chunk directory of this path,
- `content`: the file is there and holds the content,
- `noFile`: no file is in the way of the directory or of one above it,
- `noDir`, `noMetadataDir`: no directory stands where a chunk file or the
  metadata file goes. -/
structure Splittable (path dir : PathBuf) (content : Bytes) (w : World) : Prop where
  publishDir : publishDir path = some dir
  content : w.fs.bytes (loc path) = some content
  noFile : ∀ l ∈ (loc dir).inits, (w.fs.bytes l).isNone
  noDir : ∀ i, w.fs (chunkPlace dir i) ≠ some .dir
  noMetadataDir : w.fs (loc (metadataPath dir)) ≠ some .dir

/-- The metadata of a content with this Merkle root. -/
def splitMetadata (name : String) (dir : PathBuf) (isPublic : Bool) (content : Bytes)
    (root : Hash) : FileMetadata where
  originalFileName := name
  totalChunks := chunkCount CHUNK_SIZE content
  chunksDir := dir
  merkleRoot := root
  merkleProofs := (List.range (chunkCount CHUNK_SIZE content)).map
    (Platform.merkleProof (ChunkProofs.leaves (chunks CHUNK_SIZE content)))
  chunkFileExtension := FILE_CHUNK_EXTENSION
  isPublic := isPublic

section Process

variable {path dir parent : PathBuf} {name : String} {content : Bytes} {w : World}

/-- The chunk directory of a file stands beside it. -/
theorem publishDir_spec (h : publishDir path = some dir) :
    ∃ parent name, path.parent = some parent ∧ path.fileName = some name ∧
      parent.join (chunksDirName name) = dir ∧ loc path = loc parent ++ [name] ∧
      loc dir = loc parent ++ [chunksDirName name] := by
  obtain ⟨parent, hparent, h⟩ := Option.bind_eq_some_iff.mp h
  obtain ⟨name, hname, hdir⟩ := Option.map_eq_some_iff.mp h
  have place := loc_join (isNormal_chunksDirName (isNormal_of_fileName hname)) parent
  rw [hdir] at place
  exact ⟨parent, name, hparent, hname, hdir, loc_parent hname hparent, place⟩

/-- The chunk directory has been made. The file is not one of its own
chunk files, for it stands one step higher. -/
theorem Splittable.splitDir (h : Splittable path dir content w) :
    SplitDir path dir content (makeDir w (loc dir)) where
  content := by
    have file := mkDirs_of_some (file_of_bytes h.content) (loc dir) (loc dir).length
    show (w.fs.mkDirs (loc dir) (loc dir).length).bytes (loc path) = some content
    rw [Fs.bytes, file]
  apart i he := by
    obtain ⟨parent, name, -, -, -, hpath, hdir⟩ := publishDir_spec h.publishDir
    have := congrArg List.length he
    rw [hpath, chunkPlace, hdir] at this
    simp at this
  isDir := mkDirs_self (h.noFile _ (by simp))
  noDir i := by
    have below : ¬ chunkPlace dir i <+: loc dir := by
      intro hp
      have := hp.length_le
      simp [chunkPlace] at this
    show w.fs.mkDirs (loc dir) (loc dir).length (chunkPlace dir i) ≠ some .dir
    rw [mkDirs_of_not_below w.fs below (loc dir).length]
    exact h.noDir i

/-- The metadata file can be written once the chunks are. -/
theorem Written.writable_metadata {w₀ : World} {n : Nat} (hd : SplitDir path dir content w₀)
    (hm : w₀.fs (loc (metadataPath dir)) ≠ some .dir) (h : Written dir content w₀ n w) :
    Writable w.fs (loc (metadataPath dir)) := by
  refine ⟨?_, ?_⟩
  · rw [loc_metadata, List.dropLast_concat, h.others _ (dir_ne_chunkPlace dir)]
    exact hd.isDir
  · rw [h.others _ (metadata_ne_chunkPlace dir)]
    exact hm

/-- What `process_file` leaves behind for a content.
- `root`: the Merkle root is that of the hashes of the chunks,
- `metadata`: the metadata is made from the content, with this root,
- `saved`: its encoding is the metadata file of the directory,
- `chunks`: the chunk files hold the chunks. -/
structure IsSplit (name : String) (dir : PathBuf) (isPublic : Bool) (content : Bytes)
    (m : FileMetadata) (w : World) : Prop where
  root : Platform.merkleRoot (ChunkProofs.leaves (chunks CHUNK_SIZE content)) = some m.merkleRoot
  metadata : m = splitMetadata name dir isPublic content m.merkleRoot
  saved : w.fs.bytes (loc (metadataPath dir)) = some m.toBytes
  chunks : HasChunks dir content w

/-- The tree over the leaves, and the metadata with its root. -/
def finish (name : String) (dir : PathBuf) (isPublic : Bool) (leaves : List Hash) :
    ExceptT FileProcessingError Proc FileMetadata :=
  match Platform.merkleRoot leaves with
  | none => throw (.merkleTreeCreation "cannot get merkle root")
  | some merkleRoot =>
    saveMetadata
      { originalFileName := name
        totalChunks := leaves.length
        chunksDir := dir
        merkleRoot := merkleRoot
        merkleProofs := (List.range leaves.length).map (Platform.merkleProof leaves)
        chunkFileExtension := FILE_CHUNK_EXTENSION
        isPublic := isPublic }

/-- `process_file` up to the leaves: the chunks are written, whatever the
content is. -/
theorem processFile_runs {fuel : Nat} {isPublic : Bool}
    {Q : Except FileProcessingError FileMetadata → World → Prop}
    (h : Splittable path dir content w) (hname : path.fileName = some name)
    (hfuel : content.length < fuel)
    (rest : ∀ w', Writable w'.fs (loc (metadataPath dir)) → HasChunks dir content w' →
      Runs (finish name dir isPublic (ChunkProofs.leaves (chunks CHUNK_SIZE content))).run Q w') :
    Runs (processFile fuel path.str isPublic).run Q w := by
  obtain ⟨parent, _, hparent, hname', hdir, -, -⟩ := publishDir_spec h.publishDir
  cases hname.symm.trans hname'
  have file := file_of_bytes h.content
  have metadata : (FsOp.metadata path).run w.fs = some (.file, w.fs) := by rw [FsOp.run, file]
  have openFile : (FsOp.openFile path).run w.fs = some ((), w.fs) := by
    rw [FsOp.run, h.content]
    rfl
  have createDirAll : (FsOp.createDirAll dir).run w.fs
      = some ((), w.fs.mkDirs (loc dir) (loc dir).length) := if_pos h.noFile
  rw [processFile]
  refine Prog.total_seqA (B := fun t w' => t = .file ∧ w' = w)
    (runs_fs rfl metadata ⟨_, rfl, rfl, rfl⟩) ?_
  rintro _ w' ⟨rfl, rfl⟩
  refine Prog.total_seqA (B := fun _ w₁ => w₁ = w')
    (runs_fs rfl openFile ⟨_, rfl, rfl⟩) ?_
  rintro _ w' rfl
  simp only [hparent, hname]
  generalize parent.join (chunksDirName name) = made at hdir ⊢
  obtain rfl : dir = made := hdir.symm
  refine Prog.total_seqA (B := fun _ w₁ => w₁ = makeDir w' (loc dir))
    (runs_fs rfl createDirAll ⟨_, rfl, rfl⟩) ?_
  rintro _ w' rfl
  have start : content.length - 0 < fuel := by omega
  refine Prog.total_seqE (split_runs h.splitDir fuel (n := 0) (by simp) (by simp) (Nat.zero_le _)
    start (Written.zero h.splitDir)) ?_
  rintro _ w₂ ⟨rfl, h₂⟩
  have noDir : w'.fs.mkDirs (loc dir) (loc dir).length (loc (metadataPath dir)) ≠ some .dir := by
    have below : ¬ loc (metadataPath dir) <+: loc dir := by
      intro hp
      have := hp.length_le
      rw [loc_metadata] at this
      simp at this
    rw [mkDirs_of_not_below w'.fs below (loc dir).length]
    exact h.noMetadataDir
  exact rest w₂ (h₂.writable_metadata h.splitDir noDir) h₂.written

/-- The metadata file is written last and is not a chunk file. -/
theorem HasChunks.setFile_metadata (h : HasChunks dir content w) (bs : Bytes) :
    HasChunks dir content (setFile w (loc (metadataPath dir)) bs) := by
  intro i hi
  show (w.fs.setBytes _ _).bytes _ = _
  rw [bytes_setBytes, if_neg (metadata_ne_chunkPlace dir i).symm]
  exact h i hi

variable [ChunkProofs.RsMerkle]

/-- `process_file` on a file with something in it. -/
theorem processFile_split {fuel : Nat} {isPublic : Bool} (h : Splittable path dir content w)
    (hname : path.fileName = some name) (hfuel : content.length < fuel) (hc : content ≠ []) :
    Runs (processFile fuel path.str isPublic).run
      (fun r w' => ∃ m, r = .ok m ∧ IsSplit name dir isPublic content m w') w := by
  have some := chunks_ne_nil (show 0 < CHUNK_SIZE by decide) hc
  obtain ⟨root, hroot⟩ := ChunkProofs.exists_merkleRoot some
  refine processFile_runs h hname hfuel fun w' hw hchunks => ?_
  have length : (ChunkProofs.leaves (chunks CHUNK_SIZE content)).length
      = chunkCount CHUNK_SIZE content := by
    rw [ChunkProofs.leaves, List.length_map, length_chunks]
  have metadata : finish name dir isPublic (ChunkProofs.leaves (chunks CHUNK_SIZE content))
      = saveMetadata (splitMetadata name dir isPublic content root) := by
    rw [finish, hroot, length]
    rfl
  rw [metadata]
  refine Prog.total_mono ?_ (saveMetadata_runs hw)
  rintro r w'' ⟨rfl, rfl⟩
  refine ⟨_, rfl, hroot, rfl, ?_, hchunks.setFile_metadata _⟩
  show (w'.fs.setBytes _ _).bytes _ = _
  rw [bytes_setBytes]
  exact if_pos rfl

/-- `process_file` on an empty file. -/
theorem processFile_empty {fuel : Nat} {isPublic : Bool} (h : Splittable path dir [] w)
    (hname : path.fileName = some name) (hfuel : 0 < fuel) :
    Runs (processFile fuel path.str isPublic).run (fun r _ => ∃ e, r = .error e) w := by
  refine processFile_runs h hname hfuel fun w' _ _ => ?_
  have none : Platform.merkleRoot (ChunkProofs.leaves (chunks CHUNK_SIZE ([] : Bytes))) = none := by
    rw [ChunkProofs.RsMerkle.merkleRoot]
    rfl
  rw [finish, none]
  exact ⟨_, rfl⟩

end Process

/-! ### `restore_original_file` -/

/-- A directory a content can be restored from.
- `saved`: the metadata file of the record encodes the metadata,
- `chunks`: the chunk files hold the chunks of the content,
- `parent_eq`, `fileName`: the path of the directory has a parent and a
  name,
- `isDir`: the parent is a directory,
- `absent`: nothing stands at the place of the whole file,
- `noPartDir`: no directory stands at the place of the temporary file. -/
structure Restorable (record : PendingDownloadRecord) (m : FileMetadata) (parent : PathBuf)
    (content : Bytes) (w : World) : Prop where
  saved : w.fs.bytes (loc (metadataPath record.chunksDir)) = some m.toBytes
  chunks : HasChunks m.chunksDir content w
  parent_eq : m.chunksDir.parent = some parent
  fileName : m.chunksDir.fileName.isSome
  isDir : w.fs (loc parent) = some .dir
  absent : w.fs (loc (parent.join m.originalFileName)) = none
  noPartDir : w.fs (loc (parent.join (m.originalFileName ++ ".part"))) ≠ some .dir

section Writer

variable {tmp : PathBuf} {f done bs : Bytes} {writer : Tokio.BufWriter tmp} {w₀ w : World}

/-- The writer has been given `done`, and none of its writes has failed:
`f` stands in the file up to the offset, and the rest is in the buffer. -/
structure Queued (w₀ : World) (f done : Bytes) (writer : Tokio.BufWriter tmp) (w : World) :
    Prop where
  world : w = setFile w₀ (loc tmp) f
  file : writer.file = ⟨f.length, none⟩
  all : f ++ writer.buf = done

/-- The bytes go into the buffer: they are fewer than it holds, and there
is room for them. -/
def Fits (writer : Tokio.BufWriter tmp) (bs : Bytes) : Prop :=
  bs.length < BUF_CAPACITY ∧ writer.buf.length + bs.length ≤ BUF_CAPACITY

theorem fileWrite_runs (f bs : Bytes) :
    Runs ((⟨f.length, none⟩ : Tokio.File tmp).write bs).run
      (fun r w' => ∃ file, r = .ok file ∧ file = ⟨(f ++ bs).length, none⟩ ∧
        w' = setFile w₀ (loc tmp) (f ++ bs)) (setFile w₀ (loc tmp) f) := by
  unfold Tokio.File.write
  refine Prog.total_seqL (B := fun x w' => x = .ok () ∧ w' = setFile w₀ (loc tmp) (f ++ bs))
    (writeAt_runs ⟨rfl, rfl⟩) ?_
  rintro _ w' ⟨rfl, rfl⟩
  exact ⟨_, rfl, by rw [List.length_append], rfl⟩

theorem tokioFlushBuf_runs (h : Queued w₀ f done writer w) :
    Runs writer.flushBuf.run
      (fun r w' => ∃ b, r = .ok b ∧ b.buf = [] ∧ Queued w₀ done done b w') w := by
  obtain ⟨rfl, hfile, rfl⟩ := h
  rw [Tokio.BufWriter.flushBuf]
  -- An empty buffer makes no operation, any other one write.
  by_cases he : writer.buf = []
  · rw [if_pos he]
    refine ⟨writer, rfl, he, ?_⟩
    rw [he, List.append_nil]
    exact ⟨rfl, hfile, by rw [he, List.append_nil]⟩
  · rw [if_neg he, hfile]
    refine Prog.total_seqE (fileWrite_runs f _) ?_
    rintro _ _ ⟨rfl, rfl⟩
    exact ⟨_, rfl, rfl, rfl, rfl, List.append_nil _⟩

/-- A write only adds to the file, and it adds something when the bytes do
not go into the buffer. -/
theorem tokioWrite_runs (h : Queued w₀ f done writer w) :
    Runs (writer.write bs).run
      (fun r w' => ∃ b, r = .ok b ∧ ∃ f', f <+: f' ∧ Queued w₀ f' (done ++ bs) b w' ∧
        (bs ≠ [] → ¬ Fits writer bs → f' ≠ [])) w := by
  refine Prog.total_seqE (B := fun b w' => ∃ f', f <+: f' ∧ Queued w₀ f' done b w' ∧
    (BUF_CAPACITY ≤ bs.length → b.buf = []) ∧
    (BUF_CAPACITY < writer.buf.length + bs.length → f' = done)) ?_ ?_
  · rw [Tokio.BufWriter.makeRoom]
    split
    · refine Prog.total_mono ?_ (tokioFlushBuf_runs h)
      rintro r w' ⟨b, rfl, he, hb⟩
      exact ⟨b, rfl, done, ⟨_, h.all⟩, hb, fun _ => he, fun _ => rfl⟩
    · next hroom =>
        -- What is as long as the buffer fits only behind nothing.
        refine ⟨writer, rfl, f, List.prefix_rfl, h, fun hlong => ?_, fun full => absurd full hroom⟩
        exact List.eq_nil_of_length_eq_zero (by omega)
  · rintro b w' ⟨f', hf, ⟨rfl, hfile, hdone⟩, hempty, hflushed⟩
    -- Bytes as long as the buffer go straight to the file.
    by_cases hlong : BUF_CAPACITY ≤ bs.length
    · rw [if_pos hlong, hfile]
      rw [hempty hlong, List.append_nil] at hdone
      subst hdone
      refine Prog.total_seqE (fileWrite_runs f' bs) ?_
      rintro _ _ ⟨rfl, rfl⟩
      refine ⟨_, rfl, _, hf.trans (List.prefix_append _ _), ⟨rfl, rfl, ?_⟩, fun hbs _ => ?_⟩
      · rw [hempty hlong, List.append_nil]
      · exact List.append_ne_nil_of_right_ne_nil _ hbs
    · rw [if_neg hlong]
      refine ⟨_, rfl, f', hf, ⟨rfl, hfile, by rw [← hdone, List.append_assoc]⟩, fun _ hfit => ?_⟩
      -- There was no room, so what was buffered has been written.
      have full : BUF_CAPACITY < writer.buf.length + bs.length := by
        by_contra room
        exact hfit ⟨by omega, by omega⟩
      rw [hflushed full, ← h.all]
      refine List.append_ne_nil_of_right_ne_nil _ fun hbuf => ?_
      rw [hbuf, List.length_nil] at full
      omega

theorem tokioWriteAll_runs (h : Queued w₀ f done writer w) :
    Runs (writer.writeAll bs).run
      (fun r w' => ∃ b, r = .ok b ∧ ∃ f', f <+: f' ∧ Queued w₀ f' (done ++ bs) b w' ∧
        (bs ≠ [] → ¬ Fits writer bs → f' ≠ [])) w := by
  -- Each piece is one write; what they add up to is by induction on them.
  have pieces : ∀ (pieces : List Bytes) {f done : Bytes} {writer : Tokio.BufWriter tmp}
      {w : World}, Queued w₀ f done writer w → Runs (writer.writePieces pieces).run
        (fun r w' => ∃ b, r = .ok b ∧ ∃ f', f <+: f' ∧
          Queued w₀ f' (done ++ pieces.flatten) b w') w := by
    intro pieces
    induction pieces with
    | nil =>
        intro f done writer w h
        exact ⟨writer, rfl, f, List.prefix_rfl, by rwa [List.flatten_nil, List.append_nil]⟩
    | cons bs pieces ih =>
        intro f done writer w h
        refine Prog.total_seqE (tokioWrite_runs h) ?_
        rintro b w' ⟨f', hf, hb, -⟩
        refine Prog.total_mono ?_ (ih hb)
        rintro r w'' ⟨b', rfl, f'', hf', hb'⟩
        rw [List.append_assoc, ← List.flatten_cons] at hb'
        exact ⟨b', rfl, f'', hf.trans hf', hb'⟩
  have size : 0 < Tokio.MAX_BUF_SIZE := by decide
  rw [Tokio.BufWriter.writeAll]
  by_cases hbs : bs = []
  · subst hbs
    rw [chunks_nil size, List.append_nil]
    exact ⟨writer, rfl, f, List.prefix_rfl, h, fun hne => absurd rfl hne⟩
  · obtain ⟨rest, hrest⟩ := exists_chunks_eq_cons (l := bs) size hbs
    have flatten : bs.take Tokio.MAX_BUF_SIZE ++ rest.flatten = bs := by
      rw [← List.flatten_cons, ← hrest, flatten_chunks size]
    -- The first piece fits only when all of it does.
    have whole : Fits writer (bs.take Tokio.MAX_BUF_SIZE) → Fits writer bs := by
      rintro ⟨short, room⟩
      have : BUF_CAPACITY < Tokio.MAX_BUF_SIZE := by decide
      rw [List.length_take] at short room
      exact ⟨by omega, by omega⟩
    rw [hrest]
    refine Prog.total_seqE (tokioWrite_runs h) ?_
    rintro b w' ⟨f', hf, hb, hfull⟩
    refine Prog.total_mono ?_ (pieces rest hb)
    rintro r w'' ⟨b', rfl, f'', hf', hb'⟩
    rw [List.append_assoc, flatten] at hb'
    refine ⟨b', rfl, f'', hf.trans hf', hb', fun _ hfit hnil => ?_⟩
    subst hnil
    refine hfull (fun hnil => hbs ?_) (fun h => hfit (whole h)) (List.prefix_nil.mp hf')
    exact (List.take_eq_nil_iff.mp hnil).resolve_left (Nat.ne_of_gt size)

/-- A flush leaves all of it in the file. -/
theorem tokioFlush_runs (h : Queued w₀ f done writer w) :
    Runs writer.flush.run (fun r w' => ∃ u, r = .ok u ∧ w' = setFile w₀ (loc tmp) done) w := by
  refine Prog.total_seqE (tokioFlushBuf_runs h) ?_
  rintro b w' ⟨-, rfl, hfile, -⟩
  rw [hfile]
  exact ⟨(), rfl, rfl⟩

variable {m : FileMetadata}

/-- The loop of `restore_original_file`, where every chunk is there:
`D c done` says that `done` is what the first `c` chunks hold. -/
theorem copyChunks_runs {D : Nat → Bytes → Prop} (total : Nat)
    (read : ∀ c f done, c < total → D c done → ∃ bs, D (c + 1) (done ++ bs) ∧
      (w₀.fs.setBytes (loc tmp) f).bytes
        (loc (m.chunksDir.join (chunkFileName c m.chunkFileExtension))) = some bs)
    (count : Nat) {c : Nat} (hc : c + count = total) (hD : D c done)
    (h : Queued w₀ f done writer w) :
    Runs (copyChunks m count c writer).run
      (fun r w' => ∃ b, r = .ok b ∧ ∃ f done, D total done ∧ Queued w₀ f done b w') w := by
  -- `c` chunks are with the writer, and `count` are left.
  induction count generalizing c f done writer w with
  | zero =>
      obtain rfl : c = total := hc
      exact ⟨writer, rfl, f, done, hD, h⟩
  | succ count ih =>
      obtain ⟨rfl, hfile, hdone⟩ := h
      obtain ⟨bs, hD', hbytes⟩ := read c f done (by omega) hD
      have run : (FsOp.read (m.chunksDir.join (chunkFileName c m.chunkFileExtension))).run
          (w₀.fs.setBytes (loc tmp) f) = some (bs, w₀.fs.setBytes (loc tmp) f) := by
        rw [FsOp.run, hbytes]
        rfl
      rw [copyChunks]
      refine Prog.total_seqA (B := fun x w' => x = bs ∧ w' = setFile w₀ (loc tmp) f)
        (runs_fs rfl run ⟨_, rfl, rfl, rfl⟩) ?_
      rintro _ _ ⟨rfl, rfl⟩
      refine Prog.total_seqA (tokioWriteAll_runs ⟨rfl, hfile, hdone⟩) ?_
      rintro b w' ⟨f', -, hb, -⟩
      exact ih (by omega) hD' hb

end Writer

section Restore

variable {record : PendingDownloadRecord} {m : FileMetadata} {parent tmp : PathBuf}
  {content : Bytes} {w : World}

/-- What stands beside the chunk directory is not a chunk file: it is one
step higher. -/
theorem Restorable.chunkPlace_ne {name : String} (h : Restorable record m parent content w)
    (hn : PathBuf.IsNormal name) (i : Nat) :
    chunkPlace m.chunksDir i ≠ loc (parent.join name) := by
  obtain ⟨dirName, hdir⟩ := Option.isSome_iff_exists.mp h.fileName
  intro he
  have := congrArg List.length he
  rw [chunkPlace, loc_parent hdir h.parent_eq, loc_join hn] at this
  simp at this

/-- The chunks are put one behind the other. -/
theorem copyContent_runs (hchunks : HasChunks m.chunksDir content w)
    (apart : ∀ i, chunkPlace m.chunksDir i ≠ loc tmp)
    (hext : m.chunkFileExtension = FILE_CHUNK_EXTENSION)
    (htotal : m.totalChunks = chunkCount CHUNK_SIZE content) :
    Runs (copyChunks m m.totalChunks 0 (.new : Tokio.BufWriter tmp)).run
      (fun r w' => ∃ b, r = .ok b ∧ ∃ f, Queued w f content b w') (setFile w (loc tmp) []) := by
  have start : Queued w [] [] (.new : Tokio.BufWriter tmp) (setFile w (loc tmp) []) :=
    ⟨rfl, rfl, rfl⟩
  have copied := copyChunks_runs (m := m) (D := fun c done => done = content.take (c * CHUNK_SIZE))
    (chunkCount CHUNK_SIZE content) ?_ m.totalChunks (c := 0) (by omega)
    (by rw [Nat.zero_mul, List.take_zero]) start
  · refine Prog.total_mono ?_ copied
    rintro r w' ⟨b, rfl, f, done, rfl, hb⟩
    rw [take_chunkCount (by decide)] at hb
    exact ⟨b, rfl, f, hb⟩
  · rintro c f _ hc rfl
    refine ⟨chunk CHUNK_SIZE content c, take_append_chunk c, ?_⟩
    rw [hext, loc_chunkFile, bytes_setBytes, if_neg (apart c), hchunks c hc]

/-- Create the temporary file, fill it with the chunks and rename it. -/
theorem assemble_runs {dest : PathBuf} (hchunks : HasChunks m.chunksDir content w)
    (apart : ∀ i, chunkPlace m.chunksDir i ≠ loc tmp)
    (hext : m.chunkFileExtension = FILE_CHUNK_EXTENSION)
    (htotal : m.totalChunks = chunkCount CHUNK_SIZE content)
    (htmp : Writable w.fs (loc tmp)) (hdest : Writable w.fs (loc dest))
    (hne : loc dest ≠ loc tmp) (hup : (loc dest).dropLast ≠ loc tmp) :
    Runs (do
      (fs (.createFile tmp)).adapt FileProcessingError.io
      let bufWriter ← copyChunks m m.totalChunks 0 (.new : Tokio.BufWriter tmp)
      bufWriter.flush.adapt .io
      (fs (.rename tmp dest)).adapt .io
      return m : ExceptT FileProcessingError Proc FileMetadata).run
      (fun r w' => r = .ok m ∧ w'.fs.bytes (loc dest) = some content) w := by
  have create : (FsOp.createFile tmp).run w.fs = some ((), w.fs.setBytes (loc tmp) []) :=
    if_pos htmp
  have rename : (FsOp.rename tmp dest).run (w.fs.setBytes (loc tmp) content)
      = some ((), Fs.setBytes (Function.update (w.fs.setBytes (loc tmp) content) (loc tmp) none)
          (loc dest) content) := by
    have whole : (w.fs.setBytes (loc tmp) content).bytes (loc tmp) = some content := by
      rw [bytes_setBytes, if_pos rfl]
    simp only [FsOp.run, whole]
    refine if_pos ⟨?_, ?_⟩
    · rw [Fs.setBytes, Function.update_of_ne hup]
      exact hdest.1
    · rw [Fs.setBytes, Function.update_of_ne hne]
      exact hdest.2
  refine Prog.total_seqA (B := fun _ w' => w' = setFile w (loc tmp) [])
    (runs_fs rfl create ⟨_, rfl, rfl⟩) ?_
  rintro _ _ rfl
  refine Prog.total_seqE (copyContent_runs hchunks apart hext htotal) ?_
  rintro b w' ⟨f, hb⟩
  refine Prog.total_seqA (tokioFlush_runs hb) ?_
  rintro _ _ rfl
  refine Prog.total_seqA (B := fun _ w' => w'.fs.bytes (loc dest) = some content)
    (runs_fs rfl rename ⟨_, rfl, ?_⟩) fun _ _ h => ⟨rfl, h⟩
  show (Fs.setBytes _ _ _).bytes _ = _
  rw [bytes_setBytes, if_pos rfl]

/-- `restore_original_file` puts the content together. -/
theorem restoreOriginalFile_runs (h : Restorable record m parent content w)
    (hn : PathBuf.IsNormal m.originalFileName)
    (hext : m.chunkFileExtension = FILE_CHUNK_EXTENSION)
    (htotal : m.totalChunks = chunkCount CHUNK_SIZE content) :
    Runs (restoreOriginalFile record).run
      (fun r w' => r = .ok m ∧ w'.fs.bytes (loc (parent.join m.originalFileName)) = some content)
      w := by
  have hpart := isNormal_part hn
  have dest := loc_join hn parent
  have tmp := loc_join hpart parent
  have longer : m.originalFileName ≠ m.originalFileName ++ ".part" := by
    intro he
    have := congrArg String.length he
    simp at this
  have read : (FsOp.read (metadataPath record.chunksDir)).run w.fs = some (m.toBytes, w.fs) := by
    rw [FsOp.run, h.saved]
    rfl
  have tryExists : (FsOp.tryExists (parent.join m.originalFileName)).run w.fs
      = some (false, w.fs) := by
    rw [FsOp.run, h.absent]
    rfl
  rw [restoreOriginalFile]
  refine Prog.total_seqE (B := fun m' w' => m' = m ∧ w' = w) ?_ ?_
  · refine Prog.total_seqA (B := fun bs w' => bs = m.toBytes ∧ w' = w)
      (runs_fs rfl read ⟨_, rfl, rfl, rfl⟩) ?_
    rintro _ _ ⟨rfl, rfl⟩
    rw [Platform.decode_toBytes]
    exact ⟨m, rfl, rfl, rfl⟩
  · rintro _ w' ⟨rfl, rfl⟩
    simp only [h.parent_eq]
    refine Prog.total_seqA (B := fun found w₁ => found = false ∧ w₁ = w')
      (runs_fs rfl tryExists ⟨_, rfl, rfl, rfl⟩) ?_
    rintro _ w' ⟨rfl, rfl⟩
    refine assemble_runs h.chunks (h.chunkPlace_ne hpart) hext htotal ⟨?_, h.noPartDir⟩ ⟨?_, ?_⟩
      ?_ ?_
    · rw [tmp, List.dropLast_concat]
      exact h.isDir
    · rw [dest, List.dropLast_concat]
      exact h.isDir
    · rw [h.absent]
      intro h
      cases h
    · rw [dest, tmp]
      exact fun he => longer (List.cons.inj (List.append_cancel_left he)).1
    · rw [dest, tmp, List.dropLast_concat]
      intro he
      have := congrArg List.length he
      simp at this

end Restore

/-- Splitting a file and putting it together again. A content with
something in it is split into its chunks, with a metadata that says so;
wherever this metadata and these chunks are then found and the file is
not, `restore_original_file` writes the content. An empty file is an
error. No read has to return all it is asked for. -/
theorem split_restore [ChunkProofs.RsMerkle] {path dir : PathBuf} {name : String}
    {content : Bytes} {w : World} {fuel : Nat} (isPublic : Bool)
    (h : Splittable path dir content w) (hname : path.fileName = some name)
    (hfuel : content.length < fuel) :
    (content = [] → Runs (processFile fuel path.str isPublic).run
      (fun r _ => ∃ e, r = .error e) w) ∧
    (content ≠ [] → Runs (processFile fuel path.str isPublic).run
      (fun r w₁ => ∃ m, r = .ok m ∧ IsSplit name dir isPublic content m w₁ ∧
        m.totalChunks = (content.length + 1048575) / 1048576 ∧
        m.merkleProofs.length = m.totalChunks ∧
        ∀ dir' record parent w₂, Restorable record { m with chunksDir := dir' } parent content w₂ →
          Runs (restoreOriginalFile record).run
            (fun r w₃ => r = .ok { m with chunksDir := dir' } ∧
              w₃.fs.bytes (loc (parent.join m.originalFileName)) = some content) w₂) w) := by
  refine ⟨?_, fun hc => ?_⟩
  · rintro rfl
    exact processFile_empty h hname hfuel
  · refine Prog.total_mono ?_ (processFile_split h hname hfuel hc)
    rintro r w₁ ⟨m, rfl, hm⟩
    have metadata := hm.metadata
    have fileName : m.originalFileName = name := by rw [metadata]; rfl
    have total : m.totalChunks = chunkCount CHUNK_SIZE content := by rw [metadata]; rfl
    have ceiling : m.totalChunks = (content.length + 1048575) / 1048576 := by
      rw [total, chunkCount, show CHUNK_SIZE = 1048576 from rfl, Nat.add_sub_assoc (by omega)]
    have extension : m.chunkFileExtension = FILE_CHUNK_EXTENSION := by rw [metadata]; rfl
    have proofs : m.merkleProofs.length = m.totalChunks := by
      rw [metadata]
      simp only [splitMetadata, List.length_map, List.length_range]
    refine ⟨m, rfl, hm, ceiling, proofs, fun dir' record parent w₂ h₂ => ?_⟩
    have hn : PathBuf.IsNormal m.originalFileName := fileName ▸ isNormal_of_fileName hname
    exact restoreOriginalFile_runs (m := { m with chunksDir := dir' }) h₂ hn extension total

end Proof

section Example

open Reference

attribute [local instance] platform

/-- One byte more than a chunk holds. -/
def content : Bytes := List.replicate (CHUNK_SIZE + 1) 7

/-- The file `/src/f` with these bytes. -/
def published : World := newWorld (files [([], .dir), (["src"], .dir), (["src", "f"], .file content)]) 1

theorem splittable_published : Splittable ⟨"/src/f"⟩ ⟨"/src/f_chunks"⟩ content published where
  publishDir := by decide
  content := by
    have place : loc ⟨"/src/f"⟩ = ["src", "f"] := by decide
    rw [place]
    rfl
  noFile := by
    have dir : loc ⟨"/src/f_chunks"⟩ = ["src", "f_chunks"] := by decide
    rw [dir]
    decide
  noDir i := by
    have dir : loc ⟨"/src/f_chunks"⟩ = ["src", "f_chunks"] := by decide
    simp [chunkPlace, dir, published, newWorld, files]
  noMetadataDir := by decide

/-- The file is split into a whole chunk and one of one byte, however its
reads come up short, and put together again. -/
theorem split_restore_twoChunks :
    Runs (processFile (CHUNK_SIZE + 2) "/src/f" true).run
      (fun r w₁ => ∃ m, r = .ok m ∧ m.totalChunks = 2 ∧
        w₁.fs.bytes ["src", "f_chunks", "0.chunk"] = some (List.replicate CHUNK_SIZE 7) ∧
        w₁.fs.bytes ["src", "f_chunks", "1.chunk"] = some [7] ∧
        ∀ dir' record parent w₂, Restorable record { m with chunksDir := dir' } parent content w₂ →
          Runs (restoreOriginalFile record).run
            (fun r w₃ => r = .ok { m with chunksDir := dir' } ∧
              w₃.fs.bytes (loc (parent.join m.originalFileName)) = some content) w₂) published := by
  have hname : (PathBuf.mk "/src/f").fileName = some "f" := by decide
  have length : content.length = CHUNK_SIZE + 1 := List.length_replicate
  have some : content ≠ [] := List.ne_nil_of_length_eq_add_one length
  have h := (split_restore true splittable_published hname
    (show content.length < CHUNK_SIZE + 2 by omega)).2 some
  refine Prog.total_mono ?_ h
  rintro r w₁ ⟨m, hr, hm, htotal, -, hrestore⟩
  have dir : loc ⟨"/src/f_chunks"⟩ = ["src", "f_chunks"] := by decide
  have count : chunkCount CHUNK_SIZE content = 2 := by
    rw [chunkCount, length]
    rfl
  have place : ∀ i, chunkPlace ⟨"/src/f_chunks"⟩ i
      = ["src", "f_chunks", chunkFileName i FILE_CHUNK_EXTENSION] := fun i => by
    rw [chunkPlace, dir]
    rfl
  refine ⟨m, hr, htotal.trans ?_, ?_, ?_, hrestore⟩
  · rw [length]
    rfl
  · have first := hm.chunks 0 (by omega)
    rw [place, chunk, Nat.zero_mul, List.drop_zero, content, List.take_replicate,
      Nat.min_eq_left (Nat.le_succ _)] at first
    exact first
  · have second := hm.chunks 1 (by omega)
    rw [place, chunk, Nat.one_mul, content, List.drop_replicate, Nat.add_sub_cancel_left,
      List.take_replicate] at second
    exact second

end Example

end RustDfs.SplitRestore
