import RustDfs.Conc.Runs
import RustDfs.Model.Reference
import RustDfs.Proofs.Effects

/-!
# `RustDfs.Proofs.SaveMetadata`: what `save_metadata` leaves in the file

The encoding goes piece by piece through a `BufWriter`. What it has been
given is in the file or still in the buffer (`Wrote`), whichever writes
happened on the way. The last piece is one byte and always stays in the
buffer, so the last bytes are written when the writer is dropped, and the
result of that write is lost.

`save_complete_iff`: after an `Ok` the file holds the encoding exactly
where that last write got everything out.
-/

set_option autoImplicit false

namespace RustDfs.SaveMetadata

open Lib Conc Prog

section Defs

variable [Platform]

/-- The metadata file is complete: it is there, it holds the encoding of the
metadata and nothing else, and it reads back as the metadata. -/
def Complete (m : FileMetadata) (w : World) : Prop :=
  ∃ bs, w.fs.bytes (loc (metadataPath m.chunksDir)) = some bs ∧ bs = m.toBytes ∧
    Platform.decodeMetadata bs = .ok m

/-- A write that got all its bytes out: it succeeded, or failed after the
last byte. -/
def WroteAll : Deed lang Choice → Prop
  | .op (.fs (.writeAt _ _ bs)) (.ioError _ done) _ => bs.length ≤ done
  | _ => True

/-- The runs of `save_metadata`. -/
abbrev Saves (m : FileMetadata) (w : World) (l : List (Deed lang Choice))
    (r : Except FileProcessingError FileMetadata) (w' : World) : Prop :=
  (saveMetadata m).run.Runs Op.exec w l r w'

/-- The bytes a failed write left out. -/
def unwritten : Deed lang Choice → Nat
  | .op (.fs (.writeAt _ _ bs)) (.ioError _ done) _ => bs.length - done
  | _ => 0

omit [Platform] in
theorem wroteAll_iff (d : Deed lang Choice) : WroteAll d ↔ unwritten d = 0 := by
  rw [WroteAll.eq_def, unwritten.eq_def]
  split
  · omega
  · simp

instance (d : Deed lang Choice) : Decidable (WroteAll d) := decidable_of_iff' _ (wroteAll_iff d)

end Defs

section Proofs

variable [Platform] {w w' : World} {l : List (Deed lang Choice)} {path : PathBuf}

/-- Everything the writer was given is in the file or in the buffer. -/
structure Wrote (w : World) (writer : BufWriter path) (bs : Bytes) : Prop where
  file : ∃ file, w.fs.bytes (loc path) = some file ∧ file.length = writer.offset ∧
    file ++ writer.buf = bs

/-- A write behind the end of the file that succeeds. -/
theorem bytes_writeAt {file bs : Bytes} {u : Unit} (hf : w.fs.bytes (loc path) = some file)
    (h : (fs (.writeAt path file.length bs)).run.Runs Op.exec w l (.ok u) w') :
    w'.fs.bytes (loc path) = some (file ++ bs) := by
  obtain ⟨c, he, -⟩ := runs_perform.mp h
  rw [← overwrite_end]
  exact exec_writeAt he hf

theorem Wrote.flushBuf {writer writer' : BufWriter path} {bs : Bytes} (hw : Wrote w writer bs)
    (h : writer.flushBuf.run.Runs Op.exec w l (.ok writer') w') :
    Wrote w' writer' bs ∧ writer'.buf = [] := by
  obtain ⟨file, hf, size, all⟩ := hw.file
  unfold BufWriter.flushBuf at h
  split at h
  · next empty =>
      obtain ⟨-, e, rfl⟩ := runs_ret.mp h
      cases e
      exact ⟨hw, empty⟩
  · obtain ⟨l₁, u, w₁, l₂, h₁, h₂, rfl⟩ | ⟨e, -, e'⟩ := runs_bindE.mp h
    · obtain ⟨-, e, rfl⟩ := runs_ret.mp h₂
      cases e
      rw [← size] at h₁
      refine ⟨⟨file ++ writer.buf, bytes_writeAt hf h₁, ?_, ?_⟩, rfl⟩
      · rw [List.length_append, size]
      · rw [List.append_nil, all]
    · cases e'

/-- A piece that goes to the buffer. -/
theorem Wrote.buffer {writer : BufWriter path} {bs : Bytes} (hw : Wrote w writer bs)
    (piece : Bytes) :
    Wrote w (⟨writer.offset, writer.buf ++ piece⟩ : BufWriter path) (bs ++ piece) ∧
      (piece ≠ [] → piece.length < BUF_CAPACITY → writer.buf ++ piece ≠ []) := by
  obtain ⟨file, hf, size, all⟩ := hw.file
  refine ⟨⟨file, hf, size, ?_⟩, fun hne _ => List.append_ne_nil_of_right_ne_nil _ hne⟩
  rw [← List.append_assoc, all]

/-- Writing a piece. A short one stays in the buffer. -/
theorem Wrote.writeAll {writer writer' : BufWriter path} {bs piece : Bytes}
    (hw : Wrote w writer bs) (h : (writer.writeAll piece).run.Runs Op.exec w l (.ok writer') w') :
    Wrote w' writer' (bs ++ piece) ∧
      (piece ≠ [] → piece.length < BUF_CAPACITY → writer'.buf ≠ []) := by
  unfold BufWriter.writeAll at h
  split at h
  · obtain ⟨-, e, rfl⟩ := runs_ret.mp h
    cases e
    exact hw.buffer piece
  · obtain ⟨l₁, writer₁, w₁, l₂, h₁, h₂, rfl⟩ | ⟨e, -, e'⟩ := runs_bindE.mp h
    · -- The buffer has been flushed where the piece did not fit behind it.
      have room : Wrote w₁ writer₁ bs ∧ (BUF_CAPACITY ≤ piece.length → writer₁.buf = []) := by
        unfold BufWriter.makeRoom at h₁
        split at h₁
        · obtain ⟨hw₁, empty⟩ := hw.flushBuf h₁
          exact ⟨hw₁, fun _ => empty⟩
        · obtain ⟨-, e, rfl⟩ := runs_ret.mp h₁
          cases e
          refine ⟨hw, fun hlong => List.eq_nil_of_length_eq_zero ?_⟩
          have pos : 0 < BUF_CAPACITY := by decide
          omega
      obtain ⟨hw₁, empty⟩ := room
      obtain ⟨file, hf, size, all⟩ := hw₁.file
      split at h₂
      · next long =>
          obtain ⟨l₃, u, w₂, l₄, h₃, h₄, rfl⟩ | ⟨e, -, e'⟩ := runs_bindE.mp h₂
          · obtain ⟨-, e, rfl⟩ := runs_ret.mp h₄
            cases e
            rw [← size] at h₃
            refine ⟨⟨file ++ piece, bytes_writeAt hf h₃, ?_, ?_⟩, fun _ hshort => by omega⟩
            · rw [List.length_append, size]
            · rw [empty long, List.append_nil] at all ⊢
              rw [all]
          · cases e'
      · obtain ⟨-, e, rfl⟩ := runs_ret.mp h₂
        cases e
        exact hw₁.buffer piece
    · cases e'

theorem Wrote.writePieces {pieces : List Bytes} {writer writer' : BufWriter path} {bs : Bytes}
    (hw : Wrote w writer bs)
    (h : (writer.writePieces pieces).run.Runs Op.exec w l (.ok writer') w') :
    Wrote w' writer' (bs ++ pieces.flatten) ∧
      ∀ piece, pieces.getLast? = some piece → piece ≠ [] → piece.length < BUF_CAPACITY →
        writer'.buf ≠ [] := by
  induction pieces generalizing writer bs w l with
  | nil =>
      obtain ⟨-, e, rfl⟩ := runs_ret.mp h
      cases e
      rw [List.flatten_nil, List.append_nil]
      exact ⟨hw, nofun⟩
  | cons piece pieces ih =>
      obtain ⟨l₁, writer₁, w₁, l₂, h₁, h₂, rfl⟩ | ⟨e, -, e'⟩ := runs_bindE.mp h
      · obtain ⟨hw₁, stays⟩ := hw.writeAll h₁
        obtain ⟨hw₂, last⟩ := ih hw₁ h₂
        rw [List.flatten_cons, ← List.append_assoc]
        refine ⟨hw₂, fun p hp => ?_⟩
        cases pieces with
        | nil =>
            obtain rfl : piece = p := Option.some.inj hp
            obtain ⟨-, e, -⟩ := runs_ret.mp h₂
            cases e
            exact stays
        | cons piece' pieces =>
            rw [List.getLast?_cons_cons] at hp
            exact last p hp
      · cases e'

omit [Platform] in
/-- The last piece of an encoding is the one byte of `public`. -/
theorem getLast?_enc (m : FileMetadata) :
    ∃ b : UInt8, (FileMetadata.codec.enc m).getLast? = some [b] := by
  have bool : ∀ b : Bool, ∃ x : UInt8, Cbor.bool.enc b = [[x]] := by
    intro b
    cases b <;> exact ⟨_, rfl⟩
  obtain ⟨x, hx⟩ := bool m.isPublic
  refine ⟨x, ?_⟩
  simp [FileMetadata.codec, Cbor.struct, Cbor.field, Codec.retract, Codec.pair, hx,
    List.getLast?_append]

/-- The write when the writer is dropped. -/
theorem complete_drop {writer : BufWriter path} {bs : Bytes} (hw : Wrote w writer bs)
    (hbuf : writer.buf ≠ []) {r : Except IoError (BufWriter path)}
    (h : writer.flushBuf.run.Runs Op.exec w l r w') :
    (w'.fs.bytes (loc path) = some bs ↔ ∀ d ∈ l.getLast?, WroteAll d) ∧ l ≠ [] := by
  obtain ⟨file, hf, size, all⟩ := hw.file
  unfold BufWriter.flushBuf at h
  rw [if_neg hbuf] at h
  have written : ∀ {l : List (Deed lang Choice)} {r : Except IoError Unit},
      (fs (.writeAt path writer.offset writer.buf)).run.Runs Op.exec w l r w' →
        (w'.fs.bytes (loc path) = some bs ↔ ∀ d ∈ l.getLast?, WroteAll d) ∧ l ≠ [] := by
    intro l r h
    obtain ⟨c, he, rfl⟩ := runs_perform.mp h
    refine ⟨?_, nofun⟩
    rw [List.getLast?_singleton]
    have after : ∀ n, (w.fs.setBytes (loc path) (overwrite file writer.offset
        (writer.buf.take n))).bytes (loc path) = some (file ++ writer.buf.take n) := by
      intro n
      rw [← size, overwrite_end, bytes_setBytes, if_pos rfl]
    cases r with
    | ok u =>
        have whole : w'.fs.bytes (loc path) = some bs := by
          rw [← size] at he
          have := exec_writeAt he hf
          rwa [overwrite_end, all] at this
        refine iff_of_true whole fun d hd => ?_
        cases hd
        -- The answer `ok` belongs to the choice `ok`.
        cases c with
        | ioError e done => cases he
        | _ => trivial
    | error e =>
        obtain ⟨e', done, rfl⟩ : ∃ e' done, c = .ioError e' done := by
          cases c with
          | ioError e' done => exact ⟨e', done, rfl⟩
          | ok =>
              obtain ⟨⟨x, y⟩, hx, h⟩ := Option.map_eq_some_iff.mp he
              obtain ⟨_, _, h'⟩ := Option.map_eq_some_iff.mp hx
              cases h'
              cases h
          | _ => cases he
        cases he
        have partly : (FsOp.partialEffect w.fs done (.writeAt path writer.offset writer.buf)).bytes
            (loc path) = some (file ++ writer.buf.take done) := by
          simp only [FsOp.partialEffect, hf]
          exact after done
        have drop : (∀ d ∈ (some (Deed.op (L := lang) (.fs (.writeAt path writer.offset writer.buf))
            (.ioError e done) (.error e))), WroteAll d) ↔ writer.buf.length ≤ done :=
          ⟨fun h => h _ rfl, fun h d hd => by cases hd; exact h⟩
        show (FsOp.partialEffect w.fs done (.writeAt path writer.offset writer.buf)).bytes
          (loc path) = some bs ↔ _
        rw [partly, drop, ← all, Option.some.injEq, List.append_cancel_left_eq,
          List.take_eq_self_iff]
  obtain ⟨l₁, u, w₁, l₂, h₁, h₂, rfl⟩ | ⟨e, he, -⟩ := runs_bindE.mp h
  · obtain ⟨rfl, -, rfl⟩ := runs_ret.mp h₂
    rw [List.append_nil]
    exact written h₁
  · exact written he

/-- After an `Ok` the file holds the encoding exactly where the last write,
the one made when the writer is dropped, got all its bytes out. -/
theorem save_complete_iff {m m' : FileMetadata} (h : Saves m w l (.ok m') w') :
    Complete m w' ↔ ∀ d ∈ l.getLast?, WroteAll d := by
  have complete : Complete m w' ↔
      w'.fs.bytes (loc (metadataPath m.chunksDir)) = some m.toBytes := by
    constructor
    · rintro ⟨bs, hbs, rfl, -⟩
      exact hbs
    · exact fun hbs => ⟨_, hbs, rfl, Platform.decode_toBytes m⟩
  rw [complete]
  obtain ⟨l₁, u, w₁, l₂, h₁, h₂, rfl⟩ | ⟨e, -, e'⟩ := runs_bindA.mp h
  · obtain ⟨c, he, rfl⟩ := runs_perform.mp h₁
    have created : Wrote w₁ (⟨0, []⟩ : BufWriter (metadataPath m.chunksDir)) [] :=
      ⟨[], exec_createFile he, rfl, rfl⟩
    obtain ⟨l₃, writer, w₂, l₄, h₃, h₄, rfl⟩ | ⟨e, -, e'⟩ := runs_bindA.mp h₂
    · obtain ⟨hw, last⟩ := created.writePieces h₃
      obtain ⟨b, hb⟩ := getLast?_enc m
      have short : [b].length < BUF_CAPACITY := (by decide : 1 < BUF_CAPACITY)
      obtain ⟨l₅, r, w₃, l₆, h₅, h₆, rfl⟩ := runs_bindL.mp h₄
      obtain ⟨rfl, -, rfl⟩ := runs_ret.mp h₆
      obtain ⟨drop, ne⟩ := complete_drop hw (last [b] hb (List.cons_ne_nil _ _) short) h₅
      rw [List.append_nil, List.getLast?_append_of_ne_nil _ (List.append_ne_nil_of_right_ne_nil _ ne),
        List.getLast?_append_of_ne_nil _ ne]
      exact drop
    · cases e'
  · cases e'

end Proofs

section Example

open Reference

attribute [local instance] platform

/-- The metadata of a file of one byte. -/
def oneChunk : FileMetadata := metadataOf "f" [[7]]

/-- The directory it is saved to. -/
def emptyDir : World := newWorld (files [([], .dir), (["src"], .dir), (["src", "f_chunks"], .dir)]) 1

/-- The disk is full when the writer is dropped: `save_metadata` returns
`Ok`, and the file is empty. -/
theorem metadata_truncated :
    ∃ l w', Saves oneChunk emptyDir l (.ok oneChunk) w' ∧ ¬ Complete oneChunk w' := by
  have run : ∃ l r w', Saves oneChunk emptyDir l r w' ∧ r = .ok oneChunk ∧
      w'.fs.bytes ["src", "f_chunks", ".metadata"] = some [] :=
    exists_runs_of_play [.choice .ok, .choice (.ioError ⟨.writeZero, "No space left on device"⟩ 0)]
      (by decide +kernel)
  obtain ⟨l, r, w', h, rfl, empty⟩ := run
  refine ⟨l, w', h, ?_⟩
  rintro ⟨bs, hbs, hm, -⟩
  have place : loc (metadataPath oneChunk.chunksDir) = ["src", "f_chunks", ".metadata"] := by
    decide +kernel
  rw [place, empty] at hbs
  cases hbs
  exact absurd hm (by decide +kernel)

/-- Nothing fails: the metadata is there. -/
theorem save_complete_iff_oneChunk :
    ∃ l w', Saves oneChunk emptyDir l (.ok oneChunk) w' ∧ (∀ d ∈ l.getLast?, WroteAll d) ∧
      (Complete oneChunk w' ↔ ∀ d ∈ l.getLast?, WroteAll d) := by
  have run : ∃ l r w', Saves oneChunk emptyDir l r w' ∧ r = .ok oneChunk ∧
      ∀ d ∈ l.getLast?, WroteAll d :=
    exists_runs_of_play [.choice .ok, .choice .ok] (by decide +kernel)
  obtain ⟨l, r, w', h, rfl, all⟩ := run
  exact ⟨l, w', h, all, save_complete_iff h⟩

end Example

end RustDfs.SaveMetadata
