import Mathlib.Algebra.Order.Ring.Nat
import Mathlib.Data.List.Basic

/-!
# `RustDfs.Lib.Chunks`: a list cut into pieces of one length

`chunk n l i` is piece `i` of `l`, `n` elements long except for the
last. `chunkCount n l` is the number of pieces. The pieces in order are
the list again: `take_append_chunk` is the step, `take_chunkCount` says
when everything is there.
-/

set_option autoImplicit false

namespace RustDfs.Lib

variable {α : Type} (n : Nat) (l : List α)

/-- Piece `i` of a list cut into pieces of length `n`. -/
def chunk (i : Nat) : List α := (l.drop (i * n)).take n

/-- The number of pieces. -/
def chunkCount : Nat := (l.length + n - 1) / n

/-- The pieces of a list. -/
def chunks : List (List α) := (List.range (chunkCount n l)).map (chunk n l)

variable {n l}

/-- The pieces up to `i`, and one more. -/
theorem take_append_chunk (i : Nat) : l.take (i * n) ++ chunk n l i = l.take ((i + 1) * n) := by
  rw [chunk, Nat.succ_mul, List.take_add]

theorem lt_chunkCount (hn : 0 < n) (i : Nat) : i < chunkCount n l ↔ i * n < l.length := by
  rw [chunkCount, Nat.lt_iff_add_one_le, Nat.le_div_iff_mul_le hn, Nat.succ_mul]
  omega

/-- A piece beyond the end is empty, and no other is. -/
theorem chunk_eq_nil (hn : 0 < n) (i : Nat) : chunk n l i = [] ↔ chunkCount n l ≤ i := by
  rw [← Nat.not_lt, lt_chunkCount hn, chunk, List.take_eq_nil_iff, List.drop_eq_nil_iff]
  omega

/-- The pieces are the whole list. -/
theorem take_chunkCount (hn : 0 < n) : l.take (chunkCount n l * n) = l := by
  refine List.take_of_length_le ?_
  have := (lt_chunkCount (l := l) hn (chunkCount n l)).not.mp (Nat.lt_irrefl _)
  omega

@[simp] theorem length_chunks : (chunks n l).length = chunkCount n l := by
  rw [chunks, List.length_map, List.length_range]

theorem getElem?_chunks {i : Nat} (hi : i < chunkCount n l) :
    (chunks n l)[i]? = some (chunk n l i) := by
  rw [chunks, List.getElem?_map, List.getElem?_range hi]
  rfl

/-- The pieces of a list are the list when they are put together. -/
theorem flatten_chunks (hn : 0 < n) : (chunks n l).flatten = l := by
  have first : ∀ k, ((List.range k).map (chunk n l)).flatten = l.take (k * n) := by
    intro k
    induction k with
    | zero => simp
    | succ k ih =>
        rw [List.range_succ, List.map_append, List.flatten_append, ih, ← take_append_chunk]
        simp
  rw [chunks, first, take_chunkCount hn]

theorem chunks_ne_nil (hn : 0 < n) (hl : l ≠ []) : chunks n l ≠ [] := by
  intro h
  exact hl (by rw [← flatten_chunks (l := l) hn, h, List.flatten_nil])

/-- The first piece. -/
theorem exists_chunks_eq_cons (hn : 0 < n) (hl : l ≠ []) :
    ∃ pieces, chunks n l = l.take n :: pieces := by
  obtain ⟨piece, pieces, h⟩ := List.exists_cons_of_ne_nil (chunks_ne_nil hn hl)
  have some : 0 < chunkCount n l := by
    rw [← length_chunks, h]
    exact Nat.succ_pos _
  have first := getElem?_chunks some
  rw [h, List.getElem?_cons_zero, Option.some.injEq] at first
  rw [h, first, chunk, Nat.zero_mul, List.drop_zero]
  exact ⟨pieces, rfl⟩

/-- A list that is no longer than a piece is one piece. -/
theorem chunks_of_length_le (hn : 0 < n) (hl : l ≠ []) (h : l.length ≤ n) : chunks n l = [l] := by
  obtain ⟨pieces, hpieces⟩ := exists_chunks_eq_cons hn hl
  have count : (chunks n l).length ≤ 1 := by
    rw [length_chunks]
    refine Nat.le_of_not_lt fun more => ?_
    have := (lt_chunkCount hn 1).mp more
    omega
  rw [hpieces, List.length_cons] at count
  have last : pieces = [] := List.eq_nil_of_length_eq_zero (by omega)
  rw [hpieces, List.take_of_length_le h, last]

@[simp] theorem chunks_nil (hn : 0 < n) : chunks n ([] : List α) = [] := by
  refine List.eq_nil_of_length_eq_zero ?_
  rw [length_chunks, chunkCount, List.length_nil, Nat.zero_add]
  exact Nat.div_eq_of_lt (by omega)

/-- An entry of a list with one more element. -/
theorem getElem?_snoc {x y : α} {i : Nat} (h : (l ++ [x])[i]? = some y) :
    l[i]? = some y ∨ (i = l.length ∧ y = x) := by
  by_cases hi : i < l.length
  · rw [List.getElem?_append_left hi] at h
    exact .inl h
  · rw [List.getElem?_append_right (Nat.le_of_not_lt hi)] at h
    obtain ⟨hzero, hx⟩ := List.getElem?_eq_some_iff.mp h
    rw [List.length_singleton] at hzero
    exact .inr ⟨by omega, by simpa using hx.symm⟩

end RustDfs.Lib
