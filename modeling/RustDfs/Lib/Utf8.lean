import RustDfs.Lib.Cbor

/-!
# `RustDfs.Lib.Utf8`: texts that end with a terminator

The bytes of a text stay below 248 (`lt_of_mem_utf8`), so a text followed
by the byte 255 can be told from whatever follows it: `utf8_terminated_inj`.
-/

set_option autoImplicit false

namespace RustDfs.Lib.Cbor

theorem utf8_eq_flatMap (s : String) : utf8 s = s.toList.flatMap String.utf8EncodeChar := by
  have bytes : s.toByteArray = (s.toList.flatMap String.utf8EncodeChar).toByteArray := by
    rw [← String.utf8Encode_toList]
    rfl
  rw [utf8, String.toUTF8_eq_toByteArray, bytes, List.data_toByteArray]

/-- The lead byte of a character is below 248 and the others below 192. -/
theorem lt_of_mem_utf8EncodeChar {c : Char} {b : UInt8} (h : b ∈ String.utf8EncodeChar c) :
    b.toNat < 248 := by
  have byte {n : Nat} (hn : n < 248) : (UInt8.ofNat n).toNat < 248 := by
    rw [UInt8.toNat_ofNat']
    omega
  unfold String.utf8EncodeChar at h
  simp only at h
  -- one case for each length of the encoding
  split at h
  · obtain rfl := List.mem_singleton.mp h
    exact byte (by omega)
  · split at h
    · simp only [List.mem_cons, List.not_mem_nil, or_false] at h
      obtain rfl | rfl := h <;> exact byte (by omega)
    · split at h
      · simp only [List.mem_cons, List.not_mem_nil, or_false] at h
        obtain rfl | rfl | rfl := h <;> exact byte (by omega)
      · simp only [List.mem_cons, List.not_mem_nil, or_false] at h
        obtain rfl | rfl | rfl | rfl := h <;> exact byte (by omega)

theorem lt_of_mem_utf8 {s : String} {b : UInt8} (h : b ∈ utf8 s) : b.toNat < 248 := by
  rw [utf8_eq_flatMap, List.mem_flatMap] at h
  obtain ⟨c, -, hb⟩ := h
  exact lt_of_mem_utf8EncodeChar hb

/-- No text holds the terminator. -/
theorem not_mem_utf8 (s : String) : (255 : UInt8) ∉ utf8 s := by
  intro h
  have : (255 : UInt8).toNat < 248 := lt_of_mem_utf8 h
  simp at this

theorem utf8_inj {s t : String} (h : utf8 s = utf8 t) : s = t := by
  have back := ofUtf8_utf8 s
  rw [h, ofUtf8_utf8] at back
  exact (Option.some.inj back).symm

/-- The first occurrence of a separator splits a list in one way. -/
theorem append_cons_inj {α : Type} {sep : α} {as bs xs ys : List α} (ha : sep ∉ as)
    (hb : sep ∉ bs) (h : as ++ sep :: xs = bs ++ sep :: ys) : as = bs ∧ xs = ys := by
  induction as generalizing bs with
  | nil =>
      cases bs with
      | nil => exact ⟨rfl, (List.cons.inj h).2⟩
      | cons b bs => exact absurd (List.cons.inj h).1 (List.ne_of_not_mem_cons hb)
  | cons a as ih =>
      cases bs with
      | nil => exact absurd (List.cons.inj h).1.symm (List.ne_of_not_mem_cons ha)
      | cons b bs =>
          obtain ⟨rfl, tail⟩ := List.cons.inj h
          have rest := ih (List.not_mem_of_not_mem_cons ha) (List.not_mem_of_not_mem_cons hb) tail
          exact ⟨by rw [rest.1], rest.2⟩

/-- A terminated text and what follows it are read off in one way. -/
theorem utf8_terminated_inj {s t : String} {xs ys : Bytes}
    (h : utf8 s ++ 255 :: xs = utf8 t ++ 255 :: ys) : s = t ∧ xs = ys := by
  obtain ⟨front, rest⟩ := append_cons_inj (not_mem_utf8 s) (not_mem_utf8 t) h
  exact ⟨utf8_inj front, rest⟩

end RustDfs.Lib.Cbor
