import RustDfs.Lib.Codec

/-!
# `RustDfs.Lib.Cbor`: the CBOR items `serde_cbor` writes

A CBOR item starts with a head: a major type and a number. The writer
uses the shortest head for the number, then the payload: the bytes of a
text, the elements of an array, the entries of a map. A struct is a map
from its field names to its fields, in the order of their declaration.
-/

set_option autoImplicit false

namespace RustDfs.Lib.Cbor

/-- The head of an item of a major type with number `n`. No count, length
or `usize` reaches 2^64, where CBOR heads end; the last case only keeps
different numbers apart there too. -/
def encHead (major : Fin 8) (n : Nat) : Bytes :=
  let initial (info : Nat) := UInt8.ofNat (major.val * 32 + info)
  if n < 24 then [initial n]
  else if n < 256 ^ 1 then initial 24 :: beBytes 1 n
  else if n < 256 ^ 2 then initial 25 :: beBytes 2 n
  else if n < 256 ^ 4 then initial 26 :: beBytes 4 n
  else if n < 256 ^ 8 then initial 27 :: beBytes 8 n
  else initial 28 :: (List.replicate n 1 ++ [0])

/-- A head of a number below 2^64 takes at most nine bytes. -/
theorem encHead_length_le (major : Fin 8) {n : Nat} (h : n < 256 ^ 8) :
    (encHead major n).length ≤ 9 := by
  unfold encHead
  dsimp only
  split
  · simp
  split
  · simp
  split
  · simp
  split
  · simp
  · simp

/-- The number after an initial byte with additional information `info`. -/
def decNumber (info : Nat) (bs : Bytes) : Option (Nat × Bytes) :=
  let fixed (w : Nat) := if w ≤ bs.length then some (ofBeBytes (bs.take w), bs.drop w) else none
  if info < 24 then some (info, bs)
  else if info = 24 then fixed 1
  else if info = 25 then fixed 2
  else if info = 26 then fixed 4
  else if info = 27 then fixed 8
  else if info = 28 then
    let n := (bs.takeWhile (· == 1)).length
    if n < bs.length then some (n, bs.drop (n + 1)) else none
  else none

/-- The head of an item of a major type. -/
def decHead (major : Fin 8) : Bytes → Option (Nat × Bytes)
  | [] => none
  | b :: bs => if b.toNat / 32 = major.val then decNumber (b.toNat % 32) bs else none

theorem decHead_initial (major : Fin 8) {info : Nat} (h : info < 32) (bs : Bytes) :
    decHead major (UInt8.ofNat (major.val * 32 + info) :: bs) = decNumber info bs := by
  have hlt := major.isLt
  have hb : (UInt8.ofNat (major.val * 32 + info)).toNat = major.val * 32 + info := by
    rw [UInt8.toNat_ofNat']
    omega
  have hdiv : (major.val * 32 + info) / 32 = major.val := by omega
  have hmod : (major.val * 32 + info) % 32 = info := by omega
  rw [decHead, hb, hdiv, hmod, if_pos rfl]

/-- A number of a fixed width is read back. -/
theorem ofBeBytes_take {w n : Nat} (h : n < 256 ^ w) (rest : Bytes) :
    (if w ≤ (beBytes w n ++ rest).length then
      some (ofBeBytes ((beBytes w n ++ rest).take w), (beBytes w n ++ rest).drop w)
      else none) = some (n, rest) := by
  have hl := beBytes_length w n
  rw [if_pos (by simp), List.take_left' hl, List.drop_left' hl, ofBeBytes_beBytes_of_lt h]

theorem decHead_encHead (major : Fin 8) (n : Nat) (rest : Bytes) :
    decHead major (encHead major n ++ rest) = some (n, rest) := by
  unfold encHead
  dsimp only
  split
  · next h =>
      rw [List.singleton_append, decHead_initial _ (by omega)]
      simp [decNumber, h]
  split
  · next h => rw [List.cons_append, decHead_initial _ (by omega)]; exact ofBeBytes_take h rest
  split
  · next h => rw [List.cons_append, decHead_initial _ (by omega)]; exact ofBeBytes_take h rest
  split
  · next h => rw [List.cons_append, decHead_initial _ (by omega)]; exact ofBeBytes_take h rest
  split
  · next h => rw [List.cons_append, decHead_initial _ (by omega)]; exact ofBeBytes_take h rest
  · have hlen : ((List.replicate n (1 : UInt8) ++ [0] ++ rest).takeWhile (· == 1)).length = n := by
      rw [List.append_assoc, List.takeWhile_append_of_pos (by simp)]
      simp
    have hdrop : (List.replicate n (1 : UInt8) ++ [0] ++ rest).drop (n + 1) = rest :=
      List.drop_left' (by simp)
    have hlt : n < (List.replicate n (1 : UInt8) ++ [0] ++ rest).length := by
      simp
    have hdec : ∀ bs, decNumber 28 bs = if (bs.takeWhile (· == 1)).length < bs.length then
        some ((bs.takeWhile (· == 1)).length, bs.drop ((bs.takeWhile (· == 1)).length + 1))
        else none := fun _ => rfl
    rw [List.cons_append, decHead_initial _ (by omega), hdec, hlen, if_pos hlt, hdrop]

/-- The head of an item of a major type, written in one piece. -/
def head (major : Fin 8) : Codec Nat where
  enc n := [encHead major n]
  dec := decHead major
  dec_enc n rest := by
    rw [List.flatten_singleton]
    exact decHead_encHead major n rest

/-- An unsigned integer. -/
def uint : Codec Nat := head 0

/-- A `u8`. -/
def byte : Codec UInt8 :=
  uint.retract UInt8.toNat (fun n => some (UInt8.ofNat n)) (by simp)

/-- The bytes of a text. -/
def utf8 (s : String) : Bytes := s.toUTF8.data.toList

/-- The text some bytes spell. -/
def ofUtf8 (bs : Bytes) : Option String := String.fromUTF8? ⟨bs.toArray⟩

theorem ofUtf8_utf8 (s : String) : ofUtf8 (utf8 s) = some s := by
  simp only [ofUtf8, utf8, Array.toArray_toList]
  exact dif_pos s.isValidUTF8

/-- A text: its length in bytes, then the bytes. -/
def text : Codec String where
  enc s := [encHead 3 (utf8 s).length, utf8 s]
  dec bs := do
    let (n, bs) ← decHead 3 bs
    if n ≤ bs.length then
      let s ← ofUtf8 (bs.take n)
      return (s, bs.drop n)
    else none
  dec_enc s rest := by
    have hf : [encHead 3 (utf8 s).length, utf8 s].flatten ++ rest
        = encHead 3 (utf8 s).length ++ (utf8 s ++ rest) := by simp
    rw [hf, decHead_encHead]
    simp [ofUtf8_utf8]

/-- `false` and `true` are the simple values 20 and 21. -/
def bool : Codec Bool :=
  (head 7).retract (fun b => if b then 21 else 20)
    (fun n => if n = 21 then some true else if n = 20 then some false else none)
    (by decide)

/-- An array of items. -/
def array {α : Type} (c : Codec α) : Codec (List α) := .list (head 4) c

/-- An array of `n` bytes. -/
def octets (n : Nat) : Codec (Octets n) :=
  (array byte).retract Octets.bytes
    (fun bs => if h : bs.length = n then some ⟨bs, h⟩ else none)
    (fun a => dif_pos a.length_eq)

/-- One field of a struct: its name, then its value. -/
def field {α : Type} (name : String) (c : Codec α) : Codec α :=
  ((Codec.literal (text.enc name)).pair c).retract (fun a => ((), a)) (fun p => some p.2)
    fun _ => rfl

/-- A struct of `n` fields. -/
def struct {α : Type} (n : Nat) (fields : Codec α) : Codec α :=
  ((Codec.literal [encHead 5 n]).pair fields).retract (fun a => ((), a)) (fun p => some p.2)
    fun _ => rfl

/-- What a struct of two fields writes. -/
theorem struct_two {α β : Type} (x y : String) (c : Codec α) (d : Codec β) (a : α) (b : β) :
    (struct 2 ((field x c).pair (field y d))).bytes (a, b) =
      (encHead 5 2 ++ (text.enc x).flatten) ++ (c.enc a).flatten ++
        ((text.enc y).flatten ++ (d.enc b).flatten) := by
  simp [Codec.bytes, struct, field, Codec.retract, Codec.pair, Codec.literal]

/-- A form of `n` bytes, each written as a number. -/
theorem octets_length_le {n : Nat} (h : n < 256 ^ 8) (a : Octets n) :
    ((octets n).enc a).flatten.length ≤ 9 + n * 9 := by
  have head := encHead_length_le 4 h
  have bytes : ∀ bs : Bytes, (bs.flatMap byte.enc).flatten.length ≤ bs.length * 9 := by
    intro bs
    induction bs with
    | nil => simp
    | cons b bs ih =>
        have one : (byte.enc b).flatten.length ≤ 9 := by
          have := encHead_length_le 0 (n := b.toNat) (by have := b.toNat_lt; omega)
          simpa [byte, uint, Cbor.head, Codec.retract] using this
        rw [List.flatMap_cons, List.flatten_append, List.length_append, List.length_cons]
        omega
  have all := bytes a.bytes
  rw [a.length_eq] at all
  have split : ((octets n).enc a).flatten = encHead 4 n ++ (a.bytes.flatMap byte.enc).flatten := by
    simp [octets, array, Codec.list, Codec.retract, Cbor.head, a.length_eq]
  rw [split, List.length_append]
  omega

/-! ### Truncated items -/

open Codec

theorem decNumber_append {info n : Nat} {bs rest : Bytes} (h : decNumber info bs = some (n, rest))
    (more : Bytes) : decNumber info (bs ++ more) = some (n, rest ++ more) := by
  have fixed : ∀ w, (if w ≤ bs.length then some (ofBeBytes (bs.take w), bs.drop w) else none)
      = some (n, rest) → (if w ≤ (bs ++ more).length then
        some (ofBeBytes ((bs ++ more).take w), (bs ++ more).drop w) else none)
      = some (n, rest ++ more) := by
    intro w hw
    obtain ⟨hl, hw⟩ := Option.ite_none_right_eq_some.mp hw
    cases hw
    rw [if_pos (by rw [List.length_append]; omega), List.take_append_of_le_length hl,
      List.drop_append_of_le_length hl]
  unfold decNumber at h ⊢
  dsimp only at h ⊢
  split at h
  · rw [if_pos ‹_›]
    cases h
    rfl
  rw [if_neg ‹_›]
  split at h
  · rw [if_pos ‹_›]
    exact fixed 1 h
  rw [if_neg ‹_›]
  split at h
  · rw [if_pos ‹_›]
    exact fixed 2 h
  rw [if_neg ‹_›]
  split at h
  · rw [if_pos ‹_›]
    exact fixed 4 h
  rw [if_neg ‹_›]
  split at h
  · rw [if_pos ‹_›]
    exact fixed 8 h
  rw [if_neg ‹_›]
  split at h
  · rw [if_pos ‹_›]
    -- The ones end before the bytes do, so more bytes do not make them longer.
    obtain ⟨hl, h⟩ := Option.ite_none_right_eq_some.mp h
    have ones : (bs ++ more).takeWhile (· == 1) = bs.takeWhile (· == 1) := by
      rw [List.takeWhile_append, if_neg (by omega)]
    cases h
    rw [ones, if_pos (by rw [List.length_append]; omega), List.drop_append_of_le_length (by omega)]
  · cases h

theorem head_extends (major : Fin 8) : (head major).Extends := by
  intro bs n rest more h
  cases bs with
  | nil => cases h
  | cons b bs =>
      obtain ⟨hb, h⟩ := Option.ite_none_right_eq_some.mp h
      show (if _ then decNumber _ (bs ++ more) else none) = _
      rw [if_pos hb]
      exact decNumber_append h more

theorem byte_extends : byte.Extends := retract_extends (head_extends 0)

theorem text_extends : text.Extends := by
  intro bs s rest more h
  obtain ⟨⟨n, bs₁⟩, hn, h⟩ := Option.bind_eq_some_iff.mp h
  obtain ⟨hl, h⟩ := Option.ite_none_right_eq_some.mp h
  obtain ⟨s', hs, h⟩ := Option.bind_eq_some_iff.mp h
  cases h
  have hn' : decHead 3 (bs ++ more) = some (n, bs₁ ++ more) := head_extends 3 bs n bs₁ more hn
  simp only [text, hn', Option.bind_eq_bind, Option.bind_some, List.length_append,
    List.take_append_of_le_length hl, hs, List.drop_append_of_le_length hl]
  rw [if_pos (by omega)]
  rfl

theorem bool_extends : bool.Extends := retract_extends (head_extends 7)

theorem array_extends {α : Type} {c : Codec α} (h : c.Extends) : (array c).Extends :=
  list_extends (head_extends 4) h

theorem octets_extends (n : Nat) : (octets n).Extends :=
  retract_extends (array_extends byte_extends)

theorem field_extends {α : Type} {name : String} {c : Codec α} (h : c.Extends) :
    (field name c).Extends :=
  retract_extends (pair_extends (literal_extends _) h)

theorem struct_extends {α : Type} {n : Nat} {c : Codec α} (h : c.Extends) :
    (struct n c).Extends :=
  retract_extends (pair_extends (literal_extends _) h)

end RustDfs.Lib.Cbor
