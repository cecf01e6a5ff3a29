import RustDfs.Lib.Bytes

/-!
# `RustDfs.Lib.Codec`: writers and readers that fit together

A `Codec` is a writer and a reader of one type. The writer gives the
byte strings it hands to its output one by one, as a buffered output
below it sees them; `bytes` is all of them together. The reader takes a
value off the front of a byte list and returns the rest. `dec_enc` is
the law: whatever follows, what was written is read back.

Codecs are put together with `pair`, `list` and `retract`; the law of
the result follows from the laws of the parts.
-/

set_option autoImplicit false

namespace RustDfs.Lib

/-- A writer and a reader of `α`. -/
structure Codec (α : Type) where
  enc : α → List Bytes
  dec : Bytes → Option (α × Bytes)
  dec_enc : ∀ a rest, dec ((enc a).flatten ++ rest) = some (a, rest)

namespace Codec

variable {α β : Type}

/-- Everything the writer writes. -/
def bytes (c : Codec α) (a : α) : Bytes := (c.enc a).flatten

/-- Read a byte list that holds one value and nothing else. -/
def decode (c : Codec α) (bs : Bytes) : Option α :=
  match c.dec bs with
  | some (a, []) => some a
  | _ => none

theorem decode_bytes (c : Codec α) (a : α) : c.decode (c.bytes a) = some a := by
  have := c.dec_enc a []
  rw [List.append_nil] at this
  simp only [decode, bytes, this]

theorem bytes_injective (c : Codec α) : Function.Injective c.bytes := fun a b h => by
  have := c.decode_bytes a
  rw [h, c.decode_bytes] at this
  exact (Option.some.inj this).symm

/-- One value after another. -/
def pair (c : Codec α) (d : Codec β) : Codec (α × β) where
  enc := fun (a, b) => c.enc a ++ d.enc b
  dec bs := do
    let (a, bs) ← c.dec bs
    let (b, bs) ← d.dec bs
    return ((a, b), bs)
  dec_enc := fun (a, b) rest => by
    simp [List.flatten_append, List.append_assoc, c.dec_enc, d.dec_enc]

/-- A codec carried along a map with a left inverse. -/
def retract (c : Codec β) (f : α → β) (g : β → Option α)
    (h : ∀ a, g (f a) = some a) : Codec α where
  enc a := c.enc (f a)
  dec bs := do
    let (b, bs) ← c.dec bs
    let a ← g b
    return (a, bs)
  dec_enc a rest := by simp [c.dec_enc, h]

/-- `n` values. -/
def decTimes (c : Codec α) : Nat → Bytes → Option (List α × Bytes)
  | 0, bs => some ([], bs)
  | n + 1, bs => do
      let (a, bs) ← c.dec bs
      let (as, bs) ← decTimes c n bs
      return (a :: as, bs)

theorem decTimes_enc (c : Codec α) (as : List α) (rest : Bytes) :
    c.decTimes as.length ((as.flatMap c.enc).flatten ++ rest) = some (as, rest) := by
  induction as with
  | nil => rfl
  | cons a as ih =>
      rw [List.flatMap_cons, List.flatten_append, List.append_assoc, List.length_cons]
      simp [decTimes, c.dec_enc, ih]

/-- A list, after a codec for its length. -/
def list (len : Codec Nat) (c : Codec α) : Codec (List α) where
  enc as := len.enc as.length ++ as.flatMap c.enc
  dec bs := do
    let (n, bs) ← len.dec bs
    decTimes c n bs
  dec_enc as rest := by
    simp only [List.flatten_append, List.append_assoc, len.dec_enc, Option.bind_eq_bind,
      Option.bind_some]
    exact decTimes_enc c as rest

/-- Nothing but a fixed text. -/
def literal (pieces : List Bytes) : Codec Unit where
  enc _ := pieces
  dec bs := if pieces.flatten <+: bs then some ((), bs.drop pieces.flatten.length) else none
  dec_enc _ rest := by simp

/-! ### Truncated values -/

/-- The reader takes what it needs and looks no further: more bytes behind
the rest change nothing. -/
def Extends (c : Codec α) : Prop :=
  ∀ bs a rest more, c.dec bs = some (a, rest) → c.dec (bs ++ more) = some (a, rest ++ more)

/-- A value whose bytes were cut off is not read. -/
theorem decode_take {c : Codec α} (h : c.Extends) {a : α} {n : Nat}
    (hn : n < (c.bytes a).length) : c.decode ((c.bytes a).take n) = none := by
  unfold decode
  split
  · next a' hdec =>
      have whole := h _ a' [] ((c.bytes a).drop n) hdec
      rw [List.take_append_drop, List.nil_append, ← List.append_nil (c.bytes a)] at whole
      have rest := (Prod.mk.inj (Option.some.inj ((c.dec_enc a []).symm.trans whole))).2
      have length := congrArg List.length rest
      rw [List.append_nil, List.length_drop] at length
      simp only [List.length_nil] at length
      omega
  · rfl

theorem pair_extends {c : Codec α} {d : Codec β} (hc : c.Extends) (hd : d.Extends) :
    (c.pair d).Extends := by
  intro bs ab rest more h
  obtain ⟨⟨a, bs₁⟩, ha, h⟩ := Option.bind_eq_some_iff.mp h
  obtain ⟨⟨b, bs₂⟩, hb, h⟩ := Option.bind_eq_some_iff.mp h
  cases h
  simp only [pair, hc _ _ _ more ha, hd _ _ _ more hb, Option.bind_eq_bind, Option.bind_some]
  rfl

theorem retract_extends {c : Codec β} {f : α → β} {g : β → Option α}
    {hg : ∀ a, g (f a) = some a} (hc : c.Extends) : (c.retract f g hg).Extends := by
  intro bs a rest more h
  obtain ⟨⟨b, bs₁⟩, hb, h⟩ := Option.bind_eq_some_iff.mp h
  obtain ⟨a', ha, h⟩ := Option.bind_eq_some_iff.mp h
  cases h
  simp only [retract, hc _ _ _ more hb, ha, Option.bind_eq_bind, Option.bind_some]
  rfl

theorem decTimes_append {c : Codec α} (hc : c.Extends) (n : Nat) {bs rest : Bytes} {as : List α}
    (h : c.decTimes n bs = some (as, rest)) (more : Bytes) :
    c.decTimes n (bs ++ more) = some (as, rest ++ more) := by
  induction n generalizing bs rest as with
  | zero =>
      cases h
      rfl
  | succ n ih =>
      obtain ⟨⟨a, bs₁⟩, ha, h⟩ := Option.bind_eq_some_iff.mp h
      obtain ⟨⟨as', bs₂⟩, has, h⟩ := Option.bind_eq_some_iff.mp h
      cases h
      simp only [decTimes, hc _ _ _ more ha, ih has, Option.bind_eq_bind, Option.bind_some]
      rfl

theorem list_extends {len : Codec Nat} {c : Codec α} (hl : len.Extends) (hc : c.Extends) :
    (list len c).Extends := by
  intro bs as rest more h
  obtain ⟨⟨n, bs₁⟩, hn, h⟩ := Option.bind_eq_some_iff.mp h
  simp only [list, hl _ _ _ more hn, Option.bind_eq_bind, Option.bind_some]
  exact decTimes_append hc n h more

theorem literal_extends (pieces : List Bytes) : (literal pieces).Extends := by
  intro bs a rest more h
  obtain ⟨hp, h⟩ := Option.ite_none_right_eq_some.mp h
  cases h
  show (if _ then _ else _) = _
  rw [if_pos (hp.trans (List.prefix_append _ _)), List.drop_append_of_le_length hp.length_le]

end Codec

end RustDfs.Lib
