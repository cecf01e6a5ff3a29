import Mathlib.Algebra.Order.Ring.Nat
import Mathlib.Data.Finset.Basic
import Mathlib.Data.List.Induction
import Mathlib.Tactic.Ring

/-!
# `RustDfs.Lib.Bytes`: fixed-width integers as byte lists

`beBytes w n` is the number `n` in `w` bytes, most significant byte
first; digits above the width are lost. `ofBeBytes` reads a byte list
back. The two round trips are `ofBeBytes_beBytes` (up to the width) and
`beBytes_ofBeBytes` (exact).

`Octets n` is a byte list of length `n`. It is ordered bytewise, which
for lists of one length is the order of the numbers they spell, and
`Octets 8` corresponds to `UInt64` (`ofU64`, `toU64`).
-/

set_option autoImplicit false

namespace RustDfs.Lib

abbrev Bytes := List UInt8

instance : LawfulBEq Bytes := inferInstance

/-- `n` in `w` bytes, most significant byte first. -/
def beBytes : Nat → Nat → Bytes
  | 0, _ => []
  | w + 1, n => beBytes w (n / 256) ++ [UInt8.ofNat n]

/-- The number a byte list spells, most significant byte first. -/
def ofBeBytes (bs : Bytes) : Nat := bs.foldl (fun acc b => acc * 256 + b.toNat) 0

@[simp] theorem beBytes_length (w n : Nat) : (beBytes w n).length = w := by
  induction w generalizing n with
  | zero => rfl
  | succ w ih => simp [beBytes, ih]

@[simp] theorem ofBeBytes_nil : ofBeBytes [] = 0 := rfl

/-- The last byte is the lowest digit. -/
theorem ofBeBytes_concat (bs : Bytes) (b : UInt8) :
    ofBeBytes (bs ++ [b]) = ofBeBytes bs * 256 + b.toNat := by
  simp [ofBeBytes]

/-- A byte list spells a number below the range of its width. -/
theorem ofBeBytes_lt (bs : Bytes) : ofBeBytes bs < 256 ^ bs.length := by
  induction bs using List.reverseRecOn with
  | nil => simp
  | append_singleton bs b ih =>
      rw [ofBeBytes_concat, List.length_append, List.length_singleton, pow_succ]
      have hb : b.toNat < 256 := b.toNat_lt
      omega

/-- Writing and reading back keeps the digits the width holds. -/
theorem ofBeBytes_beBytes (w n : Nat) : ofBeBytes (beBytes w n) = n % 256 ^ w := by
  induction w generalizing n with
  | zero => simp [beBytes, Nat.mod_one]
  | succ w ih =>
      have byte : (UInt8.ofNat n).toNat = n % 256 := by simp
      rw [beBytes, ofBeBytes_concat, ih, byte, Nat.pow_succ, Nat.mul_comm (256 ^ w) 256,
        Nat.mod_mul]
      ring

/-- A number that fits the width comes back unchanged. -/
theorem ofBeBytes_beBytes_of_lt {w n : Nat} (h : n < 256 ^ w) :
    ofBeBytes (beBytes w n) = n := by
  rw [ofBeBytes_beBytes, Nat.mod_eq_of_lt h]

/-- Reading a byte list and writing it at its own width gives it back. -/
theorem beBytes_ofBeBytes (bs : Bytes) : beBytes bs.length (ofBeBytes bs) = bs := by
  induction bs using List.reverseRecOn with
  | nil => rfl
  | append_singleton bs b ih =>
      have hb : b.toNat < 256 := b.toNat_lt
      have hdiv : (ofBeBytes bs * 256 + b.toNat) / 256 = ofBeBytes bs := by omega
      have hlow : UInt8.ofNat (ofBeBytes bs * 256 + b.toNat) = b := by
        apply UInt8.toNat_inj.mp
        rw [UInt8.toNat_ofNat']
        omega
      rw [List.length_append, List.length_singleton, beBytes, ofBeBytes_concat, hdiv, ih, hlow]

/-- Two byte lists of one length that spell one number are equal. -/
theorem ofBeBytes_inj {bs cs : Bytes} (hl : bs.length = cs.length)
    (h : ofBeBytes bs = ofBeBytes cs) : bs = cs := by
  rw [← beBytes_ofBeBytes bs, ← beBytes_ofBeBytes cs, hl, h]

/-! ### Byte strings of a fixed length -/

/-- A byte list of length `n`. -/
structure Octets (n : Nat) where
  bytes : Bytes
  length_eq : bytes.length = n
deriving DecidableEq

namespace Octets

variable {n : Nat}

@[ext] theorem ext {a b : Octets n} (h : a.bytes = b.bytes) : a = b := by
  cases a; cases b; cases h; rfl

/-- The number the bytes spell. -/
def toNat (a : Octets n) : Nat := ofBeBytes a.bytes

theorem toNat_inj {a b : Octets n} (h : a.toNat = b.toNat) : a = b :=
  ext (ofBeBytes_inj (a.length_eq.trans b.length_eq.symm) h)

instance : Ord (Octets n) := ⟨compareOn toNat⟩

instance : Std.TransOrd (Octets n) :=
  inferInstanceAs (Std.TransCmp (compareOn toNat))

instance : Std.LawfulEqOrd (Octets n) where
  eq_of_compare h := toNat_inj (Nat.compare_eq_eq.mp h)

/-- The eight bytes of a 64-bit number, most significant first. -/
def ofU64 (x : UInt64) : Octets 8 := ⟨beBytes 8 x.toNat, beBytes_length 8 x.toNat⟩

/-- The 64-bit number eight bytes spell. -/
def toU64 (a : Octets 8) : UInt64 := UInt64.ofNat a.toNat

@[simp] theorem toU64_ofU64 (x : UInt64) : (ofU64 x).toU64 = x := by
  apply UInt64.toNat_inj.mp
  have hx : x.toNat < 256 ^ 8 := by
    calc x.toNat < 2 ^ 64 := x.toNat_lt
      _ = 256 ^ 8 := by norm_num
  rw [toU64, toNat, ofU64, ofBeBytes_beBytes_of_lt hx, UInt64.ofNat_toNat]

@[simp] theorem ofU64_toU64 (a : Octets 8) : ofU64 a.toU64 = a := by
  have ha : a.toNat < 2 ^ 64 := by
    calc a.toNat < 256 ^ a.bytes.length := ofBeBytes_lt a.bytes
      _ = 2 ^ 64 := by rw [a.length_eq]; norm_num
  have hback : beBytes 8 (ofBeBytes a.bytes) = a.bytes := by
    have := beBytes_ofBeBytes a.bytes
    rwa [a.length_eq] at this
  apply ext
  simp only [ofU64, toU64, UInt64.toNat_ofNat_of_lt' ha]
  exact hback

theorem ofU64_inj {x y : UInt64} : ofU64 x = ofU64 y ↔ x = y :=
  ⟨fun h => by rw [← toU64_ofU64 x, h, toU64_ofU64], fun h => by rw [h]⟩

theorem toU64_inj {a b : Octets 8} : a.toU64 = b.toU64 ↔ a = b :=
  ⟨fun h => by rw [← ofU64_toU64 a, h, ofU64_toU64], fun h => by rw [h]⟩

end Octets

end RustDfs.Lib
