import RustDfs.Lib.Bytes

/-!
# `RustDfs.Lib.Sha256`: SHA-256

The hash function on byte lists, with words as natural numbers below
2^32.
-/

set_option autoImplicit false

namespace RustDfs.Lib.Sha256

/-- A word, from any number. -/
def word (n : Nat) : Nat := n % 4294967296

/-- Rotation to the right. -/
def rotr (x n : Nat) : Nat := word (x >>> n ||| x <<< (32 - n))

/-- The complement of a word. -/
def complement (x : Nat) : Nat := x ^^^ 4294967295

/-- The round constants. -/
def roundConstants : List Nat :=
  [0x428a2f98, 0x71374491, 0xb5c0fbcf, 0xe9b5dba5, 0x3956c25b, 0x59f111f1, 0x923f82a4, 0xab1c5ed5,
   0xd807aa98, 0x12835b01, 0x243185be, 0x550c7dc3, 0x72be5d74, 0x80deb1fe, 0x9bdc06a7, 0xc19bf174,
   0xe49b69c1, 0xefbe4786, 0x0fc19dc6, 0x240ca1cc, 0x2de92c6f, 0x4a7484aa, 0x5cb0a9dc, 0x76f988da,
   0x983e5152, 0xa831c66d, 0xb00327c8, 0xbf597fc7, 0xc6e00bf3, 0xd5a79147, 0x06ca6351, 0x14292967,
   0x27b70a85, 0x2e1b2138, 0x4d2c6dfc, 0x53380d13, 0x650a7354, 0x766a0abb, 0x81c2c92e, 0x92722c85,
   0xa2bfe8a1, 0xa81a664b, 0xc24b8b70, 0xc76c51a3, 0xd192e819, 0xd6990624, 0xf40e3585, 0x106aa070,
   0x19a4c116, 0x1e376c08, 0x2748774c, 0x34b0bcb5, 0x391c0cb3, 0x4ed8aa4a, 0x5b9cca4f, 0x682e6ff3,
   0x748f82ee, 0x78a5636f, 0x84c87814, 0x8cc70208, 0x90befffa, 0xa4506ceb, 0xbef9a3f7, 0xc67178f2]

/-- The eight working words. -/
structure State where
  a : Nat
  b : Nat
  c : Nat
  d : Nat
  e : Nat
  f : Nat
  g : Nat
  h : Nat

/-- The words a hash starts with. -/
def initial : State :=
  ⟨0x6a09e667, 0xbb67ae85, 0x3c6ef372, 0xa54ff53a, 0x510e527f, 0x9b05688c, 0x1f83d9ab, 0x5be0cd19⟩

/-- The next word of the message schedule, which holds the latest word
first. -/
def nextWord (ws : List Nat) : Nat :=
  let x := ws.getD 1 0
  let y := ws.getD 14 0
  let s₁ := rotr x 17 ^^^ rotr x 19 ^^^ x >>> 10
  let s₀ := rotr y 7 ^^^ rotr y 18 ^^^ y >>> 3
  word (s₁ + ws.getD 6 0 + s₀ + ws.getD 15 0)

/-- The schedule, `n` words longer. -/
def extend : Nat → List Nat → List Nat
  | 0, ws => ws
  | n + 1, ws => extend n (nextWord ws :: ws)

/-- One round. -/
def round (s : State) (kw : Nat × Nat) : State :=
  let S₁ := rotr s.e 6 ^^^ rotr s.e 11 ^^^ rotr s.e 25
  let ch := (s.e &&& s.f) ^^^ (complement s.e &&& s.g)
  let t₁ := s.h + S₁ + ch + kw.1 + kw.2
  let S₀ := rotr s.a 2 ^^^ rotr s.a 13 ^^^ rotr s.a 22
  let maj := (s.a &&& s.b) ^^^ (s.a &&& s.c) ^^^ (s.b &&& s.c)
  ⟨word (t₁ + S₀ + maj), s.a, s.b, s.c, word (s.d + t₁), s.e, s.f, s.g⟩

/-- The compression of one block of 16 words. -/
def compress (s : State) (block : List Nat) : State :=
  let schedule := (extend 48 block.reverse).reverse
  let r := (roundConstants.zip schedule).foldl round s
  ⟨word (s.a + r.a), word (s.b + r.b), word (s.c + r.c), word (s.d + r.d),
    word (s.e + r.e), word (s.f + r.f), word (s.g + r.g), word (s.h + r.h)⟩

/-- The first `n` words of a byte list. -/
def words : Nat → Bytes → List Nat
  | 0, _ => []
  | n + 1, bs => ofBeBytes (bs.take 4) :: words n (bs.drop 4)

/-- The message with its padding. -/
def pad (bs : Bytes) : Bytes :=
  bs ++ 0x80 :: List.replicate ((119 - bs.length % 64) % 64) 0 ++ beBytes 8 (bs.length * 8)

/-- The compression of `n` blocks. -/
def blocks : Nat → State → Bytes → State
  | 0, s, _ => s
  | n + 1, s, bs => blocks n (compress s (words 16 bs)) (bs.drop 64)

/-- SHA-256. -/
def hash (bs : Bytes) : Octets 32 :=
  let padded := pad bs
  let s := blocks (padded.length / 64) initial padded
  ⟨beBytes 4 s.a ++ beBytes 4 s.b ++ beBytes 4 s.c ++ beBytes 4 s.d ++
    beBytes 4 s.e ++ beBytes 4 s.f ++ beBytes 4 s.g ++ beBytes 4 s.h, by simp⟩

end RustDfs.Lib.Sha256
