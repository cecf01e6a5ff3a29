import RustDfs.Lib.Merkle
import RustDfs.Model.Reference

/-!
# `RustDfs.Proofs.ChunkProofs`: the proofs of chunks

The publisher builds a Merkle tree over the hashes of the chunks and
stores a proof for each. The downloader checks a chunk against the root,
with the proof of its index. `RsMerkle` says what the tree and the proofs
are, in terms of `RustDfs.Lib.Merkle`.

`verifyChunk_agree` is the agreement of the two sides: each chunk passes
with its proof, and nothing else passes at its index, whatever the proof
bytes are, if no two of the byte strings hashed on the two sides collide.
-/

set_option autoImplicit false

namespace RustDfs.ChunkProofs

open Lib

section Proof

variable [Platform]

/-- A node of the tree: the hash of its two children. -/
def node (a b : Hash) : Hash := Platform.sha256 (a.bytes ++ b.bytes)

/-- What `rs_merkle` computes: the top of the tree, the nodes beside the
way of a leaf as bytes, and the way up from a claimed leaf. -/
class RsMerkle : Prop where
  merkleRoot : ∀ leaves : List Hash,
    Platform.merkleRoot leaves = Merkle.top node leaves.length leaves
  merkleProof : ∀ (leaves : List Hash) (i : Nat), i < leaves.length →
    Platform.merkleProof leaves i =
      (Merkle.path node leaves.length leaves i).flatMap Octets.bytes
  parseProof : ∀ hs : List Hash, Platform.parseProof (hs.flatMap Octets.bytes) = some hs
  verifyProof : ∀ (proof : List Hash) (root : Hash) (i : Nat) (leaf : Hash) (total : Nat),
    i < total → (Platform.verifyProof proof root i leaf total = true ↔
      Merkle.climb node total total i leaf proof = some root)

/-- The leaves of the tree over these chunks. -/
def leaves (cs : List Bytes) : List Hash := cs.map Platform.sha256

/-- The two children of a node as the bytes that are hashed. -/
def pairBytes (x : Hash × Hash) : Bytes := x.1.bytes ++ x.2.bytes

/-- Everything that is hashed when the tree over `cs` is built and when
the bytes `b` are checked at index `i` with the proof bytes `p`. -/
def hashed (cs : List Bytes) (b : Bytes) (i : Nat) (p : Bytes) : List Bytes :=
  cs ++ b :: (Merkle.treePairs node cs.length (leaves cs) ++
    Merkle.climbPairs node cs.length cs.length i (Platform.sha256 b)
      ((Platform.parseProof p).getD [])).map pairBytes

/-- No two of these byte strings have the same hash. -/
def CollisionFree (l : List Bytes) : Prop :=
  ∀ x ∈ l, ∀ y ∈ l, Platform.sha256 x = Platform.sha256 y → x = y

instance (l : List Bytes) : Decidable (CollisionFree l) :=
  inferInstanceAs (Decidable (∀ x ∈ l, ∀ y ∈ l, _ → _))

omit [Platform] in
/-- The bytes of two hashes determine them. -/
theorem pairBytes_inj {x y : Hash × Hash} (h : pairBytes x = pairBytes y) : x = y := by
  have lengths : x.1.bytes.length = y.1.bytes.length := by rw [x.1.length_eq, y.1.length_eq]
  obtain ⟨h₁, h₂⟩ := List.append_inj h lengths
  exact Prod.ext (Octets.ext h₁) (Octets.ext h₂)

/-- Nodes over bytes that do not collide determine their children. -/
theorem node_injOn {l : List Bytes} (hl : CollisionFree l) :
    Set.InjOn (Function.uncurry node) {x : Hash × Hash | pairBytes x ∈ l} := by
  intro x hx y hy h
  exact pairBytes_inj (hl _ hx _ hy h)

variable [RsMerkle]

/-- The tree over some chunks has a root. -/
theorem exists_merkleRoot {cs : List Bytes} (hcs : cs ≠ []) :
    ∃ root, Platform.merkleRoot (leaves cs) = some root := by
  rw [RsMerkle.merkleRoot]
  exact Merkle.exists_top node (Nat.le_refl _) (by simpa [leaves] using hcs)

/-- Completeness: a chunk passes with its own proof. -/
theorem verifyChunk_complete {cs : List Bytes} {i : Nat} {c : Bytes} {root : Hash}
    (hi : cs[i]? = some c) (hr : Platform.merkleRoot (leaves cs) = some root) :
    verifyChunk c i (Platform.merkleProof (leaves cs) i) root cs.length = some true := by
  have length : (leaves cs).length = cs.length := List.length_map _
  have hlt : i < cs.length := (List.getElem?_eq_some_iff.mp hi).1
  have leaf : (leaves cs)[i]? = some (Platform.sha256 c) := by
    rw [leaves, List.getElem?_map, hi]
    rfl
  have way := Merkle.climb_path node (Nat.le_refl _) leaf
  rw [RsMerkle.merkleRoot] at hr
  rw [hr, length] at way
  rw [verifyChunk, RsMerkle.merkleProof _ _ (by omega), RsMerkle.parseProof, Option.map_some,
    length]
  exact congrArg some ((RsMerkle.verifyProof _ root i _ _ hlt).mpr way)

/-- Soundness: what passes at the index of a chunk is the chunk, whatever
the proof is. -/
theorem verifyChunk_sound {cs : List Bytes} {i : Nat} {c b p : Bytes} {root : Hash}
    (hi : cs[i]? = some c) (hr : Platform.merkleRoot (leaves cs) = some root)
    (hfree : CollisionFree (hashed cs b i p))
    (h : verifyChunk b i p root cs.length = some true) : b = c := by
  have length : (leaves cs).length = cs.length := List.length_map _
  have hlt : i < cs.length := (List.getElem?_eq_some_iff.mp hi).1
  have leaf : (leaves cs)[i]? = some (Platform.sha256 c) := by
    rw [leaves, List.getElem?_map, hi]
    rfl
  obtain ⟨proof, hp, hv⟩ := Option.map_eq_some_iff.mp h
  have way := (RsMerkle.verifyProof proof root i _ _ hlt).mp hv
  rw [RsMerkle.merkleRoot, length] at hr
  have htree : ∀ x ∈ Merkle.treePairs node cs.length (leaves cs), pairBytes x ∈ hashed cs b i p := by
    intro x hx
    refine List.mem_append_right _ (List.mem_cons_of_mem _ (List.mem_map_of_mem ?_))
    exact List.mem_append_left _ hx
  have hclimb : ∀ x ∈ Merkle.climbPairs node cs.length (leaves cs).length i (Platform.sha256 b)
      proof, pairBytes x ∈ hashed cs b i p := by
    intro x hx
    refine List.mem_append_right _ (List.mem_cons_of_mem _ (List.mem_map_of_mem ?_))
    rw [hp]
    rw [length] at hx
    exact List.mem_append_right _ hx
  have hway : Merkle.climb node cs.length (leaves cs).length i (Platform.sha256 b) proof
      = Merkle.top node cs.length (leaves cs) := by
    rw [length]
    exact way.trans hr.symm
  have same : Platform.sha256 b = Platform.sha256 c :=
    Merkle.eq_of_climb node (node_injOn hfree) htree hclimb (Nat.le_of_eq length) leaf hway
  refine hfree b ?_ c ?_ same
  · exact List.mem_append_right _ List.mem_cons_self
  · exact List.mem_append_left _ (List.mem_of_getElem? hi)

/-- The publisher's proofs pass, and at the index of a chunk nothing but
the chunk does. -/
theorem verifyChunk_agree {cs : List Bytes} (hcs : cs ≠ []) :
    ∃ root, Platform.merkleRoot (leaves cs) = some root ∧ ∀ i c, cs[i]? = some c →
      verifyChunk c i (Platform.merkleProof (leaves cs) i) root cs.length = some true ∧
      ∀ b p, CollisionFree (hashed cs b i p) →
        verifyChunk b i p root cs.length = some true → b = c := by
  obtain ⟨root, hr⟩ := exists_merkleRoot hcs
  refine ⟨root, hr, fun i c hi => ⟨verifyChunk_complete hi hr, fun b p hfree h => ?_⟩⟩
  exact verifyChunk_sound hi hr hfree h

end Proof

section Example

open Reference

attribute [local instance] platform

/-- The bytes of hashes read back. -/
theorem hashes_flatMap (hs : List Hash) : hashes hs.length (hs.flatMap Octets.bytes) = some hs := by
  induction hs with
  | nil => rfl
  | cons h hs ih =>
      have length : h.bytes.length = 32 := h.length_eq
      have head : ((h :: hs).flatMap Octets.bytes).take 32 = h.bytes := by
        exact List.take_left' length
      have rest : ((h :: hs).flatMap Octets.bytes).drop 32 = hs.flatMap Octets.bytes := by
        exact List.drop_left' length
      rw [List.length_cons, hashes, dif_pos (by rw [head, length]), rest, ih]
      simp only [head]
      rfl

/-- The reference platform computes Merkle trees and checks their proofs. -/
instance rsMerkle : RsMerkle where
  merkleRoot _ := rfl
  merkleProof _ _ _ := rfl
  parseProof hs := by
    have length : (hs.flatMap Octets.bytes).length = hs.length * 32 := by
      induction hs with
      | nil => rfl
      | cons h hs ih =>
          have : h.bytes.length = 32 := h.length_eq
          rw [List.flatMap_cons, List.length_append, ih, List.length_cons]
          omega
    show hashes ((hs.flatMap Octets.bytes).length / 32) _ = _
    rw [length, Nat.mul_div_cancel _ (by omega)]
    exact hashes_flatMap hs
  verifyProof _ _ _ _ _ _ := beq_iff_eq

/-- The sides agree on a file of two chunks. -/
theorem verifyChunk_agree_two :
    ∃ root, Platform.merkleRoot (leaves [[7], [8]]) = some root ∧
      ∀ i c, ([[7], [8]] : List Bytes)[i]? = some c →
        verifyChunk c i (Platform.merkleProof (leaves [[7], [8]]) i) root 2 = some true ∧
        ∀ b p, CollisionFree (hashed [[7], [8]] b i p) →
          verifyChunk b i p root 2 = some true → b = c := by
  have some : ([[7], [8]] : List Bytes) ≠ [] := nofun
  exact verifyChunk_agree some

end Example

end RustDfs.ChunkProofs
