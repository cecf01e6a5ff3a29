import RustDfs.Lib.Utf8
import RustDfs.Proofs.KeyPortability

/-!
# `RustDfs.Proofs.HashedForm`: what the key of a file says about it

`Hash for FileMetadata` feeds a name, a count, a root and a flag to the
hasher, without any of the other fields. The bytes it feeds can be taken
apart again (`stream_inj`), so two metadata share their key exactly when
they agree in these four fields or the hasher collides: `hashed_form`.
-/

set_option autoImplicit false

namespace RustDfs.HashedForm

open Lib KeyPortability

/-- The chunk count is a `usize` of the machine. -/
def Fits (a : Arch) (m : FileMetadata) : Prop := m.totalChunks < 256 ^ a.pointerBytes

/-- The four fields that are hashed agree. -/
structure SameFile (m m' : FileMetadata) : Prop where
  originalFileName : m.originalFileName = m'.originalFileName
  totalChunks : m.totalChunks = m'.totalChunks
  merkleRoot : m.merkleRoot = m'.merkleRoot
  isPublic : m.isPublic = m'.isPublic

variable {P : Platform} {m m' : FileMetadata}

/-- The bytes of a `usize` spell one number. -/
theorem usizeBytes_inj {a : Arch} {n k : Nat} (hn : n < 256 ^ a.pointerBytes)
    (hk : k < 256 ^ a.pointerBytes) (h : a.usizeBytes n = a.usizeBytes k) : n = k := by
  have digits : beBytes a.pointerBytes n = beBytes a.pointerBytes k := by
    unfold Arch.usizeBytes at h
    split at h
    · exact List.reverse_injective h
    · exact h
  rw [← ofBeBytes_beBytes_of_lt hn, digits, ofBeBytes_beBytes_of_lt hk]

/-- The byte of a `bool` tells the two apart. -/
theorem flag_inj {a b : Bool} (h : [if a then (1 : UInt8) else 0] = [if b then 1 else 0]) :
    a = b := by
  cases a <;> cases b <;> simp at h ⊢

/-- The name ends at the first byte 255, and what follows it has a fixed
width. -/
theorem stream_inj (hm : Fits P.arch m) (hm' : Fits P.arch m') (h : stream P m = stream P m') :
    SameFile m m' := by
  rw [stream_eq, stream_eq] at h
  simp only [List.append_assoc, List.singleton_append] at h
  obtain ⟨name, rest⟩ := Cbor.utf8_terminated_inj h
  obtain ⟨count, rest⟩ := List.append_inj rest (by simp)
  have root := List.append_cancel_left rest
  obtain ⟨root, flag⟩ := List.append_inj root (by rw [m.merkleRoot.length_eq, m'.merkleRoot.length_eq])
  exact ⟨name, usizeBytes_inj hm hm' count, Octets.ext root, flag_inj flag⟩

theorem stream_congr (h : SameFile m m') : stream P m = stream P m' := by
  rw [stream_eq, stream_eq, h.originalFileName, h.totalChunks, h.merkleRoot, h.isPublic]

/-- The bytes fed to the hasher are equal exactly when name, chunk count,
root and flag are. Two metadata with one key agree in these fields or
are a collision of the hasher, and the other fields never count. -/
theorem hashed_form (P : Platform) (m m' : FileMetadata) (hm : Fits P.arch m)
    (hm' : Fits P.arch m') :
    (stream P m = stream P m' ↔ SameFile m m') ∧
      (keyOn P m = keyOn P m' ↔ SameFile m m' ∨ Collide P.finish (stream P m) (stream P m')) ∧
      ∀ dir proofs extension,
        keyOn P { m with
          chunksDir := dir, merkleProofs := proofs, chunkFileExtension := extension } =
          keyOn P m := by
  have unambiguous : stream P m = stream P m' ↔ SameFile m m' :=
    ⟨stream_inj hm hm', stream_congr⟩
  have keys : keyOn P m = keyOn P m' ↔ P.finish (stream P m) = P.finish (stream P m') :=
    Octets.ofU64_inj
  refine ⟨unambiguous, ?_, fun dir proofs extension => ?_⟩
  · rw [keys]
    constructor
    · intro h
      by_cases same : stream P m = stream P m'
      · exact .inl (unambiguous.mp same)
      · exact .inr ⟨same, h⟩
    · rintro (h | ⟨-, h⟩)
      · rw [stream_congr h]
      · exact h
  · rfl

section Example

open Reference

/-- A name that ends where another goes on is told apart from it. -/
theorem hashed_form_prefix :
    stream platform (metadataOf "f" [[7]]) ≠ stream platform (metadataOf "ff" [[7]]) := by
  have fits : ∀ name, Fits platform.arch (metadataOf name [[7]]) := by
    intro name
    show 1 < 256 ^ 8
    norm_num
  rw [Ne, (hashed_form platform _ _ (fits "f") (fits "ff")).1]
  intro h
  exact absurd h.originalFileName (by decide)

end Example

end RustDfs.HashedForm
