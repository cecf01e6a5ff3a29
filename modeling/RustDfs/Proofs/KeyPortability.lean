import RustDfs.Model.Reference

/-!
# `RustDfs.Proofs.KeyPortability`: the key of a file on two machines

A file is known in the network by the key its metadata has on the node
that published it. `Hash for usize` feeds the bytes of the machine to the
hasher, for the chunk count and for the length in front of the root, so
the key depends on the machine: `key_portable` says exactly how. The ids
themselves cross the network in one byte order (`PublishedFileKey`).
-/

set_option autoImplicit false

namespace RustDfs.KeyPortability

open Lib

/-- A machine of 32 or 64 bits. -/
def Known (a : Arch) : Prop := a.pointerBytes = 4 ∨ a.pointerBytes = 8

/-- What a machine feeds to its hasher for the metadata. -/
def stream (P : Platform) (m : FileMetadata) : Bytes := @FileMetadata.hashBytes P m

/-- The key of the metadata on a machine. -/
def keyOn (P : Platform) (m : FileMetadata) : PublishedFileKey := @FileMetadata.key P m

/-- Two streams the hasher does not tell apart. -/
def Collide (finish : Bytes → UInt64) (a b : Bytes) : Prop := a ≠ b ∧ finish a = finish b

variable {P Q : Platform} {m : FileMetadata}

@[simp] theorem usizeBytes_length (a : Arch) (n : Nat) :
    (a.usizeBytes n).length = a.pointerBytes := by
  unfold Arch.usizeBytes
  split <;> simp

/-- The length of a root tells the known machines apart. -/
theorem usizeBytes_inj {a b : Arch} (ha : Known a) (hb : Known b)
    (h : a.usizeBytes 32 = b.usizeBytes 32) : a = b := by
  obtain ⟨p, e⟩ := a
  obtain ⟨q, f⟩ := b
  obtain rfl : p = q := by
    have length := congrArg List.length h
    rwa [usizeBytes_length, usizeBytes_length] at length
  cases e <;> cases f
  · rfl
  · obtain rfl | rfl : p = 4 ∨ p = 8 := ha <;> exact absurd h (by decide)
  · obtain rfl | rfl : p = 4 ∨ p = 8 := ha <;> exact absurd h (by decide)
  · rfl

/-- A stream is the name, the chunk count and the rest, which starts with
the length of the root. -/
theorem stream_eq (P : Platform) (m : FileMetadata) :
    stream P m = (Cbor.utf8 m.originalFileName ++ [255] ++ P.arch.usizeBytes m.totalChunks) ++
      (P.arch.usizeBytes 32 ++ (m.merkleRoot.bytes ++ [if m.isPublic then 1 else 0])) := by
  simp only [stream, FileMetadata.hashBytes, List.append_assoc]

/-- Different machines feed different streams. -/
theorem stream_inj (hP : Known P.arch) (hQ : Known Q.arch) (h : stream P m = stream Q m) :
    P.arch = Q.arch := by
  rw [stream_eq, stream_eq] at h
  have width : P.arch.pointerBytes = Q.arch.pointerBytes := by
    have length := congrArg List.length h
    simp only [List.length_append, usizeBytes_length] at length
    omega
  have front : (Cbor.utf8 m.originalFileName ++ [255] ++ P.arch.usizeBytes m.totalChunks).length
      = (Cbor.utf8 m.originalFileName ++ [255] ++ Q.arch.usizeBytes m.totalChunks).length := by
    simp only [List.length_append, usizeBytes_length, width]
  have rest := List.append_inj_right h front
  have root : P.arch.usizeBytes 32 = Q.arch.usizeBytes 32 :=
    List.append_inj_left rest (by simp only [usizeBytes_length, width])
  exact usizeBytes_inj hP hQ root

/-- Machines of one kind feed the same stream. -/
theorem stream_congr (h : P.arch = Q.arch) : stream P m = stream Q m := by
  rw [stream_eq, stream_eq, h]

theorem keyOn_eq_iff (hf : P.finish = Q.finish) :
    keyOn P m = keyOn Q m ↔ P.finish (stream P m) = P.finish (stream Q m) := by
  have ids : keyOn P m = keyOn Q m ↔ P.finish (stream P m) = Q.finish (stream Q m) :=
    Octets.ofU64_inj
  rw [ids, hf]

/-- Two machines with one hasher compute one key for a metadata exactly
when they have the same pointer width and byte order, or the hasher
happens to collide on their streams. -/
theorem key_portable (P Q : Platform) (hP : Known P.arch) (hQ : Known Q.arch)
    (hf : P.finish = Q.finish) (m : FileMetadata) :
    keyOn P m = keyOn Q m ↔ P.arch = Q.arch ∨ Collide P.finish (stream P m) (stream Q m) := by
  rw [keyOn_eq_iff hf]
  constructor
  · intro h
    by_cases same : stream P m = stream Q m
    · exact .inl (stream_inj hP hQ same)
    · exact .inr ⟨same, h⟩
  · rintro (h | ⟨-, h⟩)
    · rw [stream_congr h]
    · exact h

section Example

open Reference

/-- The reference machine with another architecture. -/
@[reducible] def on (a : Arch) : Platform := { platform with arch := a }

/-- A 32-bit and a 64-bit machine disagree about a file of one chunk. -/
theorem key_differs_on_32_bits :
    keyOn (on ⟨4, true⟩) (metadataOf "f" [[7]]) ≠ keyOn (on ⟨8, true⟩) (metadataOf "f" [[7]]) := by
  decide +kernel

/-- So do two 64-bit machines of different byte orders. -/
example :
    keyOn (on ⟨8, false⟩) (metadataOf "f" [[7]]) ≠ keyOn (on ⟨8, true⟩) (metadataOf "f" [[7]]) := by
  decide +kernel

/-- Two 64-bit machines agree, wherever they run. -/
theorem key_portable_64_bits :
    keyOn { platform with cwd := ["home"] } (metadataOf "f" [[7]])
      = keyOn platform (metadataOf "f" [[7]]) :=
  (key_portable { platform with cwd := ["home"] } platform (.inr rfl) (.inr rfl) rfl _).mpr
    (.inl rfl)

end Example

end RustDfs.KeyPortability
