import Std.Data.String.ToNat
import RustDfs.Model.FileProcessing

/-!
# `RustDfs.Proofs.Places`: where the files of a chunk directory stand

The names the node makes itself are normal names, so the place of each
file is one step below its directory. A chunk file name is normal when
the extension has no separator, and two chunks never share a name.
-/

set_option autoImplicit false

namespace RustDfs

open Lib

/-! ### Names -/

/-- A name without a separator in which something is not a dot. -/
theorem isNormal_of_mem {s : String} {c : Char} (h : '/' ∉ s.toList) (hc : c ∈ s.toList)
    (hdot : c ≠ '.') : PathBuf.IsNormal s := by
  refine ⟨?_, ?_, ?_, h⟩
  · rintro rfl
    cases hc
  · rintro rfl
    simp at hc
    exact hdot hc
  · rintro rfl
    simp at hc
    exact hdot hc

/-- A decimal number has digits and nothing else. -/
theorem toString_digits (n : Nat) : ∀ c ∈ (toString n).toList, c.isDigit = true := by
  intro c hc
  rw [show toString n = Nat.repr n from rfl, Nat.toList_repr] at hc
  exact Nat.isDigit_of_mem_toDigits (by omega) (by omega) hc

theorem toString_toList_ne_nil (n : Nat) : (toString n).toList ≠ [] := by
  rw [show toString n = Nat.repr n from rfl, Nat.toList_repr]
  exact Nat.toDigits_ne_nil

/-- Chunks with one extension have different names. -/
theorem chunkFileName_inj {c c' : Nat} {ext : String}
    (h : chunkFileName c ext = chunkFileName c' ext) : c = c' := by
  rw [chunkFileName, chunkFileName, String.append_left_inj, String.append_left_inj] at h
  exact Nat.repr_injective h

theorem isNormal_chunkFileName (c : Nat) {ext : String} (h : '/' ∉ ext.toList) :
    PathBuf.IsNormal (chunkFileName c ext) := by
  obtain ⟨d, hd⟩ := List.exists_mem_of_ne_nil _ (toString_toList_ne_nil c)
  have digit := toString_digits c d hd
  refine isNormal_of_mem (c := d) ?_ ?_ ?_
  · intro hs
    rw [chunkFileName, String.toList_append, String.toList_append, List.mem_append,
      List.mem_append] at hs
    obtain (hs | hs) | hs := hs
    · exact absurd (toString_digits c _ hs) (by decide)
    · exact absurd hs (by decide)
    · exact h hs
  · rw [chunkFileName, String.toList_append, String.toList_append]
    exact List.mem_append_left _ (List.mem_append_left _ hd)
  · rintro rfl
    exact absurd digit (by decide)

/-- No chunk file is the metadata file. -/
theorem chunkFileName_ne_metadata (c : Nat) (ext : String) :
    chunkFileName c ext ≠ METADATA_FILE_NAME := by
  intro h
  obtain ⟨d, ds, hd⟩ := List.exists_cons_of_ne_nil (toString_toList_ne_nil c)
  have digit := toString_digits c d (by rw [hd]; exact List.mem_cons_self)
  have head := congrArg (fun s => s.toList.head?) h
  simp only [chunkFileName, String.toList_append, hd, List.cons_append, List.head?_cons] at head
  have dot : d = '.' := Option.some.inj head
  rw [dot] at digit
  exact absurd digit (by decide)

/-- A chunk file name starts with a digit, whatever the extension. -/
theorem not_isAbsolute_chunkFileName (c : Nat) (ext : String) :
    PathBuf.isAbsolute ⟨chunkFileName c ext⟩ = false := by
  obtain ⟨d, ds, hd⟩ := List.exists_cons_of_ne_nil (toString_toList_ne_nil c)
  have digit := toString_digits c d (by rw [hd]; exact List.mem_cons_self)
  have slash : d ≠ '/' := by
    rintro rfl
    exact absurd digit (by decide)
  have front : (chunkFileName c ext).toList.head? = some d := by
    rw [chunkFileName, String.toList_append, String.toList_append, hd]
    rfl
  rw [PathBuf.isAbsolute, front]
  simpa using slash

theorem isNormal_metadata : PathBuf.IsNormal METADATA_FILE_NAME := by decide

/-- The last component of a path, where it is a name. -/
theorem isNormal_of_fileName {p : PathBuf} {name : String} (h : p.fileName = some name) :
    PathBuf.IsNormal name := by
  obtain ⟨hlast, hup⟩ := Option.filter_eq_some_iff.mp h
  have mem : name ∈ p.names := List.mem_of_getLast? hlast
  obtain ⟨hpiece, hblank⟩ := List.mem_filter.mp mem
  obtain ⟨cs, hcs, rfl⟩ := List.mem_map.mp hpiece
  have hsep := PathBuf.not_mem_of_mem_splitOn hcs
  simp only [PathBuf.blank, Bool.not_eq_true', Bool.or_eq_false_iff, beq_eq_false_iff_ne] at hblank
  exact ⟨hblank.1, hblank.2, by simpa using hup, by simpa using hsep⟩

/-- The name of a chunk directory of the node. -/
theorem isNormal_chunksDirName {name : String} (h : PathBuf.IsNormal name) :
    PathBuf.IsNormal (chunksDirName name) := by
  have chars : (chunksDirName name).toList
      = name.toList.map (fun c => if c = '.' then '_' else c) ++ "_chunks".toList := by
    rw [chunksDirName, FileMetadata.chunksDirNamePrefix, String.toList_append,
      String.toList_ofList]
  refine isNormal_of_mem (c := 's') ?_ ?_ (by decide)
  · rw [chars, List.mem_append]
    rintro (hs | hs)
    · obtain ⟨c, hc, he⟩ := List.mem_map.mp hs
      split at he
      · exact absurd he (by decide)
      · exact h.2.2.2 (he ▸ hc)
    · exact absurd hs (by decide)
  · rw [chars]
    exact List.mem_append_right _ (by decide)

/-- The name of a file that is being put together. -/
theorem isNormal_part {name : String} (h : PathBuf.IsNormal name) :
    PathBuf.IsNormal (name ++ ".part") := by
  refine isNormal_of_mem (c := 't') ?_ ?_ (by decide)
  · rw [String.toList_append, List.mem_append]
    rintro (hs | hs)
    · exact h.2.2.2 hs
    · exact absurd hs (by decide)
  · rw [String.toList_append]
    exact List.mem_append_right _ (by decide)

/-! ### Places -/

variable [Platform]

theorem loc_join {s : String} (h : PathBuf.IsNormal s) (p : PathBuf) :
    loc (p.join s) = loc p ++ [s] :=
  PathBuf.resolve_join_of_isNormal h _ p

/-- What a name is joined to is the place of the parent. -/
theorem parent_join {s : String} (h : PathBuf.IsNormal s) (p : PathBuf) :
    ∃ q, (p.join s).parent = some q ∧ loc q = loc p := by
  have names : (p.join s).names = p.names ++ [s] := by
    rw [PathBuf.names_join (PathBuf.not_isAbsolute_of_isNormal h), PathBuf.names_of_isNormal h]
  obtain ⟨q, hq, hl⟩ := PathBuf.resolve_parent names h.2.2.1 Platform.cwd
  refine ⟨q, hq, ?_⟩
  rw [loc, hl]
  show (loc (p.join s)).dropLast = _
  rw [loc_join h, List.dropLast_concat]

theorem loc_metadata (dir : PathBuf) : loc (metadataPath dir) = loc dir ++ [METADATA_FILE_NAME] :=
  loc_join isNormal_metadata dir

/-- The place of a path with a name at its end is one step below its
parent's. -/
theorem loc_parent {p q : PathBuf} {name : String} (h : p.fileName = some name)
    (hq : p.parent = some q) : loc p = loc q ++ [name] := by
  obtain ⟨hlast, hup⟩ := Option.filter_eq_some_iff.mp h
  have names := List.dropLast_append_getLast? name hlast
  obtain ⟨q', hq', hn, ha⟩ := PathBuf.parent_spec (p := p) (by rw [← names]; simp)
  cases hq.symm.trans hq'
  rw [loc, loc, PathBuf.resolve, ← names, List.foldl_append, PathBuf.resolve, hn, ha]
  simp only [List.foldl_cons, List.foldl_nil, PathBuf.walk]
  rw [if_neg (by simpa using hup)]

end RustDfs
