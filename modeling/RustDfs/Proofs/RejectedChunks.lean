import RustDfs.Conc.Runs
import RustDfs.Model.Reference
import RustDfs.Proofs.Effects
import RustDfs.Proofs.Footprints
import RustDfs.Proofs.Joins

/-!
# `RustDfs.Proofs.RejectedChunks`: the bytes of a chunk are checked first

`verify_and_save_file_chunk` reads the metadata of the download, looks up
the proof of the chunk, checks the bytes and writes them. Everything it
checks comes from peers.

`chunk_saved_or_rejected` says that it comes to its end on every input,
and when it ends well: it writes exactly the bytes it got after a proof
that holds, or leaves the files alone and returns an error. The one input
it does not stand is a proof that does not parse, where `verify_chunk`
panics (`malformed_proof_panics`).
-/

set_option autoImplicit false

namespace RustDfs.RejectedChunks

open Lib Conc Prog FileDownloadService Joins

section Defs

/-- A file operation that fails. -/
def fileError : Deed lang Choice → Bool
  | .op (.fs _) _ (.error _) => true
  | _ => false

/-- No file operation of the run fails. -/
def NoFileErrors (l : List (Deed lang Choice)) : Prop := ∀ d ∈ l, fileError d = false

instance (l : List (Deed lang Choice)) : Decidable (NoFileErrors l) :=
  inferInstanceAs (Decidable (∀ d ∈ l, _))

variable [Platform]

/-- The proof of a chunk parses and leads from the bytes to the root. -/
def Proves (m : FileMetadata) (c : Nat) (bytes : Bytes) : Prop :=
  ∃ proof ∈ m.merkleProofs[c]?, ∃ hashes ∈ Platform.parseProof proof,
    Platform.verifyProof hashes m.merkleRoot c (Platform.sha256 bytes) m.totalChunks = true

/-- The place of the file of a chunk. -/
def place (m : FileMetadata) (d : DownloadFileChunk) : Loc :=
  loc (d.targetDir.join (chunkFileName d.chunkId m.chunkFileExtension))

/-- How a call may end:

- `calm`: not in a panic;
- `accepted`: with `Ok` for bytes that are proved;
- `saved`: with `Ok` for no others, and then the bytes are in the file of
  the chunk and nothing else has changed;
- `rejected`: with an error and nothing changed. -/
structure Clean (m : FileMetadata) (d : DownloadFileChunk) (bytes : Bytes) (w w' : World)
    (r : Except TaskError Unit) : Prop where
  calm : r ≠ .error .panicked
  accepted : Proves m d.chunkId bytes → ∃ u, r = .ok u
  saved : ∀ u, r = .ok u → Proves m d.chunkId bytes ∧ w'.fs = w.fs.setBytes (place m d) bytes
  rejected : ∀ e, r = .error e → w'.fs = w.fs

/-- Every proof of the metadata for this chunk parses. -/
def Parses (m : FileMetadata) (c : Nat) : Prop :=
  ∀ proof ∈ m.merkleProofs[c]?, (Platform.parseProof proof).isSome

instance (m : FileMetadata) (c : Nat) : Decidable (Parses m c) :=
  inferInstanceAs (Decidable (∀ proof ∈ m.merkleProofs[c]?, _))

/-- The runs of the call. -/
abbrev Saves (d : DownloadFileChunk) (bytes : Bytes) (w : World) (l : List (Deed lang Choice))
    (r : Except TaskError Unit) (w' : World) : Prop :=
  (verifyAndSaveFileChunk d bytes).run.Runs Op.exec w l r w'

end Defs

section Proofs

variable [Platform] {m : FileMetadata} {d : DownloadFileChunk} {bytes data : Bytes}
  {w w' : World} {l : List (Deed lang Choice)}

/-- The call comes to its end, whatever its operations are answered. -/
theorem saves_returns (d : DownloadFileChunk) (bytes : Bytes) (w : World) :
    (verifyAndSaveFileChunk d bytes).run.Returns Op.exec (fun _ => True) w := by
  refine returns_of_prompt ?_ (verifyAndSaveFileChunk_joins d bytes) w
  refine within_bindE (within_adapt _ (readMetadata_within (prompt_fs _))) fun m => ?_
  split
  · trivial
  · split
    · refine within_adapt _ ((writeFile_within _ _).mono_ops fun o ho => ?_)
      cases ho with
      | createFile => exact prompt_fs _
      | writeAt offset bs => exact prompt_fs _
    · trivial
    · trivial

/-- Writing a file without errors. -/
theorem runs_writeFile {p : PathBuf} {r : Except IoError Unit}
    (h : (writeFile p bytes).run.Runs Op.exec w l r w') (hl : NoFileErrors l) :
    (∃ u, r = .ok u) ∧ w'.fs = w.fs.setBytes (loc p) bytes := by
  -- `fs::write` creates the file and writes it from the start.
  obtain ⟨l₁, u, w₁, l₂, h₁, h₂, rfl⟩ | ⟨e, hf, rfl⟩ := runs_bindE.mp h
  · obtain ⟨c₁, he₁, rfl⟩ := runs_perform.mp h₁
    obtain ⟨c₂, he₂, rfl⟩ := runs_perform.mp h₂
    cases r with
    | error e => cases hl _ (List.mem_append_right _ List.mem_cons_self)
    | ok u =>
        refine ⟨⟨u, rfl⟩, ?_⟩
        have created : w₁.fs = w.fs.setBytes (loc p) [] := by
          obtain ⟨x, hx, rfl⟩ := exec_fs_ok he₁ (by simp)
          simp only [FsOp.run, Option.ite_none_right_eq_some] at hx
          obtain ⟨-, hx⟩ := hx
          cases hx
          rfl
        obtain ⟨x, hx, rfl⟩ := exec_fs_ok he₂ (by simp)
        obtain ⟨old, hold, e⟩ := Option.map_eq_some_iff.mp hx
        cases e
        have empty : w₁.fs.bytes (loc p) = some [] := exec_createFile he₁
        rw [empty] at hold
        cases hold
        show w₁.fs.setBytes (loc p) (overwrite [] 0 bytes) = _
        rw [created, setBytes_setBytes, show overwrite [] 0 bytes = bytes from overwrite_end [] _]
  · obtain ⟨c, he, rfl⟩ := runs_perform.mp hf
    cases hl _ List.mem_cons_self

/-- A run that has read the metadata. -/
theorem runs_readMetadata {dir : PathBuf} {r : Except FileProcessingError FileMetadata}
    (hdata : w.fs.bytes (loc (metadataPath dir)) = some data)
    (hm : Platform.decodeMetadata data = .ok m)
    (h : (readMetadata dir).run.Runs Op.exec w l r w') (hl : NoFileErrors l) :
    r = .ok m ∧ w' = w := by
  obtain ⟨l₁, bs, w₁, l₂, h₁, h₂, rfl⟩ | ⟨e, hf, rfl⟩ := runs_bindA.mp h
  · obtain ⟨c, he, rfl⟩ := runs_perform.mp h₁
    replace he : Op.exec (.fs (.read (metadataPath dir))) c w = some (.ok bs, w₁) := he
    have read := exec_read he
    rw [hdata] at read
    cases read
    obtain ⟨x, hx, rfl⟩ := exec_fs_ok he nofun
    obtain ⟨_, _, e⟩ := Option.map_eq_some_iff.mp hx
    cases e
    rw [hm] at h₂
    obtain ⟨-, rfl, rfl⟩ := runs_ret.mp h₂
    exact ⟨rfl, rfl⟩
  · obtain ⟨c, he, rfl⟩ := runs_perform.mp hf
    cases hl _ List.mem_cons_self

/-- A run without file errors on a proof that parses. -/
theorem clean_of_parses (hdata : w.fs.bytes (loc (metadataPath d.targetDir)) = some data)
    (hm : Platform.decodeMetadata data = .ok m) (hp : Parses m d.chunkId)
    {r : Except TaskError Unit} (h : Saves d bytes w l r w') (hl : NoFileErrors l) :
    Clean m d bytes w w' r := by
  obtain ⟨l₁, m', w₁, l₂, h₁, h₂, rfl⟩ | ⟨e, hf, rfl⟩ := runs_bindA.mp h
  · have read := runs_readMetadata hdata hm h₁ fun d hd => hl d (List.mem_append_left _ hd)
    obtain ⟨hok, rfl⟩ := read
    cases hok
    split at h₂
    · next hproof =>
        -- There is no proof for this chunk: the call fails before it writes.
        obtain ⟨-, rfl, rfl⟩ := runs_ret.mp h₂
        refine ⟨nofun, fun ⟨proof, hin, _⟩ => ?_, nofun, fun _ _ => rfl⟩
        rw [hproof] at hin
        cases hin
    · next proof hproof =>
        split at h₂
        · next hv =>
            -- The proof holds: the chunk is written.
            obtain ⟨hashes, hparse, holds⟩ := Option.map_eq_some_iff.mp hv
            obtain ⟨l₃, y, w₂, l₄, h₃, h₄, rfl⟩ := runs_bind.mp h₂
            obtain ⟨⟨u, rfl⟩, written⟩ := runs_writeFile h₃ fun d hd =>
              hl d (List.mem_append_right _ (List.mem_append_left _ hd))
            obtain ⟨rfl, rfl, rfl⟩ := runs_ret.mp h₄
            exact ⟨nofun, fun _ => ⟨u, rfl⟩,
              fun _ _ => ⟨⟨proof, hproof, hashes, hparse, holds⟩, written⟩, nofun⟩
        · next hv =>
            -- The proof leads to another root: the call fails before it writes.
            obtain ⟨-, rfl, rfl⟩ := runs_ret.mp h₂
            refine ⟨nofun, fun proves => ?_, nofun, fun _ _ => rfl⟩
            obtain ⟨proof', hin, hashes, hparse, holds⟩ := proves
            cases hproof.symm.trans hin
            rw [verifyChunk, show Platform.parseProof proof = some hashes from hparse,
              Option.map_some, holds] at hv
            cases hv
        · next hv =>
            -- The proof does not parse, which is excluded here.
            have none : Platform.parseProof proof = none := Option.map_eq_none_iff.mp hv
            have some := hp proof hproof
            rw [none] at some
            cases some
  · have read := runs_readMetadata hdata hm hf hl
    cases read.1

/-- A proof that does not parse ends the call in a panic. -/
theorem panics_of_not_parses (hdata : w.fs.bytes (loc (metadataPath d.targetDir)) = some data)
    (hm : Platform.decodeMetadata data = .ok m) {proof : Bytes}
    (hproof : m.merkleProofs[d.chunkId]? = some proof) (hp : Platform.parseProof proof = none) :
    ∃ l, Saves d bytes w l (.error .panicked) w ∧ NoFileErrors l := by
  -- The metadata is read, and `unwrap` meets the proof.
  have read : Op.exec (.fs (.read (metadataPath d.targetDir))) .ok w = some (.ok data, w) :=
    exec_fs_run (Option.map_eq_some_iff.mpr ⟨data, hdata, rfl⟩)
  have verify : verifyChunk bytes d.chunkId proof m.merkleRoot m.totalChunks = none := by
    rw [verifyChunk, hp]
    rfl
  refine ⟨[.op (.fs (.read (metadataPath d.targetDir))) .ok (.ok data)], ?_, fun d hd => ?_⟩
  · refine runs_bindA.mpr (.inl ⟨_, m, w, [], ?_, ?_, (List.append_nil _).symm⟩)
    · refine runs_bindA.mpr (.inl ⟨_, data, w, [], runs_perform.mpr ⟨_, read, rfl⟩, ?_,
        (List.append_nil _).symm⟩)
      rw [hm]
      exact .ret
    · rw [hproof]
      dsimp only
      rw [verify]
      exact .ret
  · rw [List.mem_singleton.mp hd]
    rfl

/-- A file that can be written is written without errors. -/
theorem returns_writeFile {p : PathBuf} (h : Writable w.fs (loc p)) (bytes : Bytes) :
    (writeFile p bytes).run.Returns Op.exec (fun e => fileError e = false) w := by
  have create : (FsOp.createFile p).run w.fs = some ((), w.fs.setBytes (loc p) []) := if_pos h
  -- The file is there once it was created, so the write finds it.
  refine returns_bindE (returns_perform ⟨.ok, _, _, exec_fs_run create, rfl⟩) fun l u w₁ run _ => ?_
  obtain ⟨c, he, -⟩ := runs_perform.mp run
  have write : (FsOp.writeAt p 0 bytes).run w₁.fs
      = some ((), w₁.fs.setBytes (loc p) (overwrite [] 0 bytes)) :=
    Option.map_eq_some_iff.mpr ⟨[], exec_createFile he, rfl⟩
  exact returns_perform ⟨.ok, _, _, exec_fs_run write, rfl⟩

/-- Where the file of the chunk can be written, the call comes to its end
without file errors. -/
theorem saves_returns_clean (hdata : w.fs.bytes (loc (metadataPath d.targetDir)) = some data)
    (hm : Platform.decodeMetadata data = .ok m) (hplace : Writable w.fs (place m d)) :
    (verifyAndSaveFileChunk d bytes).run.Returns Op.exec (fun e => fileError e = false) w := by
  have read : (FsOp.read (metadataPath d.targetDir)).run w.fs = some (data, w.fs) :=
    Option.map_eq_some_iff.mpr ⟨data, hdata, rfl⟩
  refine returns_bindA (returns_bindA (returns_perform ⟨.ok, _, _, exec_fs_run read, rfl⟩)
    fun l bs w' _ _ => ?_) fun l m' w' run hl => ?_
  · split <;> trivial
  · obtain ⟨hok, rfl⟩ := runs_readMetadata hdata hm run hl
    cases hok
    split
    · trivial
    · split
      · exact returns_adapt (returns_writeFile hplace bytes)
      · trivial
      · trivial

/-- The call comes to its end on every input, and without file errors where
the file of the chunk can be written. Exactly where the proof of the chunk
parses, every such run ends well, whatever bytes the peer sent. -/
theorem chunk_saved_or_rejected
    (hdata : w.fs.bytes (loc (metadataPath d.targetDir)) = some data)
    (hm : Platform.decodeMetadata data = .ok m) :
    (verifyAndSaveFileChunk d bytes).run.Returns Op.exec (fun _ => True) w ∧
    (Writable w.fs (place m d) →
      (verifyAndSaveFileChunk d bytes).run.Returns Op.exec (fun e => fileError e = false) w) ∧
    ((∀ l r w', Saves d bytes w l r w' → NoFileErrors l → Clean m d bytes w w' r) ↔
      Parses m d.chunkId) := by
  refine ⟨saves_returns d bytes w, saves_returns_clean hdata hm, ?_, ?_⟩
  · intro h proof hproof
    -- A proof that does not parse has a run that panics, and `calm` excludes it.
    by_contra hnone
    rw [Bool.not_eq_true, Option.isSome_eq_false_iff, Option.isNone_iff_eq_none] at hnone
    obtain ⟨l, run, hl⟩ : ∃ l, Saves d bytes w l (.error .panicked) w ∧ NoFileErrors l :=
      panics_of_not_parses hdata hm hproof hnone
    exact (h l _ w run hl).calm rfl
  · intro hp l r w' run hl
    exact clean_of_parses hdata hm hp run hl

end Proofs

section Example

open Reference

attribute [local instance] platform

/-- One chunk, with a proof of one byte. -/
def malformed : FileMetadata :=
  { metadataOf "f" [[7]] with
    chunksDir := ⟨"/d/f_chunks"⟩
    merkleProofs := [[0]] }

/-- A node that has saved this metadata. -/
def saved (m : FileMetadata) : World :=
  newWorld (files [([], .dir), (["d"], .dir), (["d", "f_chunks"], .dir),
    (["d", "f_chunks", ".metadata"], .file m.toBytes)]) 1

/-- The one chunk of the file. -/
def chunkZero (m : FileMetadata) : DownloadFileChunk := ⟨m.key.toU64, 0, ⟨"/d/f_chunks"⟩⟩

theorem saved_metadata (m : FileMetadata) :
    (saved m).fs.bytes (loc (metadataPath ⟨"/d/f_chunks"⟩)) = some m.toBytes := by
  have place : loc (metadataPath ⟨"/d/f_chunks"⟩) = ["d", "f_chunks", ".metadata"] := by decide
  rw [place]
  rfl

/-- Any bytes for the chunk of this metadata end in a panic. -/
theorem malformed_proof_panics :
    ∃ w l r w', w.fs.bytes (loc (metadataPath ⟨"/d/f_chunks"⟩)) = some malformed.toBytes ∧
      Saves (chunkZero malformed) [7] w l r w' ∧ NoFileErrors l ∧
      ¬ Clean malformed (chunkZero malformed) [7] w w' r := by
  have parse : Platform.parseProof [0] = none := by decide
  obtain ⟨l, run, hl⟩ : ∃ l, Saves (chunkZero malformed) [7] (saved malformed) l (.error .panicked)
      (saved malformed) ∧ NoFileErrors l :=
    panics_of_not_parses (saved_metadata malformed) (platform.decode_toBytes malformed) rfl parse
  exact ⟨_, l, _, _, saved_metadata malformed, run, hl, fun h => h.calm rfl⟩

/-- One chunk as it was published: its bytes are saved, and nothing a peer
answers does harm. -/
theorem chunk_saved_or_rejected_oneChunk :
    Parses oneByte 0 ∧
      (∃ l w', Saves (chunkZero oneByte) [7] (saved oneByte) l (.ok ()) w' ∧ NoFileErrors l ∧
        w'.fs = (saved oneByte).fs.setBytes ["d", "f_chunks", "0.chunk"] [7]) ∧
      ∀ l r w', Saves (chunkZero oneByte) [7] (saved oneByte) l r w' → NoFileErrors l →
        Clean oneByte (chunkZero oneByte) [7] (saved oneByte) w' r := by
  have parses : Parses oneByte 0 := by decide +kernel
  have file : place oneByte (chunkZero oneByte) = ["d", "f_chunks", "0.chunk"] := by decide +kernel
  have writable : Writable (saved oneByte).fs (place oneByte (chunkZero oneByte)) := by
    rw [file]
    exact ⟨rfl, nofun⟩
  have proves : Proves oneByte 0 [7] :=
    ⟨[], by decide +kernel, [], by decide, by decide +kernel⟩
  obtain ⟨-, ends, clean⟩ := @chunk_saved_or_rejected _ oneByte (chunkZero oneByte) [7] _ _
    (saved_metadata oneByte) (platform.decode_toBytes oneByte)
  obtain ⟨l, r, w', run, hl⟩ := (ends writable).exists_runs
  have well := clean.mpr parses l r w' run hl
  obtain ⟨u, rfl⟩ := well.accepted proves
  refine ⟨parses, ⟨l, w', run, hl, ?_⟩, clean.mpr parses⟩
  rw [← file]
  exact (well.saved u rfl).2

end Example

end RustDfs.RejectedChunks
