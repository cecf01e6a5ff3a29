import RustDfs.Model.Reference
import RustDfs.Proofs.Places
import RustDfs.Proofs.Rules
import RustDfs.Proofs.Tasks

/-!
# `RustDfs.Proofs.SameDirectory`: one directory for readers and writers

The directory of the chunks is kept twice: in the record and in the
metadata the directory holds. Writers of chunks go by the record,
readers by the metadata. `Agree` says that the two are the same path.

A save makes it so. What breaks it is a file that lands on a metadata
file without being one: the destination of a download is named by the
peer's metadata, and `restore_original_file` looks whether it is free
long before it renames (`agree_renamed`). `same_directory` covers
every run in which the metadata file of a record is changed by nothing
but saves for its directory.
-/

set_option autoImplicit false

namespace RustDfs.SameDirectory

open Lib Conc PathBuf

/-! ### Directories -/

/-- The chunk directories of the records. -/
def chunksDirs (s : Store) : List PathBuf :=
  s.published.toList.map (fun x => x.2.chunksDir) ++ s.pending.toList.map fun x => x.2.chunksDir

section Defs

variable [Platform]

/-- Where a metadata file decodes, it names the directory of the record. -/
def Agree (v : NodeView) : Prop :=
  ∀ d ∈ chunksDirs v.world.store, ∀ bs ∈ v.world.fs.bytes (loc (metadataPath d)),
    ∀ m ∈ (Platform.decodeMetadata bs).toOption, Same m.chunksDir d

instance (v : NodeView) : Decidable (Agree v) :=
  inferInstanceAs (Decidable (∀ d ∈ chunksDirs v.world.store,
    ∀ bs ∈ v.world.fs.bytes (loc (metadataPath d)), ∀ m ∈ (Platform.decodeMetadata bs).toOption, _))

/-- `serde_cbor` does not read a metadata that was cut off. -/
def RejectsTorn : Prop :=
  ∀ (m : FileMetadata) (n : Nat), n < m.toBytes.length →
    ∃ e, Platform.decodeMetadata (m.toBytes.take n) = .error e

/-! ### The condition -/

/-- Who saves the file at a place after an event: a call that creates the
file does, under its path. Whoever else changes the file ends that. -/
def saver (l : Loc) (own : Option (Slot × PathBuf)) : NodeEvent → Option (Slot × PathBuf)
  | .op i (.fs (.createFile p)) (.ok _) =>
      if loc p = l then (if i.isCall then some (i, p) else none) else own
  | .op i (.fs (.writeAt p _ _)) _ => if loc p = l ∧ own ≠ some (i, p) then none else own
  | .op _ (.fs (.rename p q)) (.ok _) => if loc p = l ∨ loc q = l then none else own
  | _ => own

/-- Who saved the file at a place last, if nobody else changed it since. -/
def owner (l : Loc) : List NodeEvent → Option (Slot × PathBuf)
  | [] => none
  | e :: h => saver l (owner l h) e

/-- A record was stored: its chunk directory. -/
def stored? : NodeEvent → Option PathBuf
  | .op _ (.store (.putPublishedFile r)) (.ok _) => some r.chunksDir
  | .op _ (.store (.putPendingDownload r)) (.ok _) => some r.chunksDir
  | _ => none

/-- The metadata file of the directory has an owner: a call created it under
the path of the directory, and nobody else has changed it since. -/
def Owned (d : PathBuf) (h : List NodeEvent) : Prop :=
  ∃ x ∈ owner (loc (metadataPath d)) h, Same x.2 (metadataPath d)

/-- Other programs of the machine write no files. -/
def ofNode : NodeEvent → Bool
  | .start (.writeFile ..) => false
  | _ => true

/-- The runs of the node alone: no other program of the machine writes a
file. -/
def nodeOnly : NodeGuard := fun v e => environment v e ∧ ofNode e = true

/-- The step disturbs no directory. After it, for the directory of each
record that is stored, and of one that is being stored here,
- the last one who created the metadata file there is a call,
- the call saved it under the path of this directory,
- and nobody has changed the file since but this call. -/
def Undisturbed (v : NodeView) (e : NodeEvent) : Prop :=
  ∀ d ∈ chunksDirs v.world.store ++ (stored? e).toList, Owned d (e :: v.hist)

/-- The guard of the runs in which the directories stay the same: only the
programs of the node run, and no step disturbs the directory of a record.
What is saved is not restricted, nor when a save is cut off. -/
def undisturbed : NodeGuard := fun v e => nodeOnly v e ∧ Undisturbed v e

instance (d : PathBuf) (h : List NodeEvent) : Decidable (Owned d h) :=
  inferInstanceAs (Decidable (∃ x ∈ owner (loc (metadataPath d)) h, _))

instance (v : NodeView) (e : NodeEvent) : Decidable (Undisturbed v e) :=
  inferInstanceAs (Decidable (∀ d ∈ chunksDirs v.world.store ++ (stored? e).toList, _))

instance (v : NodeView) (e : NodeEvent) : Decidable (nodeOnly v e) :=
  inferInstanceAs (Decidable (_ ∧ _))

instance (v : NodeView) (e : NodeEvent) : Decidable (undisturbed v e) :=
  inferInstanceAs (Decidable (_ ∧ _))

end Defs

/-! ### The protocol -/

/-- The place of a metadata file. -/
def IsMetadata (l : Loc) : Prop := l.getLast? = some METADATA_FILE_NAME

section Proof

variable [Platform]

/-- What is saved at a metadata place is a part of a metadata of the
saver's path, and the metadata files of the records are saved ones. -/
structure Sound (v : NodeView) : Prop where
  content : ∀ l x, IsMetadata l → owner l v.hist = some x → ∀ bs, v.world.fs.bytes l = some bs →
    ∃ (m : FileMetadata) (n : Nat), bs = m.toBytes.take n ∧ metadataPath m.chunksDir = x.2
  records : ∀ d ∈ chunksDirs v.world.store, Owned d v.hist

/-- What slot `i` still saves is as it was. -/
def Rely (i : Slot) (v v' : NodeView) : Prop :=
  ∀ l p, owner l v'.hist = some (i, p) →
    owner l v.hist = some (i, p) ∧ v'.world.fs.bytes l = v.world.fs.bytes l

/-- The protocol of the metadata files. -/
def protocol : Protocol lang World :=
  .ofRely Sound Rely (fun _ _ => True) (fun _ _ _ => True)

variable {v v' : NodeView} {i j : Slot} {o : Op} {c : Choice} {a : o.Ans} {w : World} {l : Loc}

theorem Rely.refl (i : Slot) (v : NodeView) : Rely i v v := fun _ _ h => ⟨h, rfl⟩

theorem Rely.trans {v₁ v₂ v₃ : NodeView} (h : Rely i v₁ v₂) (h' : Rely i v₂ v₃) : Rely i v₁ v₃ := by
  intro l p ho
  obtain ⟨ho₂, hb₂⟩ := h' l p ho
  obtain ⟨ho₁, hb₁⟩ := h l p ho₂
  exact ⟨ho₁, hb₂.trans hb₁⟩

/-! ### What an operation does to a saved file -/

/-- Only calls save. -/
theorem isCall_of_owner {h : List NodeEvent} {x : Slot × PathBuf} (ho : owner l h = some x) :
    x.1.isCall = true := by
  induction h with
  | nil => cases ho
  | cons e h ih =>
      rw [owner, saver.eq_def] at ho
      split at ho
      · split at ho
        · split at ho
          · next hi =>
              cases ho
              exact hi
          · cases ho
        · exact ih ho
      · split at ho
        · cases ho
        · exact ih ho
      · split at ho
        · cases ho
        · exact ih ho
      · exact ih ho

omit [Platform] in
/-- A directory that was made leaves the files alone. -/
theorem bytes_mkDirs (x : Fs) (l l' : Loc) (n : Nat) : (x.mkDirs l n).bytes l' = x.bytes l' := by
  by_cases h : l' <+: l ∧ l'.length ≤ n ∧ x l' = none
  · rw [Fs.bytes, Fs.bytes, Fs.mkDirs, if_pos h, h.2.2]
  · rw [Fs.bytes, Fs.bytes, Fs.mkDirs, if_neg h]

/-- An operation after which a file is saved left the file and its saver
alone, or created it, or is a write of its saver. -/
theorem owner_op (he : o.exec c v.world = some (a, w)) {x : Slot × PathBuf}
    (ho : owner l (.op (L := lang) i o a :: v.hist) = some x) :
    (owner l v.hist = some x ∧ w.fs.bytes l = v.world.fs.bytes l) ∨
      (∃ p, o = .fs (.createFile p) ∧ x = (i, p) ∧ loc p = l ∧ w.fs.bytes l = some []) ∨
      ∃ p offset bs, o = .fs (.writeAt p offset bs) ∧ x = (i, p) ∧ loc p = l ∧
        owner l v.hist = some (i, p) := by
  by_cases hw : l ∈ o.writes
  · cases o with
    | fs o =>
        cases o with
        | createDirAll p =>
            left
            cases a with
            | ok u =>
                obtain ⟨y, hy, rfl⟩ := exec_fs_ok he nofun
                simp only [FsOp.run, Option.ite_none_right_eq_some] at hy
                obtain ⟨-, hy⟩ := hy
                cases hy
                exact ⟨ho, bytes_mkDirs _ _ _ _⟩
            | error e =>
                obtain ⟨done, rfl⟩ := exec_fs_error he
                exact ⟨ho, bytes_mkDirs _ _ _ _⟩
        | createFile p =>
            obtain rfl : l = loc p := List.mem_singleton.mp hw
            cases a with
            | ok u =>
                rw [owner, saver, if_pos rfl] at ho
                obtain ⟨-, ho⟩ := Option.ite_none_right_eq_some.mp ho
                cases ho
                exact .inr (.inl ⟨p, rfl, rfl, rfl, exec_createFile he⟩)
            | error e =>
                obtain ⟨done, rfl⟩ := exec_fs_error he
                exact .inl ⟨ho, rfl⟩
        | writeAt p offset bs =>
            obtain rfl : l = loc p := List.mem_singleton.mp hw
            rw [owner, saver] at ho
            split at ho
            · cases ho
            · next hown =>
                have own : owner (loc p) v.hist = some (i, p) := by
                  by_contra h
                  exact hown ⟨rfl, h⟩
                rw [own] at ho
                cases ho
                exact .inr (.inr ⟨p, offset, bs, rfl, rfl, rfl, own⟩)
        | rename p q =>
            cases a with
            | ok u =>
                rw [owner, saver, if_pos] at ho
                · cases ho
                · obtain rfl | hw := List.mem_cons.mp hw
                  · exact .inl rfl
                  · exact .inr (List.mem_singleton.mp hw).symm
            | error e =>
                obtain ⟨done, rfl⟩ := exec_fs_error he
                exact .inl ⟨ho, rfl⟩
        | _ => exact absurd hw List.not_mem_nil
    | _ => exact absurd hw List.not_mem_nil
  · refine .inl ⟨?_, bytes_congr (exec_fs_apply he hw)⟩
    -- The event is about other places.
    rw [owner, saver.eq_def] at ho
    split at ho
    · next heq =>
        cases heq
        rwa [if_neg fun h : loc _ = l => hw (h ▸ List.mem_cons_self)] at ho
    · next heq =>
        cases heq
        rwa [if_neg fun h : loc _ = l ∧ _ => hw (h.1 ▸ List.mem_cons_self)] at ho
    · next heq =>
        cases heq
        rwa [if_neg] at ho
        rintro (h | h)
        · exact hw (h ▸ List.mem_cons_self)
        · exact hw (h ▸ List.mem_cons_of_mem _ List.mem_cons_self)
    · exact ho

omit [Platform] in
theorem mem_chunksDirs {s : Store} {d : PathBuf} : d ∈ chunksDirs s ↔
    (∃ (k : PublishedFileKey) (r : PublishedFileRecord), s.published[k]? = some r ∧ r.chunksDir = d) ∨
      ∃ (k : PublishedFileKey) (r : PendingDownloadRecord), s.pending[k]? = some r ∧ r.chunksDir = d := by
  simp only [chunksDirs, List.mem_append, List.mem_map, Prod.exists,
    Std.ExtTreeMap.mem_toList_iff_getElem?_eq_some]

/-- The records after an operation are the old ones and what it stored. -/
theorem chunksDirs_op {d : PathBuf} (he : o.exec c v.world = some (a, w))
    (hd : d ∈ chunksDirs w.store) :
    d ∈ chunksDirs v.world.store ∨ stored? (.op (L := lang) i o a) = some d := by
  by_cases hw : o.writesStore = false
  · rw [exec_store_eq he hw] at hd
    exact .inl hd
  · cases o with
    | store o =>
        obtain ⟨rfl, rfl⟩ | ⟨e, -, rfl⟩ := exec_store he
        · rw [mem_chunksDirs] at hd ⊢
          cases o with
          | putPublishedFile r =>
              obtain ⟨k, r', hr, rfl⟩ | hd := hd
              · replace hr : (v.world.store.published.insert r.key r)[k]? = some r' := hr
                rw [get_put] at hr
                split at hr
                · cases hr
                  exact .inr rfl
                · exact .inl (.inl ⟨k, r', hr, rfl⟩)
              · exact .inl (.inr hd)
          | putPendingDownload r =>
              obtain hd | ⟨k, r', hr, rfl⟩ := hd
              · exact .inl (.inl hd)
              · replace hr : (v.world.store.pending.insert r.key r)[k]? = some r' := hr
                rw [get_put] at hr
                split at hr
                · cases hr
                  exact .inr rfl
                · exact .inl (.inr ⟨k, r', hr, rfl⟩)
          | deletePendingDownload key =>
              obtain hd | ⟨k, r', hr, rfl⟩ := hd
              · exact .inl (.inl hd)
              · replace hr : (v.world.store.pending.erase key)[k]? = some r' := hr
                rw [get_delete] at hr
                split at hr
                · cases hr
                · exact .inl (.inr ⟨k, r', hr, rfl⟩)
          | putFileMetadata m => exact .inl hd
          | deleteFileMetadata k => exact .inl hd
          | _ => exact absurd rfl hw
        · exact .inl hd
    | _ => exact absurd rfl hw

theorem rely_op (hij : j ≠ i) (he : o.exec c v.world = some (a, w)) :
    Rely j v (v.op (L := lang) i o a w) := by
  intro l p ho
  obtain old | ⟨q, -, hx, -⟩ | ⟨q, offset, bs, -, hx, -⟩ := owner_op he ho
  · exact old
  · exact absurd (congrArg Prod.fst hx) hij
  · exact absurd (congrArg Prod.fst hx) hij

/-- An operation is within the guarantee when what it creates as a call is
a metadata file, and what it writes is a part of one. -/
theorem guar_op (hv : Sound v) (he : o.exec c v.world = some (a, w))
    (hg : Undisturbed v (.op i o a))
    (create : ∀ p, o = .fs (.createFile p) → i.isCall = true → IsMetadata (loc p) →
      ∃ m : FileMetadata, metadataPath m.chunksDir = p)
    (write : ∀ p offset bs, o = .fs (.writeAt p offset bs) → IsMetadata (loc p) →
      owner (loc p) v.hist = some (i, p) → ∀ bs, w.fs.bytes (loc p) = some bs →
        ∃ (m : FileMetadata) (n : Nat), bs = m.toBytes.take n ∧ metadataPath m.chunksDir = p) :
    protocol.Guar i v (v.op i o a w) := by
  refine ⟨⟨fun l x hl ho bs hbs => ?_, fun d hd => ?_⟩, fun j hj => rely_op hj he⟩
  · obtain ⟨old, same⟩ | ⟨p, rfl, rfl, rfl, empty⟩ | ⟨p, offset, bs', rfl, rfl, rfl, own⟩ :=
      owner_op he ho
    · exact hv.content l x hl old bs (same ▸ hbs)
    · obtain ⟨m, hm⟩ := create p rfl (isCall_of_owner ho) hl
      replace hbs : w.fs.bytes (loc p) = some bs := hbs
      rw [empty] at hbs
      cases hbs
      exact ⟨m, 0, rfl, hm⟩
    · exact write p offset bs' rfl hl own bs hbs
  · refine hg d (List.mem_append.mpr ?_)
    obtain hd | hd := chunksDirs_op (i := i) he hd
    · exact .inl hd
    · exact .inr (Option.mem_toList.mpr hd)

/-- A step that is no operation on the world. -/
theorem guar_silent {e : NodeEvent} (hv : Sound v) (hw : v'.world = v.world)
    (hh : v'.hist = e :: v.hist) (he : ∀ l own, saver l own e = own) :
    protocol.Guar i v v' := by
  have keep : ∀ l, owner l v'.hist = owner l v.hist := fun l => by rw [hh, owner, he]
  refine ⟨⟨fun l x hl ho => ?_, fun d hd => ?_⟩, fun j _ l p ho => ?_⟩
  · rw [keep] at ho
    rw [hw]
    exact hv.content l x hl ho
  · rw [hw] at hd
    rw [Owned, keep]
    exact hv.records d hd
  · rw [keep] at ho
    exact ⟨ho, by rw [hw]⟩

/-! ### Programs that save no metadata -/

/-- The operation creates and writes no metadata file. -/
def Harmless : Op → Prop
  | .fs (.createFile p) => ¬ IsMetadata (loc p)
  | .fs (.writeAt p _ _) => ¬ IsMetadata (loc p)
  | _ => True

/-- A program that performs only such operations, or does not run in the
slot of a call. -/
theorem safe_harmless {α : Type} {F : Footprint lang} {p : Proc α} (hp : p.Within F)
    (hF : i.isCall = true → ∀ o, F.op o → Harmless o) :
    protocol.Safe machine undisturbed i p (fun _ _ => True) v := by
  refine Protocol.safe_footprint hp (fun _ _ _ _ => trivial) (fun v _ hv _ o ho c a w he hg => ?_)
    (fun v _ hv _ t _ _ _ => ?_) (fun v _ hv _ j _ _ r _ _ => ?_) trivial
  · refine ⟨guar_op hv he hg.2 (fun p hop hi hl => ?_) (fun p offset bs hop hl own => ?_), trivial⟩
    · subst hop
      exact absurd hl (hF hi _ ho)
    · subst hop
      exact absurd hl (hF (isCall_of_owner own) _ ho)
  · exact ⟨guar_silent hv rfl rfl fun _ _ => rfl, trivial, trivial⟩
  · exact ⟨guar_silent hv rfl rfl fun _ _ => rfl, trivial⟩

theorem writeFile_harmless {p : PathBuf} (h : ¬ IsMetadata (loc p)) (bs : Bytes) :
    (writeFile p bs).run.Within (.ops Harmless) :=
  (writeFile_within p bs).mono_ops fun o ho => by cases ho <;> exact h

theorem fillBuffer_harmless (path : PathBuf) (offset fuel : Nat) (filled : Bytes) :
    (fillBuffer path offset fuel filled).run.Within (.ops Harmless) := by
  induction fuel generalizing filled with
  | zero => exact Prog.within_lift (diverge_within trivial)
  | succ fuel ih =>
      unfold fillBuffer
      split
      · refine Prog.within_bindE (Prog.within_adapt _ (fs_within trivial)) fun bs => ?_
        split
        · trivial
        · exact ih _
      · trivial

/-- No chunk file of the node is a metadata file. -/
theorem split_harmless (path dir : PathBuf) (fuel offset : Nat) (leaves : List Hash) :
    (split path dir fuel offset leaves).run.Within (.ops Harmless) := by
  induction fuel generalizing offset leaves with
  | zero => exact Prog.within_lift (diverge_within trivial)
  | succ fuel ih =>
      refine Prog.within_bindE (fillBuffer_harmless _ _ _ _) fun bytes => ?_
      split
      · trivial
      · refine Prog.within_bindE (Prog.within_adapt _ (writeFile_harmless ?_ _)) fun _ => ih _ _
        rw [IsMetadata, loc_join (isNormal_chunkFileName _ (by decide)), List.getLast?_concat]
        exact fun h => chunkFileName_ne_metadata _ _ (Option.some.inj h)

/-! ### A save -/

variable {m : FileMetadata} {n : Nat} {α : Type} {Q : α → NodeView → Prop}

/-- As long as slot `i` saves the metadata file of `m`, its first `n` bytes
are in it. -/
def Saved (i : Slot) (m : FileMetadata) (n : Nat) (v : NodeView) : Prop :=
  n ≤ m.toBytes.length ∧
    (owner (loc (metadataPath m.chunksDir)) v.hist = some (i, metadataPath m.chunksDir) →
      v.world.fs.bytes (loc (metadataPath m.chunksDir)) = some (m.toBytes.take n))

theorem isMetadata_path (d : PathBuf) : IsMetadata (loc (metadataPath d)) := by
  rw [IsMetadata, loc_metadata, List.getLast?_concat]

theorem Saved.stable (hI : Rely i v v') (h : Saved i m n v) : Saved i m n v' := by
  refine ⟨h.1, fun ho => ?_⟩
  obtain ⟨old, same⟩ := hI _ _ ho
  rw [same]
  exact h.2 old

/-- The file is created empty. -/
theorem createFile_safe :
    protocol.Safe machine undisturbed i (fs (.createFile (metadataPath m.chunksDir))).run
      (fun x v => ∀ u, x = .ok u → Saved i m 0 v) v := by
  intro v₁ _ hv _ c a w he hg
  refine ⟨guar_op hv he hg.2 (fun p hop _ _ => ?_) nofun, ?_⟩
  · cases hop
    exact ⟨m, rfl⟩
  · rintro u rfl
    exact ⟨Nat.zero_le _, fun _ => exec_createFile he⟩

/-- A write of the next bytes. -/
theorem writeAt_safe {bs : Bytes} (h : Saved i m n v) (hbs : bs <+: m.toBytes.drop n) :
    protocol.Safe machine undisturbed i (fs (.writeAt (metadataPath m.chunksDir) n bs)).run
      (fun x v => ∀ u, x = .ok u → Saved i m (n + bs.length) v) v := by
  intro v₁ hI hv _ c a w he hg
  replace h := h.stable hI.1
  -- What is written continues what is there, also where it stops early.
  have grow : ∀ k, overwrite (m.toBytes.take n) n (bs.take k)
      = m.toBytes.take (n + (bs.take k).length) := by
    intro k
    have length : (m.toBytes.take n).length = n := by
      rw [List.length_take]
      exact Nat.min_eq_left h.1
    have front : bs.take k = (m.toBytes.drop n).take (bs.take k).length :=
      List.prefix_iff_eq_take.mp ((List.take_prefix k bs).trans hbs)
    calc overwrite (m.toBytes.take n) n (bs.take k)
        = overwrite (m.toBytes.take n) (m.toBytes.take n).length (bs.take k) := by rw [length]
      _ = m.toBytes.take n ++ bs.take k := overwrite_end _ _
      _ = m.toBytes.take n ++ (m.toBytes.drop n).take (bs.take k).length := by rw [← front]
      _ = m.toBytes.take (n + (bs.take k).length) := (List.take_add ..).symm
  have whole : overwrite (m.toBytes.take n) n bs = m.toBytes.take (n + bs.length) := by
    have := grow bs.length
    rwa [List.take_length] at this
  refine ⟨guar_op hv he hg.2 nofun (fun p offset bs' hop _ own file hfile => ?_), ?_⟩
  · cases hop
    have old := h.2 own
    cases a with
    | ok u =>
        rw [exec_writeAt he old, whole] at hfile
        exact ⟨m, _, (Option.some.inj hfile).symm, rfl⟩
    | error e =>
        obtain ⟨done, rfl⟩ := exec_fs_error he
        rw [FsOp.partialEffect, old, bytes_setBytes, if_pos rfl, grow] at hfile
        exact ⟨m, _, (Option.some.inj hfile).symm, rfl⟩
  · rintro u rfl
    have length := hbs.length_le
    rw [List.length_drop] at length
    have := h.1
    refine ⟨by omega, fun ho => ?_⟩
    -- Only the saver still saves the file after its write.
    obtain ⟨own, -⟩ | ⟨p, hop, -⟩ | ⟨p, offset, bs', -, hx, -, own⟩ :=
      owner_op (o := .fs (.writeAt (metadataPath m.chunksDir) n bs)) he ho
    · exact (exec_writeAt he (h.2 own)).trans (congrArg some whole)
    · cases hop
    · cases hx
      exact (exec_writeAt he (h.2 own)).trans (congrArg some whole)

/-- What is not in the file yet is in the buffer or still to come. -/
def Buffered (i : Slot) (m : FileMetadata) (writer : BufWriter (metadataPath m.chunksDir))
    (rest : Bytes) (v : NodeView) : Prop :=
  Saved i m writer.offset v ∧ m.toBytes.drop writer.offset = writer.buf ++ rest

variable {writer : BufWriter (metadataPath m.chunksDir)} {bs rest : Bytes}

theorem flushBuf_safe (h : Buffered i m writer rest v) :
    protocol.Safe machine undisturbed i writer.flushBuf.run
      (fun x v => ∀ b, x = .ok b → Buffered i m b rest v ∧ b.buf = []) v := by
  obtain ⟨saved, ahead⟩ := h
  unfold BufWriter.flushBuf
  split
  · next empty =>
      rintro b ⟨⟩
      exact ⟨⟨saved, ahead⟩, empty⟩
  · refine Protocol.safe_seqE (writeAt_safe saved ⟨rest, ahead.symm⟩) ?_ (fun _ _ _ => nofun)
    rintro u v hsaved b ⟨⟩
    refine ⟨⟨hsaved u rfl, ?_⟩, rfl⟩
    rw [← List.drop_drop, ahead, List.drop_left]
    rfl

theorem writeAll_safe (h : Buffered i m writer (bs ++ rest) v) :
    protocol.Safe machine undisturbed i (writer.writeAll bs).run
      (fun x v => ∀ b, x = .ok b → Buffered i m b rest v) v := by
  have buffer : ∀ {b : BufWriter (metadataPath m.chunksDir)} {v : NodeView},
      Buffered i m b (bs ++ rest) v → Buffered i m ⟨b.offset, b.buf ++ bs⟩ rest v :=
    fun h => ⟨h.1, by rw [h.2, List.append_assoc]⟩
  unfold BufWriter.writeAll
  split
  · rintro b ⟨⟩
    exact buffer h
  · refine Protocol.safe_seqE (B := fun x v => ∀ b, x = .ok b →
      Buffered i m b (bs ++ rest) v ∧ (BUF_CAPACITY ≤ bs.length → b.buf = [])) ?_ ?_
      (fun _ _ _ => nofun)
    · unfold BufWriter.makeRoom
      split
      · exact Protocol.safe_mono (fun x v hx b hb => ⟨(hx b hb).1, fun _ => (hx b hb).2⟩)
          (flushBuf_safe h)
      · -- The piece fits: what is longer than the buffer has been flushed for.
        rintro b ⟨⟩
        refine ⟨h, fun hlong => List.eq_nil_of_length_eq_zero ?_⟩
        have pos : 0 < BUF_CAPACITY := by decide
        omega
    · intro b v hb
      obtain ⟨hb, empty⟩ := hb b rfl
      split
      · next long =>
          obtain ⟨saved, ahead⟩ := hb
          rw [empty long, List.nil_append] at ahead
          refine Protocol.safe_seqE (writeAt_safe saved ⟨rest, ahead.symm⟩) ?_
            (fun _ _ _ => nofun)
          rintro u v hsaved b' ⟨⟩
          refine ⟨hsaved u rfl, ?_⟩
          rw [← List.drop_drop, ahead, List.drop_left, empty long, List.nil_append]
      · rintro b' ⟨⟩
        exact buffer hb

theorem writePieces_safe (pieces : List Bytes) (h : Buffered i m writer (pieces.flatten ++ rest) v) :
    protocol.Safe machine undisturbed i (writer.writePieces pieces).run
      (fun x v => ∀ b, x = .ok b → Buffered i m b rest v) v := by
  induction pieces generalizing writer v with
  | nil =>
      rintro b ⟨⟩
      exact h
  | cons bs pieces ih =>
      rw [List.flatten_cons, List.append_assoc] at h
      exact Protocol.safe_seqE (writeAll_safe h) (fun b v hb => ih (hb b rfl)) fun _ _ _ => nofun

/-- A save leaves parts of the metadata in its file and nothing else. -/
theorem saveMetadata_safe (m : FileMetadata) :
    protocol.Safe machine undisturbed i (saveMetadata m).run (fun _ _ => True) v := by
  refine Protocol.safe_seqA createFile_safe ?_ (fun _ _ _ => trivial)
  intro u v hv
  have fresh : Buffered i m (⟨0, []⟩ : BufWriter (metadataPath m.chunksDir))
      ((FileMetadata.codec.enc m).flatten ++ []) v :=
    ⟨hv u rfl, by rw [List.append_nil, List.nil_append]; rfl⟩
  refine Protocol.safe_seqA (writePieces_safe _ fresh) ?_ (fun _ _ _ => trivial)
  intro b v hb
  exact Protocol.safe_seqL (flushBuf_safe (hb b rfl)) fun _ _ _ => trivial

/-! ### The calls -/

theorem processFile_safe (fuel : Nat) (filePath : String) (isPublic : Bool) :
    protocol.Safe machine undisturbed i (processFile fuel filePath isPublic).run
      (fun _ _ => True) v := by
  have one : ∀ {o : FsOp} {v : NodeView}, Harmless (.fs o) →
      protocol.Safe machine undisturbed i (fs o).run (fun _ _ => True) v :=
    fun h => safe_harmless (fs_within (O := Harmless) h) fun _ _ ho => ho
  refine Protocol.safe_seqA (one trivial) (fun t v _ => ?_) (fun _ _ _ => trivial)
  split
  · trivial
  · refine Protocol.safe_seqA (one trivial) (fun _ v _ => ?_) (fun _ _ _ => trivial)
    split
    · trivial
    · split
      · trivial
      · refine Protocol.safe_seqA (one trivial) (fun _ v _ => ?_) (fun _ _ _ => trivial)
        refine Protocol.safe_seqE (safe_harmless (split_harmless _ _ _ _ _) fun _ _ ho => ho)
          (fun leaves v _ => ?_) (fun _ _ _ => trivial)
        split
        · trivial
        · exact saveMetadata_safe _

theorem publishFile_safe (fuel : Nat) (request : PublishFileRequest) :
    protocol.Safe machine undisturbed i (publishFile fuel request).run (fun _ _ => True) v := by
  refine Protocol.safe_seqA (processFile_safe _ _ _) (fun m v _ => ?_) (fun _ _ _ => trivial)
  refine Protocol.safe_seqE (safe_harmless (storeOrInternal_within (O := Harmless) trivial)
    fun _ _ ho => ho) (fun _ v _ => ?_) (fun _ _ _ => trivial)
  trivial

theorem ensureDir_harmless (p : PathBuf) :
    (ensureDirExistsOrCreate p).run.Within (.ops Harmless) :=
  (ensureDirExistsOrCreate_within p).mono_ops fun o ho => by cases ho <;> trivial

theorem fetchMetadata_harmless (request : DownloadFileRequest) :
    (fetchMetadata request).run.Within (.ops Harmless) := by
  refine Prog.within_bindE (Prog.within_adapt _ (ensureDir_harmless _)) fun _ => ?_
  refine Prog.within_bindE (Prog.within_lift (chan_within trivial)) fun tx => ?_
  refine Prog.within_bindE (sendOrInternal_within (O := Harmless) trivial _) fun _ => ?_
  refine Prog.within_bindE (Prog.within_lift (chan_within trivial)) fun r => ?_
  split <;> trivial

theorem prepareDownload_safe (path : PathBuf) (m : FileMetadata) :
    protocol.Safe machine undisturbed i (prepareDownload path m).run (fun _ _ => True) v := by
  refine Protocol.safe_seqA (safe_harmless (fs_within (O := Harmless) trivial) fun _ _ ho => ho)
    (fun found v _ => ?_) (fun _ _ _ => trivial)
  split
  · trivial
  · refine Protocol.safe_seqA (safe_harmless (ensureDir_harmless _) fun _ _ ho => ho)
      (fun _ v _ => ?_) (fun _ _ _ => trivial)
    refine Protocol.safe_seqA (saveMetadata_safe _) (fun _ v _ => ?_) (fun _ _ _ => trivial)
    exact Protocol.safe_seqE (safe_harmless (sendOrInternal_within (O := Harmless) trivial _)
      fun _ _ ho => ho) (fun _ _ _ => trivial) (fun _ _ _ => trivial)

theorem downloadFile_safe (request : DownloadFileRequest) :
    protocol.Safe machine undisturbed i (downloadFile request).run (fun _ _ => True) v := by
  have one : ∀ {o : StoreOp} {v : NodeView},
      protocol.Safe machine undisturbed i (storeOrInternal o).run (fun _ _ => True) v :=
    safe_harmless (storeOrInternal_within (O := Harmless) trivial) fun _ _ ho => ho
  refine Protocol.safe_seqE one (fun published v _ => ?_) (fun _ _ _ => trivial)
  split
  · trivial
  · refine Protocol.safe_seqE one (fun pending v _ => ?_) (fun _ _ _ => trivial)
    split
    · trivial
    · refine Protocol.safe_seqE (safe_harmless (fetchMetadata_harmless _) fun _ _ ho => ho)
        (fun metadata v _ => ?_) (fun _ _ _ => trivial)
      exact Protocol.safe_seqE (prepareDownload_safe _ _) (fun record v _ => one)
        (fun _ _ _ => trivial)

/-! ### Every run -/

/-- Every task keeps to the protocol. -/
theorem body_safe (t : Task) :
    protocol.Safe machine undisturbed (slotOf t) (body t) (fun _ _ => True) v := by
  cases t with
  | publishFile n fuel request =>
      exact Protocol.safe_seq (publishFile_safe fuel request) fun _ _ _ => trivial
  | downloadFile n request =>
      exact Protocol.safe_seq (downloadFile_safe request) fun _ _ _ => trivial
  | _ => exact safe_harmless (body_within _) nofun

theorem valid : protocol.Valid machine undisturbed where
  rely_refl := Rely.refl
  rely_trans _ _ _ _ h h' := h.trans h'
  guar_rely _ j _ _ hij _ hG := hG.2 j hij.symm
  guar_inv _ _ _ _ hG := hG.1
  post_stable _ _ _ _ _ _ := trivial
  start_rely _ _ _ _ _ _ _ _ ho := ⟨ho, rfl⟩
  start_inv _ _ hv _ _ := ⟨hv.content, hv.records⟩
  start_pre _ _ _ _ _ := trivial
  exit_guar _ _ _ hv _ _ _ := guar_silent hv rfl rfl fun _ _ => rfl
  crash_inv _ hv _ := ⟨hv.content, hv.records⟩
  body_safe t _ _ _ := body_safe t

theorem sound_idle {w : World} (hw : w.Initial) : Sound (Pool.idle (L := lang) w).view where
  content _ _ _ h := by cases h
  records d hd := by
    rw [mem_chunksDirs] at hd
    obtain ⟨k, r, hr, -⟩ | ⟨k, r, hr, -⟩ := hd
    · replace hr : w.store.published[k]? = some r := hr
      rw [hw.published] at hr
      cases hr
    · replace hr : w.store.pending[k]? = some r := hr
      rw [hw.pending] at hr
      cases hr

/-- A part of a metadata that decodes is all of it. -/
theorem whole_of_decode (torn : RejectsTorn) {m m' : FileMetadata} {n : Nat}
    (h : Platform.decodeMetadata (m.toBytes.take n) = .ok m') : m' = m := by
  by_cases hn : n < m.toBytes.length
  · obtain ⟨e, he⟩ := torn m n hn
    rw [he] at h
    cases h
  · rw [List.take_of_length_le (Nat.le_of_not_lt hn), Platform.decode_toBytes] at h
    exact (Except.ok.inj h).symm

/-- In every run in which nothing but saves for its directory changes the
metadata file of a record, a metadata file that decodes names that
directory. So a chunk has one
place for those who write it and those who read it. -/
theorem same_directory (torn : RejectsTorn) {w : World} (hw : w.Initial) {p : NodePool}
    (h : Reach machine undisturbed (.idle w) p) : Agree p.view ∧
      ∀ d ∈ chunksDirs p.world.store, ∀ bs ∈ p.world.fs.bytes (loc (metadataPath d)),
        ∀ m, Platform.decodeMetadata bs = .ok m → ∀ c,
          loc (m.chunksDir.join (chunkFileName c m.chunkFileExtension)) =
            loc (d.join (chunkFileName c m.chunkFileExtension)) := by
  have hv : Sound p.view := (valid.holds_of_reach (sound_idle hw) h).1
  have agree : ∀ d ∈ chunksDirs p.world.store, ∀ bs ∈ p.world.fs.bytes (loc (metadataPath d)),
      ∀ m, Platform.decodeMetadata bs = .ok m → Same m.chunksDir d := by
    intro d hd bs hbs m hm
    obtain ⟨x, ho, same⟩ := hv.records d hd
    obtain ⟨m', n, rfl, path⟩ := hv.content _ x (isMetadata_path d) ho bs hbs
    obtain rfl := whole_of_decode torn hm
    rw [← path] at same
    exact same.of_join isNormal_metadata
  refine ⟨fun d hd bs hbs m hm => agree d hd bs hbs m ?_, fun d hd bs hbs m hm c => ?_⟩
  · cases hdec : Platform.decodeMetadata bs with
    | ok m' =>
        rw [hdec] at hm
        exact congrArg Except.ok (Option.some.inj hm)
    | error e =>
        rw [hdec] at hm
        cases hm
  · have relative := not_isAbsolute_chunkFileName c m.chunkFileExtension
    rw [loc, loc, resolve_join relative, resolve_join relative,
      (agree d hd bs hbs m hm).resolve]

end Proof

/-! ### A save that is replaced -/

open Cbor in
theorem codec_extends : FileMetadata.codec.Extends :=
  Codec.retract_extends <| struct_extends <|
    Codec.pair_extends (field_extends text_extends) <|
    Codec.pair_extends (field_extends (head_extends 0)) <|
    Codec.pair_extends (field_extends text_extends) <|
    Codec.pair_extends (field_extends (octets_extends 32)) <|
    Codec.pair_extends (field_extends (array_extends (array_extends byte_extends))) <|
    Codec.pair_extends (field_extends text_extends) (field_extends bool_extends)

section Example

open Reference

attribute [local instance] platform

theorem rejectsTorn_platform : RejectsTorn := by
  intro m n hn
  have cut := Codec.decode_take codec_extends hn
  exact ⟨"the metadata cannot be read", by simp only [Platform.decodeMetadata, FileMetadata.toBytes, cut]⟩

/-- A node with an empty directory `/d`. -/
def emptyNode : World := newWorld (files [([], .dir), (["d"], .dir)]) 1

theorem initial_emptyNode : emptyNode.Initial := ⟨rfl, rfl, rfl, rfl, rfl, rfl, rfl⟩

/-- A file of one chunk. -/
def oneChunk : FileMetadata := metadataOf "x" [[7]]

/-- A metadata that names another directory. -/
def elsewhere : Bytes :=
  FileMetadata.toBytes ⟨"x", 1, ⟨"/elsewhere"⟩, ⟨List.replicate 32 0, rfl⟩, [], "chunk", true⟩

/-- A file whose name is that of a metadata file, with that metadata in
it. -/
def intruder : FileMetadata := metadataOf "/d/x_chunks/.metadata" [elsewhere]

/-- The intruder is downloaded and checked, and its destination is free;
then `x` is accepted; then the intruder is put in its place. -/
def replaced : List (Move lang Choice) :=
  acceptOnly intruder ++ tickStream ++ tickStart ++ openDownload intruder.key 1 ++
    askChunk intruder.key 0 ++
    askProvider 1 (.fileDownload (.response 0 (.success elsewhere))) ++
    saveChunk intruder.key 0 ++ commandPass 2 ++ recordChunk intruder.key 0 ++
    ops (.download intruder.key) 5 ++
    ask 1 ⟨oneChunk.key.toU64, "/d"⟩ ++ answer 2 1 oneChunk ++ accept 1 ++
    ops (.download intruder.key) 1

/-- The metadata of `x` names the other directory now. -/
theorem agree_renamed :
    ∃ w p, w.Initial ∧ Reach machine nodeOnly (.idle w) p ∧ ¬ Agree p.view := by
  have run : ∃ p, Reach machine nodeOnly (.idle emptyNode) p ∧ ¬ Agree p.view :=
    exists_reach_of_runScript replaced (by decide +kernel)
  obtain ⟨p, h⟩ := run
  exact ⟨_, p, initial_emptyNode, h⟩

/-- A download that is accepted. -/
theorem same_directory_accepted :
    ∃ p, Reach machine undisturbed (.idle emptyNode) p ∧
      chunksDirs p.world.store = [⟨"/d/x_chunks"⟩] ∧ Agree p.view := by
  have run : ∃ p, Reach machine undisturbed (.idle emptyNode) p ∧
      chunksDirs p.world.store = [⟨"/d/x_chunks"⟩] :=
    exists_reach_of_runScript (acceptOnly oneChunk) (by decide +kernel)
  obtain ⟨p, h, hdirs⟩ := run
  exact ⟨p, h, hdirs, (same_directory rejectsTorn_platform initial_emptyNode h).1⟩

end Example

end RustDfs.SameDirectory
