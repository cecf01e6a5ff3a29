import RustDfs.Proofs.Footprints

/-!
# `RustDfs.Proofs.Effects`: what each operation changes

An operation changes one part of the world. The lemmas say which part,
and what a database operation does to it.
-/

set_option autoImplicit false

namespace RustDfs

open Lib Conc Std

/-- The operations that change records of the database. -/
def StoreOp.isWrite : StoreOp → Bool
  | .putPublishedFile _ | .putPendingDownload _ | .deletePendingDownload _
  | .putFileMetadata _ | .deleteFileMetadata _ => true
  | _ => false

/-- The operations that change records of the database. -/
def Op.writesStore : Op → Bool
  | .store o => o.isWrite
  | _ => false

/-- The key of the pending record an operation changes. -/
def Op.pendingKey : Op → Option PublishedFileKey
  | .store (.putPendingDownload r) => some r.key
  | .store (.deletePendingDownload k) => some k
  | _ => none

/-- The operations that change a pending record. -/
def Op.writesPending (o : Op) : Bool := o.pendingKey.isSome

/-- The file a chunk of which an operation asks the event loop for. -/
def Op.requestedFile : Op → Option UInt64
  | .chan (.sendCommand (.requestFileChunk request _)) => some request.fileId
  | _ => none

/-- A node that has done nothing yet. Its files are arbitrary.
- `published`, `pending`, `jobs`: its database is empty,
- `active`, `commands`, `events`: no download is active, no command is in
  the queue and no request in the maps,
- `provided`: it provides no key. -/
structure World.Initial (w : World) : Prop where
  published : w.store.published = ∅
  pending : w.store.pending = ∅
  jobs : w.store.jobs = ∅
  active : w.sync.active = ∅
  commands : w.chan.commands = []
  events : w.events = .new
  provided : w.swarm.provided = []

variable [Platform] {c : Choice} {w w' : World}

/-- A database operation answers and takes effect, or fails and changes
nothing. -/
theorem exec_store {o : StoreOp} {a : Op.Ans (.store o)}
    (h : Op.exec (.store o) c w = some (a, w')) :
    (a = .ok (o.run w.store).1 ∧ w' = { w with store := (o.run w.store).2 }) ∨
      (∃ e, a = .error e ∧ w' = w) := by
  simp only [Op.exec, Option.map_eq_some_iff, Prod.exists, Prod.mk.injEq] at h
  obtain ⟨a', s, h, rfl, rfl⟩ := h
  unfold StoreOp.exec at h
  split at h
  · cases h
    exact .inl ⟨rfl, rfl⟩
  · cases h
    exact .inr ⟨_, rfl, rfl⟩
  · cases h

/-- Reading the database leaves it alone. -/
theorem StoreOp.run_of_read {o : StoreOp} (ho : o.isWrite = false) (s : Store) :
    (o.run s).2 = s := by
  cases o <;> first | rfl | cases ho

/-- An operation that writes no record leaves the database alone. -/
theorem exec_store_eq {o : Op} {a : o.Ans} (h : o.exec c w = some (a, w'))
    (ho : o.writesStore = false) : w'.store = w.store := by
  cases o with
  | store o =>
      obtain ⟨-, rfl⟩ | ⟨e, -, rfl⟩ := exec_store h
      · exact StoreOp.run_of_read ho w.store
      · rfl
  | fs o =>
      obtain ⟨_, _, rfl, rfl⟩ := Option.map_eq_some_iff.mp h
      rfl
  | sync o =>
      obtain ⟨_, _, rfl, rfl⟩ := Option.map_eq_some_iff.mp h
      rfl
  | chan o =>
      obtain ⟨_, _, rfl, rfl⟩ := Option.map_eq_some_iff.mp h
      rfl
  | swarm o =>
      obtain ⟨_, _, rfl, rfl⟩ := Option.map_eq_some_iff.mp h
      rfl
  | events o => cases h; rfl
  | diverge => cases h

/-! ### Records -/

section Records

variable {α : Type} {t : ExtTreeMap PublishedFileKey α} {k k' : PublishedFileKey} {x : α}

omit [Platform]

/-- The record of a key after one was put. -/
theorem get_put : (t.insert k x)[k']? = if k = k' then some x else t[k']? := by
  simp [ExtTreeMap.getElem?_insert]

/-- The record of a key after one was deleted. -/
theorem get_delete : (t.erase k)[k']? = if k = k' then none else t[k']? := by
  simp [ExtTreeMap.getElem?_erase]

/-- The first record stands under some key. -/
theorem get_of_head (h : t.toList.head?.map Prod.snd = some x) :
    ∃ k : PublishedFileKey, t[k]? = some x := by
  obtain ⟨⟨k, y⟩, hy, rfl⟩ := Option.map_eq_some_iff.mp h
  exact ⟨k, ExtTreeMap.mem_toList_iff_getElem?_eq_some.mp (List.mem_of_head? hy)⟩

end Records

/-- An operation that writes no pending record leaves them alone. -/
theorem exec_pending_eq {o : Op} {a : o.Ans} (h : o.exec c w = some (a, w'))
    (ho : o.writesPending = false) : w'.store.pending = w.store.pending := by
  by_cases hw : o.writesStore = false
  · rw [exec_store_eq h hw]
  · cases o with
    | store o =>
        obtain ⟨-, rfl⟩ | ⟨e, -, rfl⟩ := exec_store h
        · cases o <;> first | rfl | cases ho
        · rfl
    | _ => exact absurd rfl hw

/-- An operation leaves the pending records of other keys alone. -/
theorem exec_pending_get {o : Op} {a : o.Ans} {k : PublishedFileKey}
    (h : o.exec c w = some (a, w')) (ho : o.pendingKey ≠ some k) :
    w'.store.pending[k]? = w.store.pending[k]? := by
  by_cases hw : o.writesPending = false
  · rw [exec_pending_eq h hw]
  · cases o with
    | store o =>
        obtain ⟨-, rfl⟩ | ⟨e, -, rfl⟩ := exec_store h
        · cases o with
          | putPendingDownload r =>
              show (w.store.pending.insert r.key r)[k]? = _
              rw [get_put, if_neg fun hk => ho (congrArg some hk)]
          | deletePendingDownload k' =>
              show (w.store.pending.erase k')[k]? = _
              rw [get_delete, if_neg fun hk => ho (congrArg some hk)]
          | _ => exact absurd rfl hw
        · rfl
    | _ => exact absurd rfl hw

/-! ### Files -/

/-- The places an operation on files may change. -/
def FsOp.writes : FsOp → List Loc
  | .createDirAll p => (loc p).inits
  | .createFile p => [loc p]
  | .writeAt p _ _ => [loc p]
  | .rename p q => [loc p, loc q]
  | _ => []

/-- The places an operation may change. -/
def Op.writes : Op → List Loc
  | .fs o => o.writes
  | _ => []

omit [Platform] in
theorem setBytes_of_ne {x : Fs} {l l' : Loc} (h : l' ≠ l) (bs : Bytes) :
    x.setBytes l bs l' = x l' :=
  Function.update_of_ne h _ _

omit [Platform] in
/-- The last bytes written are the ones that stay. -/
theorem setBytes_setBytes (x : Fs) (l : Loc) (old new : Bytes) :
    (x.setBytes l old).setBytes l new = x.setBytes l new :=
  Function.update_idem ..

/-- A file can be written at `l`: its directory is there, and no
directory stands in its place. -/
def Writable (x : Fs) (l : Loc) : Prop := x l.dropLast = some .dir ∧ x l ≠ some .dir

omit [Platform] in
theorem mkDirs_of_not_mem {x : Fs} {l l' : Loc} (h : l' ∉ l.inits) (n : Nat) :
    x.mkDirs l n l' = x l' :=
  if_neg fun h' => h (List.mem_inits l' l |>.mpr h'.1)

omit [Platform] in
theorem bytes_setBytes (x : Fs) (l l' : Loc) (bs : Bytes) :
    (x.setBytes l bs).bytes l' = if l' = l then some bs else x.bytes l' := by
  by_cases h : l' = l
  · subst h
    rw [if_pos rfl, Fs.bytes, Fs.setBytes, Function.update_self]
  · rw [if_neg h, Fs.bytes, Fs.setBytes, Function.update_of_ne h]
    rfl

omit [Platform] in
theorem file_of_bytes {x : Fs} {l : Loc} {bs : Bytes} (h : x.bytes l = some bs) :
    x l = some (.file bs) := by
  unfold Fs.bytes at h
  split at h
  · cases h
    assumption
  · cases h

omit [Platform] in
/-- What is written from the end on is appended. -/
theorem overwrite_end (old bs : Bytes) : overwrite old old.length bs = old ++ bs := by
  simp [overwrite]

/-- A successful operation on files changes what it writes. -/
theorem FsOp.run_apply {o : FsOp} {v : o.Val} {x x' : Fs} (h : o.run x = some (v, x')) {l : Loc}
    (hl : l ∉ o.writes) : x' l = x l := by
  cases o with
  | createDirAll p =>
      simp only [FsOp.run, Option.ite_none_right_eq_some] at h
      obtain ⟨-, h⟩ := h
      cases h
      exact mkDirs_of_not_mem hl _
  | createFile p =>
      simp only [FsOp.run, Option.ite_none_right_eq_some] at h
      obtain ⟨-, h⟩ := h
      cases h
      exact setBytes_of_ne (List.ne_of_not_mem_cons hl) _
  | writeAt p offset bs =>
      obtain ⟨old, -, h⟩ := Option.map_eq_some_iff.mp h
      cases h
      exact setBytes_of_ne (List.ne_of_not_mem_cons hl) _
  | rename p q =>
      simp only [FsOp.run] at h
      split at h
      · split at h
        · cases h
          have hp : l ≠ loc p := List.ne_of_not_mem_cons hl
          have hq : l ≠ loc q := List.ne_of_not_mem_cons (List.not_mem_of_not_mem_cons hl)
          exact (setBytes_of_ne hq _).trans (Function.update_of_ne hp _ _)
        · cases h
      · cases h
  | tryExists p =>
      cases h
      rfl
  | metadata p =>
      simp only [FsOp.run] at h
      split at h <;> cases h <;> rfl
  | _ =>
      obtain ⟨_, -, h⟩ := Option.map_eq_some_iff.mp h
      cases h
      rfl

/-- An operation leaves alone what it does not write, also when it
fails. -/
theorem exec_fs_apply {o : Op} {a : o.Ans} (h : o.exec c w = some (a, w')) {l : Loc}
    (hl : l ∉ o.writes) : w'.fs l = w.fs l := by
  cases o with
  | fs o =>
      obtain ⟨⟨a', x⟩, hx, e⟩ := Option.map_eq_some_iff.mp h
      cases e
      cases c with
      | ok =>
          obtain ⟨⟨v, y⟩, hv, e⟩ := Option.map_eq_some_iff.mp hx
          cases e
          exact FsOp.run_apply hv hl
      | ioError e done =>
          cases hx
          cases o with
          | createDirAll p => exact mkDirs_of_not_mem hl _
          | writeAt p offset bs =>
              show FsOp.partialEffect w.fs done (.writeAt p offset bs) l = w.fs l
              cases hb : w.fs.bytes (loc p) with
              | none => simp only [FsOp.partialEffect, hb]
              | some old =>
                  simp only [FsOp.partialEffect, hb]
                  exact setBytes_of_ne (List.ne_of_not_mem_cons hl) _
          | _ => rfl
      | short n =>
          cases o with
          | readAt p offset count =>
              simp only [FsOp.exec, Option.ite_none_right_eq_some] at hx
              obtain ⟨-, hx⟩ := hx
              obtain ⟨bs, -, e⟩ := Option.map_eq_some_iff.mp hx
              cases e
              rfl
          | _ => cases hx
      | _ => cases hx
  | store o =>
      obtain ⟨-, rfl⟩ | ⟨e, -, rfl⟩ := exec_store h <;> rfl
  | sync o =>
      obtain ⟨_, _, rfl, rfl⟩ := Option.map_eq_some_iff.mp h
      rfl
  | chan o =>
      obtain ⟨_, _, rfl, rfl⟩ := Option.map_eq_some_iff.mp h
      rfl
  | swarm o =>
      obtain ⟨_, _, rfl, rfl⟩ := Option.map_eq_some_iff.mp h
      rfl
  | events o => cases h; rfl
  | diverge => cases h

/-- An operation that writes nothing leaves the files alone. -/
theorem exec_fs_eq {o : Op} {a : o.Ans} (h : o.exec c w = some (a, w')) (ho : o.writes = []) :
    w'.fs = w.fs :=
  funext fun l => exec_fs_apply h (by rw [ho]; exact List.not_mem_nil)

omit [Platform] in
/-- The bytes of a file are those of what stands at its place. -/
theorem bytes_congr {x x' : Fs} {l : Loc} (h : x' l = x l) : x'.bytes l = x.bytes l := by
  rw [Fs.bytes, Fs.bytes, h]

/-- An operation on files that can succeed does so when the system lets
it. -/
theorem exec_fs_run {o : FsOp} {v : o.Val} {x : Fs} (h : o.run w.fs = some (v, x)) :
    Op.exec (.fs o) .ok w = some (.ok v, { w with fs := x }) := by
  simp only [Op.exec, FsOp.exec, h, Option.map_some]

/-- An operation on files that succeeds takes effect as a whole. Only a
read at a position may come up short. -/
theorem exec_fs_ok {o : FsOp} {v : o.Val} (h : Op.exec (.fs o) c w = some (.ok v, w'))
    (ho : ∀ p offset count, o ≠ .readAt p offset count) :
    ∃ x, o.run w.fs = some (v, x) ∧ w' = { w with fs := x } := by
  obtain ⟨⟨a', x⟩, hx, e⟩ := Option.map_eq_some_iff.mp h
  cases e
  cases c with
  | ok =>
      obtain ⟨⟨v, y⟩, hv, e⟩ := Option.map_eq_some_iff.mp hx
      cases e
      exact ⟨_, hv, rfl⟩
  | short n =>
      cases o with
      | readAt p offset count => exact absurd rfl (ho p offset count)
      | _ => cases hx
  | _ => cases hx

/-- An operation on files that fails leaves a part of its effect. -/
theorem exec_fs_error {o : FsOp} {e : IoError} (h : Op.exec (.fs o) c w = some (.error e, w')) :
    ∃ done, w' = { w with fs := o.partialEffect w.fs done } := by
  obtain ⟨⟨a', x⟩, hx, h⟩ := Option.map_eq_some_iff.mp h
  cases h
  cases c with
  | ok =>
      obtain ⟨_, -, h⟩ := Option.map_eq_some_iff.mp hx
      cases h
  | ioError e done =>
      cases hx
      exact ⟨done, rfl⟩
  | short n =>
      cases o with
      | readAt p offset count =>
          simp only [FsOp.exec, Option.ite_none_right_eq_some] at hx
          obtain ⟨-, hx⟩ := hx
          obtain ⟨_, -, h⟩ := Option.map_eq_some_iff.mp hx
          cases h
      | _ => cases hx
  | _ => cases hx

/-- What a read returns. -/
theorem exec_read {p : PathBuf} {bs : Bytes} (h : Op.exec (.fs (.read p)) c w = some (.ok bs, w')) :
    w.fs.bytes (loc p) = some bs := by
  obtain ⟨x, hx, -⟩ := exec_fs_ok h nofun
  obtain ⟨_, hb, e⟩ := Option.map_eq_some_iff.mp hx
  cases e
  exact hb

/-- A file that was created is empty. -/
theorem exec_createFile {p : PathBuf} {v : Unit}
    (h : Op.exec (.fs (.createFile p)) c w = some (.ok v, w')) : w'.fs.bytes (loc p) = some [] := by
  obtain ⟨x, hx, rfl⟩ := exec_fs_ok h nofun
  simp only [FsOp.run, Option.ite_none_right_eq_some] at hx
  obtain ⟨-, hx⟩ := hx
  cases hx
  exact (bytes_setBytes _ _ _ _).trans (if_pos rfl)

/-- What is written at a position stands there. -/
theorem exec_writeAt {p : PathBuf} {offset : Nat} {bs old : Bytes} {v : Unit}
    (h : Op.exec (.fs (.writeAt p offset bs)) c w = some (.ok v, w'))
    (hold : w.fs.bytes (loc p) = some old) :
    w'.fs.bytes (loc p) = some (overwrite old offset bs) := by
  obtain ⟨x, hx, rfl⟩ := exec_fs_ok h nofun
  obtain ⟨_, hb, e⟩ := Option.map_eq_some_iff.mp hx
  cases e
  rw [hold] at hb
  cases hb
  exact (bytes_setBytes _ _ _ _).trans (if_pos rfl)

/-- A file that was renamed keeps its bytes. -/
theorem exec_rename {p q : PathBuf} {bs : Bytes} {v : Unit}
    (h : Op.exec (.fs (.rename p q)) c w = some (.ok v, w'))
    (hbs : w.fs.bytes (loc p) = some bs) : w'.fs.bytes (loc q) = some bs := by
  obtain ⟨x, hx, rfl⟩ := exec_fs_ok h nofun
  simp only [FsOp.run, hbs, Option.ite_none_right_eq_some] at hx
  obtain ⟨-, hx⟩ := hx
  cases hx
  exact (bytes_setBytes _ _ _ _).trans (if_pos rfl)

/-- What is known to exist as a file is one. -/
theorem exec_metadata_file {p : PathBuf}
    (h : Op.exec (.fs (.metadata p)) c w = some (.ok .file, w')) : ∃ bs, w.fs.bytes (loc p) = some bs := by
  obtain ⟨x, hx, -⟩ := exec_fs_ok h nofun
  simp only [FsOp.run] at hx
  split at hx
  · cases hx
  · next bs hb =>
      refine ⟨bs, ?_⟩
      rw [Fs.bytes, hb]
  · cases hx

end RustDfs
