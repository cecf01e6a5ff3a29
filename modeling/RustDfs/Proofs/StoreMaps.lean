import Mathlib.Data.Finset.Sort
import RustDfs.Model.Reference
import RustDfs.Model.RocksDb

/-!
# `RustDfs.Proofs.StoreMaps`: the database as three typed maps

The other models use the store as three maps from keys to records
(`StoreOp.run`). Here the database of bytes is shown to be that:
`Abstracts db s` says that the families of `db` hold the records of `s`,
each under its own key, `run_refines` that every operation keeps it, and
`store_consistent` collects what follows for every database a sequence of
operations leads to.

What goes wrong is a matter of the choice the environment made
(`DbChoice`). `failure?` says for every operation and choice which error
there is, if any, and `yields` which items a stream has.
-/

set_option autoImplicit false

namespace RustDfs.StoreMaps

open Lib Std
open RocksDb hiding get

section Families

variable {R : Type} {s : Serde R} {key : R → PublishedFileKey} {family : Family}
  {records : ExtTreeMap PublishedFileKey R} {db : Db} {cf : String} {c : DbChoice}

/-- The family holds the records.
- `entry`: under a key are bytes that read back as the record of the map,
  and no bytes where the map has none,
- `keyed`: a record of the map stands under its own key. -/
structure Holds (s : Serde R) (key : R → PublishedFileKey) (family : Family)
    (records : ExtTreeMap PublishedFileKey R) : Prop where
  entry : ∀ k : PublishedFileKey, family[k]?.map s.fromSlice = records[k]?.map .ok
  keyed : ∀ (k : PublishedFileKey) (r : R), records[k]? = some r → key r = k

/-- The error of a lost task. -/
def lost (c : DbChoice) : Option FileStoreError := c.lost.map .joinError

/-- The error of a call of RocksDB. -/
def fault (c : DbChoice) : Option FileStoreError := c.fault.map fun text => .rocksDb (.rocksDb text)

/-- The error of a record that cannot be written. -/
def unwritten : Except String Bytes → Option FileStoreError
  | .error e => some (.rocksDb (.cbor e))
  | .ok _ => none

/-- The items an iterator over these records has, until it breaks. -/
def yields {R : Type} (c : DbChoice) (rs : List R) : List (Except FileStoreError R) :=
  match c.broken with
  | some (n, text) => (rs.take n).map .ok ++ [.error (.rocksDb (.rocksDb text))]
  | none => rs.map .ok

/-- The error an iterator starts with. -/
def firstError {R : Type} (c : DbChoice) (rs : List R) : Option FileStoreError :=
  match (yields c rs).head? with
  | some (.error e) => some e
  | _ => none

/-- What a call answers when its task is not lost and RocksDB works. -/
def outcome {α : Type} (c : DbChoice) (a : α) : Except FileStoreError α :=
  match (lost c).or (fault c) with
  | some e => .error e
  | none => .ok a

/-- What becomes of a call on `db`: the error and no change, or an answer
and a database of this kind. -/
def Becomes {α : Type} (e : Option FileStoreError) (db : Db) (P : α → Db → Prop)
    (r : Except FileStoreError α × Db) : Prop :=
  match e with
  | some e => r = (.error e, db)
  | none => ∃ a db', r = (.ok a, db') ∧ P a db'

theorem Becomes.mono {α : Type} {e : Option FileStoreError} {P Q : α → Db → Prop}
    {r : Except FileStoreError α × Db} (h : Becomes e db P r) (hPQ : ∀ a db', P a db' → Q a db') :
    Becomes e db Q r := by
  cases e with
  | some e => exact h
  | none =>
      obtain ⟨a, db', he, hP⟩ := h
      exact ⟨a, db', he, hPQ a db' hP⟩

theorem getCf_of_some (h : db cf = some family) : getCf db cf = .ok family := by
  rw [getCf, h]

/-- A task that fails changes nothing. -/
theorem blocking_error {α : Type} {P : α → Db → Prop} (e : FileStoreError) :
    Becomes ((lost c).or (some e)) db P (blocking c db (.error e)) := by
  unfold blocking lost
  cases c.lost <;> rfl

/-- A task that ends well. -/
theorem blocking_ok {α : Type} {a : α} {db' : Db} {P : α → Db → Prop} (h : P a db') :
    Becomes (lost c) db P (blocking c db (.ok (a, db'))) := by
  unfold blocking lost
  cases c.lost with
  | some text => rfl
  | none => exact ⟨a, db', rfl, h⟩

/-- A task that calls RocksDB. -/
theorem blocking_call {α : Type} {a : α} {db' : Db} {P : α → Db → Prop} (h : P a db') :
    Becomes ((lost c).or (fault c)) db P (blocking c db (do call c; return (a, db'))) := by
  unfold call fault
  cases c.fault with
  | some text => exact blocking_error _
  | none =>
      rw [Option.map_none, Option.or_none]
      exact blocking_ok h

/-- A call that changes nothing. -/
theorem eq_outcome {α : Type} {a : α} {r : Except FileStoreError α × Db}
    (h : Becomes ((lost c).or (fault c)) db (fun v db' => v = a ∧ db' = db) r) :
    r = (outcome c a, db) := by
  unfold outcome
  cases e : (lost c).or (fault c) with
  | some e' =>
      rw [e] at h
      exact h
  | none =>
      rw [e] at h
      obtain ⟨v, db', rfl, rfl, rfl⟩ := h
      rfl

namespace Holds

theorem empty : Holds s key ∅ ∅ where
  entry k := by simp
  keyed k r h := by simp at h

/-- Nothing but a record's bytes is ever under a key. -/
theorem decode_entry (h : Holds s key family records) {k : PublishedFileKey} {bytes : Bytes}
    (hk : family[k]? = some bytes) :
    ∃ r, records[k]? = some r ∧ s.fromSlice bytes = .ok r ∧ key r = k := by
  have entry := h.entry k
  rw [hk, Option.map_some] at entry
  obtain ⟨r, hr, same⟩ := Option.map_eq_some_iff.mp entry.symm
  exact ⟨r, hr, same.symm, h.keyed k r hr⟩

theorem absent (h : Holds s key family records) {k : PublishedFileKey}
    (hk : family[k]? = none) : records[k]? = none := by
  have entry := h.entry k
  rw [hk, Option.map_none] at entry
  exact Option.map_eq_none_iff.mp entry.symm

theorem isSome_eq (h : Holds s key family records) (k : PublishedFileKey) :
    family[k]?.isSome = records[k]?.isSome := by
  have entry := congrArg Option.isSome (h.entry k)
  rwa [Option.isSome_map, Option.isSome_map] at entry

theorem insert (h : Holds s key family records) {r : R} {bytes : Bytes}
    (hr : s.fromSlice bytes = .ok r) :
    Holds s key (family.insert (key r) bytes) (records.insert (key r) r) where
  entry k := by
    rw [ExtTreeMap.getElem?_insert, ExtTreeMap.getElem?_insert]
    split
    · rw [Option.map_some, Option.map_some, hr]
    · exact h.entry k
  keyed k x hx := by
    rw [ExtTreeMap.getElem?_insert] at hx
    split at hx
    · next hk =>
        cases hx
        exact LawfulEqCmp.eq_of_compare hk
    · exact h.keyed k x hx

theorem erase (h : Holds s key family records) (k : PublishedFileKey) :
    Holds s key (family.erase k) (records.erase k) where
  entry k' := by
    rw [ExtTreeMap.getElem?_erase, ExtTreeMap.getElem?_erase]
    split
    · rfl
    · exact h.entry k'
  keyed k' r hr := by
    rw [ExtTreeMap.getElem?_erase] at hr
    split at hr
    · cases hr
    · exact h.keyed k' r hr

/-- Key by key, the family read as records is the records. -/
theorem map_eq (h : Holds s key family records) :
    family.map (fun _ bytes => s.fromSlice bytes) = records.map fun _ r => .ok r := by
  apply ExtTreeMap.ext_getElem?
  intro k
  rw [ExtTreeMap.getElem?_map, ExtTreeMap.getElem?_map]
  exact h.entry k

/-- The values of the family, read in its order, are the records in
theirs. -/
theorem values_eq (h : Holds s key family records) :
    (family.toList.map Prod.snd).map s.fromSlice = (records.toList.map Prod.snd).map .ok := by
  have lists := congrArg (fun t => t.toList.map Prod.snd) h.map_eq
  simp only [ExtTreeMap.toList_map, List.map_map] at lists
  rw [List.map_map, List.map_map]
  exact lists

/-- The records of a stream have different keys. -/
theorem nodup_keys (h : Holds s key family records) :
    ((records.toList.map Prod.snd).map key).Nodup := by
  have own : (records.toList.map Prod.snd).map key = records.toList.map Prod.fst := by
    rw [List.map_map]
    refine List.map_congr_left fun x hx => ?_
    exact h.keyed x.1 x.2 (ExtTreeMap.mem_toList_iff_getElem?_eq_some.mp hx)
  rw [own]
  have distinct := ExtTreeMap.distinct_keys_toList (t := records)
  rw [List.Nodup, List.pairwise_map]
  refine distinct.imp fun {a b} hne heq => hne ?_
  rw [heq]
  exact ReflCmp.compare_self

end Holds

/-! ### The calls -/

theorem decode_of_fromSlice {bytes : Bytes} {r : R} (h : s.fromSlice bytes = .ok r) :
    decode s bytes = .ok r := by
  rw [decode, h]
  rfl

/-- The bytes under a key. -/
def entryAt (db : Db) (cf : String) (k : PublishedFileKey) : Option Bytes :=
  (db cf).bind fun family => family[k]?

/-- `get` returns the record whose bytes are under the key. -/
theorem get_of_entry {k : PublishedFileKey} {bytes : Bytes} {r : R}
    (hk : entryAt db cf k = some bytes) (hr : s.fromSlice bytes = .ok r) :
    RocksDb.get s k cf c db = (outcome c (some r), db) := by
  obtain ⟨family, hf, hk⟩ := Option.bind_eq_some_iff.mp hk
  have task : RocksDb.get s k cf c db = blocking c db (do call c; return (some r, db)) := by
    simp only [RocksDb.get, getCf_of_some hf, bind, Except.bind, hk, decode_of_fromSlice hr]
  rw [task]
  exact eq_outcome (blocking_call ⟨rfl, rfl⟩)

/-- `get` returns the record under the key. -/
theorem get_becomes (h : Holds s key family records) (hf : db cf = some family)
    (k : PublishedFileKey) :
    Becomes ((lost c).or (fault c)) db (fun v db' => v = records[k]? ∧ db' = db)
      (RocksDb.get s k cf c db) := by
  cases hk : family[k]? with
  | none =>
      have task : RocksDb.get s k cf c db = blocking c db (do call c; return (none, db)) := by
        simp only [RocksDb.get, getCf_of_some hf, bind, Except.bind, hk]
      rw [task]
      exact blocking_call ⟨(h.absent hk).symm, rfl⟩
  | some bytes =>
      obtain ⟨r, hr, back, -⟩ := h.decode_entry hk
      have task : RocksDb.get s k cf c db = blocking c db (do call c; return (some r, db)) := by
        simp only [RocksDb.get, getCf_of_some hf, bind, Except.bind, hk, decode_of_fromSlice back]
      rw [task]
      exact blocking_call ⟨hr.symm, rfl⟩

/-- `exists` says whether a record is under the key. It does not come to
the call where the filter rules the key out. -/
theorem exists_becomes (h : Holds s key family records) (hf : db cf = some family)
    (k : PublishedFileKey) :
    Becomes ((lost c).or (if c.ruledOut ∧ k ∉ records then none else fault c)) db
      (fun v db' => v = records.contains k ∧ db' = db) («exists» k cf c db) := by
  have same : family[k]?.isSome = records.contains k := by
    rw [h.isSome_eq, ExtTreeMap.contains_eq_isSome_getElem?]
  have mem : k ∈ family ↔ k ∈ records := by
    rw [ExtTreeMap.mem_iff_isSome_getElem?, ExtTreeMap.mem_iff_isSome_getElem?, h.isSome_eq]
  by_cases out : c.ruledOut ∧ k ∉ family
  · -- The filter answers for the key, and RocksDB is not asked.
    have out' : c.ruledOut ∧ k ∉ records := ⟨out.1, fun hk => out.2 (mem.mpr hk)⟩
    have task : «exists» k cf c db = blocking c db (.ok (false, db)) := by
      unfold «exists»
      rw [getCf_of_some hf]
      exact congrArg (blocking c db) (if_pos out)
    have none : records.contains k = false := by
      rw [← same, Bool.eq_false_iff]
      exact fun hk => out.2 (ExtTreeMap.mem_iff_isSome_getElem?.mpr hk)
    rw [task, if_pos out', Option.or_none]
    exact blocking_ok ⟨none.symm, rfl⟩
  · -- RocksDB is asked, and sees the entry if there is one.
    have out' : ¬ (c.ruledOut ∧ k ∉ records) := fun h => out ⟨h.1, fun hk => h.2 (mem.mp hk)⟩
    have task : «exists» k cf c db = blocking c db (do call c; return (family[k]?.isSome, db)) := by
      unfold «exists»
      rw [getCf_of_some hf]
      exact congrArg (blocking c db) (if_neg out)
    rw [task, if_neg out']
    exact blocking_call ⟨same, rfl⟩

/-- `put` fails to write the record, or stores it under its key. -/
theorem put_becomes {r : R} {t : Except String (PublishedFileKey × Bytes)}
    (ht : t = (s.toVec c.order r).map fun bytes => (key r, bytes)) (hf : db cf = some family) :
    Becomes ((lost c).or ((unwritten (s.toVec c.order r)).or (fault c))) db
      (fun _ db' => ∃ bytes, s.fromSlice bytes = .ok r ∧
        db' = Function.update db cf (some (family.insert (key r) bytes))) (put t cf c db) := by
  cases hs : s.toVec c.order r with
  | error e =>
      -- The record cannot be written, and RocksDB is not called.
      rw [hs] at ht
      subst ht
      exact blocking_error _
  | ok bytes =>
      rw [hs] at ht
      subst ht
      have task : put (.ok (key r, bytes)) cf c db = blocking c db (do
          call c
          return ((), Function.update db cf (some (family.insert (key r) bytes)))) := by
        show blocking c db (getCf db cf >>= fun family => call c >>= fun _ =>
          pure ((), Function.update db cf (some (family.insert (key r) bytes)))) = _
        rw [getCf_of_some hf]
        rfl
      show Becomes ((lost c).or (fault c)) db _ (put (.ok (key r, bytes)) cf c db)
      rw [task]
      exact blocking_call ⟨bytes, s.fromSlice_toVec hs, rfl⟩

/-- `delete` erases the entry. -/
theorem delete_becomes (hf : db cf = some family) (k : PublishedFileKey) :
    Becomes ((lost c).or (fault c)) db
      (fun _ db' => db' = Function.update db cf (some (family.erase k))) (delete k cf c db) := by
  have task : delete k cf c db = blocking c db (do
      call c
      return ((), Function.update db cf (some (family.erase k)))) := by
    unfold delete
    rw [getCf_of_some hf]
    rfl
  rw [task]
  exact blocking_call rfl

/-- The values of the family, decoded. -/
theorem decode_values (h : Holds s key family records) :
    (family.toList.map Prod.snd).map (decode s) = (records.toList.map Prod.snd).map .ok := by
  let wrap : Except String R → Except FileStoreError R :=
    Except.mapError fun e => .rocksDb (.cbor e)
  calc (family.toList.map Prod.snd).map (decode s)
      = ((family.toList.map Prod.snd).map s.fromSlice).map wrap := List.map_map.symm
    _ = ((records.toList.map Prod.snd).map .ok).map wrap := by rw [h.values_eq]
    _ = (records.toList.map Prod.snd).map .ok := List.map_map

/-- An iterator over the family, decoded. -/
theorem iterate_decoded (h : Holds s key family records) :
    ((iterate family c).map fun item => item >>= decode s) =
      yields c (records.toList.map Prod.snd) := by
  unfold iterate yields
  cases c.broken with
  | none =>
      rw [List.map_map]
      exact decode_values h
  | some x =>
      -- What comes before the break is read back, and the error is passed on.
      obtain ⟨n, text⟩ := x
      have front : (((family.toList.map Prod.snd).take n).map Except.ok).map
          (fun item => item >>= decode s) = ((records.toList.map Prod.snd).take n).map .ok := by
        rw [List.map_map]
        show ((family.toList.map Prod.snd).take n).map (decode s) = _
        rw [List.map_take, decode_values h, List.map_take]
      exact List.map_append.trans (congrArg (· ++ _) front)

/-- A stream has the items of the iterator its receiver takes. -/
theorem streamAll_eq (h : Holds s key family records) (hf : db cf = some family) :
    streamAll s cf c db = (yields c (records.toList.map Prod.snd)).take c.taken := by
  rw [streamAll, getCf_of_some hf]
  exact congrArg (List.take c.taken) (iterate_decoded h)

/-- The records an iterator yields are among those it goes through. -/
theorem yields_sublist (c : DbChoice) (rs : List R) :
    ((yields c rs).filterMap Except.toOption).Sublist rs := by
  have oks : ∀ l : List R,
      (l.map (Except.ok (ε := FileStoreError))).filterMap Except.toOption = l := by
    intro l
    rw [List.filterMap_map]
    exact List.filterMap_some
  unfold yields
  cases c.broken with
  | none => rw [oks]
  | some x =>
      rw [List.filterMap_append, oks]
      show (rs.take x.1 ++ []).Sublist rs
      rw [List.append_nil]
      exact List.take_sublist _ _

/-- An error of an iterator is RocksDB's. -/
theorem yields_error {rs : List R} {e : FileStoreError} (he : .error e ∈ yields c rs) :
    ∃ text, e = .rocksDb (.rocksDb text) := by
  unfold yields at he
  -- Every record reads back, so the only error is that of the break.
  cases hb : c.broken with
  | none =>
      rw [hb] at he
      obtain ⟨r, -, same⟩ := List.mem_map.mp he
      cases same
  | some x =>
      rw [hb] at he
      obtain he | he := List.mem_append.mp he
      · obtain ⟨r, -, same⟩ := List.mem_map.mp he
        cases same
      · cases List.mem_singleton.mp he
        exact ⟨x.2, rfl⟩

/-- A record of a stream is stored, under its own key. -/
theorem stored_of_streamAll (h : Holds s key family records) (hf : db cf = some family) {r : R}
    (hr : .ok r ∈ streamAll s cf c db) : records[key r]? = some r := by
  rw [streamAll_eq h hf] at hr
  have mem : r ∈ records.toList.map Prod.snd :=
    (yields_sublist c _).subset (List.mem_filterMap.mpr ⟨.ok r, List.mem_of_mem_take hr, rfl⟩)
  obtain ⟨⟨k, r'⟩, hk, rfl⟩ := List.mem_map.mp mem
  have at_key := ExtTreeMap.mem_toList_iff_getElem?_eq_some.mp hk
  rwa [h.keyed k r' at_key]

/-- The records of a stream have different keys. -/
theorem nodup_of_streamAll (h : Holds s key family records) (hf : db cf = some family) :
    (((streamAll s cf c db).filterMap Except.toOption).map key).Nodup := by
  rw [streamAll_eq h hf]
  refine h.nodup_keys.sublist (List.Sublist.map key ?_)
  exact ((List.take_sublist c.taken _).filterMap _).trans (yields_sublist c _)

/-- An iterator starts with the first record, unless it breaks there. -/
theorem head_yields {rs : List R} (h : firstError c rs = none) :
    (yields c rs).head? = rs.head?.map .ok := by
  unfold firstError yields at *
  cases hb : c.broken with
  | none => exact List.head?_map
  | some x =>
      obtain ⟨n, text⟩ := x
      rw [hb] at h
      cases rs with
      | nil => cases n <;> cases h
      | cons r rs =>
          cases n with
          | zero => cases h
          | succ n => rfl

theorem head_of_firstError {rs : List R} {e : FileStoreError} (h : firstError c rs = some e) :
    (yields c rs).head? = some (.error e) := by
  unfold firstError at h
  split at h
  · next e' he =>
      cases h
      exact he
  · cases h

theorem next_of_head [Serdes] {item : Except FileStoreError Bytes}
    (hf : db FILE_METADATA_COLUMN_FAMILY_NAME = some family)
    (h : (iterate family c).head? = some item) :
    next c db = blocking c db
      ((item >>= decode Serdes.fileMetadata) >>= fun m => pure (some m, db)) := by
  simp only [next, getCf_of_some hf, bind, Except.bind, h]
  cases item <;> rfl

/-- `get_next_file_metadata` returns the first record, unless the iterator
breaks there. -/
theorem next_becomes [Serdes] {records : ExtTreeMap PublishedFileKey FileMetadata}
    {key : FileMetadata → PublishedFileKey} (h : Holds Serdes.fileMetadata key family records)
    (hf : db FILE_METADATA_COLUMN_FAMILY_NAME = some family) :
    Becomes ((lost c).or (firstError c (records.toList.map Prod.snd))) db
      (fun v db' => v = (records.toList.head?).map Prod.snd ∧ db' = db) (next c db) := by
  -- The first item decides: it is an error, a record, or there is none.
  have head : ((iterate family c).head?).map (fun item => item >>= decode Serdes.fileMetadata) =
      (yields c (records.toList.map Prod.snd)).head? := by
    rw [← List.head?_map, iterate_decoded h]
  rw [← List.head?_map]
  cases he : firstError c (records.toList.map Prod.snd) with
  | some e =>
      rw [head_of_firstError he] at head
      obtain ⟨item, hitem, hdecoded⟩ := Option.map_eq_some_iff.mp head
      rw [next_of_head hf hitem, hdecoded]
      exact blocking_error e
  | none =>
      rw [head_yields he] at head
      rw [Option.or_none]
      cases hrs : (records.toList.map Prod.snd).head? with
      | none =>
          rw [hrs] at head
          have empty : (iterate family c).head? = none := Option.map_eq_none_iff.mp head
          have task : next c db = blocking c db (.ok (none, db)) := by
            simp only [next, getCf_of_some hf, bind, Except.bind, empty]
            rfl
          rw [task]
          exact blocking_ok ⟨rfl, rfl⟩
      | some m =>
          rw [hrs] at head
          obtain ⟨item, hitem, hdecoded⟩ := Option.map_eq_some_iff.mp head
          rw [next_of_head hf hitem, hdecoded]
          exact blocking_ok ⟨rfl, rfl⟩

/-- A family as its readers find it. -/
structure Consistent (s : Serde R) (key : R → PublishedFileKey) (cf : String) (db : Db) : Prop where
  /-- Every entry reads back, as a record with its key. -/
  decodes : ∀ k bytes, entryAt db cf k = some bytes → ∃ r, s.fromSlice bytes = .ok r ∧ key r = k
  /-- A stream yields every key at most once. -/
  distinct : ∀ c, (((streamAll s cf c db).filterMap Except.toOption).map key).Nodup
  /-- While the entry stays as it is, `get` returns what a stream yielded. -/
  found : ∀ c r, .ok r ∈ streamAll s cf c db → ∀ c' db',
    entryAt db' cf (key r) = entryAt db cf (key r) →
      RocksDb.get s (key r) cf c' db' = (outcome c' (some r), db')
  /-- Only RocksDB's errors come up in a stream. -/
  failed : ∀ c e, .error e ∈ streamAll s cf c db → ∃ text, e = .rocksDb (.rocksDb text)

/-- The database holds the records in the family of this name. -/
def Held (s : Serde R) (key : R → PublishedFileKey) (cf : String) (db : Db)
    (records : ExtTreeMap PublishedFileKey R) : Prop :=
  ∃ family, db cf = some family ∧ Holds s key family records

theorem Held.congr (h : Held s key cf db records) {db' : Db} (hdb : db' cf = db cf) :
    Held s key cf db' records := by
  obtain ⟨family, hf, holds⟩ := h
  exact ⟨family, hdb.trans hf, holds⟩

theorem Held.consistent (h : Held s key cf db records) : Consistent s key cf db where
  decodes k bytes hk := by
    obtain ⟨family, hf, holds⟩ := h
    rw [entryAt, hf, Option.bind_some] at hk
    obtain ⟨r, -, back, own⟩ := holds.decode_entry hk
    exact ⟨r, back, own⟩
  distinct c := by
    obtain ⟨family, hf, holds⟩ := h
    exact nodup_of_streamAll holds hf
  found c r hr c' db' same := by
    obtain ⟨family, hf, holds⟩ := h
    have entry := holds.entry (key r)
    rw [stored_of_streamAll holds hf hr, Option.map_some] at entry
    obtain ⟨bytes, hb, back⟩ := Option.map_eq_some_iff.mp entry
    refine get_of_entry ?_ back
    rw [same, entryAt, hf, Option.bind_some, hb]
  failed c e he := by
    obtain ⟨family, hf, holds⟩ := h
    rw [streamAll_eq holds hf] at he
    exact yields_error (List.mem_of_mem_take he)

/-- `put` adds the record. -/
theorem Held.put (h : Held s key cf db records) {r : R}
    {t : Except String (PublishedFileKey × Bytes)}
    (ht : t = (s.toVec c.order r).map fun bytes => (key r, bytes)) :
    Becomes ((lost c).or ((unwritten (s.toVec c.order r)).or (fault c))) db
      (fun _ db' => (∀ x, x ≠ cf → db' x = db x) ∧ Held s key cf db' (records.insert (key r) r))
      (RocksDb.put t cf c db) := by
  obtain ⟨family, hf, holds⟩ := h
  refine (put_becomes ht hf).mono fun _ db' done => ?_
  obtain ⟨bytes, back, rfl⟩ := done
  exact ⟨fun x hx => Function.update_of_ne hx _ _, _, Function.update_self _ _ _,
    holds.insert back⟩

/-- `delete` erases the record. -/
theorem Held.delete (h : Held s key cf db records) (k : PublishedFileKey) :
    Becomes ((lost c).or (fault c)) db
      (fun _ db' => (∀ x, x ≠ cf → db' x = db x) ∧ Held s key cf db' (records.erase k))
      (RocksDb.delete k cf c db) := by
  obtain ⟨family, hf, holds⟩ := h
  refine (delete_becomes hf k).mono fun _ db' done => ?_
  subst done
  exact ⟨fun x hx => Function.update_of_ne hx _ _, _, Function.update_self _ _ _, holds.erase k⟩

end Families

/-! ### The store -/

section Store

variable [Platform] [Serdes] {db : Db} {s : Store} {c : DbChoice}

/-- The database holds the three maps.
- `published`, `pending`, `jobs`: each in the family of its name, under the
  keys of the records. -/
structure Abstracts (db : Db) (s : Store) : Prop where
  published : Held Serdes.publishedFile PublishedFileRecord.key
    PUBLISHED_FILES_COLUMN_FAMILY_NAME db s.published
  pending : Held Serdes.pendingDownload PendingDownloadRecord.key
    PENDING_DOWNLOADS_COLUMN_FAMILY_NAME db s.pending
  jobs : Held Serdes.fileMetadata FileMetadata.key FILE_METADATA_COLUMN_FAMILY_NAME db s.jobs

/-- What the two levels return. Only streams differ: the upper level has
the whole list, the lower one the items that are taken from an iterator. -/
def SameVal (c : DbChoice) : (o : StoreOp) → o.Val → RocksDb.Val o → Prop
  | .streamPublishedFiles, rs, items => items = (yields c rs).take c.taken
  | .streamPendingDownloads, rs, items => items = (yields c rs).take c.taken
  | .getPublishedFile _, a, b => b = a
  | .publishedFileExists _, a, b => b = a
  | .getPendingDownload _, a, b => b = a
  | .pendingDownloadExists _, a, b => b = a
  | .getNextFileMetadata, a, b => b = a
  | _, _, _ => True

/-- The error of an operation on these maps under a choice:

- a stream has its errors among its items;
- every other task may be lost;
- a record may fail to be written;
- RocksDB may fail, which a look for a key that its filter rules out does
  not notice;
- the iterator of the publish queue may break at once. -/
def failure? (c : DbChoice) (s : Store) : StoreOp → Option FileStoreError
  | .streamPublishedFiles | .streamPendingDownloads | .streamItem => none
  | .putPublishedFile r =>
      (lost c).or ((unwritten (Serdes.publishedFile.toVec c.order r)).or (fault c))
  | .putPendingDownload r =>
      (lost c).or ((unwritten (Serdes.pendingDownload.toVec c.order r)).or (fault c))
  | .putFileMetadata m =>
      (lost c).or ((unwritten (Serdes.fileMetadata.toVec c.order m)).or (fault c))
  | .getPublishedFile _ | .getPendingDownload _ | .deletePendingDownload _
  | .deleteFileMetadata _ => (lost c).or (fault c)
  | .publishedFileExists k =>
      (lost c).or (if c.ruledOut ∧ k ∉ s.published then none else fault c)
  | .pendingDownloadExists k =>
      (lost c).or (if c.ruledOut ∧ k ∉ s.pending then none else fault c)
  | .getNextFileMetadata => (lost c).or (firstError c (s.jobs.toList.map Prod.snd))

/-- The family an operation writes to. -/
def written : StoreOp → Option String
  | .putPublishedFile _ => some PUBLISHED_FILES_COLUMN_FAMILY_NAME
  | .putPendingDownload _ | .deletePendingDownload _ => some PENDING_DOWNLOADS_COLUMN_FAMILY_NAME
  | .putFileMetadata _ | .deleteFileMetadata _ => some FILE_METADATA_COLUMN_FAMILY_NAME
  | _ => none

/-- What an operation does to a database that holds the maps `s`.
- Where `failure?` has an error, it answers this error and changes nothing.
- Elsewhere it answers what the maps answer, the database holds the maps
  the operation leads to, and the other families stay as they are. -/
def Refines (db : Db) (s : Store) (c : DbChoice) (o : StoreOp)
    (r : Except FileStoreError (Val o) × Db) : Prop :=
  Becomes (failure? c s o) db (fun v db' => SameVal c o (o.run s).1 v ∧
    Abstracts db' (o.run s).2 ∧ ∀ x, written o ≠ some x → db' x = db x) r

/-- A read leaves the maps as they are. -/
theorem Abstracts.read {α : Type} {e : Option FileStoreError} {a : α} {P : String → Prop}
    {r : Except FileStoreError α × Db} (h : Abstracts db s)
    (hr : Becomes e db (fun v db' => v = a ∧ db' = db) r) :
    Becomes e db (fun v db' => v = a ∧ Abstracts db' s ∧ ∀ x, P x → db' x = db x) r := by
  refine hr.mono fun v db' done => ?_
  obtain ⟨rfl, rfl⟩ := done
  exact ⟨rfl, h, fun _ _ => rfl⟩

/-- Every operation refines the operation on the maps. -/
theorem run_refines (h : Abstracts db s) (c : DbChoice) (o : StoreOp) :
    Refines db s c o (run c db o) := by
  -- a write changes one family and leaves the other two, a read changes none
  cases o with
  | putPublishedFile r =>
      refine (h.published.put (c := c) (r := r) rfl).mono fun _ db' done => ?_
      obtain ⟨others, held⟩ := done
      exact ⟨trivial, ⟨held, h.pending.congr (others _ (by decide)),
        h.jobs.congr (others _ (by decide))⟩, fun x hx => others x fun e => hx (e ▸ rfl)⟩
  | putPendingDownload r =>
      refine (h.pending.put (c := c) (r := r) rfl).mono fun _ db' done => ?_
      obtain ⟨others, held⟩ := done
      exact ⟨trivial, ⟨h.published.congr (others _ (by decide)), held,
        h.jobs.congr (others _ (by decide))⟩, fun x hx => others x fun e => hx (e ▸ rfl)⟩
  | putFileMetadata m =>
      refine (h.jobs.put (c := c) (r := m) rfl).mono fun _ db' done => ?_
      obtain ⟨others, held⟩ := done
      exact ⟨trivial, ⟨h.published.congr (others _ (by decide)),
        h.pending.congr (others _ (by decide)), held⟩, fun x hx => others x fun e => hx (e ▸ rfl)⟩
  | deletePendingDownload k =>
      refine (h.pending.delete k).mono fun _ db' done => ?_
      obtain ⟨others, held⟩ := done
      exact ⟨trivial, ⟨h.published.congr (others _ (by decide)), held,
        h.jobs.congr (others _ (by decide))⟩, fun x hx => others x fun e => hx (e ▸ rfl)⟩
  | deleteFileMetadata k =>
      refine (h.jobs.delete k).mono fun _ db' done => ?_
      obtain ⟨others, held⟩ := done
      exact ⟨trivial, ⟨h.published.congr (others _ (by decide)),
        h.pending.congr (others _ (by decide)), held⟩, fun x hx => others x fun e => hx (e ▸ rfl)⟩
  | getPublishedFile k =>
      obtain ⟨family, hf, holds⟩ := h.published
      exact h.read (get_becomes holds hf k)
  | getPendingDownload k =>
      obtain ⟨family, hf, holds⟩ := h.pending
      exact h.read (get_becomes holds hf k)
  | publishedFileExists k =>
      obtain ⟨family, hf, holds⟩ := h.published
      exact h.read (exists_becomes holds hf k)
  | pendingDownloadExists k =>
      obtain ⟨family, hf, holds⟩ := h.pending
      exact h.read (exists_becomes holds hf k)
  | streamPublishedFiles =>
      obtain ⟨family, hf, holds⟩ := h.published
      exact ⟨_, db, rfl, streamAll_eq holds hf, h, fun _ _ => rfl⟩
  | streamPendingDownloads =>
      obtain ⟨family, hf, holds⟩ := h.pending
      exact ⟨_, db, rfl, streamAll_eq holds hf, h, fun _ _ => rfl⟩
  | getNextFileMetadata =>
      obtain ⟨family, hf, holds⟩ := h.jobs
      exact h.read (next_becomes holds hf)
  | streamItem => exact ⟨(), db, rfl, trivial, h, fun _ _ => rfl⟩

/-- A call that fails changes nothing, and one that does not has the
effect. -/
theorem Refines.cases {o : StoreOp} {r : Except FileStoreError (Val o) × Db}
    (h : Refines db s c o r) :
    (∃ e, failure? c s o = some e ∧ r = (.error e, db)) ∨
      ∃ v db', r = (.ok v, db') ∧ SameVal c o (o.run s).1 v ∧ Abstracts db' (o.run s).2 ∧
        ∀ x, written o ≠ some x → db' x = db x := by
  unfold Refines at h
  cases he : failure? c s o with
  | some e =>
      rw [he] at h
      exact .inl ⟨e, rfl, h⟩
  | none =>
      rw [he] at h
      exact .inr h

theorem abstracts_new : Abstracts new ⟨∅, ∅, ∅⟩ where
  published := ⟨∅, rfl, .empty⟩
  pending := ⟨∅, rfl, .empty⟩
  jobs := ⟨∅, rfl, .empty⟩

/-- Every database a sequence of operations leads to holds three maps. -/
theorem abstracts_of_reach (h : RocksDb.Reach db) : ∃ s, Abstracts db s := by
  -- A failed operation keeps the three maps, any other moves them along.
  induction h with
  | new => exact ⟨_, abstracts_new⟩
  | @step db o c _ ih =>
      obtain ⟨s, hs⟩ := ih
      obtain ⟨e, -, failed⟩ | ⟨v, db', done, -, hs', -⟩ := (run_refines hs c o).cases
      · exact ⟨s, by rwa [failed]⟩
      · exact ⟨_, by rwa [done]⟩

/-- The operations of the other models. -/
theorem run_simulates (h : Abstracts db s) (c : DbChoice) (o : StoreOp) :
    ∃ choice a s', o.exec choice s = some (a, s') ∧ Abstracts (run c db o).2 s' ∧
      ((∃ e, a = .error e ∧ (run c db o).1 = .error e) ∨
        ∃ x v, a = .ok x ∧ (run c db o).1 = .ok v ∧ SameVal c o x v) := by
  obtain ⟨e, -, failed⟩ | ⟨v, db', done, same, hs', -⟩ := (run_refines h c o).cases
  · exact ⟨.storeError e, .error e, s, rfl, by rwa [failed], .inl ⟨e, rfl, by rw [failed]⟩⟩
  · exact ⟨.ok, .ok (o.run s).1, (o.run s).2, rfl, by rwa [done],
      .inr ⟨(o.run s).1, v, rfl, by rw [done], same⟩⟩

/-- What the publisher relies on. If `get_next_file_metadata` returns a
metadata,
- it leaves the database as it is,
- the metadata is stored under its own key,
- and to delete this key removes its entry and no other, or fails and
  changes nothing. -/
def QueueConsistent (db : Db) : Prop :=
  ∀ c m db', next c db = (.ok (some m), db') → db' = db ∧
    ∃ jobs bytes, db FILE_METADATA_COLUMN_FAMILY_NAME = some jobs ∧
      jobs[m.key]? = some bytes ∧ Serdes.fileMetadata.fromSlice bytes = .ok m ∧
      ∀ c', Becomes ((lost c').or (fault c')) db (fun _ db' =>
          db' = Function.update db FILE_METADATA_COLUMN_FAMILY_NAME (some (jobs.erase m.key)))
        (RocksDb.run c' db (.deleteFileMetadata m.key))

theorem Abstracts.queue (h : Abstracts db s) : QueueConsistent db := by
  intro c m db' hnext
  obtain ⟨jobs, hf, holds⟩ := h.jobs
  have became := next_becomes (c := c) holds hf
  rw [hnext] at became
  cases he : (lost c).or (firstError c (s.jobs.toList.map Prod.snd)) with
  | some e =>
      rw [he] at became
      cases became
  | none =>
      rw [he] at became
      obtain ⟨v, _, done, first, rfl⟩ := became
      cases done
      -- The metadata is the first of its map, and there under its own key.
      obtain ⟨⟨k, m'⟩, hm, rfl⟩ := Option.map_eq_some_iff.mp first.symm
      have stored : s.jobs[k]? = some m' :=
        ExtTreeMap.mem_toList_iff_getElem?_eq_some.mp (List.mem_of_mem_head? hm)
      obtain rfl := holds.keyed k m' stored
      have entry := holds.entry (FileMetadata.key m')
      rw [stored, Option.map_some] at entry
      obtain ⟨bytes, hb, back⟩ := Option.map_eq_some_iff.mp entry
      refine ⟨rfl, jobs, bytes, hf, hb, back, fun c' => ?_⟩
      exact (delete_becomes hf _).mono fun _ _ done => done

/-- For every database a sequence of operations leads to: the families
read back, under the keys of their records; the publish queue gives out
what it holds; an operation that fails changes nothing; no operation
touches another family; and all of them act like operations on three
maps. -/
theorem store_consistent (db : Db) (h : RocksDb.Reach db) :
    Consistent Serdes.publishedFile PublishedFileRecord.key PUBLISHED_FILES_COLUMN_FAMILY_NAME db ∧
    Consistent Serdes.pendingDownload PendingDownloadRecord.key
      PENDING_DOWNLOADS_COLUMN_FAMILY_NAME db ∧
    Consistent Serdes.fileMetadata FileMetadata.key FILE_METADATA_COLUMN_FAMILY_NAME db ∧
    QueueConsistent db ∧
    (∀ c o e, (run c db o).1 = .error e → (run c db o).2 = db) ∧
    (∀ c o x, written o ≠ some x → (run c db o).2 x = db x) ∧
    ∃ s, Abstracts db s ∧ ∀ c o, Refines db s c o (run c db o) := by
  -- All parts are read off the three maps the database holds.
  obtain ⟨s, hs⟩ := abstracts_of_reach h
  refine ⟨hs.published.consistent, hs.pending.consistent, hs.jobs.consistent, hs.queue, ?_, ?_,
    s, hs, fun c o => run_refines hs c o⟩
  · intro c o e he
    obtain ⟨e', -, failed⟩ | ⟨v, db', done, -⟩ := (run_refines hs c o).cases
    · rw [failed]
    · rw [done] at he
      cases he
  · intro c o x hx
    obtain ⟨e', -, failed⟩ | ⟨v, db', done, -, -, others⟩ := (run_refines hs c o).cases
    · rw [failed]
    · rw [done]
      exact others x hx

end Store

section Example

open Reference

attribute [local instance] platform

open Cbor in
/-- The CBOR form of a `PublishedFileRecord`. -/
def publishedFileCodec : Codec PublishedFileRecord :=
  (struct 4 <|
    (field "key" (octets 8)).pair <|
    (field "original_file_name" text).pair <|
    (field "chunks_dir" text).pair
    (field "public" bool)).retract
    (fun r => (r.key, r.originalFileName, r.chunksDir.str, r.isPublic))
    (fun (key, name, dir, isPublic) => some ⟨key, name, ⟨dir⟩, isPublic⟩)
    fun _ => rfl

open Cbor in
/-- The CBOR form of a `PendingDownloadRecord`, its chunks in ascending
order. -/
def pendingDownloadCodec : Codec PendingDownloadRecord :=
  (struct 4 <|
    (field "key" (octets 8)).pair <|
    (field "original_file_name" text).pair <|
    (field "chunks_dir" text).pair
    (field "downloaded_chunks" (array uint))).retract
    (fun r => (r.key, r.originalFileName, r.chunksDir.str, r.downloadedChunks.sort))
    (fun (key, name, dir, chunks) => some ⟨key, name, ⟨dir⟩, chunks.toFinset⟩)
    fun r => by simp only [Finset.sort_toFinset]

/-- A codec as `serde_cbor` for its type. -/
def serde {R : Type} (c : Codec R) : Serde R where
  toVec _ r := .ok (c.bytes r)
  fromSlice bytes :=
    match c.decode bytes with
    | some r => .ok r
    | none => .error "the record cannot be read"
  fromSlice_toVec h := by
    cases h
    rw [c.decode_bytes]

/-- The records in their CBOR forms. -/
@[reducible] def serdes : Serdes :=
  ⟨serde publishedFileCodec, serde pendingDownloadCodec, serde FileMetadata.codec⟩

attribute [local instance] serdes

/-- Nothing goes wrong. -/
def calm : DbChoice := ⟨0, none, none, false, none, 10⟩

/-- A lost task. -/
def lostTask : DbChoice := { calm with lost := some "the task panicked" }

/-- The database after a file was published, a download was taken up and a
file was queued. One of the writes was lost. -/
def used : Db :=
  let db := (run calm new (.putPublishedFile (.ofMetadata oneByte))).2
  let db := (run lostTask db (.putPublishedFile (.ofMetadata twoChunks))).2
  let db := (run calm db (.putPendingDownload (pendingDownload twoChunks))).2
  (run calm db (.putFileMetadata oneByte)).2

/-- Each of the three records is found in its own map, and the published
one is all a stream yields. -/
theorem store_consistent_used :
    QueueConsistent used ∧ ∃ s, Abstracts used s ∧
      s.published[oneByte.key]? = some (.ofMetadata oneByte) ∧
      s.published.contains twoChunks.key = false ∧
      s.pending[twoChunks.key]? = some (pendingDownload twoChunks) ∧
      s.jobs.toList.head?.map Prod.snd = some oneByte ∧
      ((yields calm (s.published.toList.map Prod.snd)).take calm.taken).map Except.toOption =
        [some (.ofMetadata oneByte)] := by
  obtain ⟨-, -, -, queue, -, -, s, hs, refines⟩ :=
    store_consistent used (.step _ calm (.step _ calm (.step _ lostTask (.step _ calm .new))))
  refine ⟨queue, s, hs, ?_, ?_, ?_, ?_, ?_⟩
  · obtain ⟨v, db', done, same, -⟩ := refines calm (.getPublishedFile oneByte.key)
    have read : (run calm used (.getPublishedFile oneByte.key)).1.toOption =
        some (some (.ofMetadata oneByte)) := by decide +kernel
    rw [done] at read
    cases read
    exact same.symm
  · obtain ⟨v, db', done, same, -⟩ := refines calm (.publishedFileExists twoChunks.key)
    have read : (run calm used (.publishedFileExists twoChunks.key)).1.toOption = some false := by
      decide +kernel
    rw [done] at read
    cases read
    exact same.symm
  · obtain ⟨v, db', done, same, -⟩ := refines calm (.getPendingDownload twoChunks.key)
    have read : (run calm used (.getPendingDownload twoChunks.key)).1.toOption =
        some (some (pendingDownload twoChunks)) := by decide +kernel
    rw [done] at read
    cases read
    exact same.symm
  · have none : failure? calm s .getNextFileMetadata = none := by
      show firstError calm (s.jobs.toList.map Prod.snd) = none
      cases s.jobs.toList <;> rfl
    obtain ⟨e, failed, -⟩ | ⟨v, db', done, same, -⟩ := (refines calm .getNextFileMetadata).cases
    · rw [none] at failed
      cases failed
    have read : (run calm used .getNextFileMetadata).1.toOption = some (some oneByte) := by
      decide +kernel
    rw [done] at read
    cases read
    exact same.symm
  · obtain ⟨v, db', done, same, -⟩ := refines calm .streamPublishedFiles
    have read : (run calm used .streamPublishedFiles).1.toOption.map (·.map Except.toOption) =
        some [some (.ofMetadata oneByte)] := by decide +kernel
    rw [done] at read
    exact (congrArg (List.map Except.toOption) same).symm.trans (Option.some.inj read)

end Example

end RustDfs.StoreMaps
