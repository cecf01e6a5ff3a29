import RustDfs.Model.Reference
import RustDfs.Proofs.Joins
import RustDfs.Proofs.RecordKeys

/-!
# `RustDfs.Proofs.PublishRetry`: when publishing gets past its retry loop

`file_publish` repeats `provide_all` until it succeeds, inside the event
loop. Every attempt puts and provides the same keys, and the local store
of Kademlia holds 1024 records and 1024 provided keys, of which nothing is
removed meanwhile. So the keys that are still missing either fit, and the
first attempt succeeds, or they never will: `Fits` is the condition, and
`publishing_ends` says that it is exact.

What an attempt does to the store is `Shelved`: it keeps the sum of what
is held and what is missing, so that `Fits` neither begins nor ends.
-/

set_option autoImplicit false

namespace RustDfs.PublishRetry

open Lib Conc Prog EventService Joins RecordKeys

/-! ### What is missing -/

/-- How many of the keys are not among `own`. -/
def missing (keys own : List Bytes) : Nat := (keys.filter (· ∉ own)).length

/-- `own'` comes from `own` by adding keys. -/
structure Added (keys own own' : List Bytes) : Prop where
  sub : own ⊆ own'
  le : own.length ≤ own'.length
  total : own'.length + missing keys own' = own.length + missing keys own

section Missing

variable {keys own own' own'' : List Bytes} {k : Bytes}

theorem missing_cons (hn : keys.Nodup) (hk : k ∈ keys) (ho : k ∉ own) :
    missing keys (k :: own) + 1 = missing keys own := by
  have mem : k ∈ keys.filter (· ∉ own) := List.mem_filter.mpr ⟨hk, by simpa using ho⟩
  have erase : keys.filter (· ∉ k :: own) = (keys.filter (· ∉ own)).erase k := by
    rw [(hn.filter _).erase_eq_filter, List.filter_filter]
    refine List.filter_congr fun x _ => ?_
    by_cases hx : x = k <;> simp [hx]
  have pos := List.length_pos_of_mem mem
  rw [missing, missing, erase, List.length_erase_of_mem mem]
  omega

theorem missing_pos (hk : k ∈ keys) (ho : k ∉ own) : 0 < missing keys own :=
  List.length_pos_of_mem (List.mem_filter.mpr ⟨hk, by simpa using ho⟩)

theorem missing_eq_zero (h : ∀ k ∈ keys, k ∈ own) : missing keys own = 0 := by
  rw [missing, List.length_eq_zero_iff, List.filter_eq_nil_iff]
  intro k hk
  simpa using h k hk

theorem Added.refl : Added keys own own := ⟨fun _ h => h, Nat.le_refl _, rfl⟩

theorem Added.trans (h : Added keys own own') (h' : Added keys own' own'') :
    Added keys own own'' :=
  ⟨fun _ hk => h'.sub (h.sub hk), h.le.trans h'.le, h'.total.trans h.total⟩

/-- One key that was missing. -/
theorem Added.cons (hn : keys.Nodup) (hk : k ∈ keys) (ho : k ∉ own) :
    Added keys own (k :: own) := by
  have fewer := missing_cons hn hk ho
  refine ⟨List.subset_cons_self _ _, by simp, ?_⟩
  rw [List.length_cons]
  omega

end Missing

/-! ### The local store -/

/-- There is room for the keys that are missing.
- `records`: with those that are no records yet, the records stay within
  their limit; if none is missing, nothing is asked,
- `provided`: with those that are not provided yet, the provided keys stay
  within theirs. A store above this limit, which never comes to be, would
  not notice it. -/
structure Fits (keys : List Bytes) (s : Swarm) : Prop where
  records : missing keys s.records ≠ 0 →
    s.records.length + missing keys s.records ≤ MAX_RECORDS
  provided : s.provided.length ≤ MAX_PROVIDED_KEYS →
    s.provided.length + missing keys s.provided ≤ MAX_PROVIDED_KEYS

instance (keys : List Bytes) (s : Swarm) : Decidable (Fits keys s) :=
  decidable_of_iff _ ⟨fun h => ⟨h.1, h.2⟩, fun h => And.intro h.1 h.2⟩

/-- What announcing some of the keys makes of the store. -/
structure Shelved (keys : List Bytes) (s s' : Swarm) : Prop where
  records : Added keys s.records s'.records
  provided : Added keys s.provided s'.provided
  recordsBound : s'.records.length = s.records.length ∨ s'.records.length ≤ MAX_RECORDS
  providedBound : s.provided.length ≤ MAX_PROVIDED_KEYS → s'.provided.length ≤ MAX_PROVIDED_KEYS

section Store

variable {keys : List Bytes} {s s' s'' : Swarm}

theorem Shelved.refl : Shelved keys s s := ⟨.refl, .refl, .inl rfl, fun h => h⟩

theorem Shelved.trans (h : Shelved keys s s') (h' : Shelved keys s' s'') :
    Shelved keys s s'' := by
  refine ⟨h.records.trans h'.records, h.provided.trans h'.provided, ?_,
    fun hs => h'.providedBound (h.providedBound hs)⟩
  obtain e' | e' := h'.recordsBound
  · exact h.recordsBound.imp e'.trans fun e => by omega
  · exact .inr e'

/-- Whether the keys fit does not change while some of them are added. -/
theorem Shelved.fits_iff (h : Shelved keys s s') : Fits keys s ↔ Fits keys s' := by
  have totalRecords := h.records.total
  have totalProvided := h.provided.total
  have growsRecords := h.records.le
  have growsProvided := h.provided.le
  have recordsBound := h.recordsBound
  have providedBound := h.providedBound
  constructor
  · rintro ⟨records, provided⟩
    exact ⟨by omega, by omega⟩
  · rintro ⟨records, provided⟩
    exact ⟨by omega, by omega⟩

/-- Where every key is in the store, the keys fit. -/
theorem fits_of_all (hr : ∀ k ∈ keys, k ∈ s.records) (hp : ∀ k ∈ keys, k ∈ s.provided) :
    Fits keys s := by
  refine ⟨fun h => absurd (missing_eq_zero hr) h, fun h => ?_⟩
  rw [missing_eq_zero hp]
  exact h

end Store

/-! ### One attempt -/

section Attempt

variable {keys : List Bytes} {s s' : Swarm} {c : Choice} {k v : Bytes}

/-- Putting a record: it is in the store then, or there is no room. -/
theorem exec_putRecord (hn : keys.Nodup) (hk : k ∈ keys) (hv : v.length < MAX_VALUE_BYTES)
    {a : Except String Unit} (hs : SwarmOp.exec (.putRecord k v) c s = some (a, s')) :
    Shelved keys s s' ∧
      ((a = .ok () ∧ k ∈ s'.records) ∨ ((∃ e, a = .error e) ∧ ¬ Fits keys s')) := by
  cases c with
  | ok =>
      simp only [SwarmOp.exec, if_neg (Nat.not_le_of_lt hv)] at hs
      split at hs
      · next held =>
          cases hs
          exact ⟨.refl, .inl ⟨rfl, held⟩⟩
      · next new =>
          split at hs
          · next full =>
              cases hs
              refine ⟨.refl, .inr ⟨⟨_, rfl⟩, fun fits => ?_⟩⟩
              have some := missing_pos hk new
              have room := fits.records (Nat.pos_iff_ne_zero.mp some)
              omega
          · next room =>
              cases hs
              refine ⟨⟨.cons hn hk new, .refl, .inr ?_, fun h => h⟩,
                .inl ⟨rfl, List.mem_cons_self⟩⟩
              show s.records.length + 1 ≤ MAX_RECORDS
              omega
  | _ => cases hs

/-- Providing a key: the same. -/
theorem exec_startProviding (hn : keys.Nodup) (hk : k ∈ keys)
    {a : Except String Unit} (hs : SwarmOp.exec (.startProviding k) c s = some (a, s')) :
    Shelved keys s s' ∧
      ((a = .ok () ∧ k ∈ s'.provided) ∨ ((∃ e, a = .error e) ∧ ¬ Fits keys s')) := by
  cases c with
  | ok =>
      simp only [SwarmOp.exec] at hs
      split at hs
      · next held =>
          cases hs
          exact ⟨.refl, .inl ⟨rfl, held⟩⟩
      · next new =>
          split at hs
          · next full =>
              cases hs
              refine ⟨.refl, .inr ⟨⟨_, rfl⟩, fun fits => ?_⟩⟩
              have some := missing_pos hk new
              have room := fits.provided (Nat.le_of_eq full)
              omega
          · next room =>
              cases hs
              refine ⟨⟨.refl, .cons hn hk new, .inl rfl, fun h => ?_⟩,
                .inl ⟨rfl, List.mem_cons_self⟩⟩
              show s.provided.length + 1 ≤ MAX_PROVIDED_KEYS
              omega
  | _ => cases hs

variable [Platform] {w w' : World} {l : List (Deed lang Choice)}

/-- A call on the swarm is an operation on its state. -/
theorem exec_swarm {o : SwarmOp} {a : o.Ans} (h : Op.exec (.swarm o) c w = some (a, w')) :
    o.exec c w.swarm = some (a, w'.swarm) := by
  obtain ⟨⟨a', s⟩, hs, e⟩ := Option.map_eq_some_iff.mp h
  cases e
  exact hs

/-- Announcing some of the keys: all of them are in the store then, or
there is no room. -/
theorem runs_provideEntries (hn : keys.Nodup) {es : List (Bytes × Bytes)}
    (hes : ∀ e ∈ es, e.1 ∈ keys ∧ e.2.length < MAX_VALUE_BYTES) {r : Except String Unit}
    (h : (provideEntries es).run.Runs Op.exec w l r w') :
    Shelved keys w.swarm w'.swarm ∧
      (((∃ u, r = .ok u) ∧ ∀ e ∈ es, e.1 ∈ w'.swarm.records ∧ e.1 ∈ w'.swarm.provided) ∨
        ((∃ e, r = .error e) ∧ ¬ Fits keys w'.swarm)) := by
  induction es generalizing w l with
  | nil =>
      obtain ⟨rfl, rfl, rfl⟩ := runs_ret.mp h
      exact ⟨.refl, .inl ⟨⟨(), rfl⟩, nofun⟩⟩
  | cons e es ih =>
      obtain ⟨key, value⟩ := e
      obtain ⟨hk, hv⟩ := hes _ List.mem_cons_self
      rw [provideEntries] at h
      obtain ⟨l₁, u, w₁, l₂, h₁, h₂, rfl⟩ | ⟨e, h₁, rfl⟩ := runs_bindE.mp h
      · obtain ⟨c₁, he₁, rfl⟩ := runs_perform.mp h₁
        obtain ⟨put, ⟨-, hrecord⟩ | ⟨⟨e, he⟩, -⟩⟩ := exec_putRecord hn hk hv (exec_swarm he₁)
        · obtain ⟨l₃, u', w₂, l₄, h₃, h₄, rfl⟩ | ⟨e, h₃, rfl⟩ := runs_bindE.mp h₂
          · obtain ⟨c₂, he₂, rfl⟩ := runs_perform.mp h₃
            obtain ⟨provide, ⟨-, hprovided⟩ | ⟨⟨e, he⟩, -⟩⟩ := exec_startProviding hn hk (exec_swarm he₂)
            · obtain ⟨rest, result⟩ := ih (fun e he => hes e (List.mem_cons_of_mem _ he)) h₄
              refine ⟨(put.trans provide).trans rest, ?_⟩
              obtain ⟨hr, all⟩ | no := result
              · refine .inl ⟨hr, List.forall_mem_cons.mpr ⟨?_, all⟩⟩
                exact ⟨(provide.trans rest).records.sub hrecord, rest.provided.sub hprovided⟩
              · exact .inr no
            · cases he
          · obtain ⟨c₂, he₂, rfl⟩ := runs_perform.mp h₃
            obtain ⟨provide, ⟨he, -⟩ | ⟨-, no⟩⟩ := exec_startProviding hn hk (exec_swarm he₂)
            · cases he
            · exact ⟨put.trans provide, .inr ⟨⟨e, rfl⟩, no⟩⟩
        · cases he
      · obtain ⟨c₁, he₁, rfl⟩ := runs_perform.mp h₁
        obtain ⟨put, ⟨he, -⟩ | ⟨-, no⟩⟩ := exec_putRecord hn hk hv (exec_swarm he₁)
        · cases he
        · exact ⟨put, .inr ⟨⟨e, rfl⟩, no⟩⟩

/-- A database that works. The local store of Kademlia answers as its
contents and limits say. -/
def Works : (o : Op) → o.Ans → Prop
  | .store _, .error _ => False
  | _, _ => True

/-- A call that is always answered. -/
theorem total_swarm {o : SwarmOp} (h : ∀ s, ∃ x, o.exec .ok s = some x) (w : World) :
    (swarm o).Total Op.exec Works (fun _ _ => True) w := by
  refine total_perform ?_ fun _ _ _ _ _ => trivial
  obtain ⟨⟨a, s⟩, hx⟩ := h w.swarm
  exact ⟨.ok, a, { w with swarm := s }, by simp only [Op.exec, hx, Option.map_some], trivial⟩

/-- An attempt comes to an end. -/
theorem total_provideEntries (es : List (Bytes × Bytes)) (w : World) :
    (provideEntries es).run.Total Op.exec Works (fun _ _ => True) w := by
  induction es generalizing w with
  | nil => trivial
  | cons e es ih =>
      obtain ⟨key, value⟩ := e
      rw [provideEntries]
      refine total_bindE (total_mono (fun r w _ => ?_) (total_swarm (putRecord_answers key value) w))
      cases r with
      | error e => trivial
      | ok u =>
          refine total_bindE (total_mono (fun r w _ => ?_)
            (total_swarm (startProviding_answers key) w))
          cases r with
          | error e => trivial
          | ok u => exact ih w

end Attempt

/-! ### Every attempt of the loop -/

section Loop

variable [Platform] {m : FileMetadata} {w w' : World} {l : List (Deed lang Choice)}

/-- The keys `provide_all` announces. -/
def announcedKeys (m : FileMetadata) : List Bytes := (entries m).map Prod.fst

/-- They are all different. -/
theorem announcedKeys_nodup (m : FileMetadata) : (announcedKeys m).Nodup := by
  rw [announcedKeys, entries, List.map_cons, List.nodup_cons, List.map_map]
  constructor
  · intro h
    obtain ⟨c, -, hc⟩ := List.mem_map.mp h
    have long := lt_length_toBytes ⟨m.key.toU64, c⟩
    rw [show FileChunkRequest.toBytes ⟨m.key.toU64, c⟩ = m.key.bytes from hc,
      m.key.length_eq] at long
    omega
  · refine List.Nodup.map (fun c c' h => ?_) List.nodup_range
    exact (FileChunkRequest.mk.inj (toBytes_inj h)).2

omit [Platform] in
/-- The form of a number below 2^64. -/
theorem uint_length_le {n : Nat} (h : n < 2 ^ 64) : (Cbor.uint.enc n).flatten.length ≤ 9 := by
  have head := Cbor.encHead_length_le 0 (n := n) (by omega)
  simpa [Cbor.uint, Cbor.head] using head

omit [Platform] in
/-- The values of chunks are small. -/
theorem toBytes_small {r : FileChunkRequest} (h : r.chunkId < 2 ^ 64) :
    r.toBytes.length < MAX_VALUE_BYTES := by
  have file := uint_length_le r.fileId.toNat_lt
  have chunk := uint_length_le h
  have names : (Cbor.encHead 5 2 ++ (Cbor.text.enc "file_id").flatten).length = 9 ∧
      (Cbor.text.enc "chunk_id").flatten.length = 9 := by decide +kernel
  have length : r.toBytes.length = _ := congrArg List.length
    (Cbor.struct_two "file_id" "chunk_id" Cbor.uint Cbor.uint r.fileId.toNat r.chunkId)
  rw [List.length_append, List.length_append, names.1, List.length_append, names.2] at length
  unfold MAX_VALUE_BYTES
  omega

omit [Platform] in
/-- So is the value of the file. -/
theorem publishedFileBytes_small (h : m.totalChunks < 2 ^ 64) :
    m.publishedFileBytes.length < MAX_VALUE_BYTES := by
  have total := uint_length_le h
  have root := Cbor.octets_length_le (n := 32) (by omega) m.merkleRoot
  have names : (Cbor.encHead 5 2 ++ (Cbor.text.enc "total_chunks").flatten).length = 14 ∧
      (Cbor.text.enc "merkle_root").flatten.length = 12 := by decide +kernel
  have length : m.publishedFileBytes.length = _ := congrArg List.length (Cbor.struct_two
    "total_chunks" "merkle_root" Cbor.uint (Cbor.octets 32) m.totalChunks m.merkleRoot)
  rw [List.length_append, List.length_append, names.1, List.length_append, names.2] at length
  unfold MAX_VALUE_BYTES
  omega

/-- Every record of `provide_all` has one of the keys and a small value. -/
theorem entries_small (h : m.totalChunks < 2 ^ 64) :
    ∀ e ∈ entries m, e.1 ∈ announcedKeys m ∧ e.2.length < MAX_VALUE_BYTES := by
  intro e he
  refine ⟨List.mem_map_of_mem he, ?_⟩
  obtain rfl | he := List.mem_cons.mp he
  · exact publishedFileBytes_small h
  · obtain ⟨c, hc, rfl⟩ := List.mem_map.mp he
    exact toBytes_small ((List.mem_range.mp hc).trans h)

/-- An attempt succeeds exactly when the keys fit. -/
theorem runs_provideAll (ht : m.totalChunks < 2 ^ 64) {r : Except String Unit}
    (h : (provideAll m).run.Runs Op.exec w l r w') :
    (Fits (announcedKeys m) w.swarm ↔ Fits (announcedKeys m) w'.swarm) ∧
      ((∃ u, r = .ok u) ↔ Fits (announcedKeys m) w.swarm) := by
  rw [provideAll_eq] at h
  obtain ⟨shelved, ⟨⟨u, rfl⟩, all⟩ | ⟨⟨e, rfl⟩, no⟩⟩ :=
    runs_provideEntries (announcedKeys_nodup m) (entries_small ht) h
  · refine ⟨shelved.fits_iff, fun _ => shelved.fits_iff.mpr ?_, fun _ => ⟨u, rfl⟩⟩
    have stored : ∀ k ∈ announcedKeys m, k ∈ w'.swarm.records ∧ k ∈ w'.swarm.provided := by
      intro k hk
      obtain ⟨e, he, rfl⟩ := List.mem_map.mp hk
      exact all e he
    exact fits_of_all (fun k hk => (stored k hk).1) fun k hk => (stored k hk).2
  · refine ⟨shelved.fits_iff, nofun, fun fits => ?_⟩
    exact absurd (shelved.fits_iff.mp fits) no

/-- A loop that has ended had room from the start. -/
theorem fits_of_retry (ht : m.totalChunks < 2 ^ 64) {fuel : Nat} {u : Unit}
    (h : (retry (provideAll m) fuel).Runs Op.exec w l u w') :
    Fits (announcedKeys m) w.swarm := by
  induction fuel generalizing w l with
  | zero =>
      obtain ⟨_, x, _⟩ := runs_op.mp h
      exact nomatch x
  | succ fuel ih =>
      obtain ⟨l₁, r, w₁, l₂, h₁, h₂, rfl⟩ := runs_bind.mp h
      obtain ⟨same, success⟩ := runs_provideAll ht h₁
      cases r with
      | ok u => exact success.mp ⟨u, rfl⟩
      | error e => exact same.mpr (ih h₂)

/-- With room for the keys the first attempt succeeds. -/
theorem retry_total (ht : m.totalChunks < 2 ^ 64) (fits : Fits (announcedKeys m) w.swarm) :
    (retry (provideAll m) 1).Total Op.exec Works (fun _ _ => True) w := by
  have total := total_provideEntries (entries m) w
  rw [← provideAll_eq] at total
  refine total_seq (total.of_runs (R := fun r _ => ∃ u, r = .ok u)
    fun l r w' h _ => (runs_provideAll ht h).2.mpr fits) fun r w hr => ?_
  obtain ⟨u, rfl⟩ := hr
  trivial

/-- A write of a database that works. -/
theorem retry_store_total {o : StoreOp} (w : World) :
    (retry (store o) 1).Total Op.exec Works (fun _ _ => True) w := by
  have write : (store o).run.Total Op.exec Works (fun r _ => ∃ a, r = .ok a) w := by
    refine total_perform ⟨.ok, .ok (o.run w.store).1, _, rfl, trivial⟩ fun c a w' _ works => ?_
    cases a with
    | ok a => exact ⟨a, rfl⟩
    | error e => exact works.elim
  refine total_seq write fun r w hr => ?_
  obtain ⟨a, rfl⟩ := hr
  trivial

/-- A publication that comes to its end had room. -/
theorem fits_of_publish (ht : m.totalChunks < 2 ^ 64) {fuel : Nat} {Q : Unit → World → Prop}
    (h : (filePublish fuel (.ok m)).Total Op.exec Works Q w) :
    Fits (announcedKeys m) w.swarm := by
  obtain ⟨l, u, w', run, -⟩ := h.exists_runs
  obtain ⟨l₁, u₁, w₁, l₂, h₁, -⟩ := runs_bind.mp run
  exact fits_of_retry ht h₁

/-- With a database that works, `file_publish` comes to its end exactly
when the local store has room for the keys that are missing. -/
theorem publishing_ends (m : FileMetadata) (w : World) (ht : m.totalChunks < 2 ^ 64) :
    (∃ fuel, (filePublish fuel (.ok m)).Total Op.exec Works (fun _ _ => True) w) ↔
      Fits (announcedKeys m) w.swarm := by
  constructor
  · rintro ⟨fuel, h⟩
    exact fits_of_publish ht h
  · intro fits
    refine ⟨1, total_seq (retry_total ht fits) fun _ w _ => ?_⟩
    exact total_seq (retry_store_total w) fun _ w _ => retry_store_total w

end Loop

section Example

open Reference

attribute [local instance] platform

/-- The metadata of one GiB of zeros: 1024 chunks, hence 1025 keys. -/
def oneGiB : FileMetadata := metadataOf "f" (List.replicate 1024 (List.replicate CHUNK_SIZE 0))

theorem oneGiB_totalChunks : oneGiB.totalChunks = 1024 := List.length_replicate

/-- A node with nothing in its local store never gets past publishing it. -/
theorem oneGiB_never_published :
    ¬ ∃ fuel, (filePublish fuel (.ok oneGiB)).Total Op.exec Works (fun _ _ => True)
      (newWorld (files []) 1) := by
  rintro ⟨fuel, h⟩
  have fits := (fits_of_publish (by rw [oneGiB_totalChunks]; omega) h).records
  have all : missing (announcedKeys oneGiB) (newWorld (files []) 1).swarm.records = 1025 := by
    have own : (newWorld (files []) 1).swarm.records = [] := rfl
    rw [own]
    simp [missing, announcedKeys, entries, oneGiB_totalChunks]
  rw [all] at fits
  have room : 0 + 1025 ≤ 1024 := fits (by omega)
  omega

/-- A file of one chunk is published. -/
theorem oneChunk_published :
    ∃ fuel, (filePublish fuel (.ok (metadataOf "f" [[7]]))).Total Op.exec Works
      (fun _ _ => True) (newWorld (files []) 1) :=
  (publishing_ends (metadataOf "f" [[7]]) (newWorld (files []) 1) (by decide)).mpr
    (by decide +kernel)

end Example

end RustDfs.PublishRetry
