import RustDfs.Model.Reference
import RustDfs.Proofs.Effects
import RustDfs.Proofs.PublishRetry

/-!
# `RustDfs.Proofs.StartUp`: announcing the published files

Before its first pass the event loop streams the published files, reads
the `.metadata` of each and announces what it decodes. A `.metadata` that
cannot be read is logged and passed over.

`startUp_announces` says that the start-up comes to its end, and for which
entries it does its work: an item of the stream that is an error, and a
`.metadata` that is read but does not decode, end it. The files behind
such an entry are not announced, and the node does not start
(`bad_entry_stops_startUp`).
-/

set_option autoImplicit false

namespace RustDfs.StartUp

open Lib Std Conc Prog EventService Joins RecordKeys
open PublishRetry (Fits Shelved)

section Defs

/-- The records a run puts into the DHT. -/
def puts (l : List (Deed lang Choice)) : List (Bytes × Bytes) :=
  l.filterMap fun
    | .op (.swarm (.putRecord k v)) _ (.ok _) => some (k, v)
    | _ => none

/-- The keys a run starts to provide. -/
def provided (l : List (Deed lang Choice)) : List Bytes :=
  l.filterMap fun
    | .op (.swarm (.startProviding k)) _ (.ok _) => some k
    | _ => none

/-- The files a run could not read. -/
def unread (l : List (Deed lang Choice)) : List PathBuf :=
  l.filterMap fun
    | .op (.fs (.read p)) _ (.error _) => some p
    | _ => none

/-- An announcement that fails. -/
def refused : Deed lang Choice → Bool
  | .op (.swarm (.putRecord _ _)) _ (.error _) => true
  | .op (.swarm (.startProviding _)) _ (.error _) => true
  | _ => false

/-- Every announcement of the run succeeds. -/
def NoneRefused (l : List (Deed lang Choice)) : Prop := ∀ d ∈ l, refused d = false

instance (l : List (Deed lang Choice)) : Decidable (NoneRefused l) :=
  inferInstanceAs (Decidable (∀ d ∈ l, _))

/-- The published files, in the order of their keys. -/
def publishedFiles (w : World) : List PublishedFileRecord :=
  w.store.published.toList.map Prod.snd

variable [Platform]

/-- What the start-up finds and does not stand: an error in the stream of
the published files, or a `.metadata` that is read but does not decode. -/
def badEntry : Deed lang Choice → Bool
  | .op (.store .streamPublishedFiles) _ (.error _) => true
  | .op (.store .streamItem) _ (.error _) => true
  | .op (.fs (.read _)) _ (.ok data) =>
      match Platform.decodeMetadata data with
      | .ok _ => false
      | .error _ => true
  | _ => false

/-- Every entry is a record whose `.metadata` decodes or cannot be read. -/
def GoodEntries (l : List (Deed lang Choice)) : Prop := ∀ d ∈ l, badEntry d = false

instance (l : List (Deed lang Choice)) : Decidable (GoodEntries l) :=
  inferInstanceAs (Decidable (∀ d ∈ l, _))

/-- Everything `provide_all` announces for `m` was announced. -/
def Announced (m : FileMetadata) (l : List (Deed lang Choice)) : Prop :=
  ∀ e ∈ entries m, e ∈ puts l ∧ e.1 ∈ provided l

instance (m : FileMetadata) (l : List (Deed lang Choice)) : Decidable (Announced m l) :=
  inferInstanceAs (Decidable (∀ e ∈ entries m, _))

/-- A start-up that did its work:

- `success`: it succeeded;
- `announced`: every published file is announced whose `.metadata` is
  there, decodes and was read. -/
structure Started (w : World) (l : List (Deed lang Choice)) (r : Except String Unit) : Prop where
  success : ∃ u, r = .ok u
  announced : ∀ record ∈ publishedFiles w, ∀ data m,
    w.fs.bytes (loc (metadataPath record.chunksDir)) = some data →
    Platform.decodeMetadata data = .ok m →
    metadataPath record.chunksDir ∉ unread l → Announced m l

/-- What is announced for a record whose `.metadata` is there. -/
def entriesOf (x : Fs) (record : PublishedFileRecord) : List (Bytes × Bytes) :=
  match (x.bytes (loc (metadataPath record.chunksDir))).map Platform.decodeMetadata with
  | some (.ok m) => entries m
  | _ => []

/-- What is announced for all published files. -/
def announcements (w : World) : List (Bytes × Bytes) := (publishedFiles w).flatMap (entriesOf w.fs)

/-- The local store has room for the announcements:

- `small`: no value is too large;
- `fits`: there is room for the keys that are missing, as records and as
  provided keys. -/
structure RoomForAll (w : World) : Prop where
  small : ∀ e ∈ announcements w, e.2.length < MAX_VALUE_BYTES
  fits : Fits ((announcements w).map Prod.fst).dedup w.swarm

/-- The runs of the start-up. -/
abbrev Starts (w : World) (l : List (Deed lang Choice)) (r : Except String Unit) (w' : World) :
    Prop :=
  provideAllPublishedFiles.run.Runs Op.exec w l r w'

end Defs

section Proofs

variable {w w' : World} {l l₁ l₂ : List (Deed lang Choice)} {r : Except String Unit}

theorem puts_append : puts (l₁ ++ l₂) = puts l₁ ++ puts l₂ := List.filterMap_append

theorem provided_append : provided (l₁ ++ l₂) = provided l₁ ++ provided l₂ :=
  List.filterMap_append

theorem unread_append : unread (l₁ ++ l₂) = unread l₁ ++ unread l₂ := List.filterMap_append

theorem NoneRefused.left (h : NoneRefused (l₁ ++ l₂)) : NoneRefused l₁ :=
  fun d hd => h d (List.mem_append_left _ hd)

theorem NoneRefused.right (h : NoneRefused (l₁ ++ l₂)) : NoneRefused l₂ :=
  fun d hd => h d (List.mem_append_right _ hd)

variable [Platform]

theorem GoodEntries.left (h : GoodEntries (l₁ ++ l₂)) : GoodEntries l₁ :=
  fun d hd => h d (List.mem_append_left _ hd)

theorem GoodEntries.right (h : GoodEntries (l₁ ++ l₂)) : GoodEntries l₂ :=
  fun d hd => h d (List.mem_append_right _ hd)

theorem Announced.mono_left {m : FileMetadata} (h : Announced m l₁) : Announced m (l₁ ++ l₂) := by
  intro e he
  obtain ⟨put, provide⟩ := h e he
  rw [puts_append, provided_append]
  exact ⟨List.mem_append_left _ put, List.mem_append_left _ provide⟩

theorem Announced.mono_right {m : FileMetadata} (h : Announced m l₂) :
    Announced m (l₁ ++ l₂) := by
  intro e he
  obtain ⟨put, provide⟩ := h e he
  rw [puts_append, provided_append]
  exact ⟨List.mem_append_right _ put, List.mem_append_right _ provide⟩

/-- Announcing records when nothing is refused. -/
theorem runs_provideEntries {es : List (Bytes × Bytes)} (hl : NoneRefused l)
    (h : (provideEntries es).run.Runs Op.exec w l r w') :
    (∃ u, r = .ok u) ∧ puts l = es ∧ provided l = es.map Prod.fst ∧ unread l = [] ∧
      GoodEntries l ∧ w'.fs = w.fs := by
  induction es generalizing w l with
  | nil =>
      obtain ⟨rfl, rfl, rfl⟩ := runs_ret.mp h
      exact ⟨⟨(), rfl⟩, rfl, rfl, rfl, fun d hd => absurd hd List.not_mem_nil, rfl⟩
  | cons e es ih =>
      obtain ⟨key, value⟩ := e
      rw [provideEntries] at h
      -- A record is put, then its key is provided; nothing of it is refused.
      obtain ⟨l₁, u, w₁, l₂, h₁, h₂, rfl⟩ | ⟨e, h₁, rfl⟩ := runs_bindE.mp h
      · obtain ⟨c₁, he₁, rfl⟩ := runs_perform.mp h₁
        obtain ⟨l₃, u', w₂, l₄, h₃, h₄, rfl⟩ | ⟨e, h₃, rfl⟩ := runs_bindE.mp h₂
        · obtain ⟨c₂, he₂, rfl⟩ := runs_perform.mp h₃
          obtain ⟨hr, hputs, hprovided, hunread, good, hfs⟩ := ih hl.right.right h₄
          refine ⟨hr, congrArg (_ :: ·) hputs, congrArg (_ :: ·) hprovided, hunread, ?_, ?_⟩
          · exact List.forall_mem_cons.mpr ⟨rfl, List.forall_mem_cons.mpr ⟨rfl, good⟩⟩
          · rw [hfs, exec_fs_eq (o := .swarm (.startProviding key)) he₂ rfl,
              exec_fs_eq (o := .swarm (.putRecord key value)) he₁ rfl]
        · obtain ⟨c₂, _, rfl⟩ := runs_perform.mp h₃
          cases hl.right _ List.mem_cons_self
      · obtain ⟨c₁, _, rfl⟩ := runs_perform.mp h₁
        cases hl _ List.mem_cons_self

/-- `provide_all` when nothing is refused. -/
theorem runs_provideAll {m : FileMetadata} (hl : NoneRefused l)
    (h : (provideAll m).run.Runs Op.exec w l r w') :
    (∃ u, r = .ok u) ∧ Announced m l ∧ unread l = [] ∧ GoodEntries l ∧ w'.fs = w.fs := by
  rw [provideAll_eq] at h
  obtain ⟨hr, hputs, hprovided, hunread, good, hfs⟩ := runs_provideEntries hl h
  refine ⟨hr, fun e he => ?_, hunread, good, hfs⟩
  rw [hputs, hprovided]
  exact ⟨he, List.mem_map_of_mem he⟩

/-- What the loop does for records whose entries are all good. -/
theorem runs_provideEach {rs : List PublishedFileRecord} (hl : NoneRefused l)
    (good : GoodEntries l) (h : (provideEach rs).run.Runs Op.exec w l r w') :
    (∃ u, r = .ok u) ∧ ∀ record ∈ rs, ∀ data m,
      w.fs.bytes (loc (metadataPath record.chunksDir)) = some data →
      Platform.decodeMetadata data = .ok m →
      metadataPath record.chunksDir ∉ unread l → Announced m l := by
  -- What was announced for a record stays in the run, whatever comes after.
  induction rs generalizing w l with
  | nil =>
      obtain ⟨rfl, rfl, rfl⟩ := runs_ret.mp h
      exact ⟨⟨(), rfl⟩, nofun⟩
  | cons record rs ih =>
      rw [provideEach] at h
      obtain ⟨l₁, u, w₁, l₂, h₁, h₂, rfl⟩ | ⟨e, h₁, rfl⟩ := runs_bindA.mp h
      · -- The item is a record: its metadata is read.
        obtain ⟨c₁, he₁, rfl⟩ := runs_perform.mp h₁
        have same₁ : w₁.fs = w.fs := exec_fs_eq (o := .store .streamItem) he₁ rfl
        obtain ⟨l₃, a, w₂, l₄, h₃, h₄, rfl⟩ := runs_bindL.mp h₂
        obtain ⟨c₂, he₂, rfl⟩ := runs_perform.mp h₃
        replace he₂ : Op.exec (.fs (.read (metadataPath record.chunksDir))) c₂ w₁ = some (a, w₂) :=
          he₂
        have same₂ : w₂.fs = w₁.fs := exec_fs_eq he₂ rfl
        cases a with
        | ok data =>
            have read := exec_read he₂
            rw [same₁] at read
            cases hm : Platform.decodeMetadata data with
            | ok m =>
                simp only [hm] at h₄
                obtain ⟨l₅, u', w₃, l₆, h₅, h₆, rfl⟩ | ⟨e, h₅, rfl⟩ := runs_bindE.mp h₄
                · -- The file is intact: it is announced, and the loop goes on.
                  obtain ⟨-, announced, -, -, same₃⟩ := runs_provideAll hl.right.right.left h₅
                  obtain ⟨hr, rest⟩ := ih hl.right.right.right good.right.right.right h₆
                  rw [same₃, same₂, same₁] at rest
                  refine ⟨hr, List.forall_mem_cons.mpr ⟨fun data' m' hdata hm' _ => ?_, ?_⟩⟩
                  · rw [read] at hdata
                    cases hdata
                    rw [hm] at hm'
                    cases hm'
                    exact announced.mono_left.mono_right.mono_right
                  · intro record' hin data' m' hdata hm' hread
                    have later : metadataPath record'.chunksDir ∉ unread l₆ := fun h => by
                      rw [unread_append, unread_append, unread_append] at hread
                      exact hread (List.mem_append_right _ (List.mem_append_right _
                        (List.mem_append_right _ h)))
                    exact (rest record' hin data' m' hdata hm' later).mono_right.mono_right.mono_right
                · obtain ⟨⟨_, he⟩, -⟩ := runs_provideAll hl.right.right h₅
                  cases he
            | error e =>
                -- A metadata that does not decode is not among the entries.
                have bad := good.right.left _ List.mem_cons_self
                simp only [badEntry, hm] at bad
                cases bad
        | error e =>
            -- The metadata cannot be read: the record is passed over.
            obtain ⟨hr, rest⟩ := ih hl.right.right good.right.right h₄
            rw [same₂, same₁] at rest
            refine ⟨hr, List.forall_mem_cons.mpr ⟨fun data' m' _ _ hread => ?_, ?_⟩⟩
            · exact absurd List.mem_cons_self hread
            · intro record' hin data' m' hdata hm' hread
              have later : metadataPath record'.chunksDir ∉ unread l₄ := fun h => by
                rw [unread_append, unread_append] at hread
                exact hread (List.mem_append_right _ (List.mem_append_right _ h))
              exact (rest record' hin data' m' hdata hm' later).mono_right.mono_right
      · obtain ⟨c₁, _, rfl⟩ := runs_perform.mp h₁
        cases good _ List.mem_cons_self

/-- A start-up whose entries are all good does its work. -/
theorem started_of_goodEntries (hl : NoneRefused l) (good : GoodEntries l) (h : Starts w l r w') :
    Started w l r := by
  obtain ⟨l₁, rs, w₁, l₂, h₁, h₂, rfl⟩ | ⟨e, h₁, rfl⟩ := runs_bindA.mp h
  · obtain ⟨c, he, rfl⟩ := runs_perform.mp h₁
    replace he : Op.exec (.store .streamPublishedFiles) c w = some (.ok rs, w₁) := he
    obtain ⟨hrs, rfl⟩ | ⟨err, hr, rfl⟩ := exec_store he
    · cases hrs
      obtain ⟨hr, announced⟩ := runs_provideEach hl.right good.right h₂
      refine ⟨hr, fun record hin data m hdata hm hread => ?_⟩
      exact (announced record hin data m hdata hm fun h => hread h).mono_right
    · cases hr
  · obtain ⟨c, _, rfl⟩ := runs_perform.mp h₁
    cases good _ List.mem_cons_self

theorem GoodEntries.append (h₁ : GoodEntries l₁) (h₂ : GoodEntries l₂) : GoodEntries (l₁ ++ l₂) :=
  List.forall_mem_append.mpr ⟨h₁, h₂⟩

/-- A bad entry ends the loop with an error. -/
theorem goodEntries_of_provideEach {rs : List PublishedFileRecord} {u : Unit}
    (hl : NoneRefused l) (h : (provideEach rs).run.Runs Op.exec w l (.ok u) w') :
    GoodEntries l := by
  -- The loop ended well, so every step of it did, and none found a bad entry.
  induction rs generalizing w l with
  | nil =>
      obtain ⟨rfl, -, -⟩ := runs_ret.mp h
      exact fun d hd => absurd hd List.not_mem_nil
  | cons record rs ih =>
      rw [provideEach] at h
      obtain ⟨l₁, u₁, w₁, l₂, h₁, h₂, rfl⟩ | ⟨e, -, he⟩ := runs_bindA.mp h
      · obtain ⟨c₁, -, rfl⟩ := runs_perform.mp h₁
        obtain ⟨l₃, a, w₂, l₄, h₃, h₄, rfl⟩ := runs_bindL.mp h₂
        obtain ⟨c₂, -, rfl⟩ := runs_perform.mp h₃
        refine List.forall_mem_cons.mpr ⟨rfl, List.forall_mem_cons.mpr ?_⟩
        cases a with
        | ok data =>
            cases hm : Platform.decodeMetadata data with
            | ok m =>
                simp only [hm] at h₄
                obtain ⟨l₅, u₂, w₃, l₆, h₅, h₆, rfl⟩ | ⟨e, -, he⟩ := runs_bindE.mp h₄
                · obtain ⟨-, -, -, good, -⟩ := runs_provideAll hl.right.right.left h₅
                  exact ⟨by simp only [badEntry, hm], good.append (ih hl.right.right.right h₆)⟩
                · cases he
            | error e =>
                simp only [hm] at h₄
                obtain ⟨l₅, u₂, w₃, l₆, h₅, -, -⟩ | ⟨e, -, he⟩ := runs_bindE.mp h₄
                · obtain ⟨-, he, -⟩ := runs_ret.mp h₅
                  cases he
                · cases he
        | error e => exact ⟨rfl, ih hl.right.right h₄⟩
      · cases he

/-! ### The runs there are -/

/-- The start-up comes to its end, whatever it is answered. -/
theorem startUp_returns (w : World) :
    provideAllPublishedFiles.run.Returns Op.exec (fun _ => True) w := by
  refine returns_of_prompt (provideAllPublishedFiles_within.mono_ops fun o ho => ?_) ?_ w
  · cases ho with
    | streamPublishedFiles => exact prompt_store _
    | streamItem => exact prompt_store _
    | read p => exact prompt_fs _
    | putRecord k v => exact prompt_swarm (putRecord_answers k v)
    | startProviding k => exact prompt_swarm (startProviding_answers k)
  · exact joins_bindE (joins_adapt _ (joins_perform _)) fun rs => provideEach_joins rs

section Room

variable {keys : List Bytes}

/-- What every record announces has one of the keys and a small value. -/
def Among (keys : List Bytes) (es : List (Bytes × Bytes)) : Prop :=
  ∀ e ∈ es, e.1 ∈ keys ∧ e.2.length < MAX_VALUE_BYTES

/-- While the keys fit, an announcement is not refused. -/
theorem returns_provideEntries (hn : keys.Nodup) {es : List (Bytes × Bytes)}
    (hes : Among keys es) (fits : Fits keys w.swarm) :
    (provideEntries es).run.Returns Op.exec (fun d => refused d = false) w := by
  induction es generalizing w with
  | nil => trivial
  | cons e es ih =>
      obtain ⟨key, value⟩ := e
      obtain ⟨hk, hv⟩ := hes _ List.mem_cons_self
      have put := fun {c a w'} (h : Op.exec (.swarm (.putRecord key value)) c w = some (a, w')) =>
        PublishRetry.exec_putRecord hn hk hv (PublishRetry.exec_swarm h)
      -- The key has room, so the swarm answers the put with `Ok`.
      refine returns_bindE (returns_perform ?_) fun l u w₁ h _ => ?_
      · obtain ⟨c, a, w₁, he⟩ := prompt_swarm (putRecord_answers key value) w
        obtain ⟨shelved, ⟨rfl, -⟩ | ⟨-, no⟩⟩ := put he
        · exact ⟨c, _, w₁, he, rfl⟩
        · exact absurd (shelved.fits_iff.mp fits) no
      · obtain ⟨c, he, -⟩ := runs_perform.mp h
        replace fits := (put he).1.fits_iff.mp fits
        have provide := fun {c a w'}
            (h : Op.exec (.swarm (.startProviding key)) c w₁ = some (a, w')) =>
          PublishRetry.exec_startProviding hn hk (PublishRetry.exec_swarm h)
        refine returns_bindE (returns_perform ?_) fun l u w₂ h _ => ?_
        · obtain ⟨c, a, w₂, he⟩ := prompt_swarm (startProviding_answers key) w₁
          obtain ⟨shelved, ⟨rfl, -⟩ | ⟨-, no⟩⟩ := provide he
          · exact ⟨c, _, w₂, he, rfl⟩
          · exact absurd (shelved.fits_iff.mp fits) no
        · obtain ⟨c, he, -⟩ := runs_perform.mp h
          exact ih (fun e he => hes e (List.mem_cons_of_mem _ he)) ((provide he).1.fits_iff.mp fits)

/-- Nor is one of the loop, which leaves the files as they are. -/
theorem returns_provideEach (hn : keys.Nodup) {rs : List PublishedFileRecord}
    (hrs : Among keys (rs.flatMap (entriesOf w.fs))) (fits : Fits keys w.swarm) :
    (provideEach rs).run.Returns Op.exec (fun d => refused d = false) w := by
  induction rs generalizing w with
  | nil => trivial
  | cons record rs ih =>
      rw [List.flatMap_cons] at hrs
      obtain ⟨now, later⟩ := List.forall_mem_append.mp hrs
      rw [provideEach]
      refine returns_bindA (returns_perform ⟨.ok, _, _, rfl, rfl⟩) fun l u w₁ h _ => ?_
      obtain ⟨c₁, he₁, -⟩ := runs_perform.mp h
      obtain rfl : w₁ = w := by
        obtain ⟨-, rfl⟩ | ⟨e, -, rfl⟩ := exec_store (o := .streamItem) he₁ <;> rfl
      refine returns_bindL (returns_perform ?_) fun l a w₂ h _ => ?_
      · obtain ⟨c, a, w₂, he⟩ := prompt_fs (.read (metadataPath record.chunksDir)) w₁
        exact ⟨c, a, w₂, he, rfl⟩
      obtain ⟨c₂, he₂, -⟩ := runs_perform.mp h
      replace he₂ : Op.exec (.fs (.read (metadataPath record.chunksDir))) c₂ w₁ = some (a, w₂) :=
        he₂
      have same : w₂.fs = w₁.fs := exec_fs_eq he₂ rfl
      have store : w₂.swarm = w₁.swarm := by
        obtain ⟨_, _, e⟩ := Option.map_eq_some_iff.mp he₂
        cases e
        rfl
      rw [← same] at later
      rw [← store] at fits
      split
      · next data =>
          split
          · next m hm =>
              -- the file is intact, and the rest starts from a store with its keys
              have found : entriesOf w₁.fs record = entries m := by
                simp only [entriesOf, exec_read he₂, Option.map_some, hm]
              rw [found] at now
              refine returns_bindE ?_ fun l u w₃ h hl => ?_
              · rw [provideAll_eq]
                exact returns_provideEntries hn now fits
              · obtain ⟨-, -, -, -, same₃⟩ := runs_provideAll hl h
                rw [provideAll_eq] at h
                refine ih (same₃ ▸ later) ?_
                exact (PublishRetry.runs_provideEntries hn now h).1.fits_iff.mp fits
          · trivial
      · exact ih later fits

/-- Where there is room, the start-up comes to its end without a refusal. -/
theorem startUp_returns_unrefused (h : RoomForAll w) :
    provideAllPublishedFiles.run.Returns Op.exec (fun d => refused d = false) w := by
  refine returns_bindA (returns_perform ⟨.ok, _, _, rfl, rfl⟩) fun l rs w₁ run _ => ?_
  obtain ⟨c, he, -⟩ := runs_perform.mp run
  replace he : Op.exec (.store .streamPublishedFiles) c w = some (.ok rs, w₁) := he
  obtain ⟨hrs, rfl⟩ | ⟨err, hr, -⟩ := exec_store he
  · cases hrs
    refine returns_provideEach (List.nodup_dedup _) (fun e he => ⟨?_, h.small e he⟩) h.fits
    exact List.mem_dedup.mpr (List.mem_map_of_mem he)
  · cases hr

end Room

/-- The start-up comes to its end on every input, and without a refusal
where there is room for its announcements. Exactly when no item of the
stream is an error and every `.metadata` that is read decodes, it succeeds
and announces every intact file. -/
theorem startUp_announces (w : World) :
    provideAllPublishedFiles.run.Returns Op.exec (fun _ => True) w ∧
    (RoomForAll w → provideAllPublishedFiles.run.Returns Op.exec (fun d => refused d = false) w) ∧
    ∀ l r w', Starts w l r w' → NoneRefused l → (Started w l r ↔ GoodEntries l) := by
  refine ⟨startUp_returns w, startUp_returns_unrefused, fun l r w' h hl => ⟨?_, fun good => ?_⟩⟩
  · rintro ⟨⟨u, rfl⟩, -⟩
    -- A start-up that succeeded has gone through the whole stream.
    obtain ⟨l₁, rs, w₁, l₂, h₁, h₂, rfl⟩ | ⟨e, -, he⟩ := runs_bindA.mp h
    · obtain ⟨c, -, rfl⟩ := runs_perform.mp h₁
      exact List.forall_mem_cons.mpr ⟨rfl, goodEntries_of_provideEach hl.right h₂⟩
    · cases he
  · exact started_of_goodEntries hl good h

end Proofs

section Example

open Reference

attribute [local instance] platform

/-- A published file of one chunk. -/
def intact : FileMetadata := metadataOf "f" [[7]]

/-- A record before it, whose `.metadata` is one byte that says nothing. -/
def damaged : PublishedFileRecord := ⟨.ofU64 0, "g", ⟨"/src/g_chunks"⟩, true⟩

/-- A node that has published both. -/
def published : World :=
  let w := newWorld (files [([], .dir), (["src"], .dir), (["src", "f_chunks"], .dir),
    (["src", "g_chunks"], .dir), (["src", "f_chunks", ".metadata"], .file intact.toBytes),
    (["src", "g_chunks", ".metadata"], .file [0])]) 1
  { w with store := ⟨(ExtTreeMap.empty.insert intact.key (.ofMetadata intact)).insert
    damaged.key damaged, ∅, ∅⟩ }

/-- The damaged `.metadata` ends the start-up with an error, and the intact
file is not announced. -/
theorem bad_entry_stops_startUp :
    ∃ l r w', Starts published l r w' ∧ NoneRefused l ∧ ¬ Started published l r ∧
      ¬ Announced intact l := by
  have run : ∃ l r w', Starts published l r w' ∧
      (NoneRefused l ∧ r.toBool = false ∧ ¬ Announced intact l) :=
    exists_runs_of_play [.choice .ok, .choice .ok, .choice .ok] (by decide +kernel)
  obtain ⟨l, r, w', h, hl, hr, hnot⟩ := run
  refine ⟨l, r, w', h, hl, fun started => ?_, hnot⟩
  obtain ⟨u, rfl⟩ := started.success
  cases hr

/-- With a `.metadata` that cannot be read in its place, the start-up
succeeds and the intact file is announced. -/
theorem startUp_announces_intact :
    ∃ l r w', Starts published l r w' ∧ NoneRefused l ∧ Announced intact l ∧
      Started published l r := by
  have run : ∃ l r w', Starts published l r w' ∧
      (NoneRefused l ∧ GoodEntries l ∧ Announced intact l) :=
    exists_runs_of_play [.choice .ok, .choice .ok, .choice (.ioError ⟨.permissionDenied, ""⟩ 0),
      .choice .ok, .choice .ok, .choice .ok, .choice .ok, .choice .ok, .choice .ok]
      (by decide +kernel)
  obtain ⟨l, r, w', h, hl, good, announced⟩ := run
  exact ⟨l, r, w', h, hl, announced, ((startUp_announces published).2.2 l r w' h hl).mpr good⟩

end Example

end RustDfs.StartUp
