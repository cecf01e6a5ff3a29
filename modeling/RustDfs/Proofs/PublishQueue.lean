import RustDfs.Model.Reference
import RustDfs.Proofs.Rules

/-!
# `RustDfs.Proofs.PublishQueue`: no accepted publication is lost

`publish_file` queues a metadata under its key; the publisher takes the
first entry of the queue, provides it, stores its record and deletes the
entry by key. The key does not cover the chunk directory, so another
`publish_file` of a file with the same name, content and flag puts
another metadata under the same key. When it does so while the publisher
is between reading the entry and deleting it, the delete drops a metadata
that was never published (`publication_lost`).

`publication_kept` is the other side: in every run in which no such
`publish_file` call lands on the key the publisher has in hand, the
metadata stored last under a key is still queued or has its record
stored, whatever the interleaving and the crashes.

The invariant is `Kept`. Between reading and deleting, `InHand` keeps
what the publisher relies on: everything stored under the key since then
names the directory of the metadata in hand.
-/

set_option autoImplicit false

namespace RustDfs.PublishQueue

open Lib Conc Std

/-! ### The history of the queue -/

section History

/-- The metadata a `publish_file` call stored in the queue. -/
def queued? : NodeEvent → Option FileMetadata
  | .op (.call _) (.store (.putFileMetadata m)) (.ok _) => some m
  | _ => none

/-- The file id a `publish_file` call returned. -/
def accepted? : NodeEvent → Option UInt64
  | .exit (.call _) (.published (.ok id)) => some id
  | _ => none

/-- What the publisher holds after an event, given what it held before. -/
def holdsAfter (held : Option FileMetadata) : NodeEvent → Option FileMetadata
  | .op .eventLoop (.store .getNextFileMetadata) (.ok m) => m
  | .op .eventLoop (.store (.deleteFileMetadata _)) (.ok _) => none
  | .exit .eventLoop _ => none
  | .crash => none
  | _ => held

/-- The metadata the publisher has read and whose entry it has not
deleted yet. -/
def inHand : List NodeEvent → Option FileMetadata
  | [] => none
  | e :: h => holdsAfter (inHand h) e

variable [Platform]

/-- The metadata stored last under a key. -/
def lastQueued (k : PublishedFileKey) : List NodeEvent → Option FileMetadata
  | [] => none
  | e :: h =>
      match queued? e with
      | some m => if m.key = k then some m else lastQueued k h
      | none => lastQueued k h

theorem lastQueued_of_not_queued {k : PublishedFileKey} {e : NodeEvent}
    (he : queued? e = none) (h : List NodeEvent) :
    lastQueued k (e :: h) = lastQueued k h := by
  simp only [lastQueued, he]

theorem lastQueued_of_queued {k : PublishedFileKey} {e : NodeEvent} {m : FileMetadata}
    (he : queued? e = some m) (h : List NodeEvent) :
    lastQueued k (e :: h) = if m.key = k then some m else lastQueued k h := by
  simp only [lastQueued, he]

/-- What is stored last under a key has that key. -/
theorem key_of_lastQueued {k : PublishedFileKey} {m : FileMetadata} {h : List NodeEvent}
    (hm : lastQueued k h = some m) : m.key = k := by
  induction h with
  | nil => cases hm
  | cons e h ih =>
      cases he : queued? e with
      | none => exact ih (by rwa [lastQueued_of_not_queued he] at hm)
      | some m' =>
          rw [lastQueued_of_queued he] at hm
          split at hm
          · next hk => cases hm; exact hk
          · exact ih hm

/-- Once something was stored under a key, something is stored last. -/
theorem lastQueued_isSome_cons {k : PublishedFileKey} {h : List NodeEvent}
    (hk : (lastQueued k h).isSome) (e : NodeEvent) : (lastQueued k (e :: h)).isSome := by
  cases he : queued? e with
  | none => rwa [lastQueued_of_not_queued he]
  | some m =>
      rw [lastQueued_of_queued he]
      split
      · rfl
      · exact hk

theorem lastQueued_isSome_of_suffix {k : PublishedFileKey} {h h' : List NodeEvent}
    (hs : h <:+ h') (hk : (lastQueued k h).isSome) : (lastQueued k h').isSome := by
  obtain ⟨t, rfl⟩ := hs
  induction t with
  | nil => exact hk
  | cons e t ih => exact lastQueued_isSome_cons ih e

end History

/-! ### The runs -/

/-- The tasks of publishing: the calls, the event loop without downloads,
and other programs that write files. -/
def publishing : Task → Bool
  | .publishFile .. | .startUp | .swarmEvent | .command | .publisher _ | .writeFile .. => true
  | _ => false

section Proof

variable [Platform]

/-- Runs of `publish_file` calls, the publisher and crashes: of the tasks
only those of publishing are started from outside. -/
def PublishingOnly (v : NodeView) (e : NodeEvent) : Prop :=
  environment v e ∧ match e with
    | .start t => publishing t = true
    | _ => True

/-- No call stores a metadata under the key the publisher has in hand,
unless it names the same chunk directory. -/
def NoneInFlight (v : NodeView) (e : NodeEvent) : Prop :=
  ∀ m ∈ queued? e, ∀ held ∈ inHand v.hist, held.key = m.key → held.chunksDir = m.chunksDir

/-- The guard of the runs in which no publication is lost: only what belongs
to publishing runs, and no call queues a metadata under the key that the
publisher has in hand, unless for the same chunk directory. -/
def undisturbed : NodeGuard := fun v e => PublishingOnly v e ∧ NoneInFlight v e

instance (v : NodeView) (e : NodeEvent) : Decidable (PublishingOnly v e) :=
  match e with
  | .start t => inferInstanceAs (Decidable (environment v (.start t) ∧ publishing t = true))
  | .op i o a => inferInstanceAs (Decidable (environment v (.op i o a) ∧ True))
  | .spawn i t => inferInstanceAs (Decidable (environment v (.spawn i t) ∧ True))
  | .await i j r => inferInstanceAs (Decidable (environment v (.await i j r) ∧ True))
  | .exit i r => inferInstanceAs (Decidable (environment v (.exit i r) ∧ True))
  | .crash => inferInstanceAs (Decidable (environment v .crash ∧ True))

instance (v : NodeView) (e : NodeEvent) : Decidable (undisturbed v e) :=
  inferInstanceAs (Decidable (_ ∧ ∀ m ∈ queued? e, _))

/-- The publication of `k` is kept. A metadata was queued under `k`, and the
last one
- is still in the queue,
- or there is a published record with its chunk directory. -/
def KeptAt (v : NodeView) (k : PublishedFileKey) : Prop :=
  ∃ m ∈ lastQueued k v.hist,
    v.world.store.jobs[k]? = some m ∨
      ∃ r ∈ v.world.store.published[k]?, r.chunksDir = m.chunksDir

instance (v : NodeView) (k : PublishedFileKey) : Decidable (KeptAt v k) :=
  inferInstanceAs (Decidable (∃ m ∈ lastQueued k v.hist, _))

/-- No publication is lost: `KeptAt` for every key a call returned. -/
def NoPublicationLost (v : NodeView) : Prop :=
  ∀ e ∈ v.hist, ∀ id ∈ accepted? e, KeptAt v (.ofU64 id)

instance (v : NodeView) : Decidable (NoPublicationLost v) :=
  -- `id` is looked for in the event, not among all ids
  have (e : NodeEvent) : Decidable (∀ id ∈ accepted? e, KeptAt v (.ofU64 id)) :=
    Option.decidableForallMem _
  inferInstanceAs (Decidable (∀ e ∈ v.hist, _))

/-! ### The protocol -/

/-- The invariant of the store and the history. -/
structure Kept (v : NodeView) : Prop where
  /-- A queued entry is what was stored last under its key. -/
  job : ∀ k m, v.world.store.jobs[k]? = some m → lastQueued k v.hist = some m
  /-- What was stored last is queued or published. -/
  kept : ∀ k m, lastQueued k v.hist = some m →
    v.world.store.jobs[k]? = some m ∨
      ∃ r, v.world.store.published[k]? = some r ∧ r.chunksDir = m.chunksDir
  /-- A returned id was stored before. -/
  accepted : ∀ e ∈ v.hist, ∀ id, accepted? e = some id →
    (lastQueued (.ofU64 id) v.hist).isSome

/-- What the other slots leave to the publisher.
- `published`: they store no published records,
- `inHand`: they do not change what it holds,
- `queued`: they queue nothing under the key of what it holds, unless for
  the same directory. -/
structure Undisturbed (v v' : NodeView) : Prop where
  published : v'.world.store.published = v.world.store.published
  inHand : inHand v'.hist = inHand v.hist
  queued : ∀ k m, lastQueued k v'.hist = some m → lastQueued k v.hist = some m ∨
    ∀ held, PublishQueue.inHand v.hist = some held → held.key = k →
      held.chunksDir = m.chunksDir

/-- What the publisher relies on while it holds `held`. -/
structure InHand (held : FileMetadata) (v : NodeView) : Prop where
  holds : inHand v.hist = some held
  sameDir : ∀ m, lastQueued held.key v.hist = some m → m.chunksDir = held.chunksDir

/-- The protocol of publishing: the publisher owns the published records
and the entry it holds. -/
def protocol : Protocol lang World where
  Inv := Kept
  Rely i v v' := i = .eventLoop → Undisturbed v v'
  Guar i v v' := Kept v' ∧ (i ≠ .eventLoop → Undisturbed v v')
  Pre t _ := publishing t = true
  Post i r v := ∀ n id, i = .call n → r = .published (.ok id) →
    (lastQueued (.ofU64 id) v.hist).isSome

/-! ### Quiet events -/

/-- An event that stores nothing in the queue, returns no file id and
leaves the publisher's hands as they are. -/
structure QuietEvent (e : NodeEvent) : Prop where
  queued : queued? e = none
  accepted : accepted? e = none
  holds : ∀ x, holdsAfter x e = x

/-- The operations that write no record and do not look for the next job. -/
def Quiet (o : Op) : Prop := o.writesStore = false ∧ o ≠ .store .getNextFileMetadata

omit [Platform] in
theorem quietEvent_op {o : Op} (ho : Quiet o) (i : Slot) (a : o.Ans) :
    QuietEvent (.op (L := lang) i o a) where
  queued := by
    unfold queued?
    split
    · next h => cases h; cases ho.1
    · rfl
  accepted := rfl
  holds x := by
    unfold holdsAfter
    split
    · next h => cases h; exact absurd rfl ho.2
    · next h => cases h; cases ho.1
    · next h => cases h
    · next h => cases h
    · rfl

omit [Platform] in
theorem quietEvent_failed (i : Slot) (o : StoreOp) (err : FileStoreError) :
    QuietEvent (.op (L := lang) i (.store o) (.error err)) where
  queued := by
    unfold queued?
    split
    · next h => cases h
    · rfl
  accepted := rfl
  holds x := by
    unfold holdsAfter
    split
    · next h => cases h
    · next h => cases h
    · next h => cases h
    · next h => cases h
    · rfl

omit [Platform] in
theorem quietEvent_start (t : Task) : QuietEvent (.start (L := lang) t) :=
  ⟨rfl, rfl, fun _ => rfl⟩

section Step

variable {v v' : NodeView} {e : NodeEvent}

/-- An event that stores nothing and returns no file id keeps the
invariant when it leaves the database alone. -/
theorem Kept.frame (hv : Kept v) (hq : queued? e = none) (ha : accepted? e = none)
    (hh : v'.hist = e :: v.hist) (hs : v'.world.store = v.world.store) : Kept v' where
  job k m hm := by
    rw [hh, lastQueued_of_not_queued hq]
    exact hv.job k m (hs ▸ hm)
  kept k m hm := by
    rw [hh, lastQueued_of_not_queued hq] at hm
    rw [hs]
    exact hv.kept k m hm
  accepted e' he' id hid := by
    rw [hh, lastQueued_of_not_queued hq]
    rw [hh] at he'
    obtain rfl | he' := List.mem_cons.mp he'
    · rw [ha] at hid
      cases hid
    · exact hv.accepted e' he' id hid

/-- A quiet event that leaves the database alone keeps the invariant. -/
theorem Kept.quiet (hv : Kept v) (he : QuietEvent e) (hh : v'.hist = e :: v.hist)
    (hs : v'.world.store = v.world.store) : Kept v' :=
  hv.frame he.queued he.accepted hh hs

/-- A quiet event that leaves the database alone does not disturb the
publisher. -/
theorem Undisturbed.quiet (he : QuietEvent e) (hh : v'.hist = e :: v.hist)
    (hs : v'.world.store = v.world.store) : Undisturbed v v' where
  published := by rw [hs]
  inHand := by rw [hh]; exact he.holds _
  queued k m hm := .inl (by rwa [hh, lastQueued_of_not_queued he.queued] at hm)

theorem Undisturbed.refl (v : NodeView) : Undisturbed v v :=
  ⟨rfl, rfl, fun _ _ h => .inl h⟩

theorem Undisturbed.trans {v₁ v₂ v₃ : NodeView} (h₁ : Undisturbed v₁ v₂)
    (h₂ : Undisturbed v₂ v₃) : Undisturbed v₁ v₃ where
  published := h₂.published.trans h₁.published
  inHand := h₂.inHand.trans h₁.inHand
  queued k m hm := by
    obtain h | h := h₂.queued k m hm
    · exact h₁.queued k m h
    · exact .inr fun held hheld hk => h held (by rwa [h₁.inHand]) hk

/-- What the publisher relies on is stable. -/
theorem InHand.stable {held : FileMetadata} (h : InHand held v) (hu : Undisturbed v v') :
    InHand held v' where
  holds := hu.inHand.trans h.holds
  sameDir m hm := by
    obtain hm | hm := hu.queued _ m hm
    · exact h.sameDir m hm
    · exact (hm held h.holds rfl).symm

end Step

/-! ### Quiet programs -/

/-- A quiet operation is within the guarantee of every slot. -/
theorem guar_quiet {v : NodeView} {i : Slot} {o : Op} {a : o.Ans} {c : Choice} {w : World}
    (hv : Kept v) (ho : Quiet o) (he : o.exec c v.world = some (a, w)) :
    protocol.Guar i v (v.op i o a w) := by
  have hs : w.store = v.world.store := exec_store_eq he ho.1
  have hq := quietEvent_op ho i a
  exact ⟨hv.quiet hq rfl hs, fun _ => .quiet hq rfl hs⟩

/-- A failed database operation is within the guarantee of every slot. -/
theorem guar_failed {v : NodeView} (hv : Kept v) (i : Slot) (o : StoreOp)
    (err : FileStoreError) :
    protocol.Guar i v (v.op (L := lang) i (.store o) (.error err) v.world) :=
  have hq := quietEvent_failed i o err
  ⟨hv.quiet hq rfl rfl, fun _ => .quiet hq rfl rfl⟩

/-- A program of quiet operations is safe, and keeps what others leave
alone. -/
theorem safe_quiet {α : Type} {O : Op → Prop} {p : Proc α} {i : Slot} {A : NodeView → Prop}
    {v : NodeView} (hp : p.Within (.ops O)) (hO : ∀ o, O o → Quiet o)
    (stable : ∀ v v', protocol.Interferes i v v' → A v → A v')
    (quiet : ∀ v v', Undisturbed v v' → A v → A v') (hv : A v) :
    protocol.Safe machine undisturbed i p (fun _ v => A v) v := by
  refine Protocol.safe_within hp stable (fun v hv hinv _ o ho c a w he _ => ?_) hv
  have hs : w.store = v.world.store := exec_store_eq he (hO o ho).1
  exact ⟨guar_quiet hinv (hO o ho) he, quiet v _ (.quiet (quietEvent_op (hO o ho) i a) rfl hs) hv⟩

/-- A program of quiet operations is safe. -/
theorem safe_of_quiet {α : Type} {O : Op → Prop} {p : Proc α} {i : Slot} {v : NodeView}
    (hp : p.Within (.ops O)) (hO : ∀ o, O o → Quiet o) :
    protocol.Safe machine undisturbed i p (fun _ _ => True) v :=
  safe_quiet hp hO (fun _ _ _ _ => trivial) (fun _ _ _ _ => trivial) trivial

/-! ### The programs of publishing -/

omit [Platform] in
theorem quiet_process {path : PathBuf} : ∀ o, ProcessOp path o → Quiet o := by
  rintro _ (_ | _ | _ | _ | ⟨_, _, _ | _⟩ | ⟨_, _ | _⟩ | _) <;> exact ⟨rfl, nofun⟩

omit [Platform] in
theorem quiet_serve : ∀ o, SwarmEventOp o → Quiet o := by
  rintro _ (_ | ⟨_ | _⟩) <;> exact ⟨rfl, nofun⟩

omit [Platform] in
theorem quiet_command : ∀ o, CommandOp o → Quiet o := by
  rintro _ (_ | _) <;> exact ⟨rfl, nofun⟩

omit [Platform] in
theorem quiet_startUp : ∀ o, StartUpOp o → Quiet o := by
  rintro _ (_ | _) <;> exact ⟨rfl, nofun⟩

omit [Platform] in
theorem quiet_save {path : PathBuf} : ∀ o, SaveOp path o → Quiet o := by
  rintro _ (_ | _) <;> exact ⟨rfl, nofun⟩

/-- The event of a `publish_file` call that stores `m`. -/
def putEvent (n : Nat) (m : FileMetadata) : NodeEvent :=
  .op (.call n) (.store (.putFileMetadata m)) (.ok ())

omit [Platform] in
theorem queued?_putEvent (n : Nat) (m : FileMetadata) : queued? (putEvent n m) = some m := rfl

/-- A call that stores a metadata where the publisher has nothing of its
key in hand, or something of the same directory. -/
theorem put_guar {v : NodeView} {n : Nat} {m : FileMetadata} (hv : Kept v)
    (hg : NoneInFlight v (putEvent n m)) :
    protocol.Guar (.call n) v ⟨{ v.world with store := (StoreOp.run v.world.store
      (.putFileMetadata m)).2 }, putEvent n m :: v.hist, v.live⟩ where
  left :=
    { job := fun k m' hm' => by
        rw [StoreOp.run, get_put] at hm'
        rw [lastQueued_of_queued (queued?_putEvent n m)]
        split at hm'
        · next hk => rw [if_pos hk]; exact hm'
        · next hk => rw [if_neg hk]; exact hv.job k m' hm'
      kept := fun k m' hm' => by
        rw [lastQueued_of_queued (queued?_putEvent n m)] at hm'
        rw [StoreOp.run, get_put]
        split at hm'
        · next hk => rw [if_pos hk]; exact .inl hm'
        · next hk => rw [if_neg hk]; exact hv.kept k m' hm'
      accepted := fun e he id hid => by
        obtain rfl | he := List.mem_cons.mp he
        · cases hid
        · exact lastQueued_isSome_cons (hv.accepted e he id hid) _ }
  right _ :=
    { published := rfl
      inHand := rfl
      queued := fun k m' hm' => by
        rw [lastQueued_of_queued (queued?_putEvent n m)] at hm'
        split at hm'
        · next hk =>
            cases hm'
            exact .inr fun held hheld hk' => hg m rfl held hheld (hk'.trans hk.symm)
        · exact .inl hm' }

theorem isSome_of_put (n : Nat) (m : FileMetadata) (v : NodeView) :
    (lastQueued m.key (putEvent n m :: v.hist)).isSome := by
  rw [lastQueued_of_queued (queued?_putEvent n m), if_pos rfl]
  rfl

/-- A `publish_file` call returns the key of what it stored. -/
theorem publishFile_safe (n fuel : Nat) (request : PublishFileRequest) (v : NodeView) :
    protocol.Safe machine undisturbed (.call n) (publishFile fuel request).run
      (fun r v => ∀ id, r = .ok id → (lastQueued (.ofU64 id) v.hist).isSome) v := by
  refine Protocol.safe_seqE (safe_of_quiet (Prog.within_adapt _
    (processFile_within fuel request.filePath request.isPublic)) quiet_process)
    (fun m v _ => ?_) (fun e v _ id hid => by cases hid)
  intro v₁ _ hinv _ c a w he hg
  obtain ⟨rfl, rfl⟩ | ⟨err, rfl, rfl⟩ := exec_store he
  · refine ⟨put_guar hinv hg.2, fun id hid => ?_⟩
    cases hid
    rw [Octets.ofU64_toU64]
    exact isSome_of_put n m v₁
  · exact ⟨guar_failed hinv _ _ err, fun id hid => by cases hid⟩

/-- What the publisher relies on once the record of `held` is stored. -/
structure Stored (held : FileMetadata) (v : NodeView) : Prop extends InHand held v where
  stored : ∃ r, v.world.store.published[held.key]? = some r ∧ r.chunksDir = held.chunksDir

theorem Stored.stable {held : FileMetadata} {v v' : NodeView} (h : Stored held v)
    (hu : Undisturbed v v') : Stored held v' where
  toInHand := h.toInHand.stable hu
  stored := hu.published ▸ h.stored

/-- Storing the record of the metadata in hand. -/
theorem addPublishedFile_safe (fuel : Nat) {held : FileMetadata} {v : NodeView}
    (hv : InHand held v) :
    protocol.Safe machine undisturbed .eventLoop (EventService.addPublishedFile fuel held)
      (fun _ v => Stored held v) v := by
  refine safe_retry (fun v hv => ?_) fuel hv
  refine Protocol.safe_op (fun _ _ hi h => h.stable (hi.1 rfl)) hv
    fun v hv hinv _ c a w he _ => ?_
  obtain ⟨rfl, rfl⟩ | ⟨err, rfl, rfl⟩ := exec_store he
  · refine ⟨⟨?_, fun h => absurd rfl h⟩, ⟨⟨hv.holds, hv.sameDir⟩, .ofMetadata held, ?_, rfl⟩⟩
    · exact
        { job := hinv.job
          kept := fun k m hm => by
            obtain h | ⟨r, hr, hd⟩ := hinv.kept k m hm
            · exact .inl h
            · show _ ∨ ∃ r, (v.world.store.published.insert held.key _)[k]? = some r ∧ _
              rw [get_put]
              split
              · next hk =>
                  subst hk
                  exact .inr ⟨_, rfl, (hv.sameDir m hm).symm⟩
              · exact .inr ⟨r, hr, hd⟩
          accepted := fun e he' id hid => by
            obtain rfl | he' := List.mem_cons.mp he'
            · cases hid
            · exact hinv.accepted e he' id hid }
    · show (v.world.store.published.insert held.key _)[held.key]? = _
      rw [get_put, if_pos rfl]
  · exact ⟨guar_failed hinv _ _ err,
      hv.stable (.quiet (quietEvent_failed .eventLoop _ err) rfl rfl)⟩

/-- Deleting the entry of the metadata in hand, once its record is
stored. -/
theorem deleteFileMetadata_safe (fuel : Nat) {held : FileMetadata} {v : NodeView}
    (hv : Stored held v) :
    protocol.Safe machine undisturbed .eventLoop
      (EventService.deleteFileMetadata fuel held.key) (fun _ _ => True) v := by
  refine safe_retry (fun v hv => ?_) fuel hv
  refine Protocol.safe_op (fun _ _ hi h => h.stable (hi.1 rfl)) hv
    fun v hv hinv _ c a w he _ => ?_
  obtain ⟨rfl, rfl⟩ | ⟨err, rfl, rfl⟩ := exec_store he
  · refine ⟨⟨?_, fun h => absurd rfl h⟩, trivial⟩
    exact
      { job := fun k m hm => by
          replace hm : (v.world.store.jobs.erase held.key)[k]? = some m := hm
          rw [get_delete] at hm
          split at hm
          · cases hm
          · exact hinv.job k m hm
        kept := fun k m hm => by
          show (v.world.store.jobs.erase held.key)[k]? = some m ∨ _
          rw [get_delete]
          split
          · next hk =>
              subst hk
              obtain ⟨r, hr, hd⟩ := hv.stored
              exact .inr ⟨r, hr, hd.trans (hv.sameDir m hm).symm⟩
          · exact hinv.kept k m hm
        accepted := fun e he' id hid => by
          obtain rfl | he' := List.mem_cons.mp he'
          · cases hid
          · exact hinv.accepted e he' id hid }
  · exact ⟨guar_failed hinv _ _ err,
      hv.stable (.quiet (quietEvent_failed .eventLoop _ err) rfl rfl)⟩

/-- Publishing the metadata in hand. -/
theorem filePublish_safe (fuel : Nat) {held : FileMetadata} {v : NodeView}
    (hv : InHand held v) :
    protocol.Safe machine undisturbed .eventLoop
      (EventService.filePublish fuel (.ok held)) (fun _ _ => True) v := by
  have provide : ∀ v, InHand held v → protocol.Safe machine undisturbed .eventLoop
      (EventService.provideAll held).run (fun _ v => InHand held v) v := fun v hv =>
    safe_quiet (provideAll_within .putRecord .startProviding held) quiet_command
      (fun _ _ hi h => h.stable (hi.1 rfl)) (fun _ _ hu h => h.stable hu) hv
  refine Protocol.safe_seq (safe_retry (fun v hv => ?_) fuel hv)
    fun _ v (hv : InHand held v) => ?_
  · refine Protocol.safe_mono (fun r v hv => ?_) (provide v hv)
    cases r <;> exact hv
  · exact Protocol.safe_seq (addPublishedFile_safe fuel hv) fun _ v hv =>
      deleteFileMetadata_safe fuel hv

/-- A pass of the publisher. -/
theorem publisherPass_safe (fuel : Nat) (v : NodeView) :
    protocol.Safe machine undisturbed .eventLoop (publisherPass fuel) (fun _ _ => True) v := by
  intro v₁ _ hinv _ c a w he _
  obtain ⟨rfl, rfl⟩ | ⟨err, rfl, rfl⟩ := exec_store he
  · refine ⟨⟨hinv.frame rfl rfl rfl rfl, fun h => absurd rfl h⟩, ?_⟩
    simp only [StoreOp.run]
    cases hm : v₁.world.store.jobs.toList.head?.map Prod.snd with
    | none => trivial
    | some m =>
        obtain ⟨k, hk⟩ := get_of_head hm
        have hlast := hinv.job k m hk
        obtain rfl := key_of_lastQueued hlast
        refine filePublish_safe fuel ⟨rfl, fun m' hm' => ?_⟩
        have : lastQueued m.key v₁.hist = some m' := hm'
        rw [hlast] at this
        cases this
        rfl
  · exact ⟨guar_failed hinv _ _ err, trivial⟩

/-! ### The runs of the node -/

/-- Every task of publishing keeps to the protocol. -/
theorem body_safe (t : Task) (v : NodeView) (ht : publishing t = true) :
    protocol.Safe machine undisturbed (slotOf t) (body t) (protocol.Post (slotOf t)) v := by
  -- Only the result of a `publish_file` call is bound to anything.
  have other : ∀ {i : Slot} {v : NodeView}, protocol.Post i .unit v := fun _ _ _ h => by cases h
  have quiet : ∀ {α : Type} {O : Op → Prop} {p : Proc α} {i : Slot} {v : NodeView},
      p.Within (.ops O) → (∀ o, O o → Quiet o) → protocol.Safe machine undisturbed i
        (p >>= fun _ => pure .unit) (protocol.Post i) v := fun hp hO =>
    Protocol.safe_seq (safe_of_quiet hp hO) fun _ _ _ => other
  cases t with
  | publishFile n fuel request =>
      refine Protocol.safe_seq (publishFile_safe n fuel request v) fun r v hr => ?_
      exact fun n' id _ h => hr id (by cases h; rfl)
  | startUp => exact quiet provideAllPublishedFiles_within quiet_startUp
  | swarmEvent =>
      exact Protocol.safe_seq (safe_of_quiet (swarm_within .selectNextSome) quiet_serve)
        fun e _ _ => quiet (handleSwarmEvent_within e) fun o ho => quiet_serve o (.serve ho)
  | command =>
      exact Protocol.safe_seq (safe_of_quiet (chan_within .recvCommand) quiet_command)
        fun c _ _ => quiet (handleCommand_within c) quiet_command
  | publisher fuel =>
      exact Protocol.safe_seq (publisherPass_safe fuel v) fun _ _ _ => other
  | writeFile n path bytes => exact quiet (writeFile_within path bytes) quiet_save
  | tick => cases ht
  | downloadFile => cases ht
  | download => cases ht
  | chunk => cases ht

theorem valid : protocol.Valid machine undisturbed where
  rely_refl _ v _ := .refl v
  rely_trans _ _ _ _ h₁ h₂ hi := (h₁ hi).trans (h₂ hi)
  guar_rely i j _ _ hij _ hG hj := hG.2 (hj ▸ hij)
  guar_inv _ _ _ _ hG := hG.1
  post_stable _ _ _ _ hi hp n id hn hr := lastQueued_isSome_of_suffix hi.2 (hp n id hn hr)
  start_rely t _ _ _ _ _ _ := .quiet (quietEvent_start t) rfl rfl
  start_inv t _ hv _ _ := hv.quiet (quietEvent_start t) rfl rfl
  start_pre _ _ _ _ hg := hg.1.2
  exit_guar i r v hv hp _ _ := by
    have hq : queued? (.exit (L := lang) i r) = none := rfl
    refine ⟨⟨hv.job, hv.kept, fun e he id hid => ?_⟩, fun hi => ⟨rfl, ?_, fun _ _ h => .inl h⟩⟩
    · obtain rfl | he := List.mem_cons.mp he
      · unfold accepted? at hid
        split at hid
        · next h => cases h; cases hid; exact hp _ _ rfl rfl
        · cases hid
      · exact hv.accepted e he id hid
    · show holdsAfter (inHand v.hist) (.exit i r) = inHand v.hist
      unfold holdsAfter
      split
      · next h => cases h
      · next h => cases h
      · next h => cases h; exact absurd rfl hi
      · next h => cases h
      · rfl
  crash_inv _ hv _ := hv.frame rfl rfl rfl rfl
  body_safe t v _ ht := body_safe t v ht

theorem kept_idle {w : World} (hw : w.Initial) : Kept (Pool.idle (L := lang) w).view where
  job k m h := by
    replace h : w.store.jobs[k]? = some m := h
    rw [hw.jobs] at h
    simp at h
  kept _ _ h := by cases h
  accepted _ h := by cases h

/-- In every run in which no call stores a metadata under the key the
publisher has in hand for another directory, no accepted publication is
lost. -/
theorem publication_kept {w : World} {p : NodePool} (hw : w.Initial)
    (h : Reach machine undisturbed (.idle w) p) : NoPublicationLost p.view := by
  obtain ⟨hinv, -⟩ := valid.holds_of_reach (kept_idle hw) h
  intro e he id hid
  obtain ⟨m, hm⟩ := Option.isSome_iff_exists.mp (hinv.accepted e he id hid)
  exact ⟨m, hm, hinv.kept _ m hm⟩

end Proof

/-! ### Two directories, one key -/

section Example

open Reference

attribute [local instance] platform

/-- Two directories with a file of the same name and content. -/
def twoCopies : World :=
  newWorld (files [([], .dir), (["a"], .dir), (["b"], .dir), (["a", "f"], .file [1]),
    (["b", "f"], .file [1])]) 1

theorem twoCopies_initial : twoCopies.Initial :=
  ⟨rfl, rfl, rfl, rfl, rfl, rfl, rfl⟩

/-- A whole `publish_file` call in slot `n`. -/
def publish (n : Nat) (path : String) : List (Move lang Choice) :=
  .start (.publishFile n 5 ⟨path, true⟩) :: ops (.call n) 11 ++ [.exit (.call n)]

/-- The publisher reads the entry of `/a/f`, provides it and stores its
record. Before it deletes the entry, `/b/f` is published. -/
def overtaken : List (Move lang Choice) :=
  publish 0 "/a/f" ++ [.start (.publisher 5)] ++ ops .eventLoop 6 ++ publish 1 "/b/f" ++
    ops .eventLoop 1 ++ [.exit .eventLoop]

/-- The publication of `/b/f` is accepted and lost. -/
theorem publication_lost :
    ∃ p, Reach machine PublishingOnly (.idle twoCopies) p ∧ ¬ NoPublicationLost p.view :=
  exists_reach_of_runScript overtaken (by decide +kernel)

/-- The publisher is done with `/a/f` before `/b/f` is published. -/
def inTurn : List (Move lang Choice) :=
  publish 0 "/a/f" ++ [.start (.publisher 5)] ++ ops .eventLoop 7 ++ [.exit .eventLoop] ++
    publish 1 "/b/f"

/-- Both publications are kept when they come one after the other. -/
theorem publication_kept_inTurn :
    ∃ p, Reach machine undisturbed (.idle twoCopies) p ∧
      (p.hist.filterMap accepted?).length = 2 ∧ NoPublicationLost p.view := by
  have run : ∃ p, Reach machine undisturbed (.idle twoCopies) p ∧
      (p.hist.filterMap accepted?).length = 2 :=
    exists_reach_of_runScript inTurn (by decide +kernel)
  obtain ⟨p, hp, ha⟩ := run
  exact ⟨p, hp, ha, publication_kept twoCopies_initial hp⟩

end Example

end RustDfs.PublishQueue
