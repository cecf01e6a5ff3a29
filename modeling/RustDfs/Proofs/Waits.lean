import RustDfs.Conc.Waiting
import RustDfs.Proofs.ActiveDownloads
import RustDfs.Proofs.Joins

/-!
# `RustDfs.Proofs.Waits`: what comes before a wait

A program of the node waits for a permit, for room in the command
channel, for a command, for an answer, or for a task. `Cause` says of
each of these what its slot did before: who asks for a permit holds none,
who waits for an answer has sent the request, and who waits for a task
has started it. `next_cause` shows it of whatever a program of a run may
do next.

`stays` is about the downloads: as long as its program goes on, a
download has not left the active downloads.
-/

set_option autoImplicit false

namespace RustDfs.Waits

open Lib Conc Prog
open ActiveDownloads (mark marks holders hasLeft marks_cons marks_cons_none)

/-! ### Causes -/

/-- What happened since the last crash. -/
def sinceCrash : List NodeEvent → List NodeEvent
  | [] => []
  | .crash :: _ => []
  | e :: h => e :: sinceCrash h

/-- Slot `i` has sent the command to the running event loop. -/
def HasSent (i : Slot) (command : P2pCommand) (h : List NodeEvent) : Prop :=
  .op i (.chan (.sendCommand command)) (.ok ()) ∈ sinceCrash h

/-- What comes before an event in slot `i`. -/
def Cause (i : Slot) : NodeEvent → List NodeEvent → Prop
  | .op _ (.sync .acquire) _, h =>
      (∃ id c, i = .chunk id c) ∧ (holders (marks h)).count i = 0
  | .op _ (.chan (.metadata (.recv tx))) _, h =>
      i ≠ .eventLoop ∧ ∃ request, HasSent i (.requestMetadata request tx) h
  | .op _ (.chan (.chunk (.recv tx))) _, h =>
      i ≠ .eventLoop ∧ ∃ request, HasSent i (.requestFileChunk request tx) h
  | .op _ (.chan (.sendCommand _)) _, _ => i ≠ .eventLoop
  | .op _ (.chan .recvCommand) _, h =>
      i = .eventLoop ∧ ∃ e before, Begins (L := lang) .command e ∧ h = e :: before
  | .await _ j _, h => j ∈ children (L := lang) slotOf i h
  | _, _ => True

/-- An operation that needs no cause, and leaves the permits alone. -/
def Quiet (i : Slot) : Op → Prop
  | .sync .acquire | .sync .release | .chan (.metadata (.recv _)) | .chan (.chunk (.recv _))
  | .chan .recvCommand => False
  | .chan (.sendCommand _) => i ≠ .eventLoop
  | _ => True

/-- What happened in slot `i` had its causes. -/
abbrev Sound (i : Slot) : List NodeEvent → Prop := Justified (Cause i)

/-- Where slot `i` stands: it holds `n` permits, and has started the tasks
that `m` counts. -/
structure At (i : Slot) (n : Nat) (m : Slot → Nat) (h : List NodeEvent) : Prop where
  sound : Sound i h
  permits : (holders (marks h)).count i = n
  tasks : ∀ j, m j ≤ (children (L := lang) slotOf i h).count j

/-- A slot at rest. -/
abbrev Idle (i : Slot) : List NodeEvent → Prop := At i 0 fun _ => 0

variable {i : Slot} {n : Nat} {m : Slot → Nat} {h : List NodeEvent}

theorem cause_of_quiet {o : Op} (ho : Quiet i o) (a : o.Ans) (h : List NodeEvent) :
    Cause i (.op i o a) h := by
  unfold Cause
  split <;> first
    | trivial
    | next e => cases e; exact ho.elim

theorem holders_quiet {o : Op} (ho : Quiet i o) (a : o.Ans) (h : List NodeEvent) :
    holders (marks (.op i o a :: h)) = holders (marks h) := by
  show holders (List.filterMap mark (_ :: _)) = holders (List.filterMap mark h)
  -- the marks that change the holders are those of the permits
  cases hm : mark (.op i o a) with
  | none => rw [List.filterMap_cons_none hm]
  | some x =>
      rw [List.filterMap_cons_some hm]
      unfold mark at hm
      split at hm <;> cases hm <;> first
        | rfl
        | next e => cases e <;> exact ho.elim

theorem holders_spawn (j : Slot) (t : Task) (h : List NodeEvent) :
    holders (marks (.spawn j t :: h)) = holders (marks h) := by
  cases t <;> rfl

/-- A quiet operation changes nothing. -/
theorem At.op {o : Op} (hA : At i n m h) (ho : Quiet i o) (a : o.Ans) :
    At i n m (.op i o a :: h) where
  sound := ⟨cause_of_quiet ho a h, hA.sound⟩
  permits := (congrArg _ (holders_quiet ho a h)).trans hA.permits
  tasks := hA.tasks

/-- A task that is started is counted. -/
theorem At.spawn (hA : At i n m h) (t : Task) :
    At i n (fun j => m j + [slotOf t].count j) (.spawn i t :: h) where
  sound := ⟨trivial, hA.sound⟩
  permits := (congrArg _ (holders_spawn i t h)).trans hA.permits
  tasks j := by
    have before := hA.tasks j
    rw [children_spawn (L := lang), List.count_singleton, List.count_cons]
    omega

/-- Fewer tasks are counted. -/
theorem At.mono {m' : Slot → Nat} (hA : At i n m h) (hm : ∀ j, m' j ≤ m j) : At i n m' h :=
  ⟨hA.sound, hA.permits, fun j => (hm j).trans (hA.tasks j)⟩

/-- One operation, whatever it is answered. -/
theorem op_follows {n' : Nat} {o : Op} (after : ∀ a, At i n' m (.op i o a :: h)) :
    (Prog.perform (L := lang) o).Follows (Sound i) i (fun _ => At i n' m) h := fun a =>
  ⟨(after a).sound, after a⟩

/-- The same in a program that may fail. -/
theorem op_gives {ε : Type} {o : Op} (after : ∀ a, At i n m (.op i o a :: h)) :
    (ExceptT.lift (ε := ε) (Prog.perform (L := lang) o)).run.Follows (Sound i) i
      (Gives (At i n m) fun _ _ => True) h :=
  follows_lift (follows_mono (fun _ _ hA => ⟨hA, trivial⟩) (op_follows after))

/-- A program of quiet operations. -/
theorem quiet_follows {α : Type} {F : Footprint lang} {p : Proc α} (hp : p.Within F)
    (hF : ∀ o, F.op o → Quiet i o) (hj : ∀ j, ¬ F.await j) (hA : At i n m h) :
    p.Follows (Sound i) i (fun _ => At i n m) h :=
  follows_within hp (fun _ hA => hA.sound) (fun o _ a ho hA => hA.op (hF o ho) a)
    (fun t _ _ hA => (hA.spawn t).mono fun _ => Nat.le_add_right _ _)
    (fun j _ _ h => absurd h (hj j)) hA

/-- The same for a program that may fail. -/
theorem quiet_gives {α ε : Type} {O : Op → Prop} {x : ExceptT ε Proc α} (hx : x.run.Within (.ops O))
    (hO : ∀ o, O o → Quiet i o) (hA : At i n m h) :
    x.run.Follows (Sound i) i (Gives (At i n m) fun _ _ => True) h :=
  follows_gives (quiet_follows hx hO (fun _ h => h) hA)

/-! ### Calls -/

/-- Sending a command. -/
theorem sendCommand_follows (command : P2pCommand) (hi : i ≠ .eventLoop) (hA : At i n m h) :
    (chan (.sendCommand command)).Follows (Sound i) i
      (fun a h => At i n m h ∧ (a = .ok () → HasSent i command h)) h := by
  intro a
  have kept : At i n m (.op i (.chan (.sendCommand command)) a :: h) :=
    hA.op (o := .chan (.sendCommand command)) hi a
  refine ⟨kept.sound, kept, ?_⟩
  rintro rfl
  exact List.mem_cons_self

theorem sendOrInternal_follows (command : P2pCommand) (message : String) (hi : i ≠ .eventLoop)
    (hA : At i n m h) : (sendOrInternal command message).run.Follows (Sound i) i
      (Gives (At i n m) fun _ h => HasSent i command h) h := by
  refine follows_seq (sendCommand_follows command hi hA) fun a h hb => ?_
  split
  · exact gives_ok hb.1 (hb.2 rfl)
  · exact gives_error hb.1

theorem fetchMetadata_follows (request : DownloadFileRequest) (hi : i ≠ .eventLoop)
    (hA : At i n m h) : (fetchMetadata request).run.Follows (Sound i) i
      (Gives (At i n m) fun _ _ => True) h := by
  have dirs : ∀ o, EnsureDirOp ⟨request.downloadPath⟩ o → Quiet i o := by
    intro o ho
    cases ho <;> trivial
  refine follows_bindE (follows_adapt _ (quiet_gives (ensureDirExistsOrCreate_within _) dirs hA))
    fun _ h _ hA _ => ?_
  refine follows_bindE (op_gives fun tx => hA.op (o := .chan (.metadata .channel)) trivial tx)
    fun tx h _ hA _ => ?_
  refine follows_bindE (sendOrInternal_follows _ _ hi hA) fun _ h _ hA sent => ?_
  -- the request is on its way when the call waits for the answer
  have received : ∀ r, At i n m (.op i (.chan (.metadata (.recv tx))) r :: h) := fun r =>
    ⟨⟨⟨hi, _, sent⟩, hA.sound⟩, hA.permits, hA.tasks⟩
  refine follows_bindE (op_gives received) fun r h _ hA _ => ?_
  split
  · exact gives_error hA
  · exact gives_error hA
  · exact gives_ok hA trivial

section Programs

variable [Platform]

/-- The answer is there: what is left is files and a message. -/
theorem prepareDownload_quiet (path : PathBuf) (metadata : FileMetadata) (hi : i ≠ .eventLoop) :
    (prepareDownload path metadata).run.Within (.ops (Quiet i)) := by
  refine within_bindE (within_adapt _ (fs_within trivial)) fun found => ?_
  split
  · trivial
  refine within_bindE (within_adapt _ ((ensureDirExistsOrCreate_within _).mono_ops ?_)) fun _ => ?_
  · rintro _ (_ | _) <;> trivial
  refine within_bindE (within_adapt _ ((saveMetadata_within _).mono_ops ?_)) fun _ => ?_
  · rintro _ (_ | _) <;> trivial
  exact within_bindE (sendOrInternal_within (O := Quiet i) hi _) fun _ => trivial

theorem downloadFile_follows (request : DownloadFileRequest) (hi : i ≠ .eventLoop)
    (hA : At i n m h) : (downloadFile request).run.Follows (Sound i) i
      (Gives (At i n m) fun _ _ => True) h := by
  have stores : ∀ o : StoreOp, ∀ {h}, At i n m h → (storeOrInternal o).run.Follows (Sound i) i
      (Gives (At i n m) fun _ _ => True) h := fun o _ hA =>
    quiet_gives (O := Quiet i) (storeOrInternal_within trivial) (fun _ h => h) hA
  refine follows_bindE (stores _ hA) fun published h _ hA _ => ?_
  split
  · exact gives_error hA
  refine follows_bindE (stores _ hA) fun pending h _ hA _ => ?_
  split
  · exact gives_error hA
  refine follows_bindE (fetchMetadata_follows request hi hA) fun metadata h _ hA _ => ?_
  refine follows_bindE (quiet_gives (prepareDownload_quiet _ metadata hi) (fun _ h => h) hA)
    fun record h _ hA _ => ?_
  exact stores _ hA

/-! ### Chunk tasks -/

open FileDownloadService

theorem verifyAndSaveFileChunk_quiet (d : DownloadFileChunk) (bytes : Bytes) :
    (verifyAndSaveFileChunk d bytes).run.Within (.ops (Quiet i)) := by
  refine within_bindE (within_adapt _ (readMetadata_within (F := .ops (Quiet i)) trivial))
    fun metadata => ?_
  split
  · trivial
  split
  · refine within_adapt _ ((writeFile_within _ _).mono_ops ?_)
    rintro _ (_ | _) <;> trivial
  · trivial
  · trivial

theorem downloadFileChunk_follows (d : DownloadFileChunk) (hi : i ≠ .eventLoop)
    (hA : At i n m h) : (downloadFileChunk d).run.Follows (Sound i) i
      (Gives (At i n m) fun _ _ => True) h := by
  refine follows_bindE (op_gives fun tx => hA.op (o := .chan (.chunk .channel)) trivial tx)
    fun tx h _ hA _ => ?_
  refine follows_bindE (follows_lift (sendCommand_follows _ hi hA)) fun a h _ hA sent => ?_
  split
  · exact gives_error hA
  -- the request is on its way when the task waits for the answer
  have received : ∀ r, At i n m (.op i (.chan (.chunk (.recv tx))) r :: h) := fun r =>
    ⟨⟨⟨hi, _, sent rfl⟩, hA.sound⟩, hA.permits, hA.tasks⟩
  refine follows_bindE (op_gives received) fun r h _ hA _ => ?_
  split
  · exact gives_error hA
  · refine follows_bindE (quiet_gives (verifyAndSaveFileChunk_quiet d _) (fun _ h => h) hA)
      fun _ h _ hA _ => ?_
    refine follows_bindE (P := fun _ _ => True) (follows_lift (follows_mono
      (fun _ _ hb => ⟨hb.1, trivial⟩) (sendCommand_follows _ hi hA))) fun a h _ hA _ => ?_
    split <;> exact gives_ok hA trivial
  · exact gives_ok hA trivial
  · exact gives_ok hA trivial

/-- A chunk task gives back the permit it took. -/
theorem chunkTask_follows (d : DownloadFileChunk) (hi : i = .chunk d.fileId d.chunkId)
    (hA : At i 0 m h) : (chunkTask d).Follows (Sound i) i (fun _ => At i 0 m) h := by
  have other : i ≠ .eventLoop := by
    rintro rfl
    cases hi
  have taken : ∀ a, At i 1 m (.op i (.sync .acquire) a :: h) := fun a =>
    ⟨⟨⟨⟨_, _, hi⟩, hA.permits⟩, hA.sound⟩, by
      show (i :: holders (marks h)).count i = 1
      rw [List.count_cons_self, hA.permits], hA.tasks⟩
  refine follows_seq (op_follows taken) fun _ h hA => ?_
  refine follows_seq (downloadFileChunk_follows d other hA) fun r h hb => ?_
  have given : ∀ a, At i 0 m (.op i (.sync .release) a :: h) := fun a =>
    ⟨⟨trivial, hb.1.sound⟩, by
      show ((holders (marks h)).erase i).count i = 0
      rw [List.count_erase_self, hb.1.permits], hb.1.tasks⟩
  exact op_follows given

/-! ### Downloads -/

omit [Platform] in
/-- Every slot `spawnChunks` answers with is that of a task it started. -/
theorem spawnChunks_follows (record : PendingDownloadRecord) (chunkIds : List Nat)
    (hA : At i n m h) : (spawnChunks record chunkIds).Follows (Sound i) i
      (fun slots => At i n fun j => m j + slots.count j) h := by
  induction chunkIds generalizing m h with
  | nil => exact hA
  | cons chunkId chunkIds ih =>
      unfold spawnChunks
      split
      · exact ih hA
      · have started := hA.spawn (.chunk ⟨record.key.toU64, chunkId, record.chunksDir⟩)
        refine ⟨started.sound, follows_seq (p := spawnChunks record chunkIds)
          (ih started) fun slots h hA => hA.mono fun j => ?_⟩
        show m j + (Slot.chunk record.key.toU64 chunkId :: slots).count j ≤
          m j + [Slot.chunk record.key.toU64 chunkId].count j + slots.count j
        rw [List.count_singleton, List.count_cons]
        omega

omit [Platform] in
theorem recordChunk_quiet (record : PendingDownloadRecord) (firstError : Option String)
    (result : Res) : (recordChunk record firstError result).Within (.ops (Quiet i)) := by
  unfold recordChunk
  split
  · split
    · trivial
    · exact within_bind (store_within trivial) fun _ => trivial
  · trivial
  · trivial

omit [Platform] in
/-- Every slot `joinChunks` waits for is that of a task that was
started. -/
theorem joinChunks_follows (left : Nat) (slots : List Slot) (record : PendingDownloadRecord)
    (firstError : Option String) (hA : At i n (fun j => slots.count j) h) :
    (joinChunks left slots record firstError).Follows (Sound i) i
      (fun _ => At i n fun _ => 0) h := by
  induction left generalizing slots record firstError h with
  | zero => exact hA.mono fun _ => Nat.zero_le _
  | succ left ih =>
      intro j hj result
      -- a slot it may choose is counted, so it was started and not taken yet
      have child : j ∈ children (L := lang) slotOf i h :=
        List.count_pos_iff.mp ((List.count_pos_iff.mpr hj).trans_le (hA.tasks j))
      have joined : At i n (fun l => (slots.erase j).count l) (.await i j result :: h) := by
        refine ⟨⟨child, hA.sound⟩, hA.permits, fun l => ?_⟩
        have before := hA.tasks l
        rw [children_await (L := lang), List.count_erase, List.count_erase]
        omega
      refine ⟨joined.sound, ?_⟩
      exact follows_seq (quiet_follows (recordChunk_quiet record firstError result)
        (fun _ h => h) (fun _ h => h) joined) fun x h hA => ih _ x.1 x.2 hA

theorem download_follows (record : PendingDownloadRecord) (hA : Idle i h) :
    (download record).Follows (Sound i) i (fun _ => Idle i) h := by
  have read : (readMetadata record.chunksDir).run.Within (.ops (Quiet i)) :=
    readMetadata_within (F := .ops (Quiet i)) trivial
  refine follows_seq (quiet_follows read (fun _ h => h) (fun _ h => h) hA) fun metadata h hA => ?_
  split
  · exact hA
  refine follows_seq (spawnChunks_follows record _ hA) fun slots h hA => ?_
  -- what it waits for now is what it has just started
  refine follows_seq (joinChunks_follows slots.length slots record none
    (hA.mono fun _ => Nat.le_add_left _ _)) fun x h hA => ?_
  obtain ⟨record', firstError⟩ := x
  cases firstError <;> exact hA

theorem downloadTask_follows (record : PendingDownloadRecord) (hi : i = .download record.key)
    (hA : Idle i h) : (downloadTask record).Follows (Sound i) i (fun _ => Idle i) h := by
  have other : i ≠ .eventLoop := by
    rintro rfl
    cases hi
  have completes : ∀ k o, CompleteOp k o → Quiet i o := by
    rintro k _ (⟨_ | _ | _ | ⟨_ | _⟩ | _⟩ | _ | _ | _) <;> trivial
  -- both ends of the download take its key out
  have remove : ∀ (k : PublishedFileKey) {h}, Idle i h →
      (sync (.removeActive k) >>= fun _ => pure Res.unit).Follows (Sound i) i
        (fun _ => Idle i) h := fun k h hA a =>
    ⟨(hA.op (o := .sync (.removeActive k)) trivial a).sound,
      hA.op (o := .sync (.removeActive k)) trivial a⟩
  refine follows_seq (download_follows record hA) fun x h hA => ?_
  obtain ⟨completed, record'⟩ := x
  dsimp only
  split
  · exact follows_seq (quiet_follows (processCompleted_within record') (completes record'.key)
      (fun _ h => h) hA) fun _ h hA => remove record'.key hA
  · exact remove record'.key hA

/-! ### Tasks -/

theorem handleCommand_quiet (command : P2pCommand) :
    (EventService.handleCommand command).Within (.ops (Quiet i)) := by
  unfold EventService.handleCommand
  split
  · refine within_bind (swarm_within trivial) fun _ => ?_
    exact within_bind (events_within trivial) fun _ => events_within trivial
  · refine within_bind (swarm_within trivial) fun _ => ?_
    exact within_bind (events_within trivial) fun _ => events_within trivial
  · exact within_bind (provideMetadata_within (fun _ _ => trivial) (fun _ => trivial) _)
      fun _ => trivial
  · exact within_bind (provideFileChunk_within (fun _ _ => trivial) (fun _ => trivial) _)
      fun _ => trivial

omit [Platform] in
/-- The tasks that only do what is quiet. -/
theorem quiet_of_footprint {t : Task} {o : Op} (ho : t.footprint.op o)
    (call : ∀ k request, t ≠ .downloadFile k request) (command : t ≠ .command)
    (download : ∀ r, t ≠ .download r) (chunk : ∀ d, t ≠ .chunk d) : Quiet (slotOf t) o := by
  cases t with
  | publishFile k fuel request =>
      obtain ⟨_ | _ | _ | _ | ⟨_, _, _ | _⟩ | ⟨_, _ | _⟩ | _⟩ | _ := ho <;> trivial
  | downloadFile k request => exact absurd rfl (call k request)
  | startUp => obtain _ | _ := ho <;> trivial
  | swarmEvent => obtain _ | ⟨_ | _⟩ := ho <;> trivial
  | command => exact absurd rfl command
  | tick => obtain _ | _ := ho <;> trivial
  | publisher fuel => obtain _ | _ := ho <;> trivial
  | download r => exact absurd rfl (download r)
  | chunk d => exact absurd rfl (chunk d)
  | writeFile k path bytes => obtain _ | _ := ho <;> trivial

theorem quiet_body (t : Task) (call : ∀ k request, t ≠ .downloadFile k request)
    (command : t ≠ .command) (download : ∀ r, t ≠ .download r) (chunk : ∀ d, t ≠ .chunk d)
    (hA : Idle (slotOf t) h) :
    (body t).Follows (Sound (slotOf t)) (slotOf t) (fun _ => Idle (slotOf t)) h := by
  refine quiet_follows (body_within t)
    (fun o ho => quiet_of_footprint ho call command download chunk) (fun j hj => ?_) hA
  obtain ⟨r, ht, -⟩ := of_await hj
  exact download r ht

theorem body_follows (t : Task) {e : NodeEvent} (hb : Begins (L := lang) t e)
    (hA : Idle (slotOf t) (e :: h)) :
    (body t).Follows (Sound (slotOf t)) (slotOf t) (fun _ => Idle (slotOf t)) (e :: h) := by
  cases t with
  | downloadFile k request =>
      exact follows_seq (downloadFile_follows request (by rintro ⟨⟩) hA) fun _ _ hr => hr.1
  | command =>
      -- the first thing a pass does is to take the command
      have taken : ∀ command,
          Idle .eventLoop (.op .eventLoop (.chan .recvCommand) command :: e :: h) :=
        fun command => ⟨⟨⟨rfl, e, h, hb, rfl⟩, hA.sound⟩, hA.permits, hA.tasks⟩
      refine follows_seq (op_follows taken) fun command h hA => ?_
      exact follows_seq (quiet_follows (handleCommand_quiet command) (fun _ h => h)
        (fun _ h => h) hA) fun _ _ hA => hA
  | download r => exact downloadTask_follows r rfl hA
  | chunk d => exact chunkTask_follows d rfl hA
  | _ =>
      refine quiet_body _ (fun _ _ e => ?_) (fun e => ?_) (fun _ e => ?_) (fun _ e => ?_) hA <;>
        cases e

theorem solo (i : Slot) : Solo machine i (Sound i) (Idle i) where
  nil := ⟨trivial, rfl, fun _ => Nat.zero_le _⟩
  inv h hA := hA.sound
  crash h hj := ⟨⟨trivial, hj⟩, rfl, fun _ => Nat.zero_le _⟩
  body t e h hi hb hA := by
    subst hi
    -- that a task begins needs no cause, and leaves the permits alone
    have began : Idle (slotOf t) (e :: h) := by
      cases hb with
      | spawn j => exact ⟨⟨trivial, hA.sound⟩, (congrArg _ (holders_spawn j t h)).trans hA.permits,
          fun _ => Nat.zero_le _⟩
      | start => exact ⟨⟨trivial, hA.sound⟩, hA.permits, fun _ => Nat.zero_le _⟩
    exact ⟨began.sound, body_follows t hb began⟩

variable {g : NodeGuard} {w : World} {p : NodePool} {e : NodeEvent}

/-- Whatever a program may do next has its cause in what its slot did. -/
theorem next_cause (hr : Reach machine g (.idle w) p) (hn : Next p i e) :
    Cause i e (own (L := lang) slotOf i p.hist) :=
  ((solo i).next hr hn).1

/-- What a slot runs is what is left of one of its tasks. -/
theorem program_of_reach (hr : Reach machine g (.idle w) p) {q : Proc Res}
    (hl : p.threads i = some q) : ∃ t, slotOf t = i ∧ q.Within t.footprint ∧ q.Joins := by
  have residual : Residual (L := lang) fun i q =>
      ∃ t, slotOf t = i ∧ q.Within t.footprint ∧ q.Joins := by
    refine ⟨fun i o k a hq => ?_, fun i t k hq => ?_, fun i js k j r hj hq => ?_⟩
    · obtain ⟨t, ht, within, joins⟩ := hq
      exact ⟨t, ht, within.2 a, joins a⟩
    · obtain ⟨t', ht, within, joins⟩ := hq
      exact ⟨t', ht, within.2, joins⟩
    · obtain ⟨t, ht, within, joins⟩ := hq
      exact ⟨t, ht, within.2 j r, joins.2 j hj r⟩
  exact residual.of_reach (fun t => ⟨t, rfl, body_within t, Joins.body_joins t⟩) hr hl

end Programs

/-! ### Staying active -/

section Staying

variable {k : PublishedFileKey} {e : NodeEvent}

/-- No download was started from outside, and the one of the key has not
left. -/
def Stays (k : PublishedFileKey) (h : List NodeEvent) : Prop :=
  (∀ r, .start (.download r) ∉ h) → hasLeft k (marks h) = false

/-- What comes before the events of a download. -/
def Staying (k : PublishedFileKey) : NodeEvent → List NodeEvent → Prop
  | .op .., h => Stays k h
  | .await .., h => Stays k h
  | .spawn _ t, h => slotOf t ≠ .download k → Stays k h
  | _, _ => True

/-- Whether a download has left depends on what happened before it, but
for its own marks. -/
theorem hasLeft_congr {h' : List NodeEvent} (e : NodeEvent)
    (hh : hasLeft k (marks h) = hasLeft k (marks h')) :
    hasLeft k (marks (e :: h)) = hasLeft k (marks (e :: h')) := by
  cases hm : mark e with
  | none => rw [marks_cons_none hm, marks_cons_none hm, hh]
  | some x =>
      rw [marks_cons hm, marks_cons hm]
      cases x <;> simp only [hasLeft, hh]

/-- An event that is none of the key's marks. -/
theorem hasLeft_cons (leave : mark e ≠ some (.leave k)) (start : mark e ≠ some (.start k))
    (crash : mark e ≠ some .crash) (h : List NodeEvent) :
    hasLeft k (marks (e :: h)) = hasLeft k (marks h) := by
  cases hm : mark e with
  | none => rw [marks_cons_none hm]
  | some x =>
      rw [marks_cons hm]
      cases x with
      | leave k' => exact if_neg fun (same : k' = k) => leave (same ▸ hm)
      | start k' => exact if_neg fun (same : k' = k) => start (same ▸ hm)
      | crash => exact absurd hm crash
      | _ => rfl

theorem leave_of_mark (hm : mark e = some (.leave k)) :
    ∃ i a, e = .op i (.sync (.removeActive k)) a := by
  unfold mark at hm
  split at hm <;> cases hm
  exact ⟨_, _, rfl⟩

theorem start_of_mark (hm : mark e = some (.start k)) :
    ∃ i r, e = .spawn i (.download r) ∧ r.key = k := by
  unfold mark at hm
  split at hm <;> cases hm
  exact ⟨_, _, rfl, rfl⟩

theorem acquire_of_mark (hm : mark e = some (.acquire i)) :
    ∃ a, e = .op i (.sync .acquire) a := by
  unfold mark at hm
  split at hm <;> cases hm
  exact ⟨_, rfl⟩

theorem release_of_mark (hm : mark e = some (.release i)) :
    ∃ a, e = .op i (.sync .release) a := by
  unfold mark at hm
  split at hm <;> cases hm
  exact ⟨_, rfl⟩

theorem crash_of_mark (hm : mark e = some .crash) : e = .crash := by
  unfold mark at hm
  split at hm <;> cases hm
  rfl

/-- Whether a download has left is a matter of its own slot. -/
theorem hasLeft_own (h : List NodeEvent)
    (leaves : ∀ i a, .op i (.sync (.removeActive k)) a ∈ h → i = .download k) :
    hasLeft k (marks (own (L := lang) slotOf (.download k) h)) = hasLeft k (marks h) := by
  induction h with
  | nil => rfl
  | cons e h ih =>
      replace ih := ih fun i a ha => leaves i a (List.mem_cons_of_mem _ ha)
      cases he : e.ownBy (L := lang) slotOf (.download k) with
      | true =>
          rw [own_cons_self he]
          exact hasLeft_congr e ih
      | false =>
          -- other slots neither start the download, nor remove its key
          rw [own_cons_other he, ih, hasLeft_cons]
          · intro hm
            obtain ⟨i, a, rfl⟩ := leave_of_mark hm
            exact of_decide_eq_false he (leaves i a List.mem_cons_self)
          · intro hm
            obtain ⟨i, r, rfl, rfl⟩ := start_of_mark hm
            exact of_decide_eq_false (Bool.or_eq_false_iff.mp he).2 rfl
          · intro hm
            cases crash_of_mark hm
            cases he

/-- Which permits a slot holds is a matter of the slot. -/
theorem holders_own (h : List NodeEvent) :
    (holders (marks (own (L := lang) slotOf i h))).count i = (holders (marks h)).count i := by
  induction h with
  | nil => rfl
  | cons e h ih =>
      cases he : e.ownBy (L := lang) slotOf i with
      | true =>
          rw [own_cons_self he]
          cases hm : mark e with
          | none => rw [marks_cons_none hm, marks_cons_none hm, ih]
          | some x =>
              rw [marks_cons hm, marks_cons hm]
              cases x <;> simp only [holders, List.count_cons, List.count_erase, ih]
      | false =>
          -- a permit is taken and given back by the slot that holds it
          rw [own_cons_other he, ih]
          cases hm : mark e with
          | none => rw [marks_cons_none hm]
          | some x =>
              rw [marks_cons hm]
              cases x with
              | acquire j =>
                  obtain ⟨a, rfl⟩ := acquire_of_mark hm
                  exact (List.count_cons_of_ne (of_decide_eq_false he)).symm
              | release j =>
                  obtain ⟨a, rfl⟩ := release_of_mark hm
                  exact (List.count_erase_of_ne (Ne.symm (of_decide_eq_false he))).symm
              | crash =>
                  cases crash_of_mark hm
                  cases he
              | _ => rfl

/-- What is not the end of the download keeps it. -/
theorem Stays.cons (hs : Stays k h) (leave : mark e ≠ some (.leave k)) (crash : e ≠ .crash) :
    Stays k (e :: h) := by
  intro none
  replace hs := hs fun r hr => none r (List.mem_cons_of_mem _ hr)
  -- to be started again does not make it leave
  by_cases hm : mark e = some (.start k)
  · rw [marks_cons hm]
    exact if_pos rfl
  · rw [hasLeft_cons leave hm fun hm => crash (crash_of_mark hm)]
    exact hs

/-- A download that starts has not left. -/
theorem Stays.start {t : Task} (hb : Begins (L := lang) t e) (ht : slotOf t = .download k) :
    Stays k (e :: h) := by
  intro none
  cases t with
  | download r =>
      cases ht
      cases hb with
      | spawn j => exact if_pos rfl
      | start => exact absurd List.mem_cons_self (none r)
  | _ => cases ht

/-- A download that stays. -/
structure Here (k : PublishedFileKey) (h : List NodeEvent) : Prop where
  sound : Justified (Staying k) h
  stays : Stays k h

/-- Everything a download does before it leaves. -/
def staying (k : PublishedFileKey) : Footprint lang :=
  ⟨fun o => o ≠ .sync (.removeActive k), fun t => slotOf t ≠ .download k, fun _ => True⟩

theorem staying_follows {α : Type} {p : Proc α} (hp : p.Within (staying k)) (hh : Here k h) :
    p.Follows (Justified (Staying k)) (.download k) (fun _ => Here k) h := by
  refine follows_within hp (fun _ hh => hh.sound) (fun o h a ho hh => ?_) (fun t h _ hh => ?_)
    (fun j h r _ hh => ?_) hh
  · refine ⟨⟨hh.stays, hh.sound⟩, hh.stays.cons (fun hm => ?_) fun e => by cases e⟩
    obtain ⟨i, a, e⟩ := leave_of_mark hm
    cases e
    exact ho rfl
  · refine ⟨⟨fun _ => hh.stays, hh.sound⟩, hh.stays.cons (fun hm => ?_) fun e => by cases e⟩
    obtain ⟨i, a, e⟩ := leave_of_mark hm
    cases e
  · refine ⟨⟨hh.stays, hh.sound⟩, hh.stays.cons (fun hm => ?_) fun e => by cases e⟩
    obtain ⟨i, a, e⟩ := leave_of_mark hm
    cases e

variable [Platform]

open FileDownloadService

theorem downloadTask_stays (r : PendingDownloadRecord) (hh : Here r.key h) :
    (downloadTask r).Follows (Justified (Staying r.key)) (.download r.key)
      (fun _ => Justified (Staying r.key)) h := by
  have work : (download r).Within (staying r.key) := by
    refine Within.mono (F := downloadFootprint r.key) (fun o ho => ?_) (fun t ht => ?_)
      (fun _ _ => trivial) (download_within r)
    · rintro rfl
      cases ho
    · obtain ⟨c, dir, rfl⟩ := ht
      exact fun e => by cases e
  have complete : ∀ r' : PendingDownloadRecord,
      (processCompleted r').run.Within (staying r.key) := by
    refine fun r' => (processCompleted_within r').of_ops fun o ho => ?_
    rintro rfl
    obtain ⟨_ | _ | _ | ⟨_ | _⟩ | _⟩ | _ | _ | _ := ho
  -- before the key is removed, the download is still there
  have remove : ∀ (k' : PublishedFileKey) {h}, Here r.key h →
      (sync (.removeActive k') >>= fun _ => pure Res.unit).Follows (Justified (Staying r.key))
        (.download r.key) (fun _ => Justified (Staying r.key)) h := fun k' h hh _ =>
    ⟨⟨hh.stays, hh.sound⟩, hh.stays, hh.sound⟩
  refine follows_seq (staying_follows work hh) fun x h hh => ?_
  obtain ⟨completed, r'⟩ := x
  dsimp only
  split
  · exact follows_seq (staying_follows (complete r') hh) fun _ h hh => remove r'.key hh
  · exact remove r'.key hh

theorem staying_solo (k : PublishedFileKey) :
    Solo machine (.download k) (Justified (Staying k)) (Justified (Staying k)) where
  nil := trivial
  inv h hj := hj
  crash h hj := ⟨trivial, hj⟩
  body t e h hi hb hj := by
    have began : Here k (e :: h) := by
      refine ⟨⟨?_, hj⟩, .start hb hi⟩
      cases hb with
      | spawn j => exact fun other => absurd hi other
      | start => trivial
    refine ⟨began.sound, ?_⟩
    cases t with
    | download r =>
        cases hi
        exact downloadTask_stays r began
    | _ => cases hi

omit [Platform] in
/-- Every operation but `diverge` has an answer. -/
theorem nonempty_ans {o : Op} (ho : o ≠ .diverge) : Nonempty o.Ans := by
  cases o with
  | fs o => exact ⟨.error ⟨.notFound, ""⟩⟩
  | store o => exact ⟨.error (.joinError "")⟩
  | sync o =>
      cases o with
      | availablePermits => exact ⟨(0 : Nat)⟩
      | insertActive key => exact ⟨true⟩
      | _ => exact ⟨()⟩
  | chan o =>
      cases o with
      | metadata o => cases o <;> first | exact ⟨()⟩ | exact ⟨.error ()⟩ | exact ⟨⟨0⟩⟩
      | chunk o => cases o <;> first | exact ⟨()⟩ | exact ⟨.error ()⟩ | exact ⟨⟨0⟩⟩
      | sendCommand command => exact ⟨.error ()⟩
      | recvCommand => exact ⟨.provideFileChunk ⟨0, 0⟩⟩
  | swarm o =>
      cases o <;> first
        | exact ⟨(0 : Nat)⟩
        | exact ⟨.ok ()⟩
        | exact ⟨SwarmEvent.other⟩
  | events o => cases o <;> first | exact ⟨()⟩ | exact ⟨EventService.new⟩
  | diverge => exact absurd rfl ho

omit [Platform] in
theorem download_of_slot {t : Task} (ht : slotOf t = .download k) :
    ∃ r, t = .download r ∧ r.key = k := by
  cases t with
  | download r =>
      cases ht
      exact ⟨r, rfl, rfl⟩
  | _ => cases ht

omit [Platform] in
/-- Only the download of a key takes it out of the active downloads. -/
theorem slot_of_removeActive {t : Task} (ho : t.footprint.op (.sync (.removeActive k))) :
    slotOf t = .download k := by
  cases t with
  | publishFile n fuel request =>
      obtain ⟨_ | _ | _ | _ | ⟨_, _, _ | _⟩ | ⟨_, _ | _⟩ | _⟩ | _ := ho
  | downloadFile n request => obtain ⟨⟨_ | _ | _⟩ | ⟨_ | _⟩ | _⟩ | _ := ho
  | startUp => obtain _ | _ := ho
  | swarmEvent => obtain _ | ⟨_ | _⟩ := ho
  | command => obtain _ | _ := ho
  | tick => obtain _ | _ := ho
  | publisher fuel => obtain _ | _ := ho
  | download r =>
      obtain ⟨_ | _⟩ | ⟨⟨_ | _ | _ | ⟨_ | _⟩ | _⟩ | _ | _ | _⟩ | _ := ho
      rfl
  | chunk d => obtain _ | _ | _ | _ | _ | _ | _ | ⟨_, _ | _⟩ := ho
  | writeFile n path bytes => obtain _ | _ := ho

/-- As long as its program goes on, a download has not left the active
downloads. -/
theorem stays {w : World} {p : NodePool} (hr : Reach machine environment (.idle w) p)
    {q : Proc Res} (hl : p.threads (.download k) = some q) (go : ∀ r, q ≠ .ret r) :
    hasLeft k (marks p.hist) = false := by
  have leaves : ∀ i a, .op i (.sync (.removeActive k)) a ∈ p.hist → i = .download k := by
    intro i a ha
    obtain ⟨t, rfl, ho⟩ := op_of_reach body_within hr ha
    exact slot_of_removeActive ho
  have inside : ∀ r, .start (.download r) ∉ own (L := lang) slotOf (.download k) p.hist := by
    -- downloads are started by ticks, not by the environment
    intro r hs
    obtain ⟨v, hv⟩ := hr.allowed ((own_sublist (L := lang) slotOf _ p.hist).subset hs)
    cases hv.1
  rw [← hasLeft_own p.hist leaves]
  obtain ⟨t, ht, within, joins⟩ := program_of_reach hr hl
  obtain ⟨r, rfl, rfl⟩ := download_of_slot ht
  have solo := staying_solo r.key
  -- whatever comes next comes before the download leaves
  cases q with
  | ret r => exact absurd rfl (go r)
  | op o f =>
      have ends : o ≠ .diverge := by
        rintro rfl
        obtain ⟨_ | _⟩ | ⟨⟨_ | _ | _ | ⟨_ | _⟩ | _⟩ | _ | _ | _⟩ | _ := within.1
      obtain ⟨a⟩ := nonempty_ans ends
      exact (solo.next hr (.op hl a)).1 inside
  | spawn t f =>
      obtain ⟨c, dir, rfl⟩ := within.1
      exact (solo.next hr (.spawn hl)).1 (fun e => by cases e) inside
  | await js f =>
      obtain ⟨j, hj⟩ := List.exists_mem_of_ne_nil js joins.1
      exact (solo.next hr (.await hl hj .unit)).1 inside

end Staying

end RustDfs.Waits
