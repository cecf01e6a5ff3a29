import RustDfs.Conc.Starts
import RustDfs.Model.Reference
import RustDfs.Proofs.Tasks

/-!
# `RustDfs.Proofs.ActiveDownloads`: one task a file, a bounded number of transfers

A tick puts the key of a record among the active downloads and starts a
task for it; the task takes the key out when it is done. Its chunk tasks
hold a permit while they download.

`one_task_a_file` ties the three together in every run, with any number
of ticks, downloads and crashes: the active downloads are the keys of the
tasks that have not left yet (`Running`), no task is started beside
another one of its file or chunk (`Alone`), a chunk has one request in
flight at most, and no more transfers hold a permit than there are
permits. What happens between two steps of a tick is `handed`: the key it
has put in and not started a task for.
-/

set_option autoImplicit false

namespace RustDfs.ActiveDownloads

open Lib Conc Std

/-! ### What the history says -/

/-- What an event means for downloads and transfers. -/
inductive Mark where
  | insert (key : PublishedFileKey)
  | start (key : PublishedFileKey)
  | leave (key : PublishedFileKey)
  | acquire (i : Slot)
  | release (i : Slot)
  | ask (request : FileChunkRequest) (s : OneshotSender (Option FileResponse))
  | answer (i : Slot) (s : OneshotSender (Option FileResponse))
  | crash

/-- The mark of an event: a key that was not active is put in, a download
task starts, a key is taken out, a permit is taken or given back, a chunk
is asked for, an answer is received. -/
def mark : NodeEvent → Option Mark
  | .op _ (.sync (.insertActive k)) true => some (.insert k)
  | .spawn _ (.download r) => some (.start r.key)
  | .op _ (.sync (.removeActive k)) _ => some (.leave k)
  | .op i (.sync .acquire) _ => some (.acquire i)
  | .op i (.sync .release) _ => some (.release i)
  | .op _ (.chan (.sendCommand (.requestFileChunk r s))) (.ok _) => some (.ask r s)
  | .op i (.chan (.chunk (.recv s))) _ => some (.answer i s)
  | .crash => some .crash
  | _ => none

/-- The marks of a run, the latest first. -/
def marks (h : List NodeEvent) : List Mark := h.filterMap mark

/-- The key a tick has made active and not started a task for yet. -/
def handed : List Mark → Option PublishedFileKey
  | [] => none
  | .insert k :: _ => some k
  | .start _ :: _ => none
  | .crash :: _ => none
  | _ :: h => handed h

/-- The last task for the key has taken it out of the active downloads. -/
def hasLeft (k : PublishedFileKey) : List Mark → Bool
  | [] => false
  | .leave k' :: h => if k' = k then true else hasLeft k h
  | .start k' :: h => if k' = k then false else hasLeft k h
  | .crash :: _ => false
  | _ :: h => hasLeft k h

/-- The tasks that have taken a permit and not given it back. -/
def holders : List Mark → List Slot
  | [] => []
  | .acquire i :: h => i :: holders h
  | .release i :: h => (holders h).erase i
  | .crash :: _ => []
  | _ :: h => holders h

/-- The requests for a chunk whose answer its task has not received. -/
def inFlight (request : FileChunkRequest) :
    List Mark → List (OneshotSender (Option FileResponse))
  | [] => []
  | .ask r s :: h => if r = request then s :: inFlight request h else inFlight request h
  | .answer i s :: h =>
      if i = .chunk request.fileId request.chunkId then (inFlight request h).erase s
      else inFlight request h
  | .crash :: _ => []
  | _ :: h => inFlight request h

/-- A task for the key is there and has not left the active downloads. -/
def Running (k : PublishedFileKey) (v : NodeView) : Prop :=
  v.live (.download k) = true ∧ hasLeft k (marks v.hist) = false

/-! ### The property -/

/-- The task has no task of its kind beside it: for a download no other one
of its key runs, for a chunk none is there with its file and its
number. -/
def Alone (t : Task) (v : NodeView) : Prop :=
  (∀ r, t = .download r → ¬ Running r.key v) ∧
    ∀ d, t = .chunk d → v.live (.chunk d.fileId d.chunkId) = false

/-- What holds of the downloads of a node with `n` permits.
- `active`: a key is active exactly while a task for it runs, or a tick is
  about to start one,
- `single`: a task that is about to be started has no other one of its
  kind beside it,
- `requests`: at most one request for a chunk waits for its answer,
- `distinct`: no task holds two permits,
- `transfers`: no more tasks hold permits than there are. -/
structure Bounded (n : Nat) (p : NodePool) : Prop where
  active : ∀ k, k ∈ p.world.sync.active ↔
    Running k p.view ∨ handed (marks p.hist) = some k
  single : ∀ i t q, p.threads i = some (.spawn t q) → Alone t p.view
  requests : ∀ request, (inFlight request (marks p.hist)).length ≤ 1
  distinct : (holders (marks p.hist)).Nodup
  transfers : (holders (marks p.hist)).length ≤ n

/-! ### The protocol -/

/-- The invariant. -/
structure Sound (n : Nat) (v : NodeView) : Prop where
  active : ∀ k, k ∈ v.world.sync.active ↔ Running k v ∨ handed (marks v.hist) = some k
  single : ∀ k, handed (marks v.hist) = some k → ¬ Running k v
  handed : v.live .eventLoop = false → handed (marks v.hist) = none
  chunks : ∀ (k : PublishedFileKey) c, v.live (.chunk k.toU64 c) = true → Running k v
  permits : v.world.sync.permits + (holders (marks v.hist)).length = n
  max : v.world.sync.maxActiveDownloads = n
  distinct : (holders (marks v.hist)).Nodup
  holding : ∀ i ∈ holders (marks v.hist), ∃ id c, i = .chunk id c ∧ v.live i = true
  requests : ∀ request, (inFlight request (marks v.hist)).length ≤ 1
  asking : ∀ request, inFlight request (marks v.hist) ≠ [] →
    v.live (.chunk request.fileId request.chunkId) = true

/-- What the event loop counts on: the key in its hand is its own. -/
def KeepsHanded (i : Slot) (v v' : NodeView) : Prop :=
  i = .eventLoop → handed (marks v'.hist) = handed (marks v.hist)

/-- What a download counts on: it stays, leaves by itself and has its
chunk tasks to itself. -/
def KeepsDownload (i : Slot) (v v' : NodeView) : Prop :=
  ∀ k : PublishedFileKey, i = .download k → v.live i = true → v'.live i = true ∧
    hasLeft k (marks v'.hist) = hasLeft k (marks v.hist) ∧
    ∀ c, v'.live (.chunk k.toU64 c) = v.live (.chunk k.toU64 c)

/-- What a chunk task counts on: its permit and its request are its own. -/
def KeepsChunk (i : Slot) (v v' : NodeView) : Prop :=
  ∀ id c, i = .chunk id c → (i ∈ holders (marks v'.hist) ↔ i ∈ holders (marks v.hist)) ∧
    inFlight ⟨id, c⟩ (marks v'.hist) = inFlight ⟨id, c⟩ (marks v.hist)

/-- What a slot counts on. -/
structure Rely (i : Slot) (v v' : NodeView) : Prop where
  handed : KeepsHanded i v v'
  download : KeepsDownload i v v'
  chunk : KeepsChunk i v v'

/-- What a task is started under. -/
structure Pre (t : Task) (v : NodeView) : Prop where
  handed : slotOf t = .eventLoop → handed (marks v.hist) = none
  download : ∀ r, t = .download r → v.live (.download r.key) = true ∧
    hasLeft r.key (marks v.hist) = false ∧ ∀ c, v.live (.chunk r.key.toU64 c) = false
  chunk : ∀ d, t = .chunk d → slotOf t ∉ holders (marks v.hist) ∧
    inFlight ⟨d.fileId, d.chunkId⟩ (marks v.hist) = []

/-- What a task leaves behind. -/
structure Post (i : Slot) (v : NodeView) : Prop where
  handed : i = .eventLoop → handed (marks v.hist) = none
  download : ∀ k, i = .download k → v.live i = true ∧ hasLeft k (marks v.hist) = true
  chunk : ∀ id c, i = .chunk id c → i ∉ holders (marks v.hist) ∧
    inFlight ⟨id, c⟩ (marks v.hist) = []

/-- The protocol of the downloads with `n` permits. -/
def protocol (n : Nat) : Protocol lang World :=
  .ofRely (Sound n) Rely Pre (fun i _ v => Post i v)

/-! ### Events without a mark -/

section Plain

variable {n : Nat} {i : Slot} {v v' v'' : NodeView}

/-- The slots of downloads and chunk tasks. -/
def IsWorker : Slot → Prop
  | .download _ => True
  | .chunk _ _ => True
  | _ => False

theorem Running.frame {k : PublishedFileKey} (hm : marks v'.hist = marks v.hist)
    (hl : ∀ i, IsWorker i → v'.live i = v.live i) : Running k v' ↔ Running k v := by
  rw [Running, Running, hm, hl (.download k) trivial]

/-- Where no mark is set, the same tasks run and no chunk task comes or
goes, nothing changes. -/
theorem Sound.congr (h : Sound n v) (hm : marks v'.hist = marks v.hist)
    (hs : v'.world.sync = v.world.sync) (hr : ∀ k, Running k v' ↔ Running k v)
    (hc : ∀ id c, v'.live (.chunk id c) = v.live (.chunk id c))
    (hh : v'.live .eventLoop = false → ActiveDownloads.handed (marks v.hist) = none) :
    Sound n v' where
  active k := by rw [hm, hs, hr]; exact h.active k
  single k hk := by rw [hm] at hk; rw [hr]; exact h.single k hk
  handed hv := by rw [hm]; exact hh hv
  chunks k c hk := by
    rw [hc] at hk
    exact (hr k).mpr (h.chunks k c hk)
  permits := by rw [hm, hs]; exact h.permits
  max := by rw [hs]; exact h.max
  distinct := by rw [hm]; exact h.distinct
  holding i hi := by
    rw [hm] at hi
    obtain ⟨id, c, rfl, hlive⟩ := h.holding i hi
    exact ⟨id, c, rfl, (hc id c).trans hlive⟩
  requests request := by rw [hm]; exact h.requests request
  asking request hr := by
    rw [hm] at hr
    exact (hc _ _).trans (h.asking request hr)

/-- Where no mark is set and no worker comes or goes, nothing changes. -/
theorem Sound.frame (h : Sound n v) (hm : marks v'.hist = marks v.hist)
    (hs : v'.world.sync = v.world.sync) (hl : ∀ i, IsWorker i → v'.live i = v.live i)
    (hh : v'.live .eventLoop = false → ActiveDownloads.handed (marks v.hist) = none) :
    Sound n v' :=
  h.congr hm hs (fun _ => Running.frame hm hl) (fun id c => hl (.chunk id c) trivial) hh

theorem Rely.frame (hm : marks v'.hist = marks v.hist)
    (hl : ∀ i, IsWorker i → v'.live i = v.live i) : Rely i v v' where
  handed _ := by rw [hm]
  download k hi hlive := by
    subst hi
    rw [hm]
    exact ⟨(hl (.download k) trivial).trans hlive, rfl, fun c => hl (.chunk k.toU64 c) trivial⟩
  chunk id c _ := by rw [hm]; exact ⟨Iff.rfl, rfl⟩

theorem Rely.trans (h : Rely i v v') (h' : Rely i v' v'') : Rely i v v'' where
  handed hi := (h'.handed hi).trans (h.handed hi)
  download k hi hlive := by
    obtain ⟨hlive', hleft, hchunks⟩ := h.download k hi hlive
    obtain ⟨hlive'', hleft', hchunks'⟩ := h'.download k hi hlive'
    exact ⟨hlive'', hleft'.trans hleft, fun c => (hchunks' c).trans (hchunks c)⟩
  chunk id c hi := by
    obtain ⟨hhold, hask⟩ := h.chunk id c hi
    obtain ⟨hhold', hask'⟩ := h'.chunk id c hi
    exact ⟨hhold'.trans hhold, hask'.trans hask⟩

/-- An operation that has nothing to do with permits, active downloads and
requests for chunks. -/
def Plain : Op → Prop
  | .sync .availablePermits => True
  | .sync _ => False
  | .chan (.sendCommand (.requestFileChunk _ _)) => False
  | .chan (.chunk (.recv _)) => False
  | _ => True

theorem mark_plain {o : Op} (ho : Plain o) (i : Slot) (a : o.Ans) :
    mark (.op (L := lang) i o a) = none := by
  unfold mark
  split <;> first
    | rfl
    | next h => cases h <;> exact ho.elim

theorem marks_cons_none {e : NodeEvent} (he : mark e = none) (h : List NodeEvent) :
    marks (e :: h) = marks h :=
  List.filterMap_cons_none he

theorem marks_cons {e : NodeEvent} {x : Mark} (he : mark e = some x) (h : List NodeEvent) :
    marks (e :: h) = x :: marks h :=
  List.filterMap_cons_some he

variable [Platform]

/-- A plain operation leaves the permits and the active downloads alone. -/
theorem exec_sync_eq {o : Op} (ho : Plain o) {c : Choice} {a : o.Ans} {w w' : World}
    (h : o.exec c w = some (a, w')) : w'.sync = w.sync := by
  cases o with
  | sync o =>
      cases o with
      | availablePermits =>
          cases h
          rfl
      | _ => exact ho.elim
  | events o => cases h; rfl
  | diverge => cases h
  | _ =>
      obtain ⟨_, _, e⟩ := Option.map_eq_some_iff.mp h
      cases e
      rfl

/-- A plain operation is within the guarantee of every slot. -/
theorem guar_plain {o : Op} (ho : Plain o) (hv : Sound n v) {c : Choice} {a : o.Ans} {w : World}
    (he : o.exec c v.world = some (a, w)) : (protocol n).Guar i v (v.op i o a w) := by
  have hm : marks (v.op i o a w).hist = marks v.hist := marks_cons_none (mark_plain ho i a) _
  exact ⟨hv.frame hm (exec_sync_eq ho he) (fun _ _ => rfl) hv.handed,
    fun j _ => .frame hm fun _ _ => rfl⟩

/-- A program of plain operations is safe, and keeps what its slot counts
on. -/
theorem safe_plain {α : Type} {O : Op → Prop} {p : Proc α} (hp : p.Within (.ops O))
    (hO : ∀ o, O o → Plain o) {A : NodeView → Prop}
    (stable : ∀ v v', Rely i v v' → A v → A v') (hA : A v) :
    (protocol n).Safe machine environment i p (fun _ v => A v) v := by
  refine Protocol.safe_within hp (fun v v' h => stable v v' h.1) ?_ hA
  intro v hv hinv _ o ho c a w he _
  have hm : marks (v.op i o a w).hist = marks v.hist :=
    marks_cons_none (mark_plain (hO o ho) i a) _
  exact ⟨guar_plain (hO o ho) hinv he, stable v _ (.frame hm fun _ _ => rfl) hv⟩

end Plain

/-! ### A tick -/

section Tick

variable [Platform] {n : Nat} {v : NodeView} {k : PublishedFileKey}

open FileDownloadService

/-- Putting a key among the active downloads. -/
theorem insert_guar (hv : Sound n v) (hlive : v.live .eventLoop = true)
    (hh : handed (marks v.hist) = none) {a : Bool} {w : World} {c : Choice}
    (he : Op.exec (.sync (.insertActive k)) c v.world = some (a, w)) :
    (protocol n).Guar .eventLoop v (v.op (L := lang) .eventLoop (.sync (.insertActive k)) a w) ∧
      handed (marks (v.op (L := lang) .eventLoop (.sync (.insertActive k)) a w).hist)
        = if a then some k else none := by
  cases he
  by_cases hk : k ∈ v.world.sync.active
  · -- The key is active: nothing changes.
    rw [decide_eq_false (not_not.mpr hk), Finset.insert_eq_of_mem hk]
    have hm : marks (v.op (L := lang) .eventLoop (.sync (.insertActive k)) false v.world).hist
        = marks v.hist := marks_cons_none rfl _
    exact ⟨⟨hv.frame hm rfl (fun _ _ => rfl) hv.handed, fun j _ => .frame hm fun _ _ => rfl⟩,
      by rw [hm, hh]; rfl⟩
  · rw [decide_eq_true hk]
    have free : ¬ Running k v := fun h => hk ((hv.active k).mpr (.inl h))
    refine ⟨⟨⟨fun k' => ?_, fun k' hk' => ?_, fun hl => ?_, hv.chunks, hv.permits, hv.max,
      hv.distinct, hv.holding, hv.requests, hv.asking⟩, fun j hj => ⟨fun h => absurd h hj,
        fun _ _ hl => ⟨hl, rfl, fun _ => rfl⟩, fun _ _ _ => ⟨Iff.rfl, rfl⟩⟩⟩, rfl⟩
    · show k' ∈ insert k v.world.sync.active ↔ Running k' v ∨ some k = some k'
      rw [Finset.mem_insert, hv.active, hh, Option.some_inj]
      constructor
      · rintro (rfl | h | h)
        · exact .inr rfl
        · exact .inl h
        · cases h
      · rintro (h | rfl)
        · exact .inr (.inl h)
        · exact .inl rfl
    · cases (show some k = some k' from hk')
      exact free
    · replace hl : v.live .eventLoop = false := hl
      rw [hlive] at hl
      cases hl

omit [Platform] in
theorem live_spawn {r : PendingDownloadRecord} {j : Slot} (h : j ≠ .download r.key) :
    (v.spawn (L := lang) .eventLoop (.download r) (.download r.key)).live j = v.live j :=
  Function.update_of_ne h _ _

omit [Platform] in
/-- Running after a task has been started for `r`. -/
theorem running_start {r : PendingDownloadRecord} :
    Running k (v.spawn (L := lang) .eventLoop (.download r) (.download r.key)) ↔
      k = r.key ∨ (k ≠ r.key ∧ Running k v) := by
  have left : hasLeft k (marks (v.spawn (L := lang) .eventLoop (.download r)
      (.download r.key)).hist) = if r.key = k then false else hasLeft k (marks v.hist) := rfl
  rw [Running, left]
  by_cases hk : k = r.key
  · subst hk
    rw [if_pos rfl]
    exact ⟨fun _ => .inl rfl, fun _ => ⟨Function.update_self .., rfl⟩⟩
  · rw [if_neg (Ne.symm hk), live_spawn (r := r) (fun h => hk (Slot.download.inj h))]
    exact ⟨fun h => .inr ⟨hk, h⟩, fun h => h.elim (absurd · hk) And.right⟩

omit [Platform] in
/-- Starting a task for the key in hand. -/
theorem start_guar {r : PendingDownloadRecord} (hv : Sound n v)
    (hh : handed (marks v.hist) = some r.key)
    (hf : v.live (.download r.key) = false) :
    (protocol n).Guar .eventLoop v
        (v.spawn (L := lang) .eventLoop (.download r) (.download r.key)) ∧
      Pre (.download r) (v.spawn (L := lang) .eventLoop (.download r) (.download r.key)) ∧
      handed (marks (v.spawn (L := lang) .eventLoop (.download r) (.download r.key)).hist)
        = none := by
  -- the key was in the hand of the event loop, and no download had it
  have idle : ¬ Running r.key v := fun h => by
    have := h.1
    rw [hf] at this
    cases this
  have other : ∀ j, j ≠ .download r.key → (v.spawn (L := lang) .eventLoop (.download r)
      (.download r.key)).live j = v.live j := fun j => live_spawn
  have noChunk : ∀ c, v.live (.chunk r.key.toU64 c) = false := fun c => by
    by_contra h
    exact idle (hv.chunks r.key c (Bool.eq_true_of_not_eq_false h))
  refine ⟨⟨⟨fun k => ?_, nofun, fun _ => rfl, fun k c hc => ?_, hv.permits, hv.max, hv.distinct,
    fun i hi => ?_, hv.requests, fun request hr => ?_⟩, fun j hj => ⟨fun h => absurd h hj,
      fun k hi hl => ?_, fun _ _ _ => ⟨Iff.rfl, rfl⟩⟩⟩, ⟨nofun, ?_, nofun⟩, rfl⟩
  · show k ∈ v.world.sync.active ↔ _ ∨ none = some k
    rw [hv.active, hh, running_start]
    constructor
    · rintro (h | h)
      · exact .inl (.inr ⟨fun hk => idle (hk ▸ h), h⟩)
      · exact .inl (.inl (Option.some.inj h).symm)
    · rintro ((rfl | ⟨-, h⟩) | h)
      · exact .inr rfl
      · exact .inl h
      · cases h
  · rw [other (.chunk k.toU64 c) nofun] at hc
    refine running_start.mpr (.inr ⟨?_, hv.chunks k c hc⟩)
    rintro rfl
    exact idle (hv.chunks r.key c hc)
  · obtain ⟨id, c, rfl, h⟩ := hv.holding i hi
    exact ⟨id, c, rfl, (other (.chunk id c) nofun).trans h⟩
  · exact (other (.chunk request.fileId request.chunkId) nofun).trans (hv.asking request hr)
  · subst hi
    have hk : k ≠ r.key := by
      rintro rfl
      rw [hf] at hl
      cases hl
    refine ⟨(other _ fun h => hk (Slot.download.inj h)).trans hl, ?_, fun c => other (.chunk k.toU64 c) nofun⟩
    show (if r.key = k then false else hasLeft k (marks v.hist)) = _
    rw [if_neg (Ne.symm hk)]
  · intro r' h
    cases h
    refine ⟨Function.update_self .., ?_, fun c => ?_⟩
    · show (if r.key = r.key then false else _) = false
      rw [if_pos rfl]
    · exact (other (.chunk r.key.toU64 c) nofun).trans (noChunk c)

/-- Nothing is in the hand of the event loop before and after a record. -/
theorem workOn_safe (rs : List PendingDownloadRecord) (hv : handed (marks v.hist) = none) :
    (protocol n).Safe machine environment .eventLoop (workOn rs)
      (fun _ v => handed (marks v.hist) = none) v := by
  have stable : ∀ v v' : NodeView, Rely .eventLoop v v' → handed (marks v.hist) = none →
      handed (marks v'.hist) = none := fun v v' h hv => (h.handed rfl).trans hv
  induction rs generalizing v with
  | nil => exact hv
  | cons r rs ih =>
      refine Protocol.safe_seq (safe_plain (store_within (O := Plain) trivial) (fun _ h => h)
        stable hv) fun item v hv => ?_
      refine Protocol.safe_seq (safe_plain (sync_within (O := Plain) (o := .availablePermits) trivial) (fun _ h => h)
        stable hv) fun permits v hv => ?_
      split
      · exact hv
      · split
        · intro v₁ hi hinv hlive c a w he _
          obtain ⟨hG, hhand⟩ := insert_guar hinv hlive (stable v v₁ hi.1 hv) (c := c) he
          refine ⟨hG, ?_⟩
          cases a with
          | false => exact ih hhand
          | true =>
              intro v₂ hi₂ hinv₂ _ hf _
              obtain ⟨hG₂, hpre, hhand₂⟩ :=
                start_guar hinv₂ ((hi₂.1.handed rfl).trans hhand) hf
              exact ⟨hG₂, hpre, ih hhand₂⟩
        · exact ih hv

/-- A tick. -/
theorem workOnPendingDownloads_safe (hv : handed (marks v.hist) = none) :
    (protocol n).Safe machine environment .eventLoop workOnPendingDownloads
      (fun _ v => handed (marks v.hist) = none) v := by
  have stable : ∀ v v' : NodeView, Rely .eventLoop v v' → handed (marks v.hist) = none →
      handed (marks v'.hist) = none := fun v v' h hv => (h.handed rfl).trans hv
  refine Protocol.safe_seq (safe_plain (sync_within (O := Plain) (o := .availablePermits) trivial) (fun _ h => h)
    stable hv) fun permits v hv => ?_
  split
  · exact hv
  · refine Protocol.safe_seq (safe_plain (store_within (O := Plain) trivial) (fun _ h => h)
      stable hv) fun records v hv => ?_
    split
    · exact workOn_safe _ hv
    · exact hv

end Tick

/-! ### A chunk task -/

section ChunkTask

variable [Platform] {n : Nat} {id : UInt64} {c : Nat} {v v' : NodeView}

/-- Where a chunk task stands: whether it has a permit, and its requests
in flight. -/
structure At (id : UInt64) (c : Nat) (held : Prop)
    (asked : List (OneshotSender (Option FileResponse))) (v : NodeView) : Prop where
  held : .chunk id c ∈ holders (marks v.hist) ↔ held
  asked : inFlight ⟨id, c⟩ (marks v.hist) = asked

omit [Platform] in
theorem At.stable {held : Prop} {asked : List (OneshotSender (Option FileResponse))}
    (h : Rely (.chunk id c) v v') (hv : At id c held asked v) : At id c held asked v' :=
  ⟨(h.chunk id c rfl).1.trans hv.held, (h.chunk id c rfl).2.trans hv.asked⟩

omit [Platform] in
/-- What a chunk task may do: change its own permit and its own request. -/
theorem chunk_guar (hv : Sound n v) (hlive : v.live (.chunk id c) = true)
    (live : v'.live = v.live) (active : v'.world.sync.active = v.world.sync.active)
    (max : v'.world.sync.maxActiveDownloads = v.world.sync.maxActiveDownloads)
    (hand : handed (marks v'.hist) = handed (marks v.hist))
    (left : ∀ k, hasLeft k (marks v'.hist) = hasLeft k (marks v.hist))
    (permits : v'.world.sync.permits + (holders (marks v'.hist)).length = n)
    (distinct : (holders (marks v'.hist)).Nodup)
    (holding : ∀ j, j ≠ .chunk id c →
      (j ∈ holders (marks v'.hist) ↔ j ∈ holders (marks v.hist)))
    (one : (inFlight ⟨id, c⟩ (marks v'.hist)).length ≤ 1)
    (asking : ∀ request, request ≠ ⟨id, c⟩ →
      inFlight request (marks v'.hist) = inFlight request (marks v.hist)) :
    (protocol n).Guar (.chunk id c) v v' := by
  -- whether a download runs does not depend on its chunk tasks
  have running : ∀ k, Running k v' ↔ Running k v := fun k => by
    rw [Running, Running, live, left]
  refine ⟨⟨fun k => ?_, fun k hk => ?_, fun h => ?_, fun k c' hc => ?_, permits,
    max.trans hv.max, distinct, fun j hj => ?_, fun request => ?_, fun request hr => ?_⟩,
    fun j hj => ⟨fun _ => hand, fun k hk h => ?_, fun id' c' hi => ?_⟩⟩
  · rw [active, running, hand]
    exact hv.active k
  · rw [hand] at hk
    rw [running]
    exact hv.single k hk
  · rw [live] at h
    rw [hand]
    exact hv.handed h
  · rw [live] at hc
    exact (running k).mpr (hv.chunks k c' hc)
  · by_cases h : j = .chunk id c
    · exact ⟨id, c, h, by rw [h, live, hlive]⟩
    · rw [live]
      exact hv.holding j ((holding j h).mp hj)
  · by_cases h : request = ⟨id, c⟩
    · rw [h]
      exact one
    · rw [asking request h]
      exact hv.requests request
  · rw [live]
    by_cases h : request = ⟨id, c⟩
    · rw [h]
      exact hlive
    · rw [asking request h] at hr
      exact hv.asking request hr
  · rw [live]
    exact ⟨h, left k, fun _ => rfl⟩
  · subst hi
    refine ⟨holding _ hj, asking _ fun h => hj ?_⟩
    rw [(FileChunkRequest.mk.inj h).1, (FileChunkRequest.mk.inj h).2]

/-- Taking a permit. -/
theorem acquire_safe {asked : List (OneshotSender (Option FileResponse))}
    (hv : At id c False asked v) :
    (protocol n).Safe machine environment (.chunk id c) (sync .acquire)
      (fun _ v => At id c True asked v) v := by
  intro v₁ hi hinv hlive _ a w he _
  replace hv := hv.stable hi.1
  have free : Slot.chunk id c ∉ holders (marks v₁.hist) := fun h => hv.held.mp h
  obtain ⟨⟨_, s⟩, hs, e⟩ := Option.map_eq_some_iff.mp he
  cases e
  obtain ⟨hp, e⟩ := Option.ite_none_right_eq_some.mp hs
  cases e
  refine ⟨chunk_guar hinv hlive rfl rfl rfl rfl (fun _ => rfl) ?_
    (List.nodup_cons.mpr ⟨free, hinv.distinct⟩) (fun j hj => ?_) (hinv.requests _)
    (fun _ _ => rfl), ⟨fun _ => trivial, fun _ => List.mem_cons_self⟩, hv.asked⟩
  · have := hinv.permits
    show v₁.world.sync.permits - 1 + ((holders (marks v₁.hist)).length + 1) = n
    omega
  · show j ∈ .chunk id c :: holders (marks v₁.hist) ↔ _
    rw [List.mem_cons]
    exact ⟨fun h => h.resolve_left hj, .inr⟩

/-- Giving it back. -/
theorem release_safe {asked : List (OneshotSender (Option FileResponse))}
    (hv : At id c True asked v) :
    (protocol n).Safe machine environment (.chunk id c) (sync .release)
      (fun _ v => At id c False asked v) v := by
  intro v₁ hi hinv hlive _ a w he _
  replace hv := hv.stable hi.1
  have held : Slot.chunk id c ∈ holders (marks v₁.hist) := hv.held.mpr trivial
  cases he
  refine ⟨chunk_guar hinv hlive rfl rfl rfl rfl (fun _ => rfl) ?_ (hinv.distinct.erase _)
    (fun j hj => List.mem_erase_of_ne hj) (hinv.requests _) (fun _ _ => rfl),
    ⟨fun h => ?_, nofun⟩, hv.asked⟩
  · have := hinv.permits
    have := List.length_pos_of_mem held
    show v₁.world.sync.permits + 1 + ((holders (marks v₁.hist)).erase (.chunk id c)).length = n
    rw [List.length_erase_of_mem held]
    omega
  · exact hinv.distinct.not_mem_erase h

/-- Asking for the chunk: the request is in flight when it was sent. -/
theorem ask_safe {held : Prop} {s : OneshotSender (Option FileResponse)}
    (hv : At id c held [] v) :
    (protocol n).Safe machine environment (.chunk id c)
      (chan (.sendCommand (.requestFileChunk ⟨id, c⟩ s)))
      (fun a v => At id c held (if a.isOk then [s] else []) v) v := by
  intro v₁ hi hinv hlive _ a w he _
  replace hv := hv.stable hi.1
  have hs : w.sync = v₁.world.sync := by
    obtain ⟨_, _, e⟩ := Option.map_eq_some_iff.mp he
    cases e
    rfl
  cases a with
  | error e =>
      have hm : marks (.op (L := lang) (.chunk id c)
          (.chan (.sendCommand (.requestFileChunk ⟨id, c⟩ s))) (.error e) :: v₁.hist)
          = marks v₁.hist := marks_cons_none rfl _
      exact ⟨⟨hinv.frame hm hs (fun _ _ => rfl) hinv.handed, fun _ _ => .frame hm fun _ _ => rfl⟩,
        by rw [View.op, hm]; exact hv.held, (congrArg _ hm).trans hv.asked⟩
  | ok a =>
      have own : inFlight ⟨id, c⟩ (marks (.op (L := lang) (.chunk id c)
          (.chan (.sendCommand (.requestFileChunk ⟨id, c⟩ s))) (.ok a) :: v₁.hist)) = [s] := by
        show (if _ then s :: inFlight _ (marks v₁.hist) else _) = _
        rw [if_pos rfl, hv.asked]
      refine ⟨chunk_guar hinv hlive rfl (by rw [View.op, hs]) (by rw [View.op, hs]) rfl
        (fun _ => rfl) (by rw [View.op, hs]; exact hinv.permits) hinv.distinct
        (fun _ _ => Iff.rfl) (by rw [View.op, own]; exact Nat.le_refl 1) (fun request hr => ?_),
        hv.held, own⟩
      show (if _ then _ else inFlight request (marks v₁.hist)) = _
      rw [if_neg (Ne.symm hr)]

/-- Receiving the answer: the request is in flight no more. -/
theorem answer_safe {held : Prop} {s : OneshotSender (Option FileResponse)}
    (hv : At id c held [s] v) :
    (protocol n).Safe machine environment (.chunk id c) (chan (.chunk (.recv s)))
      (fun _ v => At id c held [] v) v := by
  intro v₁ hi hinv hlive _ a w he _
  replace hv := hv.stable hi.1
  have hs : w.sync = v₁.world.sync := by
    obtain ⟨_, _, e⟩ := Option.map_eq_some_iff.mp he
    cases e
    rfl
  have own : inFlight ⟨id, c⟩ (marks (.op (L := lang) (.chunk id c)
      (.chan (.chunk (.recv s))) a :: v₁.hist)) = [] := by
    show (if _ then (inFlight _ (marks v₁.hist)).erase s else _) = _
    rw [if_pos rfl, hv.asked, List.erase_cons_head]
  refine ⟨chunk_guar hinv hlive rfl (by rw [View.op, hs]) (by rw [View.op, hs]) rfl
    (fun _ => rfl) (by rw [View.op, hs]; exact hinv.permits) hinv.distinct
    (fun _ _ => Iff.rfl) (by rw [View.op, own]; exact Nat.zero_le 1) (fun request hr => ?_),
    hv.held, own⟩
  show (if _ then _ else inFlight request (marks v₁.hist)) = _
  rw [if_neg fun h => hr ?_]
  rw [(Slot.chunk.inj h).1, (Slot.chunk.inj h).2]

open FileDownloadService

/-- Saving a chunk is plain. -/
theorem verifyAndSaveFileChunk_plain (d : DownloadFileChunk) (bs : Bytes) :
    (verifyAndSaveFileChunk d bs).run.Within (.ops Plain) := by
  refine Prog.within_bindE (Prog.within_adapt _ (readMetadata_within (F := .ops Plain) trivial))
    fun m => ?_
  split
  · trivial
  · split
    · refine Prog.within_adapt _ ((writeFile_within _ _).mono_ops fun _ ho => ?_)
      obtain _ | _ := ho <;> trivial
    · trivial
    · trivial

/-- Downloading a chunk under a permit leaves the permit taken and no
request in flight. -/
theorem downloadFileChunk_safe {d : DownloadFileChunk} (hv : At d.fileId d.chunkId True [] v) :
    (protocol n).Safe machine environment (.chunk d.fileId d.chunkId) (downloadFileChunk d).run
      (fun _ v => At d.fileId d.chunkId True [] v) v := by
  have stable : ∀ v v' : NodeView, Rely (.chunk d.fileId d.chunkId) v v' →
      At d.fileId d.chunkId True [] v → At d.fileId d.chunkId True [] v' := fun _ _ => At.stable
  refine Protocol.safe_seqL (safe_plain (chan_within (O := Plain) (o := .chunk .channel) trivial)
    (fun _ h => h) stable hv) fun tx v hv => ?_
  refine Protocol.safe_seqL (ask_safe hv) fun sent v hv => ?_
  cases sent with
  | error _ => exact hv
  | ok _ =>
      refine Protocol.safe_seqL (answer_safe hv) fun answer v hv => ?_
      split
      · exact hv
      · refine Protocol.safe_seqE (safe_plain (verifyAndSaveFileChunk_plain d _) (fun _ h => h)
          stable hv) (fun _ v hv => ?_) (fun _ _ h => h)
        refine Protocol.safe_seqL (safe_plain (chan_within (O := Plain)
          (o := .sendCommand (.provideFileChunk _)) trivial) (fun _ h => h) stable hv)
          fun sent v hv => ?_
        split <;> exact hv
      · exact hv
      · exact hv

/-- A chunk task. -/
theorem chunkTask_safe {d : DownloadFileChunk} (hv : At d.fileId d.chunkId False [] v) :
    (protocol n).Safe machine environment (.chunk d.fileId d.chunkId) (chunkTask d)
      (fun _ v => At d.fileId d.chunkId False [] v) v := by
  refine Protocol.safe_seq (acquire_safe hv) fun _ v hv => ?_
  refine Protocol.safe_seq (downloadFileChunk_safe hv) fun result v hv => ?_
  exact Protocol.safe_seq (release_safe hv) fun _ v hv => hv

end ChunkTask

/-! ### A download -/

section Download

variable [Platform] {n : Nat} {v v' : NodeView} {k : PublishedFileKey} {js js' : List Slot}

/-- A download between its start and its leaving: the chunk tasks of its
file that are there are those it waits for. -/
structure Mine (k : PublishedFileKey) (js : List Slot) (v : NodeView) : Prop where
  live : v.live (.download k) = true
  left : hasLeft k (marks v.hist) = false
  chunks : ∀ c, v.live (.chunk k.toU64 c) = true ↔ Slot.chunk k.toU64 c ∈ js
  slots : ∀ j ∈ js, ∃ c, j = .chunk k.toU64 c
  distinct : js.Nodup

omit [Platform] in
theorem Mine.stable (h : Rely (.download k) v v') (hv : Mine k js v) : Mine k js v' := by
  obtain ⟨hlive, hleft, hchunks⟩ := h.download k rfl hv.live
  exact ⟨hlive, hleft.trans hv.left, fun c => by rw [hchunks]; exact hv.chunks c, hv.slots,
    hv.distinct⟩

omit [Platform] in
theorem Mine.perm (h : js.Perm js') (hv : Mine k js v) : Mine k js' v :=
  ⟨hv.live, hv.left, fun c => (hv.chunks c).trans h.mem_iff,
    fun j hj => hv.slots j (h.mem_iff.mpr hj), h.nodup_iff.mp hv.distinct⟩

omit [Platform] in
/-- A download may start a chunk task of its file and take away one that
has nothing any more. -/
theorem task_guar {c : Nat} (hv : Sound n v) (hm : Mine k js v)
    (hist : marks v'.hist = marks v.hist) (sync : v'.world.sync = v.world.sync)
    (other : ∀ j, j ≠ .chunk k.toU64 c → v'.live j = v.live j)
    (here : v'.live (.chunk k.toU64 c) = true ∨ At k.toU64 c False [] v) :
    (protocol n).Guar (.download k) v v' := by
  -- the slot of the chunk task is no slot of a download
  have running : ∀ k', Running k' v' ↔ Running k' v := fun k' => by
    rw [Running, Running, hist, other (.download k') nofun]
  refine ⟨⟨fun k' => ?_, fun k' hk' => ?_, fun h => ?_, fun k' c' hc => ?_, ?_, ?_, ?_,
    fun j hj => ?_, fun request => ?_, fun request hr => ?_⟩, fun j hj => ⟨fun _ => ?_,
      fun k' hk hl => ?_, fun _ _ _ => ?_⟩⟩
  · rw [sync, running, hist]
    exact hv.active k'
  · rw [hist] at hk'
    rw [running]
    exact hv.single k' hk'
  · rw [other .eventLoop nofun] at h
    rw [hist]
    exact hv.handed h
  · rw [running]
    by_cases h : k' = k
    · rw [h]
      exact ⟨hm.live, hm.left⟩
    · rw [other _ fun e => h (Octets.toU64_inj.mp (Slot.chunk.inj e).1)] at hc
      exact hv.chunks k' c' hc
  · rw [sync, hist]
    exact hv.permits
  · rw [sync]
    exact hv.max
  · rw [hist]
    exact hv.distinct
  · rw [hist] at hj
    obtain ⟨id, c', rfl, h⟩ := hv.holding j hj
    refine ⟨id, c', rfl, ?_⟩
    by_cases e : Slot.chunk id c' = .chunk k.toU64 c
    · rw [e] at hj ⊢
      exact here.resolve_right fun h => h.held.mp hj
    · rw [other _ e, h]
  · rw [hist]
    exact hv.requests request
  · rw [hist] at hr
    by_cases e : Slot.chunk request.fileId request.chunkId = .chunk k.toU64 c
    · rw [e]
      refine here.resolve_right fun h => hr ?_
      rw [← (Slot.chunk.inj e).1, ← (Slot.chunk.inj e).2] at h
      exact h.asked
    · rw [other _ e, hv.asking request hr]
  · rw [hist]
  · subst hk
    have hk : k'.toU64 ≠ k.toU64 := fun e => hj (congrArg Slot.download (Octets.toU64_inj.mp e))
    rw [hist, other (.download k') nofun]
    exact ⟨hl, rfl, fun c' => other _ fun e => hk (Slot.chunk.inj e).1⟩
  · rw [hist]
    exact ⟨Iff.rfl, rfl⟩

omit [Platform] in
/-- Starting the task of a chunk. -/
theorem spawn_guar {c : Nat} {d : PathBuf} (hv : Sound n v) (hm : Mine k js v)
    (hf : v.live (.chunk k.toU64 c) = false)
    (hv' : v' = v.spawn (L := lang) (.download k) (.chunk ⟨k.toU64, c, d⟩)
      (.chunk k.toU64 c)) :
    (protocol n).Guar (.download k) v v' ∧ Pre (.chunk ⟨k.toU64, c, d⟩) v' ∧
      Mine k (.chunk k.toU64 c :: js) v' := by
  have hist : marks v'.hist = marks v.hist := by
    rw [hv']
    exact marks_cons_none rfl _
  have other : ∀ j, j ≠ .chunk k.toU64 c → v'.live j = v.live j := fun j hj => by
    rw [hv']
    exact Function.update_of_ne hj _ _
  have self : v'.live (.chunk k.toU64 c) = true := by
    rw [hv']
    exact Function.update_self ..
  have fresh : Slot.chunk k.toU64 c ∉ js := fun h => by
    rw [(hm.chunks c).mpr h] at hf
    cases hf
  refine ⟨task_guar hv hm hist (by rw [hv']; rfl) other (.inl self), ⟨nofun, nofun, ?_⟩,
    ⟨?_, ?_, fun c' => ?_, ?_, List.nodup_cons.mpr ⟨fresh, hm.distinct⟩⟩⟩
  · -- Whoever has a permit or a request in flight is live, and this slot was free.
    intro d' hd
    cases hd
    rw [hist]
    constructor
    · intro h
      obtain ⟨_, _, e, hl⟩ := hv.holding _ h
      rw [show slotOf (.chunk ⟨k.toU64, c, d⟩) = .chunk k.toU64 c from rfl, hf] at hl
      cases hl
    · by_contra h
      have hl := hv.asking ⟨k.toU64, c⟩ h
      rw [hf] at hl
      cases hl
  · rw [other (.download k) nofun]
    exact hm.live
  · rw [hist]
    exact hm.left
  · by_cases h : c' = c
    · rw [h, self]
      exact ⟨fun _ => List.mem_cons_self, fun _ => rfl⟩
    · have hne : Slot.chunk k.toU64 c' ≠ .chunk k.toU64 c := fun e => h (Slot.chunk.inj e).2
      rw [other _ hne, hm.chunks, List.mem_cons]
      exact ⟨.inr, fun h => h.resolve_left hne⟩
  · intro j hj
    obtain rfl | hj := List.mem_cons.mp hj
    · exact ⟨c, rfl⟩
    · exact hm.slots j hj

omit [Platform] in
/-- Taking the result of a chunk task. -/
theorem await_guar {j : Slot} {r : Res} (hv : Sound n v) (hm : Mine k js v) (hj : j ∈ js)
    (hp : Post j v) (hv' : v' = v.await (L := lang) (.download k) j r) :
    (protocol n).Guar (.download k) v v' ∧ Mine k (js.erase j) v' := by
  obtain ⟨c, rfl⟩ := hm.slots j hj
  have hist : marks v'.hist = marks v.hist := by
    rw [hv']
    exact marks_cons_none rfl _
  have other : ∀ j, j ≠ .chunk k.toU64 c → v'.live j = v.live j := fun j hj => by
    rw [hv']
    exact Function.update_of_ne hj _ _
  have self : v'.live (.chunk k.toU64 c) = false := by
    rw [hv']
    exact Function.update_self ..
  obtain ⟨free, answered⟩ := hp.chunk k.toU64 c rfl
  refine ⟨task_guar hv hm hist (by rw [hv']; rfl) other (.inr ⟨⟨free, nofun⟩, answered⟩),
    ⟨?_, ?_, fun c' => ?_, fun j hj => hm.slots j (List.mem_of_mem_erase hj),
      hm.distinct.erase _⟩⟩
  · rw [other (.download k) nofun]
    exact hm.live
  · rw [hist]
    exact hm.left
  · rw [hm.distinct.mem_erase_iff]
    by_cases h : c' = c
    · rw [h, self]
      exact ⟨nofun, fun h => absurd rfl h.1⟩
    · have hne : Slot.chunk k.toU64 c' ≠ .chunk k.toU64 c := fun e => h (Slot.chunk.inj e).2
      rw [other _ hne, hm.chunks]
      exact ⟨fun h => ⟨hne, h⟩, fun h => h.2⟩

omit [Platform] in
/-- Running after the task of `k` has left. -/
theorem running_leave {k' : PublishedFileKey} {a : Unit} {w : World} :
    Running k' (v.op (L := lang) (.download k) (.sync (.removeActive k)) a w) ↔
      k' ≠ k ∧ Running k' v := by
  have left : hasLeft k' (marks (v.op (L := lang) (.download k)
      (.sync (.removeActive k)) a w).hist) = if k = k' then true else hasLeft k' (marks v.hist) :=
    rfl
  rw [Running, left]
  by_cases hk : k' = k
  · rw [if_pos hk.symm]
    exact ⟨fun h => (by cases h.2), fun h => absurd hk h.1⟩
  · rw [if_neg (Ne.symm hk)]
    exact ⟨fun h => ⟨hk, h⟩, fun h => h.2⟩

/-- Leaving the active downloads when no chunk task is left. -/
theorem removeActive_safe (hm : Mine k [] v) :
    (protocol n).Safe machine environment (.download k) (sync (.removeActive k))
      (fun _ v => Post (.download k) v) v := by
  intro v₁ hi hinv hlive c a w he _
  replace hm := hm.stable hi.1
  have here : Running k v₁ := ⟨hm.live, hm.left⟩
  have idle : handed (marks v₁.hist) ≠ some k := fun h => hinv.single k h here
  cases he
  refine ⟨⟨⟨fun k' => ?_, fun k' hk' h => ?_, hinv.handed, fun k' c' hc => ?_, hinv.permits,
    hinv.max, hinv.distinct, hinv.holding, hinv.requests, hinv.asking⟩, fun j hj => ⟨fun _ => rfl,
      fun k' hk hl => ⟨hl, ?_, fun _ => rfl⟩, fun _ _ _ => ⟨Iff.rfl, rfl⟩⟩⟩, ⟨nofun, ?_, nofun⟩⟩
  · rw [running_leave]
    show k' ∈ v₁.world.sync.active.erase k ↔ _ ∨ handed (marks v₁.hist) = some k'
    rw [Finset.mem_erase, hinv.active]
    constructor
    · rintro ⟨hk, h | h⟩
      · exact .inl ⟨hk, h⟩
      · exact .inr h
    · rintro (⟨hk, h⟩ | h)
      · exact ⟨hk, .inl h⟩
      · exact ⟨fun hk => idle (hk ▸ h), .inr h⟩
  · exact hinv.single k' hk' (running_leave.mp h).2
  · refine running_leave.mpr ⟨?_, hinv.chunks k' c' hc⟩
    rintro rfl
    exact List.not_mem_nil ((hm.chunks c').mp hc)
  · subst hk
    show (if k = k' then true else hasLeft k' (marks v₁.hist)) = _
    rw [if_neg fun h => hj (by rw [h])]
  · intro k' hk
    cases hk
    exact ⟨hm.live, if_pos rfl⟩

open FileDownloadService

/-- Starting the tasks of the missing chunks. -/
theorem spawnChunks_safe {r : PendingDownloadRecord} (ids : List Nat) (hm : Mine r.key js v) :
    (protocol n).Safe machine environment (.download r.key) (spawnChunks r ids)
      (fun slots v => Mine r.key (slots ++ js) v) v := by
  induction ids generalizing js v with
  | nil => exact hm
  | cons c ids ih =>
      unfold spawnChunks
      split
      · exact ih hm
      · intro v₁ hi hinv _ hf _
        obtain ⟨hG, hpre, hm'⟩ := spawn_guar (d := r.chunksDir) hinv (hm.stable hi.1) hf rfl
        refine ⟨hG, hpre, ?_⟩
        show (protocol n).Safe machine environment _ (spawnChunks r ids >>= fun slots =>
          pure (Slot.chunk r.key.toU64 c :: slots)) _ _
        exact Protocol.safe_seq (ih hm') fun slots v hm => hm.perm List.perm_middle

omit [Platform] in
/-- Recording a chunk is plain. -/
theorem recordChunk_plain (r : PendingDownloadRecord) (e : Option String) (result : Res) :
    (recordChunk r e result).Within (.ops Plain) := by
  unfold recordChunk
  split
  · split
    · trivial
    · exact Prog.within_bind (store_within (O := Plain) trivial) fun _ => trivial
  · trivial
  · trivial

/-- Waiting for all of them. -/
theorem joinChunks_safe (left : Nat) {r : PendingDownloadRecord} {e : Option String}
    (hn : js.length = left) (hm : Mine k js v) :
    (protocol n).Safe machine environment (.download k) (joinChunks left js r e)
      (fun _ v => Mine k [] v) v := by
  induction left generalizing js r e v with
  | zero =>
      rw [List.eq_nil_of_length_eq_zero hn] at hm
      exact hm
  | succ left ih =>
      intro v₁ hi hinv _ j hj _ result hp _
      obtain ⟨hG, hm'⟩ := await_guar hinv (hm.stable hi.1) hj hp rfl
      refine ⟨hG, Protocol.safe_seq (safe_plain (recordChunk_plain r e result) (fun _ h => h)
        (fun _ _ => Mine.stable) hm') fun (r', e') v hm => ?_⟩
      refine ih ?_ hm
      rw [List.length_erase_of_mem hj, hn, Nat.add_sub_cancel]

/-- A download ends with all its chunk tasks gone. -/
theorem download_safe {r : PendingDownloadRecord} (hm : Mine r.key [] v) :
    (protocol n).Safe machine environment (.download r.key) (download r)
      (fun _ v => Mine r.key [] v) v := by
  refine Protocol.safe_seq (safe_plain (readMetadata_within (F := .ops Plain) trivial)
    (fun _ h => h) (fun _ _ => Mine.stable) hm) fun metadata v hm => ?_
  split
  · exact hm
  · refine Protocol.safe_seq (spawnChunks_safe _ hm) fun slots v hm => ?_
    rw [List.append_nil] at hm
    refine Protocol.safe_seq (joinChunks_safe _ rfl hm) fun (r', e') v hm => ?_
    cases e' <;> exact hm

/-- Completing a download is plain. -/
theorem processCompleted_plain (r : PendingDownloadRecord) :
    (processCompleted r).run.Within (.ops Plain) := by
  refine (processCompleted_within r).mono_ops fun o ho => ?_
  obtain ⟨_ | _ | _ | ⟨_ | _⟩ | _⟩ | _ | _ | _ := ho <;> trivial

/-- A download task, whatever becomes of the download. -/
theorem downloadTask_safe {r : PendingDownloadRecord} (hm : Mine r.key [] v) :
    (protocol n).Safe machine environment (.download r.key) (downloadTask r)
      (fun _ v => Post (.download r.key) v) v := by
  refine Protocol.safe_seq (Protocol.safe_ends (download_ends r) (download_safe hm))
    fun (completed, r') v ⟨hr, hm⟩ => ?_
  replace hr : r'.key = r.key := hr
  rw [← hr] at hm ⊢
  dsimp only
  split
  · refine Protocol.safe_seq (safe_plain (processCompleted_plain r') (fun _ h => h)
      (fun _ _ => Mine.stable) hm) fun _ v hm => ?_
    exact Protocol.safe_seq (removeActive_safe hm) fun _ _ h => h
  · exact Protocol.safe_seq (removeActive_safe hm) fun _ _ h => h

end Download

/-! ### The runs -/

section Runs

variable [Platform] {n : Nat} {v v' : NodeView} {i : Slot} {t : Task}

omit [Platform] in
/-- The tasks of the environment are plain, but for the tick. -/
theorem plain_of_external {o : Op} (h : t.external = true) (ht : t ≠ .tick)
    (ho : t.footprint.op o) : Plain o := by
  cases t with
  | publishFile m fuel request =>
      obtain ⟨_ | _ | _ | _ | ⟨_, _, _ | _⟩ | ⟨_, _ | _⟩ | _⟩ | _ := ho <;> trivial
  | downloadFile m request => obtain ⟨⟨_ | _ | _⟩ | ⟨_ | _⟩ | _⟩ | _ := ho <;> trivial
  | startUp => obtain _ | _ := ho <;> trivial
  | swarmEvent => obtain _ | ⟨_ | _⟩ := ho <;> trivial
  | command => obtain _ | _ := ho <;> trivial
  | tick => exact absurd rfl ht
  | publisher fuel => obtain _ | _ := ho <;> trivial
  | download r => cases h
  | chunk d => cases h
  | writeFile m path bytes => obtain _ | _ := ho <;> trivial

omit [Platform] in
/-- The tasks of the environment do not run in the slots of workers. -/
theorem not_isWorker (h : t.external = true) : ¬ IsWorker (slotOf t) := by
  cases t with
  | download r => cases h
  | chunk d => cases h
  | _ => exact fun h => h

omit [Platform] in
/-- The start of a task of the environment. -/
theorem start_sound (hv : Sound n v) (hf : v.live (slotOf t) = false) (h : t.external = true) :
    Sound n (v.start (L := lang) t (slotOf t)) ∧
      (∀ j, Rely j v (v.start (L := lang) t (slotOf t))) ∧
      Pre t (v.start (L := lang) t (slotOf t)) := by
  have hm : marks (v.start (L := lang) t (slotOf t)).hist = marks v.hist := marks_cons_none rfl _
  have hl : ∀ i, IsWorker i → (v.start (L := lang) t (slotOf t)).live i = v.live i :=
    fun i hi => Function.update_of_ne (by rintro rfl; exact not_isWorker h hi) _ _
  refine ⟨hv.frame hm rfl hl fun h => ?_, fun j => .frame hm hl, ⟨fun e => ?_, ?_, ?_⟩⟩
  · by_cases e : slotOf t = .eventLoop
    · rw [e] at hf
      exact hv.handed hf
    · replace h : Function.update v.live (slotOf t) true .eventLoop = false := h
      rw [Function.update_of_ne (Ne.symm e)] at h
      exact hv.handed h
  · rw [hm]
    rw [e] at hf
    exact hv.handed hf
  · rintro r rfl
    cases h
  · rintro d rfl
    cases h

omit [Platform] in
/-- A download starts with no chunk task. -/
theorem Pre.mine {r : PendingDownloadRecord} (hp : Pre t v) (ht : t = .download r) :
    Mine r.key [] v := by
  obtain ⟨hlive, hleft, hchunks⟩ := hp.download r ht
  refine ⟨hlive, hleft, fun c => ?_, fun _ h => absurd h List.not_mem_nil, List.nodup_nil⟩
  rw [hchunks c]
  exact ⟨nofun, fun h => absurd h List.not_mem_nil⟩

omit [Platform] in
/-- What ended stays as it is. -/
theorem Post.stable (h : Rely i v v') (hp : Post i v) : Post i v' where
  handed hi := (h.handed hi).trans (hp.handed hi)
  download k hi := by
    obtain ⟨hlive, hleft⟩ := hp.download k hi
    obtain ⟨hlive', hleft', -⟩ := h.download k hi hlive
    exact ⟨hlive', hleft'.trans hleft⟩
  chunk id c hi := by
    obtain ⟨hhold, hask⟩ := h.chunk id c hi
    obtain ⟨hfree, hnone⟩ := hp.chunk id c hi
    exact ⟨fun h => hfree (hhold.mp h), hask.trans hnone⟩

omit [Platform] in
/-- The end of a program whose result nobody waits for. -/
theorem exit_guar {r : Res} (hv : Sound n v) (hp : Post i v) (hi : ∀ id c, i ≠ .chunk id c) :
    (protocol n).Guar i v (v.exit (L := lang) i r) := by
  have hm : marks (v.exit (L := lang) i r).hist = marks v.hist := marks_cons_none rfl _
  have other : ∀ j, j ≠ i → (v.exit (L := lang) i r).live j = v.live j := fun j hj =>
    Function.update_of_ne hj _ _
  have self : (v.exit (L := lang) i r).live i = false := Function.update_self ..
  refine ⟨hv.congr hm rfl (fun k => ?_) (fun id c => other _ (hi id c).symm) fun h => ?_,
    fun j hj => ⟨fun _ => by rw [hm], fun k hk hl => ?_, fun _ _ _ => by rw [hm]; simp⟩⟩
  · -- A download that ends has left before.
    rw [Running, Running, hm]
    by_cases hk : Slot.download k = i
    · rw [(hp.download k hk.symm).2]
      simp
    · rw [other _ hk]
  · by_cases e : Slot.eventLoop = i
    · exact hp.handed e.symm
    · rw [other _ e] at h
      exact hv.handed h
  · subst hk
    rw [hm]
    exact ⟨(other _ hj).trans hl, rfl, fun c => other _ (hi _ c).symm⟩

omit [Platform] in
/-- Nothing is left after a crash. -/
theorem crash_sound (hv : Sound n v) : Sound n (v.crash (L := lang) v.world.crash) where
  active k := by
    show k ∈ (∅ : Finset _) ↔ (false = true ∧ _) ∨ none = some k
    simp
  single := nofun
  handed _ := rfl
  chunks := nofun
  permits := hv.max
  max := hv.max
  distinct := List.nodup_nil
  holding _ h := absurd h List.not_mem_nil
  requests _ := Nat.zero_le 1
  asking _ h := absurd rfl h

/-- Neither do the programs of these tasks do anything else. -/
theorem body_plain (h : t.external = true) (ht : t ≠ .tick) :
    (body t).Within (.ops Plain) := by
  have plain : ∀ o, t.footprint.op o → Plain o := fun o => plain_of_external h ht
  cases t with
  | tick => exact absurd rfl ht
  | download r => cases h
  | chunk d => cases h
  | _ => exact (body_within _).mono plain (fun _ h => h) (fun _ h => h)

/-- Every task keeps to the protocol. -/
theorem body_safe (t : Task) (hp : Pre t v) :
    (protocol n).Safe machine environment (slotOf t) (body t) (fun _ v => Post (slotOf t) v) v := by
  by_cases ht : t.external = true ∧ t ≠ .tick
  · -- Of such a task only that the hand of the event loop stays empty.
    obtain ⟨hext, htick⟩ := ht
    refine Protocol.safe_mono (fun _ v h => ⟨h, ?_, ?_⟩) (safe_plain (body_plain hext htick)
      (fun _ h => h) (fun v v' h hv hi => (h.handed hi).trans (hv hi)) hp.handed)
    · intro k hk
      exact absurd (hk ▸ trivial) (not_isWorker hext)
    · intro id c hk
      exact absurd (hk ▸ trivial) (not_isWorker hext)
  · cases t with
    | tick =>
        exact Protocol.safe_seq (workOnPendingDownloads_safe (hp.handed rfl)) fun _ v hv =>
          ⟨fun _ => hv, nofun, nofun⟩
    | download r => exact downloadTask_safe (hp.mine rfl)
    | chunk d =>
        obtain ⟨hfree, hnone⟩ := hp.chunk d rfl
        refine Protocol.safe_mono (fun _ v h => ⟨nofun, nofun, ?_⟩)
          (chunkTask_safe ⟨⟨hfree, nofun⟩, hnone⟩)
        intro id c hi
        cases hi
        exact ⟨h.held.mp, h.asked⟩
    | _ => exact absurd ⟨rfl, nofun⟩ ht

theorem valid (n : Nat) : (protocol n).Valid machine environment where
  rely_refl _ _ := .frame rfl fun _ _ => rfl
  rely_trans _ _ _ _ h h' := h.trans h'
  guar_rely i j _ _ hij _ hG := hG.2 j hij.symm
  guar_inv _ _ _ _ hG := hG.1
  post_stable i r v v' hi hp := Post.stable hi.1 hp
  start_rely t v hv hf hg := (start_sound hv hf hg.1).2.1
  start_inv t v hv hf hg := (start_sound hv hf hg.1).1
  start_pre t v hv hf hg := (start_sound hv hf hg.1).2.2
  exit_guar i r v hv hp hk _ := exit_guar hv hp fun id c h => by
    subst h
    cases hk
  crash_inv v hv _ := crash_sound hv
  body_safe t _ _ hp := body_safe t hp

/-! ### The start of a task -/

open FileDownloadService

/-- A tick starts a task only for a key that has none. -/
theorem workOn_meets (rs : List PendingDownloadRecord) (hv : handed (marks v.hist) = none) :
    (protocol n).Meets machine environment Alone .eventLoop (workOn rs) v := by
  have stable : ∀ v v' : NodeView, Rely .eventLoop v v' → handed (marks v.hist) = none →
      handed (marks v'.hist) = none := fun v v' h hv => (h.handed rfl).trans hv
  induction rs generalizing v with
  | nil => trivial
  | cons r rs ih =>
      have item : (store .streamItem).run.Within (.ops Plain) := store_within trivial
      have permits : (sync .availablePermits).Within (.ops Plain) := sync_within trivial
      refine Protocol.meets_seq (Protocol.meets_of_within (fun _ h => h) item v)
        (safe_plain item (fun _ h => h) stable hv) fun _ v hv => ?_
      refine Protocol.meets_seq (Protocol.meets_of_within (fun _ h => h) permits v)
        (safe_plain permits (fun _ h => h) stable hv) fun _ v hv => ?_
      split
      · trivial
      · split
        · intro v₁ hi hinv hlive c a w he _
          obtain ⟨-, hhand⟩ := insert_guar hinv hlive (stable v v₁ hi.1 hv) (c := c) he
          cases a with
          | false => exact ih hhand
          | true =>
              intro v₂ hi₂ hinv₂ _
              have hand : handed (marks v₂.hist) = some r.key := (hi₂.1.handed rfl).trans hhand
              refine ⟨⟨?_, nofun⟩, fun hf _ => ih (start_guar hinv₂ hand hf).2.2⟩
              intro r' hr
              cases hr
              exact hinv₂.single r.key hand
        · exact ih hv

theorem workOnPendingDownloads_meets (hv : handed (marks v.hist) = none) :
    (protocol n).Meets machine environment Alone .eventLoop workOnPendingDownloads v := by
  have stable : ∀ v v' : NodeView, Rely .eventLoop v v' → handed (marks v.hist) = none →
      handed (marks v'.hist) = none := fun v v' h hv => (h.handed rfl).trans hv
  have permits : (sync .availablePermits).Within (.ops Plain) := sync_within trivial
  have stream : (store .streamPendingDownloads).run.Within (.ops Plain) := store_within trivial
  refine Protocol.meets_seq (Protocol.meets_of_within (fun _ h => h) permits v)
    (safe_plain permits (fun _ h => h) stable hv) fun _ v hv => ?_
  split
  · trivial
  · refine Protocol.meets_seq (Protocol.meets_of_within (fun _ h => h) stream v)
      (safe_plain stream (fun _ h => h) stable hv) fun _ v hv => ?_
    split
    · exact workOn_meets _ hv
    · trivial

/-- A download starts the task of a chunk only where there is none. -/
theorem spawnChunks_meets {r : PendingDownloadRecord} {js : List Slot} (ids : List Nat)
    (hm : Mine r.key js v) (hids : ids.Nodup)
    (hjs : ∀ c ∈ ids, Slot.chunk r.key.toU64 c ∉ js) :
    (protocol n).Meets machine environment Alone (.download r.key) (spawnChunks r ids) v := by
  induction ids generalizing js v with
  | nil => trivial
  | cons c ids ih =>
      obtain ⟨hc, hids⟩ := List.nodup_cons.mp hids
      unfold spawnChunks
      split
      · exact ih hm hids fun c hc => hjs c (List.mem_cons_of_mem _ hc)
      · intro v₁ hi hinv _
        replace hm := hm.stable hi.1
        refine ⟨⟨(by simp), ?_⟩, fun hf _ => ?_⟩
        · intro d hd
          cases hd
          rw [← Bool.not_eq_true, hm.chunks]
          exact hjs c List.mem_cons_self
        · obtain ⟨-, -, hm'⟩ := spawn_guar (d := r.chunksDir) hinv hm hf rfl
          have rest : ∀ c' ∈ ids, Slot.chunk r.key.toU64 c' ∉ .chunk r.key.toU64 c :: js := by
            intro c' hc' h
            obtain h | h := List.mem_cons.mp h
            · exact hc ((Slot.chunk.inj h).2 ▸ hc')
            · exact hjs c' (List.mem_cons_of_mem _ hc') h
          show (protocol n).Meets machine environment _ _ (spawnChunks r ids >>= fun slots =>
            pure (Slot.chunk r.key.toU64 c :: slots)) _
          exact Protocol.meets_seq (ih hm' hids rest) (spawnChunks_safe ids hm')
            fun _ _ _ => trivial

/-- No task is started. -/
def quiet : Footprint lang := ⟨fun _ => True, fun _ => False, fun _ => True⟩

omit [Platform] in
theorem joinChunks_quiet (left : Nat) (js : List Slot) (r : PendingDownloadRecord)
    (e : Option String) : (joinChunks left js r e).Within quiet := by
  induction left generalizing js r e with
  | zero => trivial
  | succ left ih =>
      refine ⟨fun _ _ => trivial, fun j result => ?_⟩
      exact Prog.within_bind ((recordChunk_plain r e result).of_ops fun _ _ => trivial)
        fun x => ih _ x.1 x.2

theorem download_meets {r : PendingDownloadRecord} (hm : Mine r.key [] v) :
    (protocol n).Meets machine environment Alone (.download r.key) (download r) v := by
  have read : (readMetadata r.chunksDir).run.Within (.ops Plain) :=
    readMetadata_within (F := .ops Plain) trivial
  refine Protocol.meets_seq (Protocol.meets_of_within (fun _ h => h) read v) (safe_plain read
    (fun _ h => h) (fun _ _ => Mine.stable) hm) fun metadata v hm => ?_
  split
  · trivial
  · refine Protocol.meets_seq_within (F := quiet) ?_ (fun _ h => h) fun slots => ?_
    · exact spawnChunks_meets _ hm List.nodup_range fun _ _ h => absurd h List.not_mem_nil
    · refine Prog.within_bind (joinChunks_quiet _ _ _ _) fun (r', e) => ?_
      cases e <;> trivial

/-- No task of a node comes to the start of a task that is there. -/
theorem body_meets (t : Task) (hp : Pre t v) :
    (protocol n).Meets machine environment Alone (slotOf t) (body t) v := by
  by_cases ht : t.external = true ∧ t ≠ .tick
  · exact Protocol.meets_of_within (fun _ h => h) (body_plain ht.1 ht.2) v
  · cases t with
    | tick =>
        refine Protocol.meets_seq_within (F := quiet) ?_ (fun _ h => h) fun _ => trivial
        exact workOnPendingDownloads_meets (hp.handed rfl)
    | download r =>
        refine Protocol.meets_seq_within (F := quiet) (download_meets (hp.mine rfl))
          (fun _ h => h) fun (completed, r') => ?_
        have remove : (sync (.removeActive r'.key)).Within quiet := perform_within trivial
        dsimp only
        split
        · refine Prog.within_bind ((processCompleted_plain r').of_ops fun _ _ => trivial)
            fun _ => ?_
          exact Prog.within_bind remove fun _ => trivial
        · exact Prog.within_bind remove fun _ => trivial
    | chunk d => exact Protocol.meets_of_within (fun _ h => h) (chunkTask_within d) v
    | _ => exact absurd ⟨rfl, nofun⟩ ht

/-! ### Every run -/

omit [Platform] in
theorem sound_idle {w : World} (hw : w.sync = ⟨∅, n, n⟩) :
    Sound n (Pool.idle (L := lang) w).view where
  active k := by
    show k ∈ w.sync.active ↔ (false = true ∧ _) ∨ none = some k
    rw [hw]
    simp
  single := nofun
  handed _ := rfl
  chunks := nofun
  permits := by
    show w.sync.permits + 0 = n
    rw [hw]
    rfl
  max := by
    show w.sync.maxActiveDownloads = n
    rw [hw]
  distinct := List.nodup_nil
  holding _ h := absurd h List.not_mem_nil
  requests _ := Nat.zero_le 1
  asking _ h := absurd rfl h

/-- In every run of a node with `n` permits the active downloads are the
keys of the download tasks, no file and no chunk has two tasks, a chunk
has one request in flight and `n` transfers hold a permit at most. -/
theorem one_task_a_file {w : World} {p : NodePool} (hw : w.sync = ⟨∅, n, n⟩)
    (h : Reach machine environment (.idle w) p) : Bounded n p := by
  have hv : Sound n p.view := ((valid n).holds_of_reach (sound_idle hw) h).1
  refine ⟨hv.active, fun i t q hi => ?_, hv.requests, hv.distinct, ?_⟩
  · exact (valid n).spawn_of_reach (fun t v _ hp => body_meets t hp) (sound_idle hw) h hi
  · have permits : p.world.sync.permits + (holders (marks p.hist)).length = n := hv.permits
    omega

end Runs

/-! ### A download with one permit -/

section Example

open Reference

attribute [local instance] platform

/-- The first of the two chunk tasks of a download has the permit and
has asked for its chunk. -/
def asking : List (Move lang Choice) :=
  acceptOnly twoChunks ++ tickStream ++ tickStart ++ openDownload twoChunks.key 2 ++
    askChunk twoChunks.key 0

/-- With one permit one of the two chunk tasks transfers. -/
theorem one_task_a_file_asking :
    ∃ p, Reach machine environment (.idle (emptyDir 1)) p ∧
      p.world.sync.active = {twoChunks.key} ∧
      p.view.live (.chunk twoChunks.key.toU64 1) = true ∧
      holders (marks p.hist) = [.chunk twoChunks.key.toU64 0] ∧ Bounded 1 p := by
  have run : ∃ p, Reach machine environment (.idle (emptyDir 1)) p ∧
      p.world.sync.active = {twoChunks.key} ∧
      p.view.live (.chunk twoChunks.key.toU64 1) = true ∧
      holders (marks p.hist) = [.chunk twoChunks.key.toU64 0] :=
    exists_reach_of_runScript asking (by decide +kernel)
  obtain ⟨p, hp, hactive, hlive, hholders⟩ := run
  exact ⟨p, hp, hactive, hlive, hholders, one_task_a_file rfl hp⟩

end Example

end RustDfs.ActiveDownloads
