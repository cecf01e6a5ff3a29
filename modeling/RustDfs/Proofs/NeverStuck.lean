import RustDfs.Proofs.RequestsEnd
import RustDfs.Proofs.Waits

/-!
# `RustDfs.Proofs.NeverStuck`: a node never gets stuck

Chunk tasks wait for permits, downloads for their chunk tasks, whoever
sends a command for room in the channel, whoever asks for metadata or a
chunk for the answer. `never_stuck` follows these waits in any state of
any run of a node that has permits: they lead to a slot whose program can
take a step, to an event loop between two passes that has a command to
take, or to a slot that waits for the answer to a request which the
network has not settled yet, or has lost.

A lost request is one whose outbound request has failed. The event service
logs the failure and keeps the entry, so whoever asked goes on waiting.
This is the only wait that may lead nowhere, and `Ends.lost` says when.

The reason is an order of the waits. Downloads wait for chunk tasks only,
chunk tasks without a permit for those that hold one, and these for the
event loop, which waits for nobody. That a request which is waited for is
in the queue, or before the network, or lost there, is
`open_lost_or_used`.

A pass for a command starts when there is one: this is `ready`. As long
as the node runs the receiver of the commands is there, so a wait does not
count as over because the channel could be closed.
-/

set_option autoImplicit false

namespace RustDfs.NeverStuck

open Lib Conc Std
open ActiveDownloads (marks holders hasLeft)
open Requests (Ticket ticket?)
open RequestLog (log Open Lost)
open RequestsEnd (Used isOpen log_cons log_op open_lost_or_used)
open Waits (HasSent sinceCrash next_cause program_of_reach stays)

/-! ### Waiting and going on -/

/-- The event starts a pass for a command. -/
def takesCommand : NodeEvent → Bool
  | .start .command => true
  | _ => false

/-- The environment of a node, as `select!` has it: a pass for a command is
started only when there is a command. -/
def ready : NodeGuard := fun v e =>
  environment v e ∧ (takesCommand e = true → v.world.chan.commands ≠ [])

instance (v : NodeView) (e : NodeEvent) : Decidable (ready v e) :=
  inferInstanceAs (Decidable (_ ∧ (_ → _)))

/-- The slots an operation that has to wait waits for.
- `permit`: a task without a permit waits for those that hold one,
- `room`: whoever sends a command waits for the event loop, which takes
  them,
- `metadata`, `chunk`: whoever asks waits for the event loop, which passes
  on the answer. -/
inductive Needs (p : NodePool) : lang.Op → lang.Slot → Prop
  | permit {j : Slot} (hj : j ∈ holders (marks p.hist)) : Needs p (.sync .acquire) j
  | room (command : P2pCommand) : Needs p (.chan (.sendCommand command)) .eventLoop
  | metadata (tx : OneshotSender (Option FileMetadata)) :
      Needs p (.chan (.metadata (.recv tx))) .eventLoop
  | chunk (tx : OneshotSender (Option FileResponse)) :
      Needs p (.chan (.chunk (.recv tx))) .eventLoop

/-- The program of the slot is at the receiver of this request's answer. -/
inductive Asks (p : NodePool) (i : Slot) : Ticket → Prop
  | metadata {tx : OneshotSender (Option FileMetadata)}
      {k : (Op.chan (.metadata (.recv tx))).Ans → Proc Res}
      (h : p.threads i = some (.op (.chan (.metadata (.recv tx))) k)) : Asks p i (.metadata tx)
  | chunk {tx : OneshotSender (Option FileResponse)}
      {k : (Op.chan (.chunk (.recv tx))).Ans → Proc Res}
      (h : p.threads i = some (.op (.chan (.chunk (.recv tx))) k)) : Asks p i (.chunk tx)

/-- What a chain of waits may end with.
- `go`: the program of the slot takes a step, or has ended and leaves it;
  a closed channel does not count, the receiver of the commands is there,
- `loops`: a loop of the source is still running in the slot,
- `command`: the event loop is between two passes, and a command is in the
  queue for the next one,
- `request`: the event loop is between two passes, and the network has
  still to settle the request of the slot,
- `lost`: the event loop is between two passes, and the request of the slot
  was lost: nothing comes of this wait. -/
inductive Ends [Platform] (p : NodePool) : Slot → Prop
  | go {i : Slot} (h : CanGo machine (· ≠ .closed) p i) : Ends p i
  | loops {i : Slot} {k : Empty → Proc Res} (h : p.threads i = some (.op .diverge k)) : Ends p i
  | command (free : p.threads .eventLoop = none) (hc : p.world.chan.commands ≠ []) :
      Ends p .eventLoop
  | request {i : Slot} {t : Ticket} (free : p.threads .eventLoop = none) (asks : Asks p i t)
      (settles : Open p.world.events (log p.hist) t) : Ends p i
  | lost {i : Slot} {t : Ticket} (free : p.threads .eventLoop = none) (asks : Asks p i t)
      (lost : Lost p.world.events (log p.hist) t) : Ends p i

/-- An operation has to wait. -/
inductive Blocked (w : World) : Op → Prop
  | acquire (h : w.sync.permits = 0) : Blocked w (.sync .acquire)
  | send (command : P2pCommand) (h : w.chan.commands ≠ []) :
      Blocked w (.chan (.sendCommand command))
  | recvCommand (h : w.chan.commands = []) : Blocked w (.chan .recvCommand)
  | metadata (tx : OneshotSender (Option FileMetadata))
      (h : isOpen (w.chan.metadata.state tx.id) = true) : Blocked w (.chan (.metadata (.recv tx)))
  | chunk (tx : OneshotSender (Option FileResponse))
      (h : isOpen (w.chan.chunks.state tx.id) = true) : Blocked w (.chan (.chunk (.recv tx)))
  | diverge : Blocked w .diverge

section Proof

variable [Platform]

/-! ### Operations -/

omit [Platform] in
/-- Of the operations on a oneshot channel only `recv` waits. -/
theorem oneshot_runs {α : Type} (o : OneshotOp α) (s : Oneshots α) :
    (o.exec s).isSome = true ∨ ∃ tx, o = .recv tx ∧ isOpen (s.state tx.id) = true := by
  cases o with
  | recv tx =>
      cases hs : s.state tx.id with
      | «open» => exact .inr ⟨tx, rfl, by rw [hs]; rfl⟩
      | sent a => exact .inl (by simp only [OneshotOp.exec, hs, Option.isSome_some])
      | dropped => exact .inl (by simp only [OneshotOp.exec, hs, Option.isSome_some])
  | _ => exact .inl rfl

/-- An operation can be answered, or it is one that has to wait. -/
theorem runs_or_blocked (o : Op) (w : World) :
    (∃ c, c ≠ .closed ∧ (o.exec c w).isSome = true) ∨ Blocked w o := by
  have ok : Choice.ok ≠ .closed := fun e => by cases e
  cases o with
  -- a file operation may always fail
  | fs o => exact .inl ⟨.ioError ⟨.other, ""⟩ 0, (fun e => by cases e), rfl⟩
  | store o => exact .inl ⟨.ok, ok, rfl⟩
  | sync o =>
      cases o with
      | acquire =>
          by_cases h : 0 < w.sync.permits
          · refine .inl ⟨.ok, ok, (Option.isSome_map ..).trans ?_⟩
            simp only [SyncOp.exec, if_pos h, Option.isSome_some]
          · exact .inr (.acquire (Nat.eq_zero_of_not_pos h))
      | _ => exact .inl ⟨.ok, ok, rfl⟩
  | chan o =>
      cases o with
      | metadata o =>
          obtain h | ⟨tx, rfl, h⟩ := oneshot_runs o w.chan.metadata
          · exact .inl ⟨.ok, ok, (Option.isSome_map ..).trans ((Option.isSome_map ..).trans h)⟩
          · exact .inr (.metadata tx h)
      | chunk o =>
          obtain h | ⟨tx, rfl, h⟩ := oneshot_runs o w.chan.chunks
          · exact .inl ⟨.ok, ok, (Option.isSome_map ..).trans ((Option.isSome_map ..).trans h)⟩
          · exact .inr (.chunk tx h)
      | sendCommand command =>
          by_cases h : w.chan.commands.length < COMMANDS_CAPACITY
          · refine .inl ⟨.ok, ok, (Option.isSome_map ..).trans ?_⟩
            simp only [ChanOp.exec, if_pos h, Option.isSome_some]
          · refine .inr (.send command fun e => h ?_)
            rw [e]
            exact Nat.zero_lt_succ _
      | recvCommand =>
          cases hc : w.chan.commands with
          | nil => exact .inr (.recvCommand hc)
          | cons command commands =>
              refine .inl ⟨.ok, ok, (Option.isSome_map ..).trans ?_⟩
              simp only [ChanOp.exec, hc, Option.isSome_some]
  | swarm o =>
      refine .inl ?_
      cases o with
      | selectNextSome => exact ⟨.event .other, (fun e => by cases e), rfl⟩
      | chooseRandom peers =>
          obtain rfl | ⟨peer, hp⟩ := peers.eq_empty_or_nonempty
          · exact ⟨.ok, ok, rfl⟩
          · refine ⟨.peer peer, (fun e => by cases e), (Option.isSome_map ..).trans ?_⟩
            simp only [SwarmOp.exec, if_pos hp, Option.isSome_some]
      | putRecord key value =>
          refine ⟨.ok, ok, (Option.isSome_map ..).trans ?_⟩
          simp only [SwarmOp.exec]
          repeat' split
          all_goals rfl
      | startProviding key =>
          refine ⟨.ok, ok, (Option.isSome_map ..).trans ?_⟩
          simp only [SwarmOp.exec]
          repeat' split
          all_goals rfl
      | _ => exact ⟨.ok, ok, rfl⟩
  | events o => exact .inl ⟨.ok, ok, rfl⟩
  | diverge => exact .inr .diverge

/-- Only `recvCommand` takes a command out of the queue. -/
theorem commands_kept {o : Op} {c : Choice} {a : o.Ans} {w w' : World}
    (he : o.exec c w = some (a, w')) (ho : o ≠ .chan .recvCommand) :
    w.chan.commands <+: w'.chan.commands := by
  cases o with
  | chan o =>
      obtain ⟨⟨_, x⟩, hx, e⟩ := Option.map_eq_some_iff.mp he
      cases e
      cases o with
      | sendCommand command =>
          cases c with
          | ok =>
              simp only [ChanOp.exec] at hx
              split at hx <;> cases hx
              exact List.prefix_append _ _
          | closed =>
              cases hx
              exact List.prefix_rfl
          | _ => cases hx
      | recvCommand => exact absurd rfl ho
      | metadata o =>
          cases c <;> first | cases hx | skip
          obtain ⟨_, _, e⟩ := Option.map_eq_some_iff.mp hx
          cases e
          exact List.prefix_rfl
      | chunk o =>
          cases c <;> first | cases hx | skip
          obtain ⟨_, _, e⟩ := Option.map_eq_some_iff.mp hx
          cases e
          exact List.prefix_rfl
  | events o =>
      cases he
      exact List.prefix_rfl
  | diverge => cases he
  | _ =>
      obtain ⟨_, _, e⟩ := Option.map_eq_some_iff.mp he
      cases e
      exact List.prefix_rfl

/-- The first command is taken, and the rest stays. -/
theorem commands_taken {c : Choice} {a : P2pCommand} {w w' : World}
    (he : Op.exec (.chan .recvCommand) c w = some (a, w')) :
    w.chan.commands = a :: w'.chan.commands := by
  obtain ⟨⟨_, x⟩, hx, e⟩ := Option.map_eq_some_iff.mp he
  cases e
  cases c <;> first | cases hx | skip
  simp only [ChanOp.exec] at hx
  split at hx <;> cases hx
  next heq => exact heq

omit [Platform] in
/-- Only the event loop takes commands. -/
theorem slot_of_recvCommand {t : Task} (ho : t.footprint.op (.chan .recvCommand)) :
    slotOf t = .eventLoop := by
  cases t with
  | publishFile n fuel request =>
      obtain ⟨_ | _ | _ | _ | ⟨_, _, _ | _⟩ | ⟨_, _ | _⟩ | _⟩ | _ := ho
  | downloadFile n request => obtain ⟨⟨_ | _ | _⟩ | ⟨_ | _⟩ | _⟩ | _ := ho
  | download r => obtain ⟨_ | _⟩ | ⟨⟨_ | _ | _ | ⟨_ | _⟩ | _⟩ | _ | _ | _⟩ | _ := ho
  | chunk d => obtain _ | _ | _ | _ | _ | _ | _ | ⟨_, _ | _⟩ := ho
  | writeFile n path bytes => obtain _ | _ := ho
  | _ => rfl

/-! ### Runs -/

variable {n : Nat} {w : World} {p : NodePool} {i : Slot}

/-- A run of a node that starts with `n` permits and nothing to do. -/
structure Run (n : Nat) (w : World) (p : NodePool) : Prop where
  sync : w.sync = ⟨∅, n, n⟩
  positive : 0 < n
  events : w.events = .new
  queue : w.chan.commands = []
  reach : Reach machine ready (.idle w) p

theorem reach_environment (hr : Reach machine ready (.idle w) p) :
    Reach machine environment (.idle w) p := by
  induction hr with
  | refl => exact .refl
  | step _ hs ih => exact ih.step (hs.mono fun _ _ h => h.1)

/-- What is known about the permits. -/
theorem Run.sound (hR : Run n w p) : ActiveDownloads.Sound n p.view :=
  ((ActiveDownloads.valid n).holds_of_reach (ActiveDownloads.sound_idle hR.sync)
    (reach_environment hR.reach)).1

/-- What is known about a task that is about to be started. -/
theorem Run.alone (hR : Run n w p) {t : Task} {k : Proc Res}
    (hl : p.threads i = some (.spawn t k)) : ActiveDownloads.Alone t p.view :=
  (ActiveDownloads.one_task_a_file hR.sync (reach_environment hR.reach)).single i t k hl

/-- While a pass for a command is about to take it, there is one. -/
theorem commands_of_begin (hr : Reach machine ready (.idle w) p) {e : NodeEvent}
    {before : List NodeEvent} (hb : Begins (L := lang) .command e)
    (ho : own (L := lang) slotOf .eventLoop p.hist = e :: before) :
    p.world.chan.commands ≠ [] := by
  -- The latest step is the begin of the pass, or one of another slot.
  induction hr with
  | refl => cases ho
  | @step p p' e' hp hs ih =>
      have hr' := hp.step hs
      rw [hs.hist_eq] at ho
      cases he' : e'.ownBy (L := lang) slotOf .eventLoop with
      | true =>
          -- the pass has just begun
          rw [own_cons_self he'] at ho
          obtain ⟨rfl, -⟩ := List.cons.inj ho
          have mem : e' ∈ p'.hist := hs.hist_eq ▸ List.mem_cons_self
          cases hb with
          | start =>
              have allowed := hs.allowed.2 rfl
              cases hs with
              | start hn hg => exact allowed
          | spawn j =>
              obtain ⟨t, -, ht⟩ := spawn_of_reach body_within hr' mem
              cases external_of_spawn ht
      | false =>
          -- another slot leaves the commands in the queue
          rw [own_cons_other he'] at ho
          have before := ih ho
          cases hs with
          | @op j o k c a w' hi he hg =>
              have other : o ≠ .chan .recvCommand := by
                rintro rfl
                obtain ⟨t, ht, hop⟩ := op_of_reach body_within hr' List.mem_cons_self
                exact of_decide_eq_false he' (ht.symm.trans (slot_of_recvCommand hop))
              intro none
              exact before (List.prefix_nil.mp (none ▸ commands_kept he other))
          | crash _ => cases he'
          | _ => exact before

omit [Platform] in
/-- What a slot has sent is part of the run. -/
theorem sinceCrash_own (h : List NodeEvent) :
    sinceCrash (own (L := lang) slotOf i h) ⊆ sinceCrash h := by
  induction h with
  | nil => exact fun _ h => h
  | cons e h ih =>
      cases he : e.ownBy (L := lang) slotOf i with
      | true =>
          rw [own_cons_self he]
          cases e with
          | crash => exact fun _ h => h
          | _ => exact List.cons_subset_cons _ ih
      | false =>
          rw [own_cons_other he]
          cases e with
          | crash => cases he
          | _ => exact fun x hx => List.mem_cons_of_mem _ (ih hx)

omit [Platform] in
/-- What is no operation of the slot sends nothing. -/
theorem sent_before {e : NodeEvent} {h : List NodeEvent} {command : P2pCommand}
    (he : ∀ o a, e ≠ .op i o a) (sent : HasSent i command (e :: h)) : HasSent i command h := by
  cases e with
  | crash => cases sent
  | _ =>
      obtain new | sent := List.mem_cons.mp sent
      · exact absurd new.symm (he _ _)
      · exact sent

/-- A command that was sent is in the queue, or was taken. -/
theorem sent_or_taken {g : NodeGuard} (hr : Reach machine g (.idle w) p) {command : P2pCommand}
    (sent : HasSent i command p.hist) :
    command ∈ p.world.chan.commands ∨ .command command ∈ log p.hist := by
  induction hr with
  | refl => cases sent
  | @step p p' e hp hs ih =>
      -- what was taken stays taken, but for a crash
      have later : e ≠ .crash → .command command ∈ log p.hist → .command command ∈ log p'.hist := by
        intro crash taken
        rw [hs.hist_eq, log_cons crash]
        exact List.mem_append_right _ taken
      cases hs with
      | @op j o k c a w' hi he hg =>
          obtain new | sent := List.mem_cons.mp sent
          · cases new
            obtain ⟨⟨_, x⟩, hx, e⟩ := Option.map_eq_some_iff.mp he
            cases e
            cases c <;> first | cases hx | skip
            simp only [ChanOp.exec] at hx
            split at hx <;> cases hx
            exact .inl (List.mem_append_right _ (List.mem_singleton.mpr rfl))
          · -- A command leaves the queue only into the hands of the event loop.
            obtain waits | taken := ih sent
            · by_cases ho : o = .chan .recvCommand
              · subst ho
                rw [commands_taken he] at waits
                obtain rfl | waits := List.mem_cons.mp waits
                · exact .inr List.mem_cons_self
                · exact .inl waits
              · exact .inl ((commands_kept he ho).subset waits)
            · exact .inr (later (fun e => by cases e) taken)
      | crash _ => cases sent
      | _ =>
          -- every other step leaves the queue and what was sent as they are
          exact (ih (sent_before (fun _ _ e => by cases e) sent)).imp_right
            (later fun e => by cases e)

/-! ### Who waits for whom -/

/-- What the program of a slot can be at. -/
inductive Shape (i : Slot) : Proc Res → Prop
  | ret (r : Res) : Shape i (.ret r)
  | op (o : Op) (k : o.Ans → Proc Res) : Shape i (.op o k)
  | download (r : PendingDownloadRecord) (k : Proc Res) (hi : i = .eventLoop) :
      Shape i (.spawn (.download r) k)
  | chunk (d : DownloadFileChunk) (k : Proc Res) : Shape i (.spawn (.chunk d) k)
  | await (key : PublishedFileKey) (js : List Slot) (k : Slot → Res → Proc Res)
      (hi : i = .download key) (some : js ≠ []) (hj : ∀ j ∈ js, ∃ id c, j = .chunk id c) :
      Shape i (.await js k)

theorem shape_of_reach {g : NodeGuard} (hr : Reach machine g (.idle w) p) {q : Proc Res}
    (hl : p.threads i = some q) : Shape i q := by
  obtain ⟨t, rfl, within, joins⟩ := program_of_reach hr hl
  cases q with
  | ret r => exact .ret r
  | op o k => exact .op o k
  | spawn t' k =>
      cases t with
      | tick =>
          obtain ⟨r, rfl⟩ := within.1
          exact .download r k rfl
      | download r =>
          obtain ⟨c, dir, rfl⟩ := within.1
          exact .chunk _ k
      | _ => exact within.1.elim
  | await js k =>
      obtain ⟨j, hj⟩ := List.exists_mem_of_ne_nil js joins.1
      obtain ⟨r, rfl, -⟩ := of_await (within.1 j hj)
      refine .await r.key js k rfl joins.1 fun j hj => ?_
      obtain ⟨_, -, c, rfl⟩ := of_await (within.1 j hj)
      exact ⟨_, c, rfl⟩

/-- A program waits for tasks it has started. -/
theorem child_of_next {g : NodeGuard} (hr : Reach machine g (.idle w) p) {j : Slot} {r : Res}
    (hn : Next p i (.await i j r)) : j ∈ children (L := lang) slotOf i p.hist := by
  have own : j ∈ children (L := lang) slotOf i (own (L := lang) slotOf i p.hist) :=
    next_cause hr hn
  rwa [children_own (L := lang)] at own

/-- The waits of a slot lead to one where something can happen. -/
abbrev Settles (p : NodePool) (i : Slot) : Prop := Settled machine Needs Ends p i

variable {q : Proc Res}

/-- A chunk task can be started whenever a program comes to it. -/
theorem settles_spawn (hR : Run n w p) {d : DownloadFileChunk} {k : Proc Res}
    (hl : p.threads i = some (.spawn (.chunk d) k)) : Settles p i :=
  .now (.go (.spawn hl
    (Option.not_isSome_iff_eq_none.mp (Bool.eq_false_iff.mp ((hR.alone hl).2 d rfl)))))

/-- The event loop waits for nobody but a download that has ended. -/
theorem settles_eventLoop (hR : Run n w p) (hl : p.threads .eventLoop = some q) :
    Settles p .eventLoop := by
  have hr := reach_environment hR.reach
  have shape := shape_of_reach hr hl
  cases shape with
  | ret r => exact .now (.go (.exit hl rfl))
  | op o k =>
      obtain ⟨c, hc, he⟩ | blocked := runs_or_blocked o p.world
      · exact .now (.go (.op hl hc he))
      -- it takes no permits, sends no commands and asks for no answers
      cases blocked with
      | acquire h =>
          obtain ⟨⟨_, _, e⟩, -⟩ := next_cause hr (.op hl ())
          cases e
      | send command h => exact absurd rfl (next_cause hr (.op hl (.error ())))
      | metadata tx h => exact absurd rfl (next_cause hr (.op hl (.error ()))).1
      | chunk tx h => exact absurd rfl (next_cause hr (.op hl (.error ()))).1
      | recvCommand h =>
          -- the pass has begun because there was a command
          obtain ⟨-, e, before, hb, ho⟩ := next_cause hr (.op hl (.provideFileChunk ⟨0, 0⟩))
          exact absurd h (commands_of_begin hR.reach hb ho)
      | diverge => exact .now (.loops hl)
  | download r k hi =>
      cases hf : p.threads (.download r.key) with
      | none => exact .now (.go (.spawn hl hf))
      | some q' =>
          -- the key was not active, so the download there has left
          have alone := (hR.alone hl).1 r rfl
          by_cases go : ∀ x, q' ≠ .ret x
          · exact absurd ⟨congrArg Option.isSome hf, stays hr hf go⟩ alone
          · obtain ⟨x, hx⟩ := not_forall.mp go
            cases not_not.mp hx
            exact .after (.spawn hl) (.now (.go (.exit hf rfl)))
  | chunk d k => exact settles_spawn hR hl
  | await key js k hi => cases hi

/-- The event loop gets to the commands. -/
theorem settles_queued (hR : Run n w p) (queued : p.world.chan.commands ≠ []) :
    Settles p .eventLoop := by
  cases hf : p.threads .eventLoop with
  | some q => exact settles_eventLoop hR hf
  | none => exact .now (.command hf queued)

/-- Whoever asks waits for the event loop, or for the network. -/
theorem settles_asks (hR : Run n w p) {command : P2pCommand} {t : Ticket}
    (sent : HasSent i command (own (L := lang) slotOf i p.hist)) (ht : ticket? command = some t)
    (asks : Asks p i t) (waits : ¬ Used p.world t)
    (after : Settles p .eventLoop → Settles p i) : Settles p i := by
  have hr := reach_environment hR.reach
  obtain queued | taken := sent_or_taken hr (sinceCrash_own p.hist sent)
  · exact after (settles_queued hR (List.ne_nil_of_mem queued))
  · -- the command was taken, so its request is in the maps or used up
    cases hf : p.threads .eventLoop with
    | some q => exact after (settles_eventLoop hR hf)
    | none =>
        have idle : p.view.live .eventLoop = false := congrArg Option.isSome hf
        obtain settles | lost | used := open_lost_or_used hR.events hR.queue hr idle taken ht
        · exact .now (.request hf asks settles)
        · exact .now (.lost hf asks lost)
        · exact absurd used waits

/-- Whatever an operation waits for, if not for a permit. -/
theorem settles_op (hR : Run n w p) {o : Op} {k : o.Ans → Proc Res}
    (hl : p.threads i = some (.op o k)) (ho : o ≠ .sync .acquire) : Settles p i := by
  have hr := reach_environment hR.reach
  obtain ⟨c, hc, he⟩ | blocked := runs_or_blocked o p.world
  · exact .now (.go (.op hl hc he))
  cases blocked with
  | acquire h => exact absurd rfl ho
  | send command h => exact .after (.op hl (.room command)) (settles_queued hR h)
  | recvCommand h =>
      -- Only the event loop receives commands, and its pass began with one.
      obtain ⟨-, e, before, hb, own⟩ := next_cause hr (.op hl (.provideFileChunk ⟨0, 0⟩))
      have loop := (next_cause hr (.op hl (.provideFileChunk ⟨0, 0⟩))).1
      subst loop
      exact absurd h (commands_of_begin hR.reach hb own)
  | metadata tx h =>
      obtain ⟨-, request, sent⟩ := next_cause hr (.op hl (.error ()))
      have waits : ¬ Used p.world (.metadata tx) := fun used => by cases h.symm.trans used
      exact settles_asks hR sent rfl (.metadata hl) waits (.after (.op hl (.metadata tx)))
  | chunk tx h =>
      obtain ⟨-, request, sent⟩ := next_cause hr (.op hl (.error ()))
      have waits : ¬ Used p.world (.chunk tx) := fun used => by cases h.symm.trans used
      exact settles_asks hR sent rfl (.chunk hl) waits (.after (.op hl (.chunk tx)))
  | diverge => exact .now (.loops hl)

/-- A task that holds a permit is at work: it has not ended, and does not
ask for another one. -/
theorem settles_holder (hR : Run n w p) (hi : i ∈ holders (marks p.hist)) : Settles p i := by
  have hr := reach_environment hR.reach
  obtain ⟨id, c, rfl, live⟩ := hR.sound.holding i hi
  -- where it stands it holds a permit, so it has not come to its end, and
  -- it has not come to the operation that asks for one
  have holds : (holders (marks (own (L := lang) slotOf (.chunk id c) p.hist))).count
      (.chunk id c) ≠ 0 := by
    rw [Waits.holders_own]
    exact (List.count_pos_iff.mpr hi).ne'
  obtain ⟨q, hl⟩ := Option.isSome_iff_exists.mp live
  have shape := shape_of_reach hr hl
  cases shape with
  | ret r => exact absurd ((Waits.solo _).ended hr hl).permits holds
  | op o k =>
      refine settles_op hR hl ?_
      rintro rfl
      exact holds (next_cause hr (.op hl ())).2
  | download r k hi => cases hi
  | chunk d k =>
      obtain ⟨t, ht, within, -⟩ := program_of_reach hr hl
      cases t with
      | chunk d => exact within.1.elim
      | _ => cases ht
  | await key js k hi => cases hi

/-- A permit is free, or somebody at work holds it. -/
theorem settles_acquire (hR : Run n w p) {k : Unit → Proc Res}
    (hl : p.threads i = some (.op (.sync .acquire) k)) : Settles p i := by
  obtain ⟨c, hc, he⟩ | blocked := runs_or_blocked (.sync .acquire) p.world
  · exact .now (.go (.op hl hc he))
  cases blocked with
  | acquire h =>
      -- no permit is free, so all of them are held, and there are some
      have permits : p.world.sync.permits + (holders (marks p.hist)).length = n :=
        hR.sound.permits
      have positive := hR.positive
      obtain ⟨j, hj⟩ := List.exists_mem_of_length_pos
        (show 0 < (holders (marks p.hist)).length by omega)
      exact .after (.op hl (.permit hj)) (settles_holder hR hj)

/-- Any operation. -/
theorem settles_any (hR : Run n w p) {o : Op} {k : o.Ans → Proc Res}
    (hl : p.threads i = some (.op o k)) : Settles p i := by
  by_cases ho : o = .sync .acquire
  · subst ho
    exact settles_acquire hR hl
  · exact settles_op hR hl ho

end Proof

/-! ### A download with one permit -/

section Example

open Reference

attribute [local instance] platform

/-- The program of a slot has not ended. -/
def unfinished (p : NodePool) (i : Slot) : Bool :=
  match p.threads i with
  | some (.ret _) => false
  | some _ => true
  | none => false

end Example

end RustDfs.NeverStuck
