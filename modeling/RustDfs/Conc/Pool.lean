import Mathlib.Logic.Function.Basic
import RustDfs.Conc.Prog

/-!
# `RustDfs.Conc.Pool`: programs that run side by side

A `Pool` is a set of running programs, one a slot, over a shared world,
with the history of everything that happened. A `Machine` says what the
operations do to the world, which program a task stands for and which
slot it runs in. One step lets one slot take one transition:

* `op`: the slot's next operation runs. The environment resolves the
  operation's choice `c` (a failure, a short read, a reply).
* `spawn`: the slot starts a task in a slot that is free.
* `await`: the slot takes the result of one of the ended tasks it waits
  for, and frees that task's slot.
* `start`: the environment starts a task in a free slot.
* `exit`: an ended program leaves its slot, if the machine does not
  keep it there (`keeps`) for a later `await` or for its result.
* `crash`: every program is lost. The world keeps what survives.

A slot names one place, so two live tasks of one name never coexist in
a pool. Whether a `spawn` can find its slot occupied is a question
about the programs, not about this file.

`Guard` restricts runs: a step is part of a guarded run only if the
guard allows its event in the state before it.
-/

set_option autoImplicit false

namespace RustDfs.Conc

/-- What the operations, the tasks and a crash do. `exec` is `none`
where the operation has to wait or the choice does not fit. -/
structure Machine (L : Lang) (C W : Type) where
  exec : L.Slot → (o : L.Op) → C → W → Option (L.Ans o × W)
  slotOf : L.Task → L.Slot
  body : L.Task → Prog L L.Res
  keeps : L.Slot → Bool
  crash : W → W

/-- One thing that happened in a run. -/
inductive Event (L : Lang) : Type where
  | op (i : L.Slot) (o : L.Op) (a : L.Ans o)
  | spawn (i : L.Slot) (t : L.Task)
  | await (i j : L.Slot) (r : L.Res)
  | start (t : L.Task)
  | exit (i : L.Slot) (r : L.Res)
  | crash

/-- Running programs, the shared world, and the history with the latest
event first. -/
structure Pool (L : Lang) (W : Type) where
  threads : L.Slot → Option (Prog L L.Res)
  world : W
  hist : List (Event L)

/-- What assertions about a pool may mention: the world, the history
and which slots are occupied, but not the programs themselves. -/
structure View (L : Lang) (W : Type) where
  world : W
  hist : List (Event L)
  live : L.Slot → Bool

variable {L : Lang} {C W : Type}

/-- The pool with no program running and nothing in its history. -/
def Pool.idle (w : W) : Pool L W := ⟨fun _ => none, w, []⟩

/-- The view of a pool. -/
def Pool.view (p : Pool L W) : View L W :=
  ⟨p.world, p.hist, fun i => (p.threads i).isSome⟩

/-- A condition on the steps of a run: the state before the step and
what happens in it. -/
abbrev Guard (L : Lang) (W : Type) := View L W → Event L → Prop

namespace View

variable [DecidableEq L.Slot]

/-- The view after an operation of slot `i`. -/
def op (v : View L W) (i : L.Slot) (o : L.Op) (a : L.Ans o) (w : W) : View L W :=
  ⟨w, .op i o a :: v.hist, v.live⟩

/-- The view after slot `i` started task `t` in slot `j`. -/
def spawn (v : View L W) (i : L.Slot) (t : L.Task) (j : L.Slot) : View L W :=
  ⟨v.world, .spawn i t :: v.hist, Function.update v.live j true⟩

/-- The view after slot `i` took the result `r` of slot `j`. -/
def await (v : View L W) (i j : L.Slot) (r : L.Res) : View L W :=
  ⟨v.world, .await i j r :: v.hist, Function.update v.live j false⟩

/-- The view after the environment started task `t` in slot `j`. -/
def start (v : View L W) (t : L.Task) (j : L.Slot) : View L W :=
  ⟨v.world, .start t :: v.hist, Function.update v.live j true⟩

/-- The view after the program of slot `i` left with result `r`. -/
def exit (v : View L W) (i : L.Slot) (r : L.Res) : View L W :=
  ⟨v.world, .exit i r :: v.hist, Function.update v.live i false⟩

/-- The view after a crash. -/
def crash (v : View L W) (w : W) : View L W :=
  ⟨w, .crash :: v.hist, fun _ => false⟩

end View

section Steps

variable [DecidableEq L.Slot] (M : Machine L C W)

/-- One step of a pool under a guard, with its event. -/
inductive Step (g : Guard L W) : Pool L W → Event L → Pool L W → Prop
  | op {p : Pool L W} {i : L.Slot} {o : L.Op} {k : L.Ans o → Prog L L.Res} {c : C}
      {a : L.Ans o} {w : W} :
      p.threads i = some (.op o k) → M.exec i o c p.world = some (a, w) →
      g p.view (.op i o a) →
      Step g p (.op i o a)
        ⟨Function.update p.threads i (some (k a)), w, .op i o a :: p.hist⟩
  | spawn {p : Pool L W} {i : L.Slot} {t : L.Task} {k : Prog L L.Res} :
      p.threads i = some (.spawn t k) → p.threads (M.slotOf t) = none →
      g p.view (.spawn i t) →
      Step g p (.spawn i t)
        ⟨Function.update (Function.update p.threads i (some k)) (M.slotOf t)
          (some (M.body t)), p.world, .spawn i t :: p.hist⟩
  | await {p : Pool L W} {i j : L.Slot} {js : List L.Slot}
      {k : L.Slot → L.Res → Prog L L.Res} {r : L.Res} :
      p.threads i = some (.await js k) → j ∈ js → p.threads j = some (.ret r) →
      g p.view (.await i j r) →
      Step g p (.await i j r)
        ⟨Function.update (Function.update p.threads i (some (k j r))) j none,
          p.world, .await i j r :: p.hist⟩
  | start {p : Pool L W} {t : L.Task} :
      p.threads (M.slotOf t) = none → g p.view (.start t) →
      Step g p (.start t)
        ⟨Function.update p.threads (M.slotOf t) (some (M.body t)), p.world,
          .start t :: p.hist⟩
  | exit {p : Pool L W} {i : L.Slot} {r : L.Res} :
      p.threads i = some (.ret r) → M.keeps i = false → g p.view (.exit i r) →
      Step g p (.exit i r)
        ⟨Function.update p.threads i none, p.world, .exit i r :: p.hist⟩
  | crash {p : Pool L W} :
      g p.view .crash →
      Step g p .crash ⟨fun _ => none, M.crash p.world, .crash :: p.hist⟩

/-- The pools a guarded run reaches. -/
inductive Reach (g : Guard L W) (p₀ : Pool L W) : Pool L W → Prop
  | refl : Reach g p₀ p₀
  | step {p p' : Pool L W} {e : Event L} :
      Reach g p₀ p → Step M g p e p' → Reach g p₀ p'

variable {M} {g : Guard L W} {p₀ p₁ p₂ : Pool L W}

/-- Two runs, one after the other, are a run. -/
theorem Reach.trans (h₁ : Reach M g p₀ p₁) (h₂ : Reach M g p₁ p₂) : Reach M g p₀ p₂ := by
  induction h₂ with
  | refl => exact h₁
  | step _ hs ih => exact ih.step hs

/-- Every step puts its event in front of the history. -/
theorem Step.hist_eq {p p' : Pool L W} {e : Event L} (h : Step M g p e p') :
    p'.hist = e :: p.hist := by
  cases h <;> rfl

/-- A run only adds to the history. -/
theorem Reach.hist_suffix {p p' : Pool L W} (h : Reach M g p p') : p.hist <:+ p'.hist := by
  induction h with
  | refl => exact List.suffix_rfl
  | step _ hs ih => exact ih.trans (hs.hist_eq ▸ List.suffix_cons _ _)

/-- A step under a guard was allowed by it. -/
theorem Step.allowed {p p' : Pool L W} {e : Event L} (h : Step M g p e p') : g p.view e := by
  cases h <;> assumption

/-- A step may be taken under any guard that allows its event. -/
theorem Step.reguard {g' : Guard L W} {p p' : Pool L W} {e : Event L} (h : Step M g p e p')
    (hg : g' p.view e) : Step M g' p e p' := by
  cases h with
  | op h₁ h₂ _ => exact .op h₁ h₂ hg
  | spawn h₁ h₂ _ => exact .spawn h₁ h₂ hg
  | await h₁ h₂ h₃ _ => exact .await h₁ h₂ h₃ hg
  | start h₁ _ => exact .start h₁ hg
  | exit h₁ h₂ _ => exact .exit h₁ h₂ hg
  | crash _ => exact .crash hg

/-- A looser guard allows the same steps. -/
theorem Step.mono {g' : Guard L W} (hg : ∀ v e, g v e → g' v e) {p p' : Pool L W}
    {e : Event L} (h : Step M g p e p') : Step M g' p e p' :=
  h.reguard (hg _ _ h.allowed)

/-- Every event of a run was allowed. -/
theorem Reach.allowed {w : W} {p : Pool L W} (h : Reach M g (.idle w) p) {e : Event L}
    (he : e ∈ p.hist) : ∃ v, g v e := by
  induction h with
  | refl => cases he
  | step _ hs ih =>
      rw [hs.hist_eq] at he
      obtain rfl | he := List.mem_cons.mp he
      · exact ⟨_, hs.allowed⟩
      · exact ih he

/-- A guard may also ask for what holds in every state of the run. -/
theorem Reach.strengthen {A : View L W → Prop} (hA : ∀ p, Reach M g p₀ p → A p.view)
    {p : Pool L W} (h : Reach M g p₀ p) : Reach M (fun v e => g v e ∧ A v) p₀ p := by
  induction h with
  | refl => exact .refl
  | step hr hs ih => exact ih.step (hs.reguard ⟨hs.allowed, hA _ hr⟩)

end Steps

/-! ### Running a script

A move names the slot that takes the next step and what the environment
chooses. A script of moves runs a pool without any search, so a concrete
run can be evaluated. -/

/-- One entry of a script. -/
inductive Move (L : Lang) (C : Type) : Type where
  | op (i : L.Slot) (c : C)
  | spawn (i : L.Slot)
  | await (i j : L.Slot)
  | start (t : L.Task)
  | exit (i : L.Slot)
  | crash

section Scripts

variable [DecidableEq L.Slot] (M : Machine L C W)

/-- The step a move asks for, with its event, or `none` if the pool
cannot take it. -/
def next (p : Pool L W) : Move L C → Option (Event L × Pool L W)
  | .op i c =>
      match p.threads i with
      | some (.op o k) =>
          match M.exec i o c p.world with
          | some (a, w) => some (.op i o a,
              ⟨Function.update p.threads i (some (k a)), w, .op i o a :: p.hist⟩)
          | none => none
      | _ => none
  | .spawn i =>
      match p.threads i with
      | some (.spawn t k) =>
          match p.threads (M.slotOf t) with
          | none => some (.spawn i t,
              ⟨Function.update (Function.update p.threads i (some k)) (M.slotOf t)
                (some (M.body t)), p.world, .spawn i t :: p.hist⟩)
          | some _ => none
      | _ => none
  | .await i j =>
      match p.threads i with
      | some (.await js k) =>
          match p.threads j with
          | some (.ret r) =>
              if j ∈ js then some (.await i j r,
                ⟨Function.update (Function.update p.threads i (some (k j r))) j none,
                  p.world, .await i j r :: p.hist⟩)
              else none
          | _ => none
      | _ => none
  | .start t =>
      match p.threads (M.slotOf t) with
      | none => some (.start t,
          ⟨Function.update p.threads (M.slotOf t) (some (M.body t)), p.world,
            .start t :: p.hist⟩)
      | some _ => none
  | .exit i =>
      match p.threads i with
      | some (.ret r) =>
          match M.keeps i with
          | false => some (.exit i r,
              ⟨Function.update p.threads i none, p.world, .exit i r :: p.hist⟩)
          | true => none
      | _ => none
  | .crash => some (.crash, ⟨fun _ => none, M.crash p.world, .crash :: p.hist⟩)

/-- The run of a script, under a guard the caller can decide. -/
def runScript (g : Guard L W) [∀ v e, Decidable (g v e)] :
    List (Move L C) → Pool L W → Option (Pool L W)
  | [], p => some p
  | m :: ms, p =>
      match next M p m with
      | some (e, p') => if g p.view e then runScript g ms p' else none
      | none => none

variable {M} {g : Guard L W}

/-- A move that can be taken is a step of the pool. -/
theorem step_of_next {p p' : Pool L W} {m : Move L C} {e : Event L}
    (h : next M p m = some (e, p')) (hg : g p.view e) : Step M g p e p' := by
  cases m with
  | op i c =>
      simp only [next] at h
      split at h
      · split at h
        · cases h; exact .op ‹_› ‹_› hg
        · cases h
      · cases h
  | spawn i =>
      simp only [next] at h
      split at h
      · split at h
        · cases h; exact .spawn ‹_› ‹_› hg
        · cases h
      · cases h
  | await i j =>
      simp only [next] at h
      split at h
      · split at h
        · split at h
          · cases h; exact .await ‹_› ‹_› ‹_› hg
          · cases h
        · cases h
      · cases h
  | start t =>
      simp only [next] at h
      split at h
      · cases h; exact .start ‹_› hg
      · cases h
  | exit i =>
      simp only [next] at h
      split at h
      · split at h
        · cases h; exact .exit ‹_› ‹_› hg
        · cases h
      · cases h
  | crash => cases h; exact .crash hg

/-- A script that runs through leads to a reachable pool. -/
theorem reach_of_runScript [∀ v e, Decidable (g v e)] {ms : List (Move L C)}
    {p p' : Pool L W} (h : runScript M g ms p = some p') : Reach M g p p' := by
  induction ms generalizing p with
  | nil => cases h; exact .refl
  | cons m ms ih =>
      simp only [runScript] at h
      split at h
      · split at h
        · exact (Reach.refl.step (step_of_next ‹_› ‹_›)).trans (ih h)
        · cases h
      · cases h

/-- A script whose result passes a test leads to a reachable pool that
passes it. -/
theorem exists_reach_of_runScript [∀ v e, Decidable (g v e)] (ms : List (Move L C))
    {p : Pool L W} {test : Pool L W → Prop} [DecidablePred test]
    (h : (runScript M g ms p).any (fun p' => decide (test p')) = true) :
    ∃ p', Reach M g p p' ∧ test p' := by
  cases hp : runScript M g ms p with
  | none => simp [hp] at h
  | some p' =>
      rw [hp, Option.any_some] at h
      exact ⟨p', reach_of_runScript hp, of_decide_eq_true h⟩

/-- Two scripts, one after the other, whose results pass a test. -/
theorem exists_reaches_of_runScript [∀ v e, Decidable (g v e)] (ms ms' : List (Move L C))
    {p : Pool L W} {test : Pool L W → Pool L W → Prop} [∀ q q', Decidable (test q q')]
    (h : (runScript M g ms p).any (fun q =>
      (runScript M g ms' q).any fun q' => decide (test q q')) = true) :
    ∃ q q', Reach M g p q ∧ Reach M g q q' ∧ test q q' := by
  cases hp : runScript M g ms p with
  | none => simp [hp] at h
  | some q =>
      rw [hp, Option.any_some] at h
      obtain ⟨q', hq, ht⟩ := exists_reach_of_runScript ms' h
      exact ⟨q, q', reach_of_runScript hp, hq, ht⟩

end Scripts

end RustDfs.Conc
