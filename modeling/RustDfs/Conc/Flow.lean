import RustDfs.Conc.Pool

/-!
# `RustDfs.Conc.Flow`: what comes out of the world

An `Invariant` is an assertion about the world and the history that every
operation keeps, whoever performs it; then no program has to be looked at.

A `Flow` is the invariant of a place in the world that things are put
into and taken from: a queue, a map, a register. `Flow.of_reach` says
that what an operation gets from it was put there by an earlier one, or
was there from the beginning.
-/

set_option autoImplicit false

namespace RustDfs.Conc

variable {L : Lang} {C W X : Type} [DecidableEq L.Slot]

/-- The events that leave the world alone. -/
inductive Event.Idle : Event L → Prop
  | spawn (i : L.Slot) (t : L.Task) : Idle (.spawn i t)
  | await (i j : L.Slot) (r : L.Res) : Idle (.await i j r)
  | start (t : L.Task) : Idle (.start t)
  | exit (i : L.Slot) (r : L.Res) : Idle (.exit i r)

/-- An assertion about the world and the history that every event keeps. -/
structure Invariant (M : Machine L C W) (g : Guard L W) (A : W → List (Event L) → Prop) :
    Prop where
  op : ∀ v i o c a w, A v.world v.hist → M.exec i o c v.world = some (a, w) →
    g v (.op i o a) → A w (.op i o a :: v.hist)
  idle : ∀ w e h, e.Idle → A w h → A w (e :: h)
  crash : ∀ w h, A w h → A (M.crash w) (.crash :: h)

/-- It holds in every reachable pool. -/
theorem Invariant.of_reach {M : Machine L C W} {g : Guard L W} {A : W → List (Event L) → Prop}
    (hA : Invariant M g A) {p₀ p : Pool L W} (init : A p₀.world p₀.hist)
    (h : Reach M g p₀ p) : A p.world p.hist := by
  induction h with
  | refl => exact init
  | step _ hs ih =>
      cases hs with
      | op _ he hg => exact hA.op _ _ _ _ _ _ ih he hg
      | spawn => exact hA.idle _ _ _ (.spawn _ _) ih
      | await => exact hA.idle _ _ _ (.await _ _ _) ih
      | start => exact hA.idle _ _ _ (.start _) ih
      | exit => exact hA.idle _ _ _ (.exit _ _) ih
      | crash => exact hA.crash _ _ ih

/-- A place in the world: what it holds, which events put something there,
and which get something from it. -/
structure Flow (M : Machine L C W) (Holds : W → X → Prop) (Puts Gets : Event L → X → Prop) :
    Prop where
  put : ∀ i o c a w w' x, M.exec i o c w = some (a, w') → Holds w' x →
    Holds w x ∨ Puts (.op i o a) x
  get : ∀ i o c a w w' x, M.exec i o c w = some (a, w') → Gets (.op i o a) x → Holds w x
  idle : ∀ e x, e.Idle → ¬ Gets e x
  crash : ∀ w x, Holds (M.crash w) x → Holds w x
  crashed : ∀ x, ¬ Gets .crash x

section Flows

variable {M : Machine L C W} {g : Guard L W} {Holds : W → X → Prop}
  {Puts Gets : Event L → X → Prop} {w₀ : W}

/-- It was there from the beginning, or an event put it there. -/
def Source (Holds : W → X → Prop) (Puts : Event L → X → Prop) (w₀ : W) (h : List (Event L))
    (x : X) : Prop :=
  Holds w₀ x ∨ ∃ e ∈ h, Puts e x

omit [DecidableEq L.Slot] in
theorem Source.cons {h : List (Event L)} {x : X} (hs : Source Holds Puts w₀ h x) (e : Event L) :
    Source Holds Puts w₀ (e :: h) x := by
  obtain start | ⟨e', he', put⟩ := hs
  · exact .inl start
  · exact .inr ⟨e', List.mem_cons_of_mem _ he', put⟩

/-- What the place holds has a source, and what was got from it had
one. -/
structure Sourced (Holds : W → X → Prop) (Puts Gets : Event L → X → Prop) (w₀ w : W)
    (h : List (Event L)) : Prop where
  holds : ∀ x, Holds w x → Source Holds Puts w₀ h x
  gets : ∀ e before x, e :: before <:+ h → Gets e x → Source Holds Puts w₀ before x

omit [DecidableEq L.Slot] in
/-- One event after which the place holds no more than before. -/
theorem Sourced.cons {w w' : W} {h : List (Event L)} {e : Event L}
    (hs : Sourced Holds Puts Gets w₀ w h) (put : ∀ x, Holds w' x → Holds w x ∨ Puts e x)
    (get : ∀ x, Gets e x → Holds w x) : Sourced Holds Puts Gets w₀ w' (e :: h) where
  holds x hx := by
    obtain hx | hx := put x hx
    · exact (hs.holds x hx).cons e
    · exact .inr ⟨e, List.mem_cons_self, hx⟩
  gets e' before x hsuffix hx := by
    obtain hnow | hthen := List.suffix_cons_iff.mp hsuffix
    · cases hnow
      exact hs.holds x (get x hx)
    · exact hs.gets e' before x hthen hx

/-- In every run what comes out of the place was put into it. -/
theorem Flow.of_reach (hF : Flow M Holds Puts Gets) {p : Pool L W}
    (h : Reach M g (.idle w₀) p) : Sourced Holds Puts Gets w₀ p.world p.hist := by
  have invariant : Invariant M g (Sourced Holds Puts Gets w₀) := by
    refine ⟨fun v i o c a w hs he _ => ?_, fun w e h he hs => ?_, fun w h hs => ?_⟩
    · exact hs.cons (fun x => hF.put _ _ _ _ _ _ x he) fun x => hF.get _ _ _ _ _ _ x he
    · exact hs.cons (fun x hx => .inl hx) fun x hx => absurd hx (hF.idle e x he)
    · exact hs.cons (fun x hx => .inl (hF.crash w x hx)) fun x hx => absurd hx (hF.crashed x)
  refine invariant.of_reach ⟨fun x hx => .inl hx, fun e before x hs => ?_⟩ h
  cases List.suffix_nil.mp hs

end Flows

end RustDfs.Conc
