import RustDfs.Conc.Pool

/-!
# `RustDfs.Conc.Sequential`: a program that runs alone

`Prog.Total` is total correctness of a program that runs alone on a
world: every operation it comes to can be answered in an allowed way,
and along all allowed answers it ends with its postcondition. A program
is a finite tree, so following all answers is all it takes to end.

The rules follow the text of a program: `total_perform` for an operation,
`total_seq` and its variants for a sequence.
-/

set_option autoImplicit false

namespace RustDfs.Conc

variable {L : Lang} {C W : Type} {α β ε ε' : Type}

namespace Prog

/-- Run alone from a world, with answers out of `allowed` only, the
program never waits and ends with `Q`. -/
def Total (exec : (o : L.Op) → C → W → Option (L.Ans o × W))
    (allowed : (o : L.Op) → L.Ans o → Prop) : Prog L α → (α → W → Prop) → W → Prop
  | ret a, Q, w => Q a w
  | op o k, Q, w =>
      (∃ c a w', exec o c w = some (a, w') ∧ allowed o a) ∧
      ∀ c a w', exec o c w = some (a, w') → allowed o a → (k a).Total exec allowed Q w'
  | spawn _ _, _, _ => False
  | await _ _, _, _ => False

variable {exec : (o : L.Op) → C → W → Option (L.Ans o × W)}
  {allowed : (o : L.Op) → L.Ans o → Prop} {w : W}

/-- One operation: it can be answered, and every answer fits. -/
theorem total_perform {o : L.Op} {Q : L.Ans o → W → Prop}
    (can : ∃ c a w', exec o c w = some (a, w') ∧ allowed o a)
    (fits : ∀ c a w', exec o c w = some (a, w') → allowed o a → Q a w') :
    (perform o).Total exec allowed Q w :=
  ⟨can, fits⟩

/-- A weaker postcondition. -/
theorem total_mono {p : Prog L α} {Q Q' : α → W → Prop} (hQ : ∀ a w, Q a w → Q' a w)
    (h : p.Total exec allowed Q w) : p.Total exec allowed Q' w := by
  induction p generalizing w with
  | ret a => exact hQ a w h
  | op o k ih => exact ⟨h.1, fun c a w' he ha => ih a (h.2 c a w' he ha)⟩
  | spawn t k ih => exact h
  | await js k ih => exact h

/-- A sequence runs through when the first program ends where the second
runs through. -/
theorem total_bind {p : Prog L α} {f : α → Prog L β} {Q : β → W → Prop}
    (h : p.Total exec allowed (fun a w => (f a).Total exec allowed Q w) w) :
    (p >>= f).Total exec allowed Q w := by
  induction p generalizing w with
  | ret a => exact h
  | op o k ih => exact ⟨h.1, fun c a w' he ha => ih a (h.2 c a w' he ha)⟩
  | spawn t k ih => exact h
  | await js k ih => exact h

/-- The rule of a sequence, with what holds in between. -/
theorem total_seq {p : Prog L α} {f : α → Prog L β} {B : α → W → Prop} {Q : β → W → Prop}
    (hp : p.Total exec allowed B w)
    (hf : ∀ a w, B a w → (f a).Total exec allowed Q w) : (p >>= f).Total exec allowed Q w :=
  total_bind (total_mono hf hp)

/-- The rule of a sequence whose first program may fail. -/
theorem total_bindE {x : ExceptT ε (Prog L) α} {f : α → ExceptT ε (Prog L) β}
    {Q : Except ε β → W → Prop}
    (hx : x.run.Total exec allowed (fun r w => match r with
      | .ok a => (f a).run.Total exec allowed Q w
      | .error e => Q (.error e) w) w) :
    (x >>= f).run.Total exec allowed Q w := by
  refine total_seq hx fun r w hr => ?_
  cases r with
  | ok a => exact hr
  | error e => exact hr

/-- The rule of a sequence whose first program does not fail here. -/
theorem total_seqE {x : ExceptT ε (Prog L) α} {f : α → ExceptT ε (Prog L) β}
    {B : α → W → Prop} {Q : Except ε β → W → Prop}
    (hx : x.run.Total exec allowed (fun r w => ∃ a, r = .ok a ∧ B a w) w)
    (ok : ∀ a w, B a w → (f a).run.Total exec allowed Q w) :
    (x >>= f).run.Total exec allowed Q w := by
  refine total_seq hx fun r w hr => ?_
  obtain ⟨a, rfl, h⟩ := hr
  exact ok a w h

/-- The same with renamed errors. -/
theorem total_seqA {x : ExceptT ε (Prog L) α} {h : ε → ε'} {f : α → ExceptT ε' (Prog L) β}
    {B : α → W → Prop} {Q : Except ε' β → W → Prop}
    (hx : x.run.Total exec allowed (fun r w => ∃ a, r = .ok a ∧ B a w) w)
    (ok : ∀ a w, B a w → (f a).run.Total exec allowed Q w) :
    (x.adapt h >>= f).run.Total exec allowed Q w := by
  refine total_bind (total_seq hx fun r w hr => ?_)
  obtain ⟨a, rfl, hB⟩ := hr
  exact ok a w hB

/-- The rule of a sequence whose first program cannot fail. -/
theorem total_seqL {p : Prog L α} {f : α → ExceptT ε (Prog L) β} {B : α → W → Prop}
    {Q : Except ε β → W → Prop} (hp : p.Total exec allowed B w)
    (ok : ∀ a w, B a w → (f a).run.Total exec allowed Q w) :
    (ExceptT.lift p >>= f).run.Total exec allowed Q w :=
  total_bind (total_seq hp ok)

end Prog

end RustDfs.Conc
