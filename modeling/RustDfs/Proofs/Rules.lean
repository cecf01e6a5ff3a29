import RustDfs.Proofs.Effects

/-!
# `RustDfs.Proofs.Rules`: rules for the loops of a node

A loop out of fuel does nothing any more, so it is safe; the retry loop
needs an assertion every failed attempt gives back.
-/

set_option autoImplicit false

namespace RustDfs

open Lib Conc

variable [Platform] {P : Protocol lang World} {g : NodeGuard} {i : Slot} {α ε : Type}

/-- A program that never goes on is safe. -/
theorem safe_diverge {Q : α → NodeView → Prop} {v : NodeView} :
    P.Safe machine g i (diverge : Proc α) Q v := by
  intro v₁ _ _ _ c a w he
  cases he

/-- The retry loop: a failed attempt gives back what the next one needs. -/
theorem safe_retry {action : ExceptT ε Proc α} {A : NodeView → Prop}
    {B : α → NodeView → Prop}
    (attempt : ∀ v, A v → P.Safe machine g i action.run (fun r v =>
      match r with
      | .ok a => B a v
      | .error _ => A v) v)
    (fuel : Nat) {v : NodeView} (hv : A v) :
    P.Safe machine g i (EventService.retry action fuel) B v := by
  induction fuel generalizing v with
  | zero => exact safe_diverge
  | succ fuel ih =>
      refine Protocol.safe_seq (attempt v hv) fun r v hr => ?_
      cases r with
      | ok a => exact hr
      | error e => exact ih hr

end RustDfs
