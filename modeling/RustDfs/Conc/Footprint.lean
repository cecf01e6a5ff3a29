import RustDfs.Conc.RelyGuarantee

/-!
# `RustDfs.Conc.Footprint`: what a program can do at all

A `Footprint` bounds the operations a program performs, the tasks it
starts and the slots it waits for, whatever the answers it gets.
`Prog.Within` is read off the text of a program, through `within_bind`
and `within_bindE`. So is `Prog.Joins`: the program never waits for
nothing.

`Protocol.safe_within` is the use of a footprint: when every operation
of the footprint keeps an assertion and stays within the guarantee, so
does the program.
-/

set_option autoImplicit false

namespace RustDfs.Conc

variable {L : Lang} {α β ε ε' : Type}

/-- Bounds on what a program does. -/
structure Footprint (L : Lang) where
  op : L.Op → Prop
  spawn : L.Task → Prop
  await : L.Slot → Prop

/-- Operations only: nothing is started and nothing waited for. -/
def Footprint.ops (O : L.Op → Prop) : Footprint L := ⟨O, fun _ => False, fun _ => False⟩

namespace Prog

/-- The program stays within the footprint, whatever it is answered. -/
def Within (F : Footprint L) : Prog L α → Prop
  | ret _ => True
  | op o k => F.op o ∧ ∀ a, (k a).Within F
  | spawn t k => F.spawn t ∧ k.Within F
  | await js k => (∀ j ∈ js, F.await j) ∧ ∀ j r, (k j r).Within F

variable {F : Footprint L}

@[simp] theorem within_perform (o : L.Op) : (perform o).Within F ↔ F.op o :=
  ⟨fun h => h.1, fun h => ⟨h, fun _ => trivial⟩⟩

/-- A sequence stays within what its parts stay within. -/
theorem within_bind {p : Prog L α} {f : α → Prog L β} (hp : p.Within F)
    (hf : ∀ a, (f a).Within F) : (p >>= f).Within F := by
  induction p with
  | ret a => exact hf a
  | op o k ih => exact ⟨hp.1, fun a => ih a (hp.2 a)⟩
  | spawn t k ih => exact ⟨hp.1, ih hp.2⟩
  | await js k ih => exact ⟨hp.1, fun j r => ih j r (hp.2 j r)⟩

/-- Every result of the program satisfies `Q`, whatever it is answered. -/
def Ends (Q : α → Prop) : Prog L α → Prop
  | ret a => Q a
  | op _ k => ∀ a, (k a).Ends Q
  | spawn _ k => k.Ends Q
  | await _ k => ∀ j r, (k j r).Ends Q

/-- Nothing is asked of the results. -/
theorem ends_true (p : Prog L α) : p.Ends fun _ => True := by
  induction p with
  | ret a => trivial
  | op o k ih => exact ih
  | spawn t k ih => exact ih
  | await js k ih => exact ih

/-- The results of a sequence are results of its second part. -/
theorem ends_bind {Q : α → Prop} {R : β → Prop} {p : Prog L α} {f : α → Prog L β}
    (hp : p.Ends Q) (hf : ∀ a, Q a → (f a).Ends R) : (p >>= f).Ends R := by
  induction p with
  | ret a => exact hf a hp
  | op o k ih => exact fun a => ih a (hp a)
  | spawn t k ih => exact ih hp
  | await js k ih => exact fun j r => ih j r (hp j r)

/-- The results of a sequence whose first program may fail: its errors
and the results of its second part. -/
theorem ends_bindE {Q : Except ε β → Prop} {x : ExceptT ε (Prog L) α}
    {f : α → ExceptT ε (Prog L) β} (error : ∀ e, Q (.error e)) (ok : ∀ a, (f a).run.Ends Q) :
    (x >>= f).run.Ends Q :=
  ends_bind (ends_true _) fun r _ => by
    cases r with
    | ok a => exact ok a
    | error e => exact error e

/-- A sequence stays within what its parts stay within, where the second
part may count on the results of the first. -/
theorem within_bind_ends {Q : α → Prop} {p : Prog L α} {f : α → Prog L β} (hp : p.Within F)
    (hQ : p.Ends Q) (hf : ∀ a, Q a → (f a).Within F) : (p >>= f).Within F := by
  induction p with
  | ret a => exact hf a hQ
  | op o k ih => exact ⟨hp.1, fun a => ih a (hp.2 a) (hQ a)⟩
  | spawn t k ih => exact ⟨hp.1, ih hp.2 hQ⟩
  | await js k ih => exact ⟨hp.1, fun j r => ih j r (hp.2 j r) (hQ j r)⟩

/-- The rule of a sequence whose first program may fail. -/
theorem within_bindE {x : ExceptT ε (Prog L) α} {f : α → ExceptT ε (Prog L) β}
    (hx : x.run.Within F) (hf : ∀ a, (f a).run.Within F) : (x >>= f).run.Within F :=
  within_bind hx fun r => by
    cases r with
    | ok a => exact hf a
    | error e => trivial

/-- Renaming errors does nothing. -/
theorem within_adapt {x : ExceptT ε (Prog L) α} (f : ε → ε') (hx : x.run.Within F) :
    (ExceptT.adapt f x).run.Within F :=
  within_bind hx fun _ => trivial

/-- A program that cannot fail, read as one that may. -/
theorem within_lift {p : Prog L α} (hp : p.Within F) :
    (ExceptT.lift (ε := ε) p).run.Within F :=
  within_bind hp fun _ => trivial

/-- A larger footprint. -/
theorem Within.mono {F' : Footprint L} {p : Prog L α} (hO : ∀ o, F.op o → F'.op o)
    (hT : ∀ t, F.spawn t → F'.spawn t) (hJ : ∀ j, F.await j → F'.await j)
    (h : p.Within F) : p.Within F' := by
  induction p with
  | ret a => trivial
  | op o k ih => exact ⟨hO o h.1, fun a => ih a (h.2 a)⟩
  | spawn t k ih => exact ⟨hT t h.1, ih h.2⟩
  | await js k ih => exact ⟨fun j hj => hJ j (h.1 j hj), fun j r => ih j r (h.2 j r)⟩

/-- A footprint with these operations and more. -/
theorem Within.of_ops {O : L.Op → Prop} {p : Prog L α} (h : p.Within (.ops O))
    (hO : ∀ o, O o → F.op o) : p.Within F :=
  @Within.mono _ _ (.ops O) F p hO (fun _ h => h.elim) (fun _ h => h.elim) h

/-- A larger set of operations. -/
theorem Within.mono_ops {O O' : L.Op → Prop} {p : Prog L α} (hO : ∀ o, O o → O' o)
    (h : p.Within (.ops O)) : p.Within (.ops O') :=
  h.of_ops hO

/-! ### Waits -/

/-- Whenever the program waits for tasks, there is one it waits for. -/
def Joins : Prog L α → Prop
  | ret _ => True
  | op _ k => ∀ a, (k a).Joins
  | spawn _ k => k.Joins
  | await js k => js ≠ [] ∧ ∀ j ∈ js, ∀ r, (k j r).Joins

theorem joins_perform (o : L.Op) : (perform o).Joins := fun _ => trivial

theorem joins_bind {p : Prog L α} {f : α → Prog L β} (hp : p.Joins) (hf : ∀ a, (f a).Joins) :
    (p >>= f).Joins := by
  induction p with
  | ret a => exact hf a
  | op o k ih => exact fun a => ih a (hp a)
  | spawn t k ih => exact ih hp
  | await js k ih => exact ⟨hp.1, fun j hj r => ih j r (hp.2 j hj r)⟩

theorem joins_bindE {x : ExceptT ε (Prog L) α} {f : α → ExceptT ε (Prog L) β}
    (hx : x.run.Joins) (hf : ∀ a, (f a).run.Joins) : (x >>= f).run.Joins :=
  joins_bind hx fun r => by
    cases r with
    | ok a => exact hf a
    | error e => trivial

theorem joins_adapt {x : ExceptT ε (Prog L) α} (f : ε → ε') (hx : x.run.Joins) :
    (ExceptT.adapt f x).run.Joins :=
  joins_bind hx fun _ => trivial

theorem joins_lift {p : Prog L α} (hp : p.Joins) : (ExceptT.lift (ε := ε) p).run.Joins :=
  joins_bind hp fun _ => trivial

end Prog

namespace Protocol

variable {C W : Type} [DecidableEq L.Slot] {M : Machine L C W} {g : Guard L W}
  {P : Protocol L W} {i : L.Slot}

/-- A safe program ends with one of its results. -/
theorem safe_ends {p : Prog L α} {Q : α → Prop} {B : α → View L W → Prop} {v : View L W}
    (hp : p.Ends Q) (h : P.Safe M g i p B v) :
    P.Safe M g i p (fun a v => Q a ∧ B a v) v := by
  induction p generalizing v with
  | ret a => exact ⟨hp, h⟩
  | op o k ih =>
      intro v₁ hi hinv hl c a w he hg
      obtain ⟨hG, hk⟩ := h v₁ hi hinv hl c a w he hg
      exact ⟨hG, ih a (hp a) hk⟩
  | spawn t k ih =>
      intro v₁ hi hinv hl hf hg
      obtain ⟨hG, hpre, hk⟩ := h v₁ hi hinv hl hf hg
      exact ⟨hG, hpre, ih hp hk⟩
  | await js k ih =>
      intro v₁ hi hinv hl j hj hlj r hr hg
      obtain ⟨hG, hk⟩ := h v₁ hi hinv hl j hj hlj r hr hg
      exact ⟨hG, ih j r (hp j r) hk⟩

/-- An operation from a stable assertion on. -/
theorem safe_op {o : L.Op} {k : L.Ans o → Prog L α} {Q : α → View L W → Prop}
    {A : View L W → Prop} {v : View L W}
    (stable : ∀ v v', P.Interferes i v v' → A v → A v') (hv : A v)
    (step : ∀ v, A v → P.Inv v → v.live i = true → ∀ c a w,
      M.exec i o c v.world = some (a, w) → g v (.op i o a) →
      P.Guar i v (v.op i o a w) ∧ P.Safe M g i (k a) Q (v.op i o a w)) :
    P.Safe M g i (.op o k) Q v :=
  fun v₁ hi hinv hl c a w he hg => step v₁ (stable v v₁ hi hv) hinv hl c a w he hg

/-- A program within a footprint whose every transition keeps an
assertion and stays within the guarantee is safe and keeps the
assertion. -/
theorem safe_footprint {F : Footprint L} {p : Prog L α} {A : View L W → Prop} {v : View L W}
    (hp : p.Within F)
    (stable : ∀ v v', P.Interferes i v v' → A v → A v')
    (op : ∀ v, A v → P.Inv v → v.live i = true → ∀ o, F.op o → ∀ c a w,
      M.exec i o c v.world = some (a, w) → g v (.op i o a) →
      P.Guar i v (v.op i o a w) ∧ A (v.op i o a w))
    (spawn : ∀ v, A v → P.Inv v → v.live i = true → ∀ t, F.spawn t →
      v.live (M.slotOf t) = false → g v (.spawn i t) →
      P.Guar i v (v.spawn i t (M.slotOf t)) ∧ P.Pre t (v.spawn i t (M.slotOf t)) ∧
        A (v.spawn i t (M.slotOf t)))
    (await : ∀ v, A v → P.Inv v → v.live i = true → ∀ j, F.await j → v.live j = true →
      ∀ r, P.Post j r v → g v (.await i j r) →
      P.Guar i v (v.await i j r) ∧ A (v.await i j r))
    (hv : A v) : P.Safe M g i p (fun _ v => A v) v := by
  induction p generalizing v with
  | ret a => exact hv
  | op o k ih =>
      intro v₁ hi hinv hl c a w he hg
      obtain ⟨hG, hA⟩ := op v₁ (stable v v₁ hi hv) hinv hl o hp.1 c a w he hg
      exact ⟨hG, ih a (hp.2 a) hA⟩
  | spawn t k ih =>
      intro v₁ hi hinv hl hf hg
      obtain ⟨hG, hpre, hA⟩ := spawn v₁ (stable v v₁ hi hv) hinv hl t hp.1 hf hg
      exact ⟨hG, hpre, ih hp.2 hA⟩
  | await js k ih =>
      intro v₁ hi hinv hl j hj hlj r hr hg
      obtain ⟨hG, hA⟩ := await v₁ (stable v v₁ hi hv) hinv hl j (hp.1 j hj) hlj r hr hg
      exact ⟨hG, ih j r (hp.2 j r) hA⟩

/-- A program that only performs operations which keep an assertion and
stay within the guarantee is safe and keeps the assertion. -/
theorem safe_within {O : L.Op → Prop} {p : Prog L α} {A : View L W → Prop} {v : View L W}
    (hp : p.Within (.ops O))
    (stable : ∀ v v', P.Interferes i v v' → A v → A v')
    (step : ∀ v, A v → P.Inv v → v.live i = true → ∀ o, O o → ∀ c a w,
      M.exec i o c v.world = some (a, w) → g v (.op i o a) →
      P.Guar i v (v.op i o a w) ∧ A (v.op i o a w))
    (hv : A v) : P.Safe M g i p (fun _ v => A v) v :=
  safe_footprint hp stable step (fun _ _ _ _ _ h => h.elim) (fun _ _ _ _ _ h => h.elim) hv

end Protocol

end RustDfs.Conc
