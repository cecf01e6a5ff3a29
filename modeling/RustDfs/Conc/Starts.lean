import RustDfs.Conc.Footprint

/-!
# `RustDfs.Conc.Starts`: what holds when a program starts a task

`Safe` speaks about a `spawn` whose slot is free. That a program never
comes to a `spawn` whose slot is taken is a fact of its own: `Meets R`
says that wherever the program is about to start a task, `R` holds of the
task and the view. `Valid.meets_of_reach` carries it over to pools.
-/

set_option autoImplicit false

namespace RustDfs.Conc

variable {L : Lang} {C W α β : Type}

namespace Protocol

variable [DecidableEq L.Slot] (M : Machine L C W) (g : Guard L W) (P : Protocol L W)
  (R : L.Task → View L W → Prop) (i : L.Slot)

/-- Wherever program `p` of slot `i`, in view `v`, is about to start a
task, `R` holds. -/
def Meets : Prog L α → View L W → Prop
  | .ret _, _ => True
  | .op o k, v => ∀ v₁, P.Interferes i v v₁ → P.Inv v₁ → v₁.live i = true →
      ∀ c a w, M.exec i o c v₁.world = some (a, w) → g v₁ (.op i o a) →
        Meets (k a) (v₁.op i o a w)
  | .spawn t k, v => ∀ v₁, P.Interferes i v v₁ → P.Inv v₁ → v₁.live i = true →
      R t v₁ ∧ (v₁.live (M.slotOf t) = false → g v₁ (.spawn i t) →
        Meets k (v₁.spawn i t (M.slotOf t)))
  | .await js k, v => ∀ v₁, P.Interferes i v v₁ → P.Inv v₁ → v₁.live i = true →
      ∀ j ∈ js, v₁.live j = true → ∀ r, P.Post j r v₁ → g v₁ (.await i j r) →
        Meets (k j r) (v₁.await i j r)

variable {M g P R i}

/-- A program that starts nothing meets everything. -/
theorem meets_of_within {F : Footprint L} {p : Prog L α} (hF : ∀ t, ¬ F.spawn t)
    (hp : p.Within F) (v : View L W) : P.Meets M g R i p v := by
  induction p generalizing v with
  | ret a => trivial
  | op o k ih => exact fun v₁ _ _ _ _ a _ _ _ => ih a (hp.2 a) _
  | spawn t k ih => exact absurd hp.1 (hF t)
  | await js k ih => exact fun v₁ _ _ _ j _ _ r _ _ => ih j r (hp.2 j r) _

/-- The rule of a sequence. -/
theorem meets_seq {p : Prog L α} {f : α → Prog L β} {B : α → View L W → Prop} {v : View L W}
    (hm : P.Meets M g R i p v) (hs : P.Safe M g i p B v)
    (hf : ∀ a v, B a v → P.Meets M g R i (f a) v) : P.Meets M g R i (p >>= f) v := by
  induction p generalizing v with
  | ret a => exact hf a v hs
  | op o k ih =>
      intro v₁ hi hinv hl c a w he hg
      exact ih a (hm v₁ hi hinv hl c a w he hg) (hs v₁ hi hinv hl c a w he hg).2
  | spawn t k ih =>
      intro v₁ hi hinv hl
      obtain ⟨hR, hk⟩ := hm v₁ hi hinv hl
      exact ⟨hR, fun hf hg => ih (hk hf hg) (hs v₁ hi hinv hl hf hg).2.2⟩
  | await js k ih =>
      intro v₁ hi hinv hl j hj hlj r hr hg
      exact ih j r (hm v₁ hi hinv hl j hj hlj r hr hg) (hs v₁ hi hinv hl j hj hlj r hr hg).2

/-- The rule of a sequence whose second program starts nothing. -/
theorem meets_seq_within {F : Footprint L} {p : Prog L α} {f : α → Prog L β} {v : View L W}
    (hm : P.Meets M g R i p v) (hF : ∀ t, ¬ F.spawn t) (hf : ∀ a, (f a).Within F) :
    P.Meets M g R i (p >>= f) v := by
  induction p generalizing v with
  | ret a => exact meets_of_within hF (hf a) v
  | op o k ih => exact fun v₁ hi hinv hl c a w he hg => ih a (hm v₁ hi hinv hl c a w he hg)
  | spawn t k ih =>
      intro v₁ hi hinv hl
      obtain ⟨hR, hk⟩ := hm v₁ hi hinv hl
      exact ⟨hR, fun hf hg => ih (hk hf hg)⟩
  | await js k ih =>
      exact fun v₁ hi hinv hl j hj hlj r hr hg => ih j r (hm v₁ hi hinv hl j hj hlj r hr hg)

namespace Valid

/-- Interference changes nothing about it. -/
theorem meets_stable (hP : P.Valid M g) {p : Prog L α} {v v' : View L W}
    (hv : P.Interferes i v v') (h : P.Meets M g R i p v) : P.Meets M g R i p v' := by
  cases p with
  | ret a => trivial
  | op o k => exact fun v₁ h₁ => h v₁ (hP.interferes_trans hv h₁)
  | spawn t k => exact fun v₁ h₁ => h v₁ (hP.interferes_trans hv h₁)
  | await js k => exact fun v₁ h₁ => h v₁ (hP.interferes_trans hv h₁)

/-- A step of another slot is interference. -/
theorem interferes_of_step (hP : P.Valid M g) {p p' : Pool L W} {e : Event L}
    (hh : P.Holds M g p) (hs : Step M g p e p') (he : e.slot? ≠ some i) (hc : e ≠ .crash) :
    P.Interferes i p.view p'.view := by
  have hist : p.view.hist <:+ p'.view.hist := by
    rw [show p'.view.hist = e :: p.view.hist from hs.hist_eq]
    exact List.suffix_cons _ _
  have slot : ∀ j, e.slot? = some j → P.Interferes i p.view p'.view := fun j hj => by
    have hji : j ≠ i := fun h => he (h ▸ hj)
    exact ⟨hP.guar_rely j i _ _ hji hh.1 ((hP.holds_step hh hs).2 j hj), hist⟩
  cases hs with
  | op _ _ _ => exact slot _ rfl
  | spawn _ _ _ => exact slot _ rfl
  | await _ _ _ _ => exact slot _ rfl
  | exit _ _ _ => exact slot _ rfl
  | start hn hg =>
      refine ⟨?_, hist⟩
      rw [view_update]
      exact hP.start_rely _ _ hh.1 (by simp [Pool.view, hn]) hg i
  | crash _ => exact absurd rfl hc

/-- In every reachable pool the programs meet `R` from where they
stand. -/
theorem meets_of_reach (hP : P.Valid M g)
    (body : ∀ t v, P.Inv v → P.Pre t v → P.Meets M g R (M.slotOf t) (M.body t) v) {w : W}
    {p : Pool L W} (hinit : P.Inv (Pool.idle w).view) (h : Reach M g (.idle w) p) :
    ∀ i q, p.threads i = some q → P.Meets M g R i q p.view := by
  induction h with
  | refl => exact fun i q hi => by cases hi
  | @step p p' e hreach hs ih =>
      have hh := hP.holds_of_reach hinit hreach
      have hinv' := (hP.holds_step hh hs).1.1
      have hlive : ∀ {i q}, p.threads i = some q → p.view.live i = true := by
        intro i q h; simp [Pool.view, h]
      have hfree : ∀ {i}, p.threads i = none → p.view.live i = false := by
        intro i h; simp [Pool.view, h]
      -- What another slot runs is where it was.
      have rest : ∀ i q, p.threads i = some q → e.slot? ≠ some i → e ≠ .crash →
          P.Meets M g R i q p'.view := fun i q hi he hc =>
        hP.meets_stable (hP.interferes_of_step hh hs he hc) (ih i q hi)
      intro l q hl
      cases hs with
      | @op i o k c a w hi he hg =>
          obtain ⟨rfl, hq⟩ | ⟨hne, hl⟩ := running_update hl
          · cases hq
            have hk := ih l _ hi _ (hP.interferes_refl _) hh.1 (hlive hi) c a w he hg
            rw [view_replace hi]
            exact hk
          · exact rest l q hl (fun h => hne (Option.some.inj h).symm) (by simp)
      | @spawn i t k hi hn hg =>
          obtain ⟨-, hpre, -⟩ :=
            hh.2 i _ hi _ (hP.interferes_refl _) hh.1 (hlive hi) (hfree hn) hg
          have hk := (ih i _ hi _ (hP.interferes_refl _) hh.1 (hlive hi)).2 (hfree hn) hg
          obtain ⟨rfl, hq⟩ | ⟨-, hl⟩ := running_update hl
          · cases hq
            rw [view_replace_update _ hi] at hinv' ⊢
            exact body t _ hinv' hpre
          · obtain ⟨rfl, hq⟩ | ⟨hne, hl⟩ := running_update hl
            · cases hq
              rw [view_replace_update _ hi]
              exact hk
            · exact rest l q hl (fun h => hne (Option.some.inj h).symm) (by simp)
      | @await i j js k r hi hj hr hg =>
          have hk := ih i _ hi _ (hP.interferes_refl _) hh.1 (hlive hi) j hj (hlive hr) r
            (hh.2 j _ hr) hg
          obtain ⟨rfl, hq⟩ | ⟨-, hl⟩ := running_update hl
          · cases hq
          · obtain ⟨rfl, hq⟩ | ⟨hne, hl⟩ := running_update hl
            · cases hq
              rw [view_replace_update _ hi]
              exact hk
            · exact rest l q hl (fun h => hne (Option.some.inj h).symm) (by simp)
      | @start t hn hg =>
          obtain ⟨rfl, hq⟩ | ⟨-, hl⟩ := running_update hl
          · cases hq
            rw [view_update] at hinv' ⊢
            exact body t _ hinv' (hP.start_pre t _ hh.1 (hfree hn) hg)
          · exact rest l q hl (fun h => by cases h) (fun h => by cases h)
      | @exit i r hi hk hg =>
          obtain ⟨rfl, hq⟩ | ⟨hne, hl⟩ := running_update hl
          · cases hq
          · exact rest l q hl (fun h => hne (Option.some.inj h).symm) (by simp)
      | @crash hg => cases hl

/-- A task is started only where `R` holds. -/
theorem spawn_of_reach (hP : P.Valid M g)
    (body : ∀ t v, P.Inv v → P.Pre t v → P.Meets M g R (M.slotOf t) (M.body t) v) {w : W}
    {p : Pool L W} (hinit : P.Inv (Pool.idle w).view) (h : Reach M g (.idle w) p)
    {t : L.Task} {k : Prog L L.Res} (hi : p.threads i = some (.spawn t k)) : R t p.view :=
  (hP.meets_of_reach body hinit h i _ hi _ (hP.interferes_refl _)
    (hP.holds_of_reach hinit h).1 (by simp [Pool.view, hi])).1

end Valid

end Protocol

end RustDfs.Conc
