import Mathlib.Data.List.Infix
import RustDfs.Conc.Pool

/-!
# `RustDfs.Conc.RelyGuarantee`: one program at a time

A `Protocol` is what the slots of a machine agree on: an invariant of
the views, for each slot what it lets happen between its own
transitions (`Rely`) and what its own transitions do (`Guar`), the
precondition a task is started under and the postcondition of what runs
in a slot.

`Protocol.Safe` reads one program against the protocol. Before every
transition of the program any interference within `Rely` may happen;
the transition itself must be within `Guar`. Nothing in it mentions the
other programs of the pool.

`Protocol.Valid` collects what makes the reading sound, most of all
that a guarantee of one slot is within the rely of every other.
`Valid.holds_of_reach` is the soundness theorem: in every reachable pool
the invariant holds and every running program is safe from there.
`Valid.guar_of_step` is its step form: every transition of a slot is
within that slot's guarantee.

The rules `safe_bind`, `safe_mono` and `safe_stable` put proofs about
programs together.
-/

set_option autoImplicit false

namespace RustDfs.Conc

variable {L : Lang} {C W : Type}

/-- The slot whose transition an event is, if a slot's program made it. -/
def Event.slot? : Event L → Option L.Slot
  | .op i _ _ => some i
  | .spawn i _ => some i
  | .await i _ _ => some i
  | .exit i _ => some i
  | .start _ => none
  | .crash => none

/-- What the slots of a machine agree on. -/
structure Protocol (L : Lang) (W : Type) where
  Inv : View L W → Prop
  Rely : L.Slot → View L W → View L W → Prop
  Guar : L.Slot → View L W → View L W → Prop
  Pre : L.Task → View L W → Prop
  Post : L.Slot → L.Res → View L W → Prop

namespace Protocol

/-- The protocol whose guarantees are read off its relies: a slot keeps
the invariant and does only what every other slot lets happen. -/
def ofRely (Inv : View L W → Prop) (Rely : L.Slot → View L W → View L W → Prop)
    (Pre : L.Task → View L W → Prop) (Post : L.Slot → L.Res → View L W → Prop) :
    Protocol L W where
  Inv := Inv
  Rely := Rely
  Guar i v v' := Inv v' ∧ ∀ j, j ≠ i → Rely j v v'
  Pre := Pre
  Post := Post

/-- What may happen between two transitions of slot `i`: anything
within its rely. The history only grows. -/
def Interferes (P : Protocol L W) (i : L.Slot) (v v' : View L W) : Prop :=
  P.Rely i v v' ∧ v.hist <:+ v'.hist

variable [DecidableEq L.Slot] (M : Machine L C W) (g : Guard L W) (P : Protocol L W)
  (i : L.Slot) {α β ε ε' : Type}

/-- Program `p` of slot `i`, started in view `v`, keeps to the protocol
and ends with `Q`. Before each of its transitions the view may change
within the rely. -/
def Safe : Prog L α → (α → View L W → Prop) → View L W → Prop
  | .ret a, Q, v => Q a v
  | .op o k, Q, v => ∀ v₁, P.Interferes i v v₁ → P.Inv v₁ → v₁.live i = true →
      ∀ c a w, M.exec i o c v₁.world = some (a, w) → g v₁ (.op i o a) →
        P.Guar i v₁ (v₁.op i o a w) ∧ Safe (k a) Q (v₁.op i o a w)
  | .spawn t k, Q, v => ∀ v₁, P.Interferes i v v₁ → P.Inv v₁ → v₁.live i = true →
      v₁.live (M.slotOf t) = false → g v₁ (.spawn i t) →
        P.Guar i v₁ (v₁.spawn i t (M.slotOf t)) ∧
        P.Pre t (v₁.spawn i t (M.slotOf t)) ∧
        Safe k Q (v₁.spawn i t (M.slotOf t))
  | .await js k, Q, v => ∀ v₁, P.Interferes i v v₁ → P.Inv v₁ → v₁.live i = true →
      ∀ j ∈ js, v₁.live j = true → ∀ r, P.Post j r v₁ → g v₁ (.await i j r) →
        P.Guar i v₁ (v₁.await i j r) ∧ Safe (k j r) Q (v₁.await i j r)

/-- What a protocol must satisfy for `Safe` to mean something about
pools. -/
structure Valid : Prop where
  rely_refl : ∀ i v, P.Rely i v v
  rely_trans : ∀ i v₁ v₂ v₃, P.Rely i v₁ v₂ → P.Rely i v₂ v₃ → P.Rely i v₁ v₃
  guar_rely : ∀ i j v v', i ≠ j → P.Inv v → P.Guar i v v' → P.Rely j v v'
  guar_inv : ∀ i v v', P.Inv v → P.Guar i v v' → P.Inv v'
  post_stable : ∀ i r v v', P.Interferes i v v' → P.Post i r v → P.Post i r v'
  start_rely : ∀ t v, P.Inv v → v.live (M.slotOf t) = false → g v (.start t) →
    ∀ j, P.Rely j v (v.start t (M.slotOf t))
  start_inv : ∀ t v, P.Inv v → v.live (M.slotOf t) = false → g v (.start t) →
    P.Inv (v.start t (M.slotOf t))
  start_pre : ∀ t v, P.Inv v → v.live (M.slotOf t) = false → g v (.start t) →
    P.Pre t (v.start t (M.slotOf t))
  exit_guar : ∀ i r v, P.Inv v → P.Post i r v → M.keeps i = false → g v (.exit i r) →
    P.Guar i v (v.exit i r)
  crash_inv : ∀ v, P.Inv v → g v .crash → P.Inv (v.crash (M.crash v.world))
  body_safe : ∀ t v, P.Inv v → P.Pre t v →
    P.Safe M g (M.slotOf t) (M.body t) (P.Post (M.slotOf t)) v

variable {M g P i}

@[simp] theorem safe_ret {a : α} {Q : α → View L W → Prop} {v : View L W} :
    P.Safe M g i (.ret a) Q v ↔ Q a v := Iff.rfl

/-- A weaker postcondition. -/
theorem safe_mono {p : Prog L α} {Q Q' : α → View L W → Prop} {v : View L W}
    (hQ : ∀ a v, Q a v → Q' a v) (h : P.Safe M g i p Q v) : P.Safe M g i p Q' v := by
  induction p generalizing v with
  | ret a => exact hQ a v h
  | op o k ih =>
      intro v₁ hi hinv hl c a w he hg
      obtain ⟨h₁, h₂⟩ := h v₁ hi hinv hl c a w he hg
      exact ⟨h₁, ih a h₂⟩
  | spawn t k ih =>
      intro v₁ hi hinv hl hf hg
      obtain ⟨h₁, h₂, h₃⟩ := h v₁ hi hinv hl hf hg
      exact ⟨h₁, h₂, ih h₃⟩
  | await js k ih =>
      intro v₁ hi hinv hl j hj hlj r hr hg
      obtain ⟨h₁, h₂⟩ := h v₁ hi hinv hl j hj hlj r hr hg
      exact ⟨h₁, ih j r h₂⟩

/-- A sequence is safe when the first program ends where the second is
safe. -/
theorem safe_bind {p : Prog L α} {f : α → Prog L β} {Q : β → View L W → Prop}
    {v : View L W} (h : P.Safe M g i p (fun a v' => P.Safe M g i (f a) Q v') v) :
    P.Safe M g i (p >>= f) Q v := by
  induction p generalizing v with
  | ret a => exact h
  | op o k ih =>
      intro v₁ hi hinv hl c a w he hg
      obtain ⟨h₁, h₂⟩ := h v₁ hi hinv hl c a w he hg
      exact ⟨h₁, ih a h₂⟩
  | spawn t k ih =>
      intro v₁ hi hinv hl hf hg
      obtain ⟨h₁, h₂, h₃⟩ := h v₁ hi hinv hl hf hg
      exact ⟨h₁, h₂, ih h₃⟩
  | await js k ih =>
      intro v₁ hi hinv hl j hj hlj r hr hg
      obtain ⟨h₁, h₂⟩ := h v₁ hi hinv hl j hj hlj r hr hg
      exact ⟨h₁, ih j r h₂⟩

/-- The rule of a sequence, with what holds in between. -/
theorem safe_seq {p : Prog L α} {f : α → Prog L β} {B : α → View L W → Prop}
    {Q : β → View L W → Prop} {v : View L W} (hp : P.Safe M g i p B v)
    (hf : ∀ a v, B a v → P.Safe M g i (f a) Q v) : P.Safe M g i (p >>= f) Q v :=
  safe_bind (safe_mono hf hp)

/-- The rule of a sequence whose first program may fail, with what holds
in between. -/
theorem safe_seqE {p : ExceptT ε (Prog L) α} {f : α → ExceptT ε (Prog L) β}
    {B : Except ε α → View L W → Prop} {Q : Except ε β → View L W → Prop} {v : View L W}
    (hp : P.Safe M g i p.run B v)
    (ok : ∀ a v, B (.ok a) v → P.Safe M g i (f a).run Q v)
    (error : ∀ e v, B (.error e) v → Q (.error e) v) :
    P.Safe M g i (p >>= f).run Q v := by
  refine safe_seq hp fun r v hr => ?_
  cases r with
  | ok a => exact ok a v hr
  | error e => exact error e v hr

/-- The rule of a sequence whose first program has its errors renamed. -/
theorem safe_seqA {x : ExceptT ε (Prog L) α} {h : ε → ε'} {f : α → ExceptT ε' (Prog L) β}
    {B : Except ε α → View L W → Prop} {Q : Except ε' β → View L W → Prop} {v : View L W}
    (hx : P.Safe M g i x.run B v)
    (ok : ∀ a v, B (.ok a) v → P.Safe M g i (f a).run Q v)
    (error : ∀ e v, B (.error e) v → Q (.error (h e)) v) :
    P.Safe M g i (x.adapt h >>= f).run Q v := by
  refine safe_bind (safe_seq hx fun r v hr => ?_)
  cases r with
  | ok a => exact ok a v hr
  | error e => exact error e v hr

/-- The rule of a sequence whose first program cannot fail. -/
theorem safe_seqL {p : Prog L α} {f : α → ExceptT ε (Prog L) β} {B : α → View L W → Prop}
    {Q : Except ε β → View L W → Prop} {v : View L W} (hp : P.Safe M g i p B v)
    (ok : ∀ a v, B a v → P.Safe M g i (f a).run Q v) :
    P.Safe M g i (ExceptT.lift p >>= f).run Q v :=
  safe_bind (safe_seq hp ok)

namespace Valid

/-- Interference in two parts is interference. -/
theorem interferes_trans (hP : P.Valid M g) {v₁ v₂ v₃ : View L W}
    (h₁ : P.Interferes i v₁ v₂) (h₂ : P.Interferes i v₂ v₃) : P.Interferes i v₁ v₃ :=
  ⟨hP.rely_trans i _ _ _ h₁.1 h₂.1, h₁.2.trans h₂.2⟩

/-- No interference is interference. -/
theorem interferes_refl (hP : P.Valid M g) (v : View L W) : P.Interferes i v v :=
  ⟨hP.rely_refl i v, List.suffix_rfl⟩

/-- A safe program stays safe under interference when its postcondition
does. -/
theorem safe_stable (hP : P.Valid M g) {p : Prog L α} {Q : α → View L W → Prop}
    {v v' : View L W} (hQ : ∀ a v v', P.Interferes i v v' → Q a v → Q a v')
    (hv : P.Interferes i v v') (h : P.Safe M g i p Q v) : P.Safe M g i p Q v' := by
  cases p with
  | ret a => exact hQ a v v' hv h
  | op o k => exact fun v₁ h₁ => h v₁ (hP.interferes_trans hv h₁)
  | spawn t k => exact fun v₁ h₁ => h v₁ (hP.interferes_trans hv h₁)
  | await js k => exact fun v₁ h₁ => h v₁ (hP.interferes_trans hv h₁)

end Valid

/-- The invariant holds of a pool and every program in it is safe. -/
def Holds (M : Machine L C W) (g : Guard L W) (P : Protocol L W) (p : Pool L W) : Prop :=
  P.Inv p.view ∧
    ∀ i q, p.threads i = some q → P.Safe M g i q (P.Post i) p.view

/-! ### The views a step leads to -/

section Views

variable {p : Pool L W} {j l : L.Slot} {q s : Prog L L.Res} {w : W} {h : List (Event L)}

/-- What runs in slot `l` after slot `j` was filled or emptied. -/
theorem running_update {f : L.Slot → Option (Prog L L.Res)}
    {x : Option (Prog L L.Res)} (hl : Function.update f j x l = some q) :
    (l = j ∧ x = some q) ∨ (l ≠ j ∧ f l = some q) := by
  by_cases hlj : l = j
  · subst hlj
    exact .inl ⟨rfl, by simpa using hl⟩
  · exact .inr ⟨hlj, by simpa [hlj] using hl⟩

/-- Filling slot `j` or emptying it changes the view in that slot. -/
theorem view_update (x : Option (Prog L L.Res)) (f : L.Slot → Option (Prog L L.Res)) :
    (⟨Function.update f j x, w, h⟩ : Pool L W).view
      = ⟨w, h, Function.update (fun j => (f j).isSome) j x.isSome⟩ := by
  have : (fun l => (Function.update f j x l).isSome)
      = Function.update (fun j => (f j).isSome) j x.isSome := by
    funext l
    by_cases hl : l = j
    · subst hl; simp
    · simp [hl]
  simp only [Pool.view]
  rw [this]

/-- Replacing a running program occupies no other slot. -/
theorem view_replace (hi : p.threads i = some q) :
    (⟨Function.update p.threads i (some s), w, h⟩ : Pool L W).view
      = ⟨w, h, p.view.live⟩ := by
  have : Function.update p.view.live i true = p.view.live := by
    rw [Function.update_eq_self_iff]
    simp [Pool.view, hi]
  rw [view_update]
  exact congrArg _ this

/-- Replacing a running program and filling or emptying slot `j`. -/
theorem view_replace_update (x : Option (Prog L L.Res)) (hi : p.threads i = some q) :
    (⟨Function.update (Function.update p.threads i (some s)) j x, w, h⟩ : Pool L W).view
      = ⟨w, h, Function.update p.view.live j x.isSome⟩ := by
  have := congrArg View.live (view_replace (s := s) (w := w) (h := h) hi)
  rw [view_update]
  exact congrArg (fun f => (⟨w, h, Function.update f j x.isSome⟩ : View L W)) this

end Views

namespace Valid

/-- A program of slot `j` is safe after a transition within its rely. -/
theorem safe_after (hP : P.Valid M g) {j : L.Slot} {q : Prog L L.Res} {v v' : View L W}
    (hR : P.Rely j v v') {e : Event L} (he : v'.hist = e :: v.hist)
    (h : P.Safe M g j q (P.Post j) v) : P.Safe M g j q (P.Post j) v' :=
  hP.safe_stable (fun r v v' => hP.post_stable j r v v')
    ⟨hR, by rw [he]; exact List.suffix_cons _ _⟩ h

/-- One step keeps the invariant and the safety of every program, and
the transition is within the guarantee of the slot that made it. -/
theorem holds_step (hP : P.Valid M g) {p p' : Pool L W} {e : Event L}
    (hh : P.Holds M g p) (hs : Step M g p e p') :
    P.Holds M g p' ∧ ∀ i, e.slot? = some i → P.Guar i p.view p'.view := by
  -- the slot that steps uses its own safety, the others that the step is in
  -- their rely
  obtain ⟨hinv, hsafe⟩ := hh
  have hlive : ∀ {i q}, p.threads i = some q → p.view.live i = true := by
    intro i q h; simp [Pool.view, h]
  have hfree : ∀ {i}, p.threads i = none → p.view.live i = false := by
    intro i h; simp [Pool.view, h]
  cases hs with
  | @op i o k c a w hi he hg =>
      obtain ⟨hG, hk⟩ := hsafe i _ hi _ (hP.interferes_refl _) hinv (hlive hi) c a w he hg
      refine ⟨⟨?_, fun l q hl => ?_⟩, fun _ h => by cases h; rw [view_replace hi]; exact hG⟩
      · rw [view_replace hi]
        exact hP.guar_inv i _ _ hinv hG
      · rw [view_replace hi]
        obtain ⟨rfl, hq⟩ | ⟨hne, hl⟩ := running_update hl
        · cases hq; exact hk
        · exact hP.safe_after (hP.guar_rely i l _ _ hne.symm hinv hG) rfl (hsafe l q hl)
  | @spawn i t k hi hn hg =>
      obtain ⟨hG, hpre, hk⟩ :=
        hsafe i _ hi _ (hP.interferes_refl _) hinv (hlive hi) (hfree hn) hg
      have hinv' := hP.guar_inv i _ _ hinv hG
      refine ⟨⟨?_, fun l q hl => ?_⟩, fun _ h => by
        cases h; rw [view_replace_update _ hi]; exact hG⟩
      · rw [view_replace_update _ hi]
        exact hinv'
      · rw [view_replace_update _ hi]
        -- the new task, the slot that started it, or any other
        obtain ⟨rfl, hq⟩ | ⟨-, hl⟩ := running_update hl
        · cases hq; exact hP.body_safe t _ hinv' hpre
        · obtain ⟨rfl, hq⟩ | ⟨hne, hl⟩ := running_update hl
          · cases hq; exact hk
          · exact hP.safe_after (hP.guar_rely i l _ _ hne.symm hinv hG) rfl (hsafe l q hl)
  | @await i j js k r hi hj hr hg =>
      obtain ⟨hG, hk⟩ := hsafe i _ hi _ (hP.interferes_refl _) hinv (hlive hi) j hj
        (hlive hr) r (hsafe j _ hr) hg
      refine ⟨⟨?_, fun l q hl => ?_⟩, fun _ h => by
        cases h; rw [view_replace_update _ hi]; exact hG⟩
      · rw [view_replace_update _ hi]
        exact hP.guar_inv i _ _ hinv hG
      · rw [view_replace_update _ hi]
        obtain ⟨rfl, hq⟩ | ⟨-, hl⟩ := running_update hl
        · cases hq
        · obtain ⟨rfl, hq⟩ | ⟨hne, hl⟩ := running_update hl
          · cases hq; exact hk
          · exact hP.safe_after (hP.guar_rely i l _ _ hne.symm hinv hG) rfl (hsafe l q hl)
  | @start t hn hg =>
      -- the environment starts a task: nobody guarantees anything
      have hinv' := hP.start_inv t _ hinv (hfree hn) hg
      refine ⟨⟨?_, fun l q hl => ?_⟩, fun _ h => by cases h⟩
      · rw [view_update]
        exact hinv'
      · rw [view_update]
        obtain ⟨rfl, hq⟩ | ⟨-, hl⟩ := running_update hl
        · cases hq; exact hP.body_safe t _ hinv' (hP.start_pre t _ hinv (hfree hn) hg)
        · exact hP.safe_after (hP.start_rely t _ hinv (hfree hn) hg l) rfl (hsafe l q hl)
  | @exit i r hi hk hg =>
      have hG := hP.exit_guar i r _ hinv (hsafe i _ hi) hk hg
      refine ⟨⟨?_, fun l q hl => ?_⟩, fun _ h => by cases h; rw [view_update]; exact hG⟩
      · rw [view_update]
        exact hP.guar_inv i _ _ hinv hG
      · rw [view_update]
        obtain ⟨rfl, hq⟩ | ⟨hne, hl⟩ := running_update hl
        · cases hq
        · exact hP.safe_after (hP.guar_rely i l _ _ hne.symm hinv hG) rfl (hsafe l q hl)
  | @crash hg =>
      exact ⟨⟨hP.crash_inv _ hinv hg, fun j q hj => by cases hj⟩, fun _ h => by cases h⟩

/-- Soundness: along a guarded run from an idle pool the invariant holds
and every running program is safe from where it stands. -/
theorem holds_of_reach (hP : P.Valid M g) {w : W} {p : Pool L W}
    (hinit : P.Inv (Pool.idle w).view) (h : Reach M g (.idle w) p) : P.Holds M g p := by
  induction h with
  | refl => exact ⟨hinit, fun i q hi => by cases hi⟩
  | step _ hs ih => exact (hP.holds_step ih hs).1

/-- Every transition of a slot in a guarded run is within that slot's
guarantee. -/
theorem guar_of_step (hP : P.Valid M g) {w : W} {p p' : Pool L W} {e : Event L}
    (hinit : P.Inv (Pool.idle w).view) (h : Reach M g (.idle w) p)
    (hs : Step M g p e p') {i : L.Slot} (hi : e.slot? = some i) :
    P.Guar i p.view p'.view :=
  (hP.holds_step (hP.holds_of_reach hinit h) hs).2 i hi

/-- What the guarantees, the starts and the crashes of a run keep holds
on at the end of every run from where it holds. -/
theorem keeps_of_reach (hP : P.Valid M g) {w : W} {p p' : Pool L W}
    (hinit : P.Inv (Pool.idle w).view) (h : Reach M g (.idle w) p) (h' : Reach M g p p')
    {A : View L W → Prop}
    (guar : ∀ i v v', v.hist <:+ v'.hist → P.Guar i v v' → A v → A v')
    (start : ∀ t v, g v (.start t) → A v → A (v.start t (M.slotOf t)))
    (crash : ∀ v, g v .crash → A v → A (v.crash (M.crash v.world)))
    (hA : A p.view) : A p'.view := by
  induction h' with
  | refl => exact hA
  | @step q q' e hq hs ih =>
      have hist : q.view.hist <:+ q'.view.hist := by
        rw [show q'.view.hist = e :: q.view.hist from hs.hist_eq]
        exact List.suffix_cons _ _
      have slot : ∀ i, e.slot? = some i → A q'.view := fun i hi =>
        guar i _ _ hist (hP.guar_of_step hinit (h.trans hq) hs hi) ih
      cases hs with
      | op _ _ _ => exact slot _ rfl
      | spawn _ _ _ => exact slot _ rfl
      | await _ _ _ _ => exact slot _ rfl
      | exit _ _ _ => exact slot _ rfl
      | start _ hg =>
          rw [view_update]
          exact start _ _ hg ih
      | crash hg => exact crash _ hg ih

end Valid

end Protocol

end RustDfs.Conc
