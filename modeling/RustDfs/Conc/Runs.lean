import RustDfs.Conc.Footprint
import RustDfs.Conc.Sequential

/-!
# `RustDfs.Conc.Runs`: the runs of one program

`Prog.Runs exec p w l a w'` is one run of `p` from world `w`: it ends with
`a` in world `w'`, and `l` is everything it did on the way, with the
choice the environment made for each operation. What a program starts is
only listed, and what it waits for may answer with any result.

The lemmas `runs_ret`, `runs_op`, `runs_bind` and so on take a run apart
along the text of its program. `Total.exists_runs` and `Total.of_runs`
relate runs to `Prog.Total`.

`Prog.Returns` says that a program comes to its end, whatever is answered
as far as it is allowed. It has the same rules (`returns_bind` and so on),
and it gives runs (`Returns.exists_runs`).
-/

set_option autoImplicit false

namespace RustDfs.Conc

variable {L : Lang} {C W : Type} {α β ε ε' : Type}

/-- One thing a program does: an operation with the choice that was made
and the answer, the start of a task, or a wait that ended. -/
inductive Deed (L : Lang) (C : Type) : Type where
  | op (o : L.Op) (c : C) (a : L.Ans o)
  | spawn (t : L.Task)
  | await (j : L.Slot) (r : L.Res)

/-- The footprint allows it. -/
def Deed.Within (F : Footprint L) : Deed L C → Prop
  | .op o _ _ => F.op o
  | .spawn t => F.spawn t
  | .await j _ => F.await j

/-- Its operation is answered in an allowed way. -/
def Deed.Allowed (allowed : (o : L.Op) → L.Ans o → Prop) : Deed L C → Prop
  | .op o _ a => allowed o a
  | _ => True

namespace Prog

/-- The runs of a program. -/
inductive Runs (exec : (o : L.Op) → C → W → Option (L.Ans o × W)) :
    Prog L α → W → List (Deed L C) → α → W → Prop
  | ret {a : α} {w : W} : Runs exec (.ret a) w [] a w
  | op {o : L.Op} {k : L.Ans o → Prog L α} {c : C} {x : L.Ans o} {w w₁ w' : W}
      {l : List (Deed L C)} {a : α} :
      exec o c w = some (x, w₁) → Runs exec (k x) w₁ l a w' →
      Runs exec (.op o k) w (.op o c x :: l) a w'
  | spawn {t : L.Task} {k : Prog L α} {w w' : W} {l : List (Deed L C)} {a : α} :
      Runs exec k w l a w' → Runs exec (.spawn t k) w (.spawn t :: l) a w'
  | await {js : List L.Slot} {k : L.Slot → L.Res → Prog L α} {j : L.Slot} {r : L.Res} {w w' : W}
      {l : List (Deed L C)} {a : α} :
      j ∈ js → Runs exec (k j r) w l a w' → Runs exec (.await js k) w (.await j r :: l) a w'

variable {exec : (o : L.Op) → C → W → Option (L.Ans o × W)} {w w' : W} {l : List (Deed L C)}

theorem runs_ret {a b : α} : (ret a : Prog L α).Runs exec w l b w' ↔ l = [] ∧ b = a ∧ w' = w := by
  constructor
  · rintro ⟨⟩
    exact ⟨rfl, rfl, rfl⟩
  · rintro ⟨rfl, rfl, rfl⟩
    exact .ret

theorem runs_op {o : L.Op} {k : L.Ans o → Prog L α} {a : α} :
    (op o k).Runs exec w l a w' ↔ ∃ c x w₁ l', exec o c w = some (x, w₁) ∧
      (k x).Runs exec w₁ l' a w' ∧ l = .op o c x :: l' := by
  constructor
  · intro h
    cases h with
    | op he hk => exact ⟨_, _, _, _, he, hk, rfl⟩
  · rintro ⟨c, x, w₁, l', he, hk, rfl⟩
    exact .op he hk

theorem runs_perform {o : L.Op} {a : L.Ans o} :
    (perform o).Runs exec w l a w' ↔ ∃ c, exec o c w = some (a, w') ∧ l = [.op o c a] := by
  constructor
  · intro h
    obtain ⟨c, x, w₁, l', he, hk, rfl⟩ := runs_op.mp h
    obtain ⟨rfl, rfl, rfl⟩ := runs_ret.mp hk
    exact ⟨c, he, rfl⟩
  · rintro ⟨c, he, rfl⟩
    exact .op he .ret

/-- A run of a sequence is a run of the first program and then one of the
second. -/
theorem runs_bind {p : Prog L α} {f : α → Prog L β} {b : β} :
    (p >>= f).Runs exec w l b w' ↔ ∃ l₁ a w₁ l₂, p.Runs exec w l₁ a w₁ ∧
      (f a).Runs exec w₁ l₂ b w' ∧ l = l₁ ++ l₂ := by
  constructor
  · intro h
    induction p generalizing w l with
    | ret a => exact ⟨[], a, w, l, .ret, h, rfl⟩
    | op o k ih =>
        obtain ⟨c, x, w₀, l', he, hk, rfl⟩ := runs_op.mp h
        obtain ⟨l₁, a, w₁, l₂, h₁, h₂, rfl⟩ := ih x hk
        exact ⟨_, a, w₁, l₂, .op he h₁, h₂, rfl⟩
    | spawn t k ih =>
        cases h with
        | spawn hk =>
            obtain ⟨l₁, a, w₁, l₂, h₁, h₂, rfl⟩ := ih hk
            exact ⟨_, a, w₁, l₂, .spawn h₁, h₂, rfl⟩
    | await js k ih =>
        cases h with
        | await hj hk =>
            obtain ⟨l₁, a, w₁, l₂, h₁, h₂, rfl⟩ := ih _ _ hk
            exact ⟨_, a, w₁, l₂, .await hj h₁, h₂, rfl⟩
  · rintro ⟨l₁, a, w₁, l₂, h₁, h₂, rfl⟩
    induction h₁ with
    | ret => exact h₂
    | op he _ ih => exact .op he (ih h₂)
    | spawn _ ih => exact .spawn (ih h₂)
    | await hj _ ih => exact .await hj (ih h₂)

/-- A run of a sequence whose first program may fail: it fails there, or
goes on with its value. -/
theorem runs_bindE {x : ExceptT ε (Prog L) α} {f : α → ExceptT ε (Prog L) β} {r : Except ε β} :
    (x >>= f).run.Runs exec w l r w' ↔
      (∃ l₁ a w₁ l₂, x.run.Runs exec w l₁ (.ok a) w₁ ∧ (f a).run.Runs exec w₁ l₂ r w' ∧
        l = l₁ ++ l₂) ∨
      ∃ e, x.run.Runs exec w l (.error e) w' ∧ r = .error e := by
  constructor
  · intro h
    obtain ⟨l₁, y, w₁, l₂, h₁, h₂, rfl⟩ := runs_bind.mp h
    cases y with
    | ok a => exact .inl ⟨l₁, a, w₁, l₂, h₁, h₂, rfl⟩
    | error e =>
        obtain ⟨rfl, rfl, rfl⟩ := runs_ret.mp h₂
        rw [List.append_nil]
        exact .inr ⟨e, h₁, rfl⟩
  · rintro (⟨l₁, a, w₁, l₂, h₁, h₂, rfl⟩ | ⟨e, h, rfl⟩)
    · exact runs_bind.mpr ⟨l₁, .ok a, w₁, l₂, h₁, h₂, rfl⟩
    · exact runs_bind.mpr ⟨l, .error e, w', [], h, .ret, (List.append_nil l).symm⟩

/-- The same where the errors of the first program are renamed. -/
theorem runs_bindA {x : ExceptT ε (Prog L) α} {g : ε → ε'} {f : α → ExceptT ε' (Prog L) β}
    {r : Except ε' β} :
    (x.adapt g >>= f).run.Runs exec w l r w' ↔
      (∃ l₁ a w₁ l₂, x.run.Runs exec w l₁ (.ok a) w₁ ∧ (f a).run.Runs exec w₁ l₂ r w' ∧
        l = l₁ ++ l₂) ∨
      ∃ e, x.run.Runs exec w l (.error e) w' ∧ r = .error (g e) := by
  have adapt : ∀ {l : List (Deed L C)} {w' : W} {y : Except ε' α},
      (x.adapt g).run.Runs exec w l y w' ↔
        ∃ z, x.run.Runs exec w l z w' ∧ y = Except.mapError g z := by
    intro l w' y
    constructor
    · intro h
      obtain ⟨l₁, z, w₁, l₂, h₁, h₂, rfl⟩ := runs_bind.mp h
      obtain ⟨rfl, rfl, rfl⟩ := runs_ret.mp h₂
      rw [List.append_nil]
      exact ⟨z, h₁, rfl⟩
    · rintro ⟨z, h, rfl⟩
      exact runs_bind.mpr ⟨l, z, w', [], h, .ret, (List.append_nil l).symm⟩
  rw [runs_bindE]
  constructor
  · rintro (⟨l₁, a, w₁, l₂, h₁, h₂, rfl⟩ | ⟨e, h, rfl⟩)
    · obtain ⟨z, hz, he⟩ := adapt.mp h₁
      cases z with
      | ok _ => cases he; exact .inl ⟨l₁, a, w₁, l₂, hz, h₂, rfl⟩
      | error e => cases he
    · obtain ⟨z, hz, he⟩ := adapt.mp h
      cases z with
      | ok a => cases he
      | error e => cases he; exact .inr ⟨e, hz, rfl⟩
  · rintro (⟨l₁, a, w₁, l₂, h₁, h₂, rfl⟩ | ⟨e, h, rfl⟩)
    · exact .inl ⟨l₁, a, w₁, l₂, adapt.mpr ⟨.ok a, h₁, rfl⟩, h₂, rfl⟩
    · exact .inr ⟨g e, adapt.mpr ⟨.error e, h, rfl⟩, rfl⟩

/-- A sequence whose first program cannot fail. -/
theorem runs_bindL {p : Prog L α} {f : α → ExceptT ε (Prog L) β} {r : Except ε β} :
    (ExceptT.lift p >>= f).run.Runs exec w l r w' ↔
      ∃ l₁ a w₁ l₂, p.Runs exec w l₁ a w₁ ∧ (f a).run.Runs exec w₁ l₂ r w' ∧ l = l₁ ++ l₂ := by
  have lift : (ExceptT.lift p >>= f).run = p >>= fun a => (f a).run := bind_assoc p _ _
  rw [lift, runs_bind]

/-- A run does what the footprint of its program allows. -/
theorem Runs.within {F : Footprint L} {p : Prog L α} {a : α} (h : p.Runs exec w l a w')
    (hp : p.Within F) : ∀ d ∈ l, d.Within F := by
  induction h with
  | ret => exact fun _ hd => absurd hd List.not_mem_nil
  | op _ _ ih => exact List.forall_mem_cons.mpr ⟨hp.1, ih (hp.2 _)⟩
  | spawn _ ih => exact List.forall_mem_cons.mpr ⟨hp.1, ih hp.2⟩
  | await hj _ ih => exact List.forall_mem_cons.mpr ⟨hp.1 _ hj, ih (hp.2 _ _)⟩

/-! ### Runs and total correctness -/

section Total

variable {allowed : (o : L.Op) → L.Ans o → Prop}

/-- A program that comes to its end has a run. -/
theorem Total.exists_runs {p : Prog L α} {Q : α → W → Prop} (h : p.Total exec allowed Q w) :
    ∃ l a w', p.Runs exec w l a w' ∧ (∀ d ∈ l, d.Allowed allowed) ∧ Q a w' := by
  induction p generalizing w with
  | ret a => exact ⟨[], a, w, .ret, fun d hd => absurd hd List.not_mem_nil, h⟩
  | op o k ih =>
      obtain ⟨c, x, w₁, he, ha⟩ := h.1
      obtain ⟨l, a, w', hk, hl, hQ⟩ := ih x (h.2 c x w₁ he ha)
      exact ⟨_, a, w', .op he hk, List.forall_mem_cons.mpr ⟨ha, hl⟩, hQ⟩
  | spawn t k ih => exact h.elim
  | await js k ih => exact h.elim

/-- Where a program comes to its end, one of its runs led. -/
theorem Total.of_runs {p : Prog L α} {Q R : α → W → Prop} (h : p.Total exec allowed Q w)
    (hQ : ∀ l a w', p.Runs exec w l a w' → Q a w' → R a w') : p.Total exec allowed R w := by
  -- The run so far is in front of every run of the rest.
  induction p generalizing w with
  | ret a => exact hQ _ _ _ .ret h
  | op o k ih =>
      refine ⟨h.1, fun c x w₁ he ha => ih x (h.2 c x w₁ he ha) fun l a w' hk hq => ?_⟩
      exact hQ _ a w' (.op he hk) hq
  | spawn t k ih => exact h.elim
  | await js k ih => exact h.elim

end Total

/-! ### Programs that come to their end -/

/-- Whatever happens, as far as it is `allowed`, the program comes to its
end: at every operation and at every wait something allowed can happen,
and whatever does, the rest comes to its end. -/
def Returns (exec : (o : L.Op) → C → W → Option (L.Ans o × W)) (allowed : Deed L C → Prop) :
    Prog L α → W → Prop
  | ret _, _ => True
  | op o k, w =>
      (∃ c x w', exec o c w = some (x, w') ∧ allowed (.op o c x)) ∧
      ∀ c x w', exec o c w = some (x, w') → allowed (.op o c x) → (k x).Returns exec allowed w'
  | spawn t k, w => allowed (.spawn t) ∧ k.Returns exec allowed w
  | await js k, w =>
      (∃ j ∈ js, ∃ r, allowed (.await j r)) ∧
      ∀ j ∈ js, ∀ r, allowed (.await j r) → (k j r).Returns exec allowed w

section Returns

variable {allowed : Deed L C → Prop}

/-- A program that comes to its end has a run. -/
theorem Returns.exists_runs {p : Prog L α} (h : p.Returns exec allowed w) :
    ∃ l a w', p.Runs exec w l a w' ∧ ∀ d ∈ l, allowed d := by
  induction p generalizing w with
  | ret a => exact ⟨[], a, w, .ret, fun d hd => absurd hd List.not_mem_nil⟩
  | op o k ih =>
      obtain ⟨⟨c, x, w₁, he, ha⟩, rest⟩ := h
      obtain ⟨l, a, w', hk, hl⟩ := ih x (rest c x w₁ he ha)
      exact ⟨_, a, w', .op he hk, List.forall_mem_cons.mpr ⟨ha, hl⟩⟩
  | spawn t k ih =>
      obtain ⟨l, a, w', hk, hl⟩ := ih h.2
      exact ⟨_, a, w', .spawn hk, List.forall_mem_cons.mpr ⟨h.1, hl⟩⟩
  | await js k ih =>
      obtain ⟨⟨j, hj, r, ha⟩, rest⟩ := h
      obtain ⟨l, a, w', hk, hl⟩ := ih j r (rest j hj r ha)
      exact ⟨_, a, w', .await hj hk, List.forall_mem_cons.mpr ⟨ha, hl⟩⟩

/-- A program comes to its end where everything in its footprint can
happen in every world. -/
theorem returns_of_within {F : Footprint L} {p : Prog L α} (hp : p.Within F) (hj : p.Joins)
    (op : ∀ o, F.op o → ∀ w, ∃ c x w', exec o c w = some (x, w') ∧ allowed (.op o c x))
    (spawn : ∀ t, F.spawn t → allowed (.spawn t))
    (await : ∀ j, F.await j → ∃ r, allowed (.await j r)) : p.Returns exec allowed w := by
  induction p generalizing w with
  | ret a => trivial
  | op o k ih => exact ⟨op o hp.1 w, fun c x w' _ _ => ih x (hp.2 x) (hj x)⟩
  | spawn t k ih => exact ⟨spawn t hp.1, ih hp.2 hj⟩
  | await js k ih =>
      -- A wait has a slot to wait for, and each of them may end.
      obtain ⟨j, hmem⟩ := List.exists_mem_of_ne_nil js hj.1
      exact ⟨⟨j, hmem, await j (hp.1 j hmem)⟩,
        fun j hmem r _ => ih j r (hp.2 j r) (hj.2 j hmem r)⟩

theorem returns_perform {o : L.Op}
    (h : ∃ c x w', exec o c w = some (x, w') ∧ allowed (.op o c x)) :
    (perform o).Returns exec allowed w :=
  ⟨h, fun _ _ _ _ _ => trivial⟩

/-- A sequence comes to its end when the first program does, and the
second wherever a run of the first leads. -/
theorem returns_bind {p : Prog L α} {f : α → Prog L β} (hp : p.Returns exec allowed w)
    (hf : ∀ l a w', p.Runs exec w l a w' → (∀ d ∈ l, allowed d) → (f a).Returns exec allowed w') :
    (p >>= f).Returns exec allowed w := by
  -- A run of the first program is a step and a run of what is left of it.
  induction p generalizing w with
  | ret a => exact hf [] a w .ret fun d hd => absurd hd List.not_mem_nil
  | op o k ih =>
      refine ⟨hp.1, fun c x w₁ he ha => ih x (hp.2 c x w₁ he ha) fun l a w' hk hl => ?_⟩
      exact hf _ a w' (.op he hk) (List.forall_mem_cons.mpr ⟨ha, hl⟩)
  | spawn t k ih =>
      refine ⟨hp.1, ih hp.2 fun l a w' hk hl => ?_⟩
      exact hf _ a w' (.spawn hk) (List.forall_mem_cons.mpr ⟨hp.1, hl⟩)
  | await js k ih =>
      refine ⟨hp.1, fun j hj r ha => ih j r (hp.2 j hj r ha) fun l a w' hk hl => ?_⟩
      exact hf _ a w' (.await hj hk) (List.forall_mem_cons.mpr ⟨ha, hl⟩)

/-- A sequence whose first program may fail, which ends it. -/
theorem returns_bindE {x : ExceptT ε (Prog L) α} {f : α → ExceptT ε (Prog L) β}
    (hx : x.run.Returns exec allowed w)
    (ok : ∀ l a w', x.run.Runs exec w l (.ok a) w' → (∀ d ∈ l, allowed d) →
      (f a).run.Returns exec allowed w') :
    (x >>= f).run.Returns exec allowed w := by
  refine returns_bind hx fun l r w' h hl => ?_
  cases r with
  | ok a => exact ok l a w' h hl
  | error e => trivial

theorem returns_adapt {x : ExceptT ε (Prog L) α} {g : ε → ε'}
    (hx : x.run.Returns exec allowed w) : (x.adapt g).run.Returns exec allowed w :=
  returns_bind hx fun _ _ _ _ _ => trivial

/-- The same with renamed errors. -/
theorem returns_bindA {x : ExceptT ε (Prog L) α} {g : ε → ε'} {f : α → ExceptT ε' (Prog L) β}
    (hx : x.run.Returns exec allowed w)
    (ok : ∀ l a w', x.run.Runs exec w l (.ok a) w' → (∀ d ∈ l, allowed d) →
      (f a).run.Returns exec allowed w') :
    (x.adapt g >>= f).run.Returns exec allowed w := by
  refine returns_bindE (returns_adapt hx) fun l a w' h hl => ?_
  obtain ⟨l₁, y, w₁, l₂, h₁, h₂, rfl⟩ := runs_bind.mp h
  obtain ⟨rfl, e, rfl⟩ := runs_ret.mp h₂
  rw [List.append_nil] at hl
  cases y with
  | ok b =>
      cases e
      exact ok l₁ a w' h₁ hl
  | error e' => cases e

/-- A sequence whose first program cannot fail. -/
theorem returns_bindL {p : Prog L α} {f : α → ExceptT ε (Prog L) β}
    (hp : p.Returns exec allowed w)
    (ok : ∀ l a w', p.Runs exec w l a w' → (∀ d ∈ l, allowed d) →
      (f a).run.Returns exec allowed w') :
    (ExceptT.lift p >>= f).run.Returns exec allowed w := by
  have lift : (ExceptT.lift p >>= f).run = p >>= fun a => (f a).run := bind_assoc p _ _
  rw [lift]
  exact returns_bind hp ok

end Returns

/-! ### Playing a run

A program alone and what the environment answers make one run, which can
be evaluated. -/

/-- What the environment does: it makes a choice for an operation, or ends
a wait. -/
inductive Turn (L : Lang) (C : Type) : Type where
  | choice (c : C)
  | result (j : L.Slot) (r : L.Res)

section Play

variable [DecidableEq L.Slot]

/-- The run with these turns, or `none` if the program cannot take one. -/
def play (exec : (o : L.Op) → C → W → Option (L.Ans o × W)) :
    Prog L α → List (Turn L C) → W → Option (List (Deed L C) × α × W)
  | .ret a, _, w => some ([], a, w)
  | .op o k, .choice c :: ts, w =>
      match exec o c w with
      | some (x, w₁) => (play exec (k x) ts w₁).map fun (l, r) => (.op o c x :: l, r)
      | none => none
  | .spawn t k, ts, w => (play exec k ts w).map fun (l, r) => (.spawn t :: l, r)
  | .await js k, .result j r :: ts, w =>
      if js.contains j then (play exec (k j r) ts w).map fun (l, x) => (.await j r :: l, x) else none
  | _, _, _ => none

theorem runs_of_play {p : Prog L α} {ts : List (Turn L C)} {a : α}
    (h : p.play exec ts w = some (l, a, w')) : p.Runs exec w l a w' := by
  induction p generalizing ts w l with
  | ret b =>
      cases h
      exact .ret
  | op o k ih =>
      rcases ts with _ | ⟨c | ⟨j, r⟩, ts⟩
      · cases h
      · simp only [play] at h
        split at h
        · next he =>
            obtain ⟨⟨l', r⟩, hr, e⟩ := Option.map_eq_some_iff.mp h
            cases e
            exact .op he (ih _ hr)
        · cases h
      · cases h
  | spawn t k ih =>
      obtain ⟨⟨l', r⟩, hr, e⟩ := Option.map_eq_some_iff.mp h
      cases e
      exact .spawn (ih hr)
  | await js k ih =>
      rcases ts with _ | ⟨c | ⟨j, r⟩, ts⟩
      · cases h
      · cases h
      · simp only [play] at h
        split at h
        · next hj =>
            obtain ⟨⟨l', x⟩, hr, e⟩ := Option.map_eq_some_iff.mp h
            cases e
            exact .await (List.contains_iff_mem.mp hj) (ih _ _ hr)
        · cases h

/-- Turns whose run passes a test. -/
theorem exists_runs_of_play {p : Prog L α} (ts : List (Turn L C))
    {test : List (Deed L C) → α → W → Prop} [∀ l a w, Decidable (test l a w)]
    (h : (p.play exec ts w).any (fun (l, a, w') => decide (test l a w')) = true) :
    ∃ l a w', p.Runs exec w l a w' ∧ test l a w' := by
  cases hp : p.play exec ts w with
  | none => simp [hp] at h
  | some x =>
      rw [hp, Option.any_some] at h
      obtain ⟨l, a, w'⟩ := x
      exact ⟨l, a, w', runs_of_play hp, of_decide_eq_true h⟩

end Play

end Prog

end RustDfs.Conc
