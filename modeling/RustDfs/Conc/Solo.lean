import RustDfs.Conc.Footprint

/-!
# `RustDfs.Conc.Solo`: what one slot does by itself

Some properties of a run are about the events of one slot only, and hold
whatever the slot is answered: then nothing has to be known about the
other slots or the world. `own` are the events of a slot, the starts of
its tasks and the crashes, and `Prog.Follows I i p Q h` reads one program
of the slot with all its answers: `I` holds after every event, and `Q` at
the end.

`Solo.of_reach` carries this over to pools. A slot rests with `Idle`;
every program that may run in it starts there and has to come back.
`Justified` is for properties that say of each event what has to be
before it.
-/

set_option autoImplicit false

namespace RustDfs.Conc

variable {L : Lang} {C W : Type} {α β ε ε' : Type}

section Own

variable [DecidableEq L.Slot]

/-- The event starts the task. -/
inductive Begins (t : L.Task) : Event L → Prop
  | spawn (i : L.Slot) : Begins t (.spawn i t)
  | start : Begins t (.start t)

/-- The event of an operation, a start or a wait of the slot, the start of
a task in it, or a crash. -/
def Event.ownBy (slotOf : L.Task → L.Slot) (i : L.Slot) : Event L → Bool
  | .op j _ _ => decide (j = i)
  | .spawn j t => decide (j = i) || decide (slotOf t = i)
  | .await j _ _ => decide (j = i)
  | .start t => decide (slotOf t = i)
  | .exit _ _ => false
  | .crash => true

/-- What happened in slot `i`, the latest first. -/
def own (slotOf : L.Task → L.Slot) (i : L.Slot) (h : List (Event L)) : List (Event L) :=
  h.filter (Event.ownBy slotOf i)

variable {slotOf : L.Task → L.Slot} {i : L.Slot} {e : Event L} {h h' : List (Event L)}

theorem own_cons_self (he : e.ownBy slotOf i = true) :
    own slotOf i (e :: h) = e :: own slotOf i h :=
  List.filter_cons_of_pos he

theorem own_cons_other (he : e.ownBy slotOf i = false) : own slotOf i (e :: h) = own slotOf i h :=
  List.filter_cons_of_neg (by rw [he]; exact Bool.false_ne_true)

theorem own_sublist (slotOf : L.Task → L.Slot) (i : L.Slot) (h : List (Event L)) :
    (own slotOf i h).Sublist h :=
  List.filter_sublist

/-- What happened in a slot only grows. -/
theorem own_suffix (hs : h <:+ h') : own slotOf i h <:+ own slotOf i h' :=
  hs.filter _

end Own

namespace Prog

variable (I : List (Event L) → Prop) (i : L.Slot)

/-- Whatever program `p` of slot `i` is answered after the events `h`, `I`
holds after each of its events, and `Q` at its end. -/
def Follows : Prog L α → (α → List (Event L) → Prop) → List (Event L) → Prop
  | ret a, Q, h => Q a h
  | op o k, Q, h => ∀ a, I (.op i o a :: h) ∧ (k a).Follows Q (.op i o a :: h)
  | spawn t k, Q, h => I (.spawn i t :: h) ∧ k.Follows Q (.spawn i t :: h)
  | await js k, Q, h => ∀ j ∈ js, ∀ r, I (.await i j r :: h) ∧
      (k j r).Follows Q (.await i j r :: h)

variable {I i} {h : List (Event L)}

/-- A weaker postcondition. -/
theorem follows_mono {p : Prog L α} {Q Q' : α → List (Event L) → Prop}
    (hQ : ∀ a h, Q a h → Q' a h) (hp : p.Follows I i Q h) : p.Follows I i Q' h := by
  induction p generalizing h with
  | ret a => exact hQ a h hp
  | op o k ih => exact fun a => ⟨(hp a).1, ih a (hp a).2⟩
  | spawn t k ih => exact ⟨hp.1, ih hp.2⟩
  | await js k ih => exact fun j hj r => ⟨(hp j hj r).1, ih j r (hp j hj r).2⟩

/-- The rule of a sequence, with what holds in between. -/
theorem follows_seq {p : Prog L α} {f : α → Prog L β} {B : α → List (Event L) → Prop}
    {Q : β → List (Event L) → Prop} (hp : p.Follows I i B h)
    (hf : ∀ a h, B a h → (f a).Follows I i Q h) : (p >>= f).Follows I i Q h := by
  induction p generalizing h with
  | ret a => exact hf a h hp
  | op o k ih => exact fun a => ⟨(hp a).1, ih a (hp a).2⟩
  | spawn t k ih => exact ⟨hp.1, ih hp.2⟩
  | await js k ih => exact fun j hj r => ⟨(hp j hj r).1, ih j r (hp j hj r).2⟩

/-- The rule of a sequence whose first program may fail. -/
theorem follows_seqE {p : ExceptT ε (Prog L) α} {f : α → ExceptT ε (Prog L) β}
    {B : Except ε α → List (Event L) → Prop} {Q : Except ε β → List (Event L) → Prop}
    (hp : p.run.Follows I i B h) (ok : ∀ a h, B (.ok a) h → (f a).run.Follows I i Q h)
    (error : ∀ e h, B (.error e) h → Q (.error e) h) : (p >>= f).run.Follows I i Q h := by
  refine follows_seq hp fun r h hr => ?_
  cases r with
  | ok a => exact ok a h hr
  | error e => exact error e h hr

/-- The rule of a sequence whose first program cannot fail. -/
theorem follows_seqL {p : Prog L α} {f : α → ExceptT ε (Prog L) β}
    {B : α → List (Event L) → Prop} {Q : Except ε β → List (Event L) → Prop}
    (hp : p.Follows I i B h) (ok : ∀ a h, B a h → (f a).run.Follows I i Q h) :
    (ExceptT.lift p >>= f).run.Follows I i Q h :=
  follows_seq (B := fun r h => (ExceptT.bindCont f r).Follows I i Q h) (follows_seq hp ok)
    fun _ _ h => h

/-- What happened before a program also happened before its end. -/
theorem follows_grow {p : Prog L α} {Q : α → List (Event L) → Prop} (hp : p.Follows I i Q h) :
    p.Follows I i (fun a h' => Q a h' ∧ h <:+ h') h := by
  induction p generalizing h with
  | ret a => exact ⟨hp, List.suffix_rfl⟩
  | op o k ih =>
      intro a
      exact ⟨(hp a).1, follows_mono
        (fun _ _ hq => ⟨hq.1, (List.suffix_cons _ _).trans hq.2⟩) (ih a (hp a).2)⟩
  | spawn t k ih =>
      exact ⟨hp.1, follows_mono
        (fun _ _ hq => ⟨hq.1, (List.suffix_cons _ _).trans hq.2⟩) (ih hp.2)⟩
  | await js k ih =>
      intro j hj r
      exact ⟨(hp j hj r).1, follows_mono
        (fun _ _ hq => ⟨hq.1, (List.suffix_cons _ _).trans hq.2⟩) (ih j r (hp j hj r).2)⟩

/-- A program ends with one of its results. -/
theorem follows_ends {p : Prog L α} {P : α → Prop} {Q : α → List (Event L) → Prop} (hp : p.Ends P)
    (hf : p.Follows I i Q h) : p.Follows I i (fun a h => P a ∧ Q a h) h := by
  induction p generalizing h with
  | ret a => exact ⟨hp, hf⟩
  | op o k ih => exact fun a => ⟨(hf a).1, ih a (hp a) (hf a).2⟩
  | spawn t k ih => exact ⟨hf.1, ih hp hf.2⟩
  | await js k ih => exact fun j hj r => ⟨(hf j hj r).1, ih j r (hp j r) (hf j hj r).2⟩

/-- `A` holds at the end, and `P` of the value if there is one. -/
def Gives (A : List (Event L) → Prop) (P : α → List (Event L) → Prop) (r : Except ε α)
    (h : List (Event L)) : Prop :=
  A h ∧ ∀ a, r = .ok a → P a h

section Giving

variable {A : List (Event L) → Prop} {P : α → List (Event L) → Prop}
  {R : β → List (Event L) → Prop}

theorem gives_ok {a : α} (hA : A h) (hP : P a h) : Gives (ε := ε) A P (.ok a) h :=
  ⟨hA, fun _ e => by cases e; exact hP⟩

theorem gives_error {e : ε} (hA : A h) : Gives A P (.error e) h :=
  ⟨hA, fun _ e => by cases e⟩

/-- Nothing is asked of the value. -/
theorem follows_gives {x : ExceptT ε (Prog L) α} (hx : x.run.Follows I i (fun _ => A) h) :
    x.run.Follows I i (Gives A fun _ _ => True) h :=
  follows_mono (fun _ _ hA => ⟨hA, fun _ _ => trivial⟩) hx

/-- The rule of a sequence whose first program may fail, with what it
gives if it does not. -/
theorem follows_bindE {x : ExceptT ε (Prog L) α} {f : α → ExceptT ε (Prog L) β}
    (hx : x.run.Follows I i (Gives A P) h)
    (hf : ∀ a h', h <:+ h' → A h' → P a h' → (f a).run.Follows I i (Gives A R) h') :
    (x >>= f).run.Follows I i (Gives A R) h :=
  follows_seqE (follows_grow hx) (fun a h' hb => hf a h' hb.2 hb.1.1 (hb.1.2 a rfl))
    fun _ _ hb => gives_error hb.1.1

/-- Renaming errors does nothing. -/
theorem follows_adapt {x : ExceptT ε (Prog L) α} (f : ε → ε')
    (hx : x.run.Follows I i (Gives A P) h) :
    (ExceptT.adapt f x).run.Follows I i (Gives A P) h :=
  follows_seq hx fun r _ hr => by
    cases r with
    | ok a => exact gives_ok hr.1 (hr.2 a rfl)
    | error e => exact gives_error hr.1

/-- A program that cannot fail, read as one that may. -/
theorem follows_lift {p : Prog L α} (hp : p.Follows I i (fun a h => A h ∧ P a h) h) :
    (ExceptT.lift (ε := ε) p).run.Follows I i (Gives A P) h :=
  follows_seq hp fun _ _ hq => gives_ok hq.1 hq.2

end Giving

/-- One operation. -/
theorem follows_perform {o : L.Op} {Q : L.Ans o → List (Event L) → Prop}
    (hI : ∀ a, I (.op i o a :: h)) (hQ : ∀ a, Q a (.op i o a :: h)) :
    (perform o).Follows I i Q h :=
  fun a => ⟨hI a, hQ a⟩

/-- A program within a footprint whose events keep an assertion keeps
it. -/
theorem follows_within {F : Footprint L} {p : Prog L α} {A : List (Event L) → Prop}
    (hp : p.Within F) (hI : ∀ h, A h → I h) (op : ∀ o h a, F.op o → A h → A (.op i o a :: h))
    (spawn : ∀ t h, F.spawn t → A h → A (.spawn i t :: h))
    (await : ∀ j h r, F.await j → A h → A (.await i j r :: h)) (hA : A h) :
    p.Follows I i (fun _ h => A h) h := by
  induction p generalizing h with
  | ret a => exact hA
  | op o k ih =>
      intro a
      have kept := op o h a hp.1 hA
      exact ⟨hI _ kept, ih a (hp.2 a) kept⟩
  | spawn t k ih =>
      have kept := spawn t h hp.1 hA
      exact ⟨hI _ kept, ih hp.2 kept⟩
  | await js k ih =>
      intro j hj r
      have kept := await j h r (hp.1 j hj) hA
      exact ⟨hI _ kept, ih j r (hp.2 j r) kept⟩

end Prog

/-- How one slot behaves: it rests with `Idle`, and its programs start and
end there; a crash takes it there from wherever it is. -/
structure Solo (M : Machine L C W) (i : L.Slot) (I Idle : List (Event L) → Prop) : Prop where
  nil : Idle []
  inv : ∀ h, Idle h → I h
  crash : ∀ h, I h → Idle (.crash :: h)
  body : ∀ t e h, M.slotOf t = i → Begins t e → Idle h →
    I (e :: h) ∧ (M.body t).Follows I i (fun _ => Idle) (e :: h)

section Standings

variable [DecidableEq L.Slot] {M : Machine L C W} {g : Guard L W} {i : L.Slot}
  {I Idle : List (Event L) → Prop}

/-- Where a slot stands in a pool: it rests, or its program goes on from
what happened in it. -/
def Standing (M : Machine L C W) (i : L.Slot) (I Idle : List (Event L) → Prop) (p : Pool L W) :
    Prop :=
  match p.threads i with
  | none => Idle (own M.slotOf i p.hist)
  | some q => I (own M.slotOf i p.hist) ∧ q.Follows I i (fun _ => Idle) (own M.slotOf i p.hist)

variable {p p' : Pool L W} {e : Event L} {q : Prog L L.Res}

theorem standing_none (hq : p.threads i = none) :
    Standing M i I Idle p ↔ Idle (own M.slotOf i p.hist) := by
  unfold Standing
  rw [hq]

theorem standing_some (hq : p.threads i = some q) :
    Standing M i I Idle p ↔ I (own M.slotOf i p.hist) ∧
      q.Follows I i (fun _ => Idle) (own M.slotOf i p.hist) := by
  unfold Standing
  rw [hq]

/-- What another slot does leaves the slot where it stands. -/
theorem Standing.of_other (h : Standing M i I Idle p) (ht : p'.threads i = p.threads i)
    (hh : p'.hist = e :: p.hist) (he : e.ownBy M.slotOf i = false) : Standing M i I Idle p' := by
  unfold Standing at h ⊢
  rw [ht, hh, own_cons_other he]
  exact h

/-- An event of the slot's program. -/
theorem Standing.of_own (ht : p'.threads i = some q) (hh : p'.hist = e :: p.hist)
    (he : e.ownBy M.slotOf i = true) (hI : I (e :: own M.slotOf i p.hist))
    (hf : q.Follows I i (fun _ => Idle) (e :: own M.slotOf i p.hist)) :
    Standing M i I Idle p' := by
  rw [standing_some ht, hh, own_cons_self he]
  exact ⟨hI, hf⟩

/-- A program begins in the slot. -/
theorem Standing.of_begin (hS : Solo M i I Idle) {t : L.Task} (hi : M.slotOf t = i)
    (h : Standing M i I Idle p) (hn : p.threads i = none) (ht : p'.threads i = some (M.body t))
    (hh : p'.hist = e :: p.hist) (he : e.ownBy M.slotOf i = true) (hb : Begins t e) :
    Standing M i I Idle p' := by
  obtain ⟨hI, hf⟩ := hS.body t e _ hi hb ((standing_none hn).mp h)
  exact .of_own ht hh he hI hf

/-- The program of the slot leaves with its result. -/
theorem Standing.of_end {r : L.Res} (h : Standing M i I Idle p)
    (hr : p.threads i = some (.ret r)) (ht : p'.threads i = none) (hh : p'.hist = e :: p.hist)
    (he : e.ownBy M.slotOf i = false) : Standing M i I Idle p' := by
  rw [standing_none ht, hh, own_cons_other he]
  exact ((standing_some hr).mp h).2

namespace Solo

/-- One step of a pool. -/
theorem step (hS : Solo M i I Idle) {p p' : Pool L W} {e : Event L}
    (h : Standing M i I Idle p) (hs : Step M g p e p') : Standing M i I Idle p' := by
  -- an event of the slot is a step of its program, every other event leaves
  -- the slot alone
  cases hs with
  | @op j o k c a w hj he hg =>
      by_cases hji : j = i
      · subst hji
        obtain ⟨hI, hf⟩ := ((standing_some hj).mp h).2 a
        exact .of_own (Function.update_self _ _ _) rfl (decide_eq_true rfl) hI hf
      · exact h.of_other (Function.update_of_ne (Ne.symm hji) _ _) rfl (decide_eq_false hji)
  | @spawn j t k hj hn hg =>
      by_cases hji : j = i
      · subst hji
        obtain ⟨hI, hf⟩ := ((standing_some hj).mp h).2
        have other : j ≠ M.slotOf t := fun e => by
          rw [← e, hj] at hn
          cases hn
        exact .of_own ((Function.update_of_ne other _ _).trans (Function.update_self _ _ _)) rfl
          (Bool.or_eq_true_iff.mpr (.inl (decide_eq_true rfl))) hI hf
      -- another slot may start a task in this one
      · by_cases hti : M.slotOf t = i
        · subst hti
          exact h.of_begin hS rfl hn (Function.update_self _ _ _) rfl
            (Bool.or_eq_true_iff.mpr (.inr (decide_eq_true rfl))) (.spawn j)
        · exact h.of_other ((Function.update_of_ne (Ne.symm hti) _ _).trans
            (Function.update_of_ne (Ne.symm hji) _ _)) rfl
            (Bool.or_eq_false_iff.mpr ⟨decide_eq_false hji, decide_eq_false hti⟩)
  | @await j l js k r hj hl hr hg =>
      by_cases hji : j = i
      · subst hji
        obtain ⟨hI, hf⟩ := ((standing_some hj).mp h).2 l hl r
        have other : j ≠ l := fun e => by
          rw [← e, hj] at hr
          cases hr
        exact .of_own ((Function.update_of_ne other _ _).trans (Function.update_self _ _ _)) rfl
          (decide_eq_true rfl) hI hf
      -- or take its result
      · by_cases hli : l = i
        · subst hli
          exact h.of_end hr (Function.update_self _ _ _) rfl (decide_eq_false hji)
        · exact h.of_other ((Function.update_of_ne (Ne.symm hli) _ _).trans
            (Function.update_of_ne (Ne.symm hji) _ _)) rfl (decide_eq_false hji)
  | @start t hn hg =>
      by_cases hti : M.slotOf t = i
      · subst hti
        exact h.of_begin hS rfl hn (Function.update_self _ _ _) rfl (decide_eq_true rfl) .start
      · exact h.of_other (Function.update_of_ne (Ne.symm hti) _ _) rfl (decide_eq_false hti)
  | @exit j r hj hk hg =>
      by_cases hji : j = i
      · subst hji
        exact h.of_end hj (Function.update_self _ _ _) rfl rfl
      · exact h.of_other (Function.update_of_ne (Ne.symm hji) _ _) rfl rfl
  | crash hg =>
      have inv : I (own M.slotOf i p.hist) := by
        unfold Standing at h
        split at h
        · exact hS.inv _ h
        · exact h.1
      refine (standing_none rfl).mpr ?_
      rw [own_cons_self rfl]
      exact hS.crash _ inv

/-- In every reachable pool the slot stands where its programs put it. -/
theorem standing (hS : Solo M i I Idle) {w : W} {p : Pool L W} (h : Reach M g (.idle w) p) :
    Standing M i I Idle p := by
  induction h with
  | refl => exact hS.nil
  | step _ hs ih => exact hS.step ih hs

/-- What happened in the slot is as its programs leave it. -/
theorem of_reach (hS : Solo M i I Idle) {w : W} {p : Pool L W} (h : Reach M g (.idle w) p) :
    I (own M.slotOf i p.hist) ∧ (p.view.live i = false → Idle (own M.slotOf i p.hist)) := by
  have standing := hS.standing h
  unfold Standing at standing
  split at standing
  · exact ⟨hS.inv _ standing, fun _ => standing⟩
  · next q hq =>
      refine ⟨standing.1, fun hl => ?_⟩
      rw [show p.view.live i = (p.threads i).isSome from rfl, hq] at hl
      cases hl

end Solo

end Standings

/-! ### Events and what comes before them -/

section Justifying

variable {Cause : Event L → List (Event L) → Prop} {h : List (Event L)} {e : Event L} {i : L.Slot}

/-- Every event is justified by what came before it. -/
def Justified (Cause : Event L → List (Event L) → Prop) : List (Event L) → Prop
  | [] => True
  | e :: h => Cause e h ∧ Justified Cause h

theorem Justified.of_suffix (hj : Justified Cause h) {before : List (Event L)}
    (hs : e :: before <:+ h) : Cause e before := by
  induction h with
  | nil => cases List.suffix_nil.mp hs
  | cons e' h ih =>
      obtain hnow | hthen := List.suffix_cons_iff.mp hs
      · cases hnow
        exact hj.1
      · exact ih hj.2 hthen

/-- An event, with what came before it. -/
theorem suffix_of_mem (he : e ∈ h) : ∃ before, e :: before <:+ h := by
  obtain ⟨later, before, rfl⟩ := List.append_of_mem he
  exact ⟨before, later, rfl⟩

/-- What happened once happened at one place. -/
theorem suffix_unique {X : Type} {f : Event L → Option X} {x : X} (hn : (h.filterMap f).Nodup)
    {e' : Event L} {before before' : List (Event L)} (hs : e :: before <:+ h)
    (hs' : e' :: before' <:+ h) (he : f e = some x) (he' : f e' = some x) :
    e :: before = e' :: before' := by
  induction h with
  | nil => cases List.suffix_nil.mp hs
  | cons e₀ h ih =>
      have tail : (h.filterMap f).Nodup := hn.sublist ((List.sublist_cons_self e₀ h).filterMap f)
      -- the first event is not one that comes again
      have fresh : ∀ {e : Event L} {l : List (Event L)}, e :: l <:+ h → f e = some x →
          f e₀ ≠ some x := by
        intro e l hs he he₀
        rw [List.filterMap_cons_some he₀] at hn
        exact (List.nodup_cons.mp hn).1
          (List.mem_filterMap.mpr ⟨e, hs.mem List.mem_cons_self, he⟩)
      obtain now | earlier := List.suffix_cons_iff.mp hs
      · obtain now' | earlier' := List.suffix_cons_iff.mp hs'
        · exact now.trans now'.symm
        · obtain ⟨rfl, -⟩ := List.cons.inj now
          exact absurd he (fresh earlier' he')
      · obtain now' | earlier' := List.suffix_cons_iff.mp hs'
        · obtain ⟨rfl, -⟩ := List.cons.inj now'
          exact absurd he' (fresh earlier he)
        · exact ih tail earlier earlier'

theorem Justified.of_mem (hj : Justified Cause h) (he : e ∈ h) :
    ∃ before, e :: before <:+ h ∧ Cause e before := by
  obtain ⟨before, hs⟩ := suffix_of_mem he
  exact ⟨before, hs, hj.of_suffix hs⟩

namespace Prog

/-- One operation that is justified. -/
theorem follows_just {o : L.Op} {Q : L.Ans o → List (Event L) → Prop} (hj : Justified Cause h)
    (hc : ∀ a, Cause (.op i o a) h)
    (hQ : ∀ a, Justified Cause (.op i o a :: h) → Q a (.op i o a :: h)) :
    (perform o).Follows (Justified Cause) i Q h :=
  fun a => ⟨⟨hc a, hj⟩, hQ a ⟨hc a, hj⟩⟩

/-- A program within a footprint that needs no more justification. -/
theorem follows_free {F : Footprint L} {p : Prog L α} (hp : p.Within F)
    (op : ∀ o a h, F.op o → Cause (.op i o a) h) (spawn : ∀ t h, F.spawn t → Cause (.spawn i t) h)
    (await : ∀ j r h, F.await j → Cause (.await i j r) h) (hj : Justified Cause h) :
    p.Follows (Justified Cause) i (fun _ => Justified Cause) h :=
  follows_within hp (fun _ hj => hj) (fun o h a ho hj => ⟨op o a h ho, hj⟩)
    (fun t h ht hj => ⟨spawn t h ht, hj⟩) (fun j h r hr hj => ⟨await j r h hr, hj⟩) hj

end Prog

variable [DecidableEq L.Slot] {M : Machine L C W} {g : Guard L W}

/-- In every reachable pool the events of a slot are justified, if its
programs justify them. -/
theorem justified_of_reach (hbegin : ∀ t e h, Begins t e → M.slotOf t = i → Cause e h)
    (hcrash : ∀ h, Cause .crash h)
    (hbody : ∀ t e h, M.slotOf t = i → Begins t e → Justified Cause (e :: h) →
      (M.body t).Follows (Justified Cause) i (fun _ => Justified Cause) (e :: h))
    {w : W} {p : Pool L W} (h : Reach M g (.idle w) p) :
    Justified Cause (own M.slotOf i p.hist) := by
  have solo : Solo M i (Justified Cause) (Justified Cause) := by
    refine ⟨trivial, fun h hj => hj, fun h hj => ⟨hcrash h, hj⟩, fun t e h hi hb hj => ?_⟩
    have began : Justified Cause (e :: h) := ⟨hbegin t e h hb hi, hj⟩
    exact ⟨began, hbody t e h hi hb began⟩
  exact (solo.of_reach h).1

/-- The event is within the footprint of a task of slot `i`. -/
def Event.Fits (slotOf : L.Task → L.Slot) (F : L.Task → Footprint L) (i : L.Slot)
    (e : Event L) : Prop :=
  (∀ o a, e = .op i o a → ∃ t, slotOf t = i ∧ (F t).op o) ∧
    ∀ t', e = .spawn i t' → slotOf t' ≠ i → ∃ t, slotOf t = i ∧ (F t).spawn t'

/-- What a slot does is within the footprint of a task it runs. -/
theorem fits_of_reach {F : L.Task → Footprint L} (hF : ∀ t, (M.body t).Within (F t)) {w : W}
    {p : Pool L W} (h : Reach M g (.idle w) p) (i : L.Slot) :
    Justified (fun e _ => e.Fits M.slotOf F i) (own M.slotOf i p.hist) := by
  have none : ∀ e : Event L, (∀ o a, e ≠ .op i o a) → (∀ t, M.slotOf t ≠ i → e ≠ .spawn i t) →
      e.Fits M.slotOf F i := fun e ho hs =>
    ⟨fun o a he => absurd he (ho o a), fun t he ht => absurd he (hs t ht)⟩
  have begins : ∀ t e, Begins t e → M.slotOf t = i → e.Fits M.slotOf F i := by
    intro t e hb hi
    cases hb with
    | spawn j =>
        refine none _ (fun o a he => by cases he) fun t' ht' he => ?_
        cases he
        exact ht' hi
    | start => exact none _ (fun o a he => by cases he) fun t' _ he => by cases he
  have body : ∀ t h, M.slotOf t = i → Justified (fun e _ => e.Fits M.slotOf F i) h →
      (M.body t).Follows (Justified fun e _ => e.Fits M.slotOf F i) i
        (fun _ => Justified fun e _ => e.Fits M.slotOf F i) h := by
    intro t h hi hj
    refine Prog.follows_free (hF t) (fun o a h ho => ?_) (fun t' h ht' => ?_)
      (fun j r h _ => none _ (fun o a he => by cases he) fun t' _ he => by cases he) hj
    · refine ⟨fun o' a' he => ?_, fun t' he => by cases he⟩
      cases he
      exact ⟨t, hi, ho⟩
    · refine ⟨fun o a he => (by cases he), fun t'' he _ => ?_⟩
      cases he
      exact ⟨t, hi, ht'⟩
  exact justified_of_reach (fun t e _ hb hi => begins t e hb hi)
    (fun _ => none _ (fun o a he => by cases he) fun t' _ he => by cases he)
    (fun t e h hi _ hj => body t _ hi hj) h

/-- An operation is one of a task of its slot. -/
theorem op_of_reach {F : L.Task → Footprint L} (hF : ∀ t, (M.body t).Within (F t)) {w : W}
    {p : Pool L W} (h : Reach M g (.idle w) p) {o : L.Op} {a : L.Ans o}
    (ho : .op i o a ∈ p.hist) : ∃ t, M.slotOf t = i ∧ (F t).op o := by
  obtain ⟨_, _, fits⟩ := (fits_of_reach hF h i).of_mem
    (List.mem_filter.mpr ⟨ho, decide_eq_true rfl⟩)
  exact fits.1 o a rfl

/-- A program starts tasks in other slots only: its own is taken. -/
theorem other_of_spawn {w : W} {p : Pool L W} (h : Reach M g (.idle w) p) {t : L.Task}
    (hs : .spawn i t ∈ p.hist) : M.slotOf t ≠ i := by
  induction h with
  | refl => cases hs
  | step _ step ih =>
      rw [step.hist_eq] at hs
      obtain e | hs := List.mem_cons.mp hs
      · subst e
        cases step with
        | spawn hi hn _ =>
            intro e
            rw [e, hi] at hn
            cases hn
      · exact ih hs

/-- So is every task a slot starts. -/
theorem spawn_of_reach {F : L.Task → Footprint L} (hF : ∀ t, (M.body t).Within (F t)) {w : W}
    {p : Pool L W} (h : Reach M g (.idle w) p) {t' : L.Task} (hs : .spawn i t' ∈ p.hist) :
    ∃ t, M.slotOf t = i ∧ (F t).spawn t' := by
  obtain ⟨_, _, fits⟩ := (fits_of_reach hF h i).of_mem
    (List.mem_filter.mpr ⟨hs, Bool.or_eq_true_iff.mpr (.inl (decide_eq_true rfl))⟩)
  exact fits.2 t' rfl (other_of_spawn h hs)

end Justifying

end RustDfs.Conc
