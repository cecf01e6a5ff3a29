import Mathlib.Logic.Relation
import RustDfs.Conc.Solo

/-!
# `RustDfs.Conc.Waiting`: who waits for whom

A program waits at an operation that cannot run yet, at the start of a
task whose slot is taken, or for one of the tasks it has started.
`WaitsOn` says which slots it waits for; what an operation waits for is a
question about the machine (`Needs`). A slot is `Settled` when following
the waits leads to a slot where something can happen: then the pool is
not stuck, whatever else in it waits.

Two facts help to follow them. The events a program may have next are
justified by what its slot did before (`Solo.next`). And a task whose
result is kept stays in its slot until the program that started it takes
the result (`Tended`).
-/

set_option autoImplicit false

namespace RustDfs.Conc

variable {L : Lang} {C W : Type}

/-! ### What comes next -/

/-- The events the program of a slot may have next. -/
inductive Next (p : Pool L W) (i : L.Slot) : Event L → Prop
  | op {o : L.Op} {k : L.Ans o → Prog L L.Res} (h : p.threads i = some (.op o k)) (a : L.Ans o) :
      Next p i (.op i o a)
  | spawn {t : L.Task} {k : Prog L L.Res} (h : p.threads i = some (.spawn t k)) :
      Next p i (.spawn i t)
  | await {js : List L.Slot} {k : L.Slot → L.Res → Prog L L.Res} {j : L.Slot}
      (h : p.threads i = some (.await js k)) (hj : j ∈ js) (r : L.Res) : Next p i (.await i j r)

variable [DecidableEq L.Slot] {M : Machine L C W} {g : Guard L W} {i j : L.Slot}
  {I Idle : List (Event L) → Prop} {w : W} {p p' : Pool L W} {e : Event L} {h : List (Event L)}

/-- What comes next keeps what the slot keeps. -/
theorem Solo.next (hS : Solo M i I Idle) (hr : Reach M g (.idle w) p) (hn : Next p i e) :
    I (e :: own M.slotOf i p.hist) := by
  have standing := hS.standing hr
  cases hn with
  | op h a => exact (((standing_some h).mp standing).2 a).1
  | spawn h => exact ((standing_some h).mp standing).2.1
  | await h hj r => exact (((standing_some h).mp standing).2 _ hj r).1

/-- A program that has ended leaves its slot at rest. -/
theorem Solo.ended (hS : Solo M i I Idle) (hr : Reach M g (.idle w) p) {r : L.Res}
    (hi : p.threads i = some (.ret r)) : Idle (own M.slotOf i p.hist) :=
  ((standing_some hi).mp (hS.standing hr)).2

/-- A property of programs that goes over to what is left of them. -/
structure Residual (R : L.Slot → Prog L L.Res → Prop) : Prop where
  op : ∀ i o k a, R i (.op o k) → R i (k a)
  spawn : ∀ i t k, R i (.spawn t k) → R i k
  await : ∀ i js k j r, j ∈ js → R i (.await js k) → R i (k j r)

/-- What runs in a slot has the properties of the tasks. -/
theorem Residual.of_reach {R : L.Slot → Prog L L.Res → Prop} (hR : Residual R)
    (body : ∀ t, R (M.slotOf t) (M.body t)) (hr : Reach M g (.idle w) p) {q : Prog L L.Res}
    (hl : p.threads i = some q) : R i q := by
  induction hr generalizing i q with
  | refl => cases hl
  | step _ hs ih =>
      -- what was in the slot before, or what the step puts there
      cases hs with
      | op hi _ _ =>
          obtain ⟨rfl, hq⟩ | ⟨-, hl⟩ := Protocol.running_update hl
          · cases hq
            exact hR.op _ _ _ _ (ih hi)
          · exact ih hl
      | spawn hi _ _ =>
          obtain ⟨rfl, hq⟩ | ⟨-, hl⟩ := Protocol.running_update hl
          · cases hq
            exact body _
          · obtain ⟨rfl, hq⟩ | ⟨-, hl⟩ := Protocol.running_update hl
            · cases hq
              exact hR.spawn _ _ _ (ih hi)
            · exact ih hl
      | await hi hj _ _ =>
          obtain ⟨rfl, hq⟩ | ⟨-, hl⟩ := Protocol.running_update hl
          · cases hq
          · obtain ⟨rfl, hq⟩ | ⟨-, hl⟩ := Protocol.running_update hl
            · cases hq
              exact hR.await _ _ _ _ _ hj (ih hi)
            · exact ih hl
      | start _ _ =>
          obtain ⟨rfl, hq⟩ | ⟨-, hl⟩ := Protocol.running_update hl
          · cases hq
            exact body _
          · exact ih hl
      | exit _ _ _ =>
          obtain ⟨rfl, hq⟩ | ⟨-, hl⟩ := Protocol.running_update hl
          · cases hq
          · exact ih hl
      | crash _ => cases hl

/-! ### Children -/

/-- The slots of the tasks slot `i` has started and not taken the results
of. -/
def children (slotOf : L.Task → L.Slot) (i : L.Slot) : List (Event L) → List L.Slot
  | [] => []
  | .spawn i' t :: h => if i' = i then slotOf t :: children slotOf i h else children slotOf i h
  | .await i' j _ :: h =>
      if i' = i then (children slotOf i h).erase j else children slotOf i h
  | .crash :: _ => []
  | _ :: h => children slotOf i h

section Children

variable {slotOf : L.Task → L.Slot}

theorem children_spawn (t : L.Task) : children slotOf i (.spawn i t :: h) =
    slotOf t :: children slotOf i h := if_pos rfl

theorem children_await (r : L.Res) : children slotOf i (.await i j r :: h) =
    (children slotOf i h).erase j := if_pos rfl

/-- The children of a slot are its own affair. -/
theorem children_own (h : List (Event L)) :
    children slotOf i (own slotOf i h) = children slotOf i h := by
  induction h with
  | nil => rfl
  | cons e h ih =>
      cases he : e.ownBy slotOf i with
      | true =>
          rw [own_cons_self he]
          cases e <;> simp only [children, ih]
      | false =>
          -- what another slot starts or takes is none of its children
          rw [own_cons_other he, ih]
          cases e with
          | spawn i' t =>
              have other : i' ≠ i := of_decide_eq_false (Bool.or_eq_false_iff.mp he).1
              exact (if_neg other).symm
          | await i' j r =>
              have other : i' ≠ i := of_decide_eq_false he
              exact (if_neg other).symm
          | crash => cases he
          | _ => rfl

end Children

/-- The tasks whose results are kept: each is there, and is the child of
one slot. -/
structure Tended (M : Machine L C W) (p : Pool L W) : Prop where
  live : ∀ i j, M.keeps j = true → j ∈ children M.slotOf i p.hist → p.threads j ≠ none
  once : ∀ i j, M.keeps j = true → (children M.slotOf i p.hist).count j ≤ 1
  apart : ∀ i i' j, M.keeps j = true → j ∈ children M.slotOf i p.hist →
    j ∈ children M.slotOf i' p.hist → i = i'

/-- There are no children. -/
theorem tended_none (hc : ∀ i, children M.slotOf i p.hist = []) : Tended M p where
  live i j _ hj := by
    rw [hc] at hj
    cases hj
  once i j _ := by
    rw [hc]
    exact Nat.zero_le 1
  apart i i' j _ hj := by
    rw [hc] at hj
    cases hj

/-- A step that starts and takes nothing, and empties no slot that is
kept. -/
theorem Tended.same (ht : Tended M p)
    (hc : ∀ i, children M.slotOf i p'.hist = children M.slotOf i p.hist)
    (live : ∀ j, M.keeps j = true → p.threads j ≠ none → p'.threads j ≠ none) : Tended M p' where
  live i j hk hj := live j hk (ht.live i j hk (hc i ▸ hj))
  once i j hk := (hc i).symm ▸ ht.once i j hk
  apart i i' j hk hj hj' := ht.apart i i' j hk (hc i ▸ hj) (hc i' ▸ hj')

/-- A task is started in a slot that was free. -/
theorem Tended.spawn (ht : Tended M p) {t : L.Task} (hn : p.threads (M.slotOf t) = none)
    (hh : p'.hist = .spawn i t :: p.hist)
    (live : ∀ j, p.threads j ≠ none ∨ j = M.slotOf t → p'.threads j ≠ none) : Tended M p' := by
  -- nobody has the slot as a child yet
  have new : ∀ i, M.keeps (M.slotOf t) = true → M.slotOf t ∉ children M.slotOf i p.hist :=
    fun i hk hj => ht.live i _ hk hj hn
  have mem : ∀ i' j, j ∈ children M.slotOf i' p'.hist →
      (i = i' ∧ j = M.slotOf t) ∨ j ∈ children M.slotOf i' p.hist := by
    intro i' j hj
    rw [hh] at hj
    by_cases hi : i = i'
    · subst hi
      rw [children_spawn] at hj
      exact (List.mem_cons.mp hj).imp_left fun e => ⟨rfl, e⟩
    · rw [show children M.slotOf i' (.spawn i t :: p.hist) = children M.slotOf i' p.hist from
        if_neg hi] at hj
      exact .inr hj
  refine ⟨fun i' j hk hj => ?_, fun i' j hk => ?_, fun i' i'' j hk hj hj' => ?_⟩
  · obtain ⟨-, rfl⟩ | hj := mem i' j hj
    · exact live _ (.inr rfl)
    · exact live j (.inl (ht.live i' j hk hj))
  · rw [hh]
    by_cases hi : i = i'
    · subst hi
      rw [children_spawn, List.count_cons]
      by_cases hj : M.slotOf t = j
      · subst hj
        rw [List.count_eq_zero_of_not_mem (new i hk), if_pos (beq_self_eq_true _)]
      · rw [if_neg fun e => hj (eq_of_beq e)]
        exact ht.once i j hk
    · rw [show children M.slotOf i' (.spawn i t :: p.hist) = children M.slotOf i' p.hist from
        if_neg hi]
      exact ht.once i' j hk
  · -- a slot that was free a moment ago is nobody else's child
    obtain ⟨rfl, rfl⟩ | hj := mem i' j hj
    · obtain ⟨rfl, -⟩ | hj' := mem i'' _ hj'
      · rfl
      · exact absurd hj' (new i'' hk)
    · obtain ⟨rfl, rfl⟩ | hj' := mem i'' j hj'
      · exact absurd hj (new i' hk)
      · exact ht.apart i' i'' j hk hj hj'

/-- The result of a child is taken. -/
theorem Tended.await (ht : Tended M p) {r : L.Res} (hj : j ∈ children M.slotOf i p.hist)
    (hh : p'.hist = .await i j r :: p.hist)
    (live : ∀ l, l ≠ j → p.threads l ≠ none → p'.threads l ≠ none) : Tended M p' := by
  have sub : ∀ i', (children M.slotOf i' p'.hist).Sublist (children M.slotOf i' p.hist) := by
    intro i'
    rw [hh]
    -- only slot `i` loses a child
    by_cases hi : i = i'
    · subst hi
      rw [children_await]
      exact List.erase_sublist
    · rw [show children M.slotOf i' (.await i j r :: p.hist) = children M.slotOf i' p.hist from
        if_neg hi]
  refine ⟨fun i' l hk hl => live l ?_ (ht.live i' l hk ((sub i').subset hl)),
    fun i' l hk => ((sub i').count_le l).trans (ht.once i' l hk),
    fun i' i'' l hk hl hl' => ht.apart i' i'' l hk ((sub i').subset hl) ((sub i'').subset hl')⟩
  rintro rfl
  -- the slot was the child of `i` once, and of nobody else
  obtain rfl := ht.apart i' i l hk ((sub i').subset hl) hj
  rw [hh, children_await] at hl
  have taken := List.count_erase_self (a := l) (l := children M.slotOf i' p.hist)
  have once := ht.once i' l hk
  have some := List.count_pos_iff.mpr hl
  omega

/-- The slot that gets a program is taken, and the others stay taken. -/
theorem taken_update {threads : L.Slot → Option (Prog L L.Res)}
    {q : Prog L L.Res} (hj : threads j ≠ none ∨ j = i) :
    Function.update threads i (some q) j ≠ none := by
  by_cases hji : j = i
  · subst hji
    rw [Function.update_self]
    exact Option.some_ne_none q
  · rw [Function.update_of_ne hji]
    exact hj.resolve_right hji

/-- In every run whose programs wait for their children only, the tasks
whose results are kept are there until they are taken. -/
theorem tended_of_reach (own : ∀ p, Reach M g (.idle w) p → ∀ i j r, Next p i (.await i j r) →
    j ∈ children M.slotOf i p.hist) (hr : Reach M g (.idle w) p) : Tended M p := by
  induction hr with
  | refl => exact tended_none fun _ => rfl
  | @step p p' e hp hs ih =>
      cases hs with
      | op _ _ _ => exact ih.same (fun _ => rfl) fun j _ hj => taken_update (.inl hj)
      | spawn _ hn _ =>
          refine ih.spawn hn rfl fun j hj => ?_
          exact taken_update (hj.imp_left fun hj => taken_update (.inl hj))
      | @await i j js k r hi hj hjr hg =>
          -- the only slot that becomes free is the one whose result is taken
          refine ih.await (own p hp i j r (.await hi hj r)) rfl fun l hlj hl hn => ?_
          exact taken_update (.inl hl) ((Function.update_of_ne hlj ..).symm.trans hn)
      | start _ _ => exact ih.same (fun _ => rfl) fun j _ hj => taken_update (.inl hj)
      | @exit i r hi hk hg =>
          -- a program that leaves by itself is none whose result is kept
          refine ih.same (fun _ => rfl) fun j hkj hj hn => ?_
          have hji : j ≠ i := fun e => by
            rw [e, hk] at hkj
            cases hkj
          exact hj ((Function.update_of_ne hji ..).symm.trans hn)
      | crash hg => exact tended_none fun _ => rfl

/-! ### Waiting -/

/-- The program of a slot can take a step.
- `op`: its operation can be answered, with a choice that counts,
- `spawn`: the slot of the task it starts is free,
- `await`: one of the tasks it collects has ended,
- `exit`: it has ended itself, and nobody collects its result. -/
inductive CanGo (M : Machine L C W) (Counts : C → Prop) (p : Pool L W) (i : L.Slot) : Prop
  | op {o : L.Op} {k : L.Ans o → Prog L L.Res} {c : C} (h : p.threads i = some (.op o k))
      (hc : Counts c) (he : (M.exec i o c p.world).isSome = true) : CanGo M Counts p i
  | spawn {t : L.Task} {k : Prog L L.Res} (h : p.threads i = some (.spawn t k))
      (hn : p.threads (M.slotOf t) = none) : CanGo M Counts p i
  | await {js : List L.Slot} {k : L.Slot → L.Res → Prog L L.Res} {j : L.Slot} {r : L.Res}
      (h : p.threads i = some (.await js k)) (hj : j ∈ js) (hr : p.threads j = some (.ret r)) :
      CanGo M Counts p i
  | exit {r : L.Res} (h : p.threads i = some (.ret r)) (hk : M.keeps i = false) :
      CanGo M Counts p i

/-- The slots a slot waits for.
- `op`: those its operation needs,
- `spawn`: the one it starts a task in, which must be left first,
- `await`: those of the tasks whose results it collects. -/
inductive WaitsOn (M : Machine L C W) (Needs : Pool L W → L.Op → L.Slot → Prop) (p : Pool L W) :
    L.Slot → L.Slot → Prop
  | op {i j : L.Slot} {o : L.Op} {k : L.Ans o → Prog L L.Res} (h : p.threads i = some (.op o k))
      (hn : Needs p o j) : WaitsOn M Needs p i j
  | spawn {i : L.Slot} {t : L.Task} {k : Prog L L.Res} (h : p.threads i = some (.spawn t k)) :
      WaitsOn M Needs p i (M.slotOf t)
  | await {i j : L.Slot} {js : List L.Slot} {k : L.Slot → L.Res → Prog L L.Res}
      (h : p.threads i = some (.await js k)) (hj : j ∈ js) : WaitsOn M Needs p i j

/-- The slot waits, through whatever slots, for one where something can
happen. -/
def Settled (M : Machine L C W) (Needs : Pool L W → L.Op → L.Slot → Prop)
    (Moves : Pool L W → L.Slot → Prop) (p : Pool L W) (i : L.Slot) : Prop :=
  ∃ j, Relation.ReflTransGen (WaitsOn M Needs p) i j ∧ Moves p j

section Settling

variable {Needs : Pool L W → L.Op → L.Slot → Prop} {Moves : Pool L W → L.Slot → Prop}

omit [DecidableEq L.Slot] in
theorem Settled.now (hm : Moves p i) : Settled M Needs Moves p i := ⟨i, .refl, hm⟩

omit [DecidableEq L.Slot] in
theorem Settled.after (hw : WaitsOn M Needs p i j) (hs : Settled M Needs Moves p j) :
    Settled M Needs Moves p i := by
  obtain ⟨l, hl, hm⟩ := hs
  exact ⟨l, .head hw hl, hm⟩

end Settling

end RustDfs.Conc
