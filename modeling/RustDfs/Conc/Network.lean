import RustDfs.Conc.Pool

/-!
# `RustDfs.Conc.Network`: pools that only exchange messages

A network has a pool for every node. A step of the network is a step of
one of them; the others stay as they are. Nodes share no world: what one
of them takes in from another is a choice of its environment, and a
`NetGuard` ties these choices to what the other nodes did.

`NetReach.node` takes a run of the network apart into runs of its nodes,
`NetReach.caused` goes back from an event to the moment it was allowed.
-/

set_option autoImplicit false

namespace RustDfs.Conc

variable {L : Lang} {C W N : Type}

/-! ### Networks -/

/-- The pool of every node. -/
abbrev Network (N : Type) (L : Lang) (W : Type) := N → Pool L W

/-- A condition on the steps of a network: the state of every node before
the step, the node that takes it, and what happens there. -/
abbrev NetGuard (N : Type) (L : Lang) (W : Type) := (N → View L W) → N → Event L → Prop

/-- The view of every node. -/
def Network.views (net : Network N L W) : N → View L W := fun n => (net n).view

section Runs

variable [DecidableEq L.Slot] [DecidableEq N] (M : Machine L C W)

/-- The networks a guarded run reaches. -/
inductive NetReach (g : NetGuard N L W) (net₀ : Network N L W) : Network N L W → Prop
  | refl : NetReach g net₀ net₀
  | step {net : Network N L W} {n : N} {e : Event L} {p : Pool L W} :
      NetReach g net₀ net → Step M (fun _ e => g net.views n e) (net n) e p →
      NetReach g net₀ (Function.update net n p)

variable {M} {g : NetGuard N L W} {net₀ net : Network N L W}

/-- Each node of a network runs by itself. -/
theorem NetReach.node {g' : N → Guard L W} (hg : ∀ vs n e, g vs n e → g' n (vs n) e)
    (h : NetReach M g net₀ net) (n : N) : Reach M (g' n) (net₀ n) (net n) := by
  induction h with
  | refl => exact .refl
  | @step net m e p _ hs ih =>
      by_cases hm : n = m
      · subst hm
        rw [Function.update_self]
        exact ih.step (hs.reguard (hg _ _ _ hs.allowed))
      · rw [Function.update_of_ne hm]
        exact ih

/-- Every event was allowed when it happened: at that moment the history
of its node was what came before it, and no node had seen more than it
has now. -/
theorem NetReach.caused (init : ∀ n, (net₀ n).hist = []) (h : NetReach M g net₀ net) {n : N}
    {e : Event L} {before : List (Event L)} (he : e :: before <:+ (net n).hist) :
    ∃ net', NetReach M g net₀ net' ∧ g net'.views n e ∧ (net' n).hist = before ∧
      ∀ m, (net' m).hist <:+ (net m).hist := by
  induction h with
  | refl =>
      rw [init n] at he
      cases List.suffix_nil.mp he
  | @step net m e' p hr hs ih =>
      have grows : ∀ k, (net k).hist <:+ (Function.update net m p k).hist := fun k => by
        by_cases hk : k = m
        · subst hk
          rw [Function.update_self, hs.hist_eq]
          exact List.suffix_cons _ _
        · have same : Function.update net m p k = net k := Function.update_of_ne hk p net
          exact same.symm ▸ List.suffix_rfl
      have earlier : e :: before <:+ (net n).hist → ∃ net', NetReach M g net₀ net' ∧
          g net'.views n e ∧ (net' n).hist = before ∧
          ∀ k, (net' k).hist <:+ (Function.update net m p k).hist := fun he => by
        obtain ⟨net', reach, allowed, hist, suffix⟩ := ih he
        exact ⟨net', reach, allowed, hist, fun k => (suffix k).trans (grows k)⟩
      by_cases hn : n = m
      · subst hn
        rw [Function.update_self, hs.hist_eq] at he
        obtain hnow | hthen := List.suffix_cons_iff.mp he
        · cases hnow
          exact ⟨net, hr, hs.allowed, rfl, grows⟩
        · exact earlier hthen
      · rw [Function.update_of_ne hn] at he
        exact earlier he

end Runs

/-! ### Running a script -/

section Scripts

variable [DecidableEq L.Slot] [DecidableEq N] (M : Machine L C W)

/-- The run of a script that names the node of every move. -/
def runNetwork (g : NetGuard N L W) [∀ vs n e, Decidable (g vs n e)] :
    List (N × Move L C) → Network N L W → Option (Network N L W)
  | [], net => some net
  | (n, m) :: ms, net =>
      match next M (net n) m with
      | some (e, p) =>
          if g net.views n e then runNetwork g ms (Function.update net n p) else none
      | none => none

variable {M} {g : NetGuard N L W}

/-- A script that runs through leads to a reachable network. -/
theorem reach_of_runNetwork [∀ vs n e, Decidable (g vs n e)] {ms : List (N × Move L C)}
    {net₀ net net' : Network N L W} (h₀ : NetReach M g net₀ net)
    (h : runNetwork M g ms net = some net') : NetReach M g net₀ net' := by
  induction ms generalizing net with
  | nil =>
      cases h
      exact h₀
  | cons m ms ih =>
      obtain ⟨n, m⟩ := m
      simp only [runNetwork] at h
      split at h
      · split at h
        · exact ih (h₀.step (step_of_next ‹_› ‹_›)) h
        · cases h
      · cases h

/-- A script whose result passes a test leads to a reachable network that
passes it. -/
theorem exists_reach_of_runNetwork [∀ vs n e, Decidable (g vs n e)] (ms : List (N × Move L C))
    {net : Network N L W} {test : Network N L W → Prop} [DecidablePred test]
    (h : (runNetwork M g ms net).any (fun net' => decide (test net')) = true) :
    ∃ net', NetReach M g net net' ∧ test net' := by
  cases hn : runNetwork M g ms net with
  | none =>
      rw [hn] at h
      cases h
  | some net' =>
      rw [hn, Option.any_some] at h
      exact ⟨net', reach_of_runNetwork .refl hn, of_decide_eq_true h⟩

end Scripts

end RustDfs.Conc
