import Mathlib.Data.Set.Function
import Mathlib.Logic.Function.Basic

/-!
# `RustDfs.Lib.Merkle`: Merkle trees with unpaired nodes

A tree over a list of hashes, layer by layer: adjacent nodes are combined
pairwise and a last node without a partner moves up unchanged. `path`
lists the nodes beside the way from a leaf to the top, one for each layer
that has one. `climb` goes that way from a claimed leaf with claimed
nodes; the width of each layer follows from the number of leaves, so the
shape of the way is fixed by the leaf's index.

`climb_path` is completeness: the leaf and its own path lead to the top.
`eq_of_climb` is soundness: whatever leaf and nodes lead to the top of a
tree, the leaf is the tree's leaf at that index, if no two of the pairs
combined in the tree and on the way collide. The nodes are anybody's
choice. The induction compares layer by layer from the top, where the two
sides are equal, down to the leaf.
-/

set_option autoImplicit false

namespace RustDfs.Lib.Merkle

variable {H : Type} (node : H → H → H)

/-- The layer above a layer. A node without a partner moves up unchanged. -/
def layerAbove : List H → List H
  | a :: b :: rest => node a b :: layerAbove rest
  | rest => rest

/-- The top of a tree, climbing at most `n` layers. -/
def top : Nat → List H → Option H
  | _, [] => none
  | _, [h] => some h
  | 0, _ => none
  | n + 1, hs => top n (layerAbove node hs)

/-- The nodes beside the way from leaf `i` to the top, climbing at most
`n` layers. -/
def path : Nat → List H → Nat → List H
  | 0, _, _ => []
  | n + 1, hs, i =>
      if hs.length ≤ 1 then []
      else (hs[if i % 2 = 0 then i + 1 else i - 1]?).toList ++ path n (layerAbove node hs) (i / 2)

/-- Where a leaf and the nodes beside its way lead, in a tree with
`width` nodes in this layer, climbing at most `n` layers. -/
def climb : Nat → Nat → Nat → H → List H → Option H
  | 0, _, _, h, _ => some h
  | n + 1, width, i, h, proof =>
      if width ≤ 1 then some h
      else if i % 2 = 0 ∧ i + 1 = width then climb n ((width + 1) / 2) (i / 2) h proof
      else
        match proof with
        | [] => none
        | p :: proof =>
            climb n ((width + 1) / 2) (i / 2) (if i % 2 = 0 then node h p else node p h) proof

/-! ### Layers -/

theorem length_layerAbove (hs : List H) : (layerAbove node hs).length = (hs.length + 1) / 2 := by
  induction hs using layerAbove.induct with
  | case1 a b rest ih =>
      simp only [layerAbove, List.length_cons, ih]
      omega
  | case2 rest h =>
      match rest, h with
      | [], _ => simp [layerAbove]
      | [a], _ => simp [layerAbove]
      | a :: b :: rest, h => exact absurd rfl (h a b rest)

/-- A node of the layer above: two nodes combined, or the last one. -/
theorem getElem?_layerAbove (hs : List H) (j : Nat) :
    (layerAbove node hs)[j]? =
      match hs[2 * j]?, hs[2 * j + 1]? with
      | some a, some b => some (node a b)
      | some a, none => some a
      | none, _ => none := by
  induction hs using layerAbove.induct generalizing j with
  | case1 a b rest ih =>
      cases j with
      | zero => rfl
      | succ j =>
          rw [layerAbove, List.getElem?_cons_succ, ih j]
          rfl
  | case2 rest h =>
      match rest, h with
      | [], _ => simp [layerAbove]
      | [a], _ => cases j <;> simp [layerAbove]
      | a :: b :: rest, h => exact absurd rfl (h a b rest)

/-- The node above a left node with a partner. -/
theorem getElem?_layerAbove_left {hs : List H} {i : Nat} {a b : H} (hi : i % 2 = 0)
    (ha : hs[i]? = some a) (hb : hs[i + 1]? = some b) :
    (layerAbove node hs)[i / 2]? = some (node a b) := by
  have even : 2 * (i / 2) = i := by omega
  rw [getElem?_layerAbove, even, ha, hb]

/-- The node above a right node. -/
theorem getElem?_layerAbove_right {hs : List H} {i : Nat} {a b : H} (hi : i % 2 ≠ 0)
    (ha : hs[i - 1]? = some a) (hb : hs[i]? = some b) :
    (layerAbove node hs)[i / 2]? = some (node a b) := by
  have left : 2 * (i / 2) = i - 1 := by omega
  have right : i - 1 + 1 = i := by omega
  rw [getElem?_layerAbove, left, right, ha, hb]

/-- The node above the last node without a partner. -/
theorem getElem?_layerAbove_last {hs : List H} {i : Nat} (hi : i % 2 = 0)
    (hl : i + 1 = hs.length) : (layerAbove node hs)[i / 2]? = hs[i]? := by
  have even : 2 * (i / 2) = i := by omega
  have none : hs[i + 1]? = none := List.getElem?_eq_none (by omega)
  rw [getElem?_layerAbove, even, none]
  cases hs[i]? <;> rfl

theorem top_succ {hs : List H} (h : 1 < hs.length) (n : Nat) :
    top node (n + 1) hs = top node n (layerAbove node hs) := by
  match hs, h with
  | a :: b :: rest, _ => rfl

/-- A tree with a leaf has a top. -/
theorem exists_top {n : Nat} {hs : List H} (hn : hs.length ≤ n) (hne : hs ≠ []) :
    ∃ r, top node n hs = some r := by
  induction n generalizing hs with
  | zero => exact absurd (List.length_eq_zero_iff.mp (Nat.le_zero.mp hn)) hne
  | succ n ih =>
      match hs, hne with
      | [h], _ => exact ⟨h, rfl⟩
      | a :: b :: rest, _ =>
          have above := length_layerAbove node (a :: b :: rest)
          simp only [List.length_cons] at above hn
          refine ih ?_ (List.ne_nil_of_length_pos ?_) <;> omega

/-! ### The way to the top -/

section Climb

variable {n width i : Nat} {h : H}

theorem climb_top (hw : width ≤ 1) (proof : List H) :
    climb node (n + 1) width i h proof = some h := by
  rw [climb.eq_def]
  simp [hw]

/-- The last node without a partner. -/
theorem climb_last (hw : ¬ width ≤ 1) (he : i % 2 = 0) (hl : i + 1 = width) (proof : List H) :
    climb node (n + 1) width i h proof = climb node n ((width + 1) / 2) (i / 2) h proof := by
  rw [climb.eq_def]
  simp only [if_neg hw, if_pos (And.intro he hl)]

/-- A node with a partner. -/
theorem climb_cons (hw : ¬ width ≤ 1) (hl : ¬ (i % 2 = 0 ∧ i + 1 = width)) (p : H)
    (proof : List H) :
    climb node (n + 1) width i h (p :: proof) =
      climb node n ((width + 1) / 2) (i / 2) (if i % 2 = 0 then node h p else node p h) proof := by
  rw [climb.eq_def]
  simp only [if_neg hw, if_neg hl]

/-- A node with a partner nobody names. -/
theorem climb_nil (hw : ¬ width ≤ 1) (hl : ¬ (i % 2 = 0 ∧ i + 1 = width)) :
    climb node (n + 1) width i h [] = none := by
  rw [climb.eq_def]
  simp only [if_neg hw, if_neg hl]

end Climb

/-! ### Completeness -/

/-- A leaf and its own path lead to the top. -/
theorem climb_path {n : Nat} {hs : List H} {i : Nat} {h : H} (hn : hs.length ≤ n)
    (hi : hs[i]? = some h) :
    climb node n hs.length i h (path node n hs i) = top node n hs := by
  induction n generalizing hs i h with
  | zero =>
      rw [List.length_eq_zero_iff.mp (Nat.le_zero.mp hn)] at hi
      cases hi
  | succ n ih =>
      have hlt : i < hs.length := (List.getElem?_eq_some_iff.mp hi).1
      by_cases hw : hs.length ≤ 1
      · -- One leaf is its own top.
        match hs, hw, hi with
        | [a], _, hi =>
            have : i = 0 := by simpa using hlt
            subst this
            cases hi
            rfl
      · have above : (layerAbove node hs).length = (hs.length + 1) / 2 := length_layerAbove node hs
        have hn' : (layerAbove node hs).length ≤ n := by omega
        rw [top_succ node (by omega), path, if_neg hw]
        by_cases he : i % 2 = 0
        · rw [if_pos he]
          by_cases hl : i + 1 = hs.length
          · have next := (getElem?_layerAbove_last node he hl).trans hi
            have none : hs[i + 1]? = none := List.getElem?_eq_none (by omega)
            rw [none, climb_last node hw he hl, ← above]
            exact ih hn' next
          · obtain ⟨b, hb⟩ : ∃ b, hs[i + 1]? = some b :=
              ⟨_, List.getElem?_eq_getElem (show i + 1 < hs.length by omega)⟩
            rw [hb, Option.toList_some, List.singleton_append,
              climb_cons node hw (fun h => hl h.2), if_pos he, ← above]
            exact ih hn' (getElem?_layerAbove_left node he hi hb)
        · obtain ⟨a, ha⟩ : ∃ a, hs[i - 1]? = some a :=
            ⟨_, List.getElem?_eq_getElem (show i - 1 < hs.length by omega)⟩
          rw [if_neg he, ha, Option.toList_some, List.singleton_append,
            climb_cons node hw (fun h => he h.1), if_neg he, ← above]
          exact ih hn' (getElem?_layerAbove_right node he ha hi)

/-! ### Soundness -/

/-- The pairs combined in a layer. -/
def pairs : List H → List (H × H)
  | a :: b :: rest => (a, b) :: pairs rest
  | _ => []

/-- The pairs combined in a tree, climbing at most `n` layers. -/
def treePairs : Nat → List H → List (H × H)
  | 0, _ => []
  | n + 1, hs => pairs hs ++ treePairs n (layerAbove node hs)

/-- The pairs combined on a way, climbing at most `n` layers. -/
def climbPairs : Nat → Nat → Nat → H → List H → List (H × H)
  | 0, _, _, _, _ => []
  | n + 1, width, i, h, proof =>
      if width ≤ 1 then []
      else if i % 2 = 0 ∧ i + 1 = width then climbPairs n ((width + 1) / 2) (i / 2) h proof
      else
        match proof with
        | [] => []
        | p :: proof =>
            (if i % 2 = 0 then (h, p) else (p, h)) ::
              climbPairs n ((width + 1) / 2) (i / 2) (if i % 2 = 0 then node h p else node p h) proof

/-- Two neighbours are combined. -/
theorem mem_pairs {hs : List H} {j : Nat} {a b : H} (hj : j % 2 = 0) (ha : hs[j]? = some a)
    (hb : hs[j + 1]? = some b) : (a, b) ∈ pairs hs := by
  induction hs using pairs.induct generalizing j with
  | case1 x y rest ih =>
      match j, hj with
      | 0, _ =>
          cases ha
          cases hb
          exact List.mem_cons_self
      | j + 2, hj => exact List.mem_cons_of_mem _ (ih (by omega) ha hb)
  | case2 rest h =>
      match rest, h with
      | [], _ => cases ha
      | [x], _ => cases hb
      | x :: y :: rest, h => exact absurd rfl (h x y rest)

/-- The leaf of a way that leads to the top of a tree is the tree's leaf,
if no two pairs combined in the tree and on the way collide. -/
theorem eq_of_climb {n : Nat} {hs : List H} {i : Nat} {h h' : H} {proof : List H}
    {S : Set (H × H)} (hS : S.InjOn (Function.uncurry node))
    (htree : ∀ x ∈ treePairs node n hs, x ∈ S)
    (hclimb : ∀ x ∈ climbPairs node n hs.length i h' proof, x ∈ S)
    (hn : hs.length ≤ n) (hi : hs[i]? = some h)
    (hc : climb node n hs.length i h' proof = top node n hs) : h' = h := by
  induction n generalizing hs i h h' proof with
  | zero =>
      rw [List.length_eq_zero_iff.mp (Nat.le_zero.mp hn)] at hi
      cases hi
  | succ n ih =>
      have hlt : i < hs.length := (List.getElem?_eq_some_iff.mp hi).1
      by_cases hw : hs.length ≤ 1
      · match hs, hw, hi with
        | [a], _, hi =>
            have : i = 0 := by simpa using hlt
            subst this
            cases hi
            exact Option.some.inj ((climb_top node (Nat.le_refl 1) proof).symm.trans hc)
      · have above : (layerAbove node hs).length = (hs.length + 1) / 2 := length_layerAbove node hs
        have hn' : (layerAbove node hs).length ≤ n := by omega
        have below : ∀ x ∈ pairs hs, x ∈ S := fun x hx =>
          htree x (List.mem_append_left _ hx)
        have htree' : ∀ x ∈ treePairs node n (layerAbove node hs), x ∈ S := fun x hx =>
          htree x (List.mem_append_right _ hx)
        rw [top_succ node (by omega)] at hc
        rw [climbPairs.eq_def] at hclimb
        simp only [if_neg hw] at hclimb
        by_cases hl : i % 2 = 0 ∧ i + 1 = hs.length
        · simp only [if_pos hl, ← above] at hclimb
          rw [climb_last node hw hl.1 hl.2, ← above] at hc
          exact ih htree' hclimb hn' ((getElem?_layerAbove_last node hl.1 hl.2).trans hi) hc
        · cases proof with
          | nil =>
              have ne : layerAbove node hs ≠ [] := List.ne_nil_of_length_pos (by omega)
              obtain ⟨r, hr⟩ := exists_top node hn' ne
              rw [climb_nil node hw hl, hr] at hc
              cases hc
          | cons p proof =>
              simp only [if_neg hl, ← above] at hclimb
              rw [climb_cons node hw hl, ← above] at hc
              have hpair := hclimb _ List.mem_cons_self
              have hclimb' := fun x hx => hclimb x (List.mem_cons_of_mem _ hx)
              -- The nodes one layer up are equal, so the pairs below them are.
              by_cases he : i % 2 = 0
              · obtain ⟨b, hb⟩ : ∃ b, hs[i + 1]? = some b :=
                  ⟨_, List.getElem?_eq_getElem (show i + 1 < hs.length by omega)⟩
                simp only [if_pos he] at hc hpair hclimb'
                have up := ih htree' hclimb' hn' (getElem?_layerAbove_left node he hi hb) hc
                have same := hS hpair (below _ (mem_pairs he hi hb)) up
                exact congrArg Prod.fst same
              · obtain ⟨a, ha⟩ : ∃ a, hs[i - 1]? = some a :=
                  ⟨_, List.getElem?_eq_getElem (show i - 1 < hs.length by omega)⟩
                have right : i - 1 + 1 = i := by omega
                simp only [if_neg he] at hc hpair hclimb'
                have up := ih htree' hclimb' hn' (getElem?_layerAbove_right node he ha hi) hc
                have mem : (a, h) ∈ pairs hs :=
                  mem_pairs (show (i - 1) % 2 = 0 by omega) ha (by rw [right]; exact hi)
                have same := hS hpair (below _ mem) up
                exact congrArg Prod.snd same

end RustDfs.Lib.Merkle
