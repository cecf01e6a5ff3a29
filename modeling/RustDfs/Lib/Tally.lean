import Mathlib.Data.List.Nodup
import Std.Data.ExtTreeMap.Lemmas

/-!
# `RustDfs.Lib.Tally`: counting the entries of a map

`tally m p` is the number of entries of `m` whose value satisfies `p`.
Conservation arguments about maps that hand values to each other are
arithmetic on tallies: an insertion adds one to the map without its key
(`tally_insert`), a deletion takes off what it removes (`tally_erase`).
-/

set_option autoImplicit false

namespace RustDfs.Lib

open Std

variable {K V : Type} {cmp : K → K → Ordering} [TransCmp cmp] [LawfulEqCmp cmp]
  {m : ExtTreeMap K V cmp} {k : K} {v : V} {p : V → Prop} [DecidablePred p]

/-- How many values satisfy `p`. -/
def tally (m : ExtTreeMap K V cmp) (p : V → Prop) [DecidablePred p] : Nat :=
  m.toList.countP fun x => decide (p x.2)

omit [LawfulEqCmp cmp] in
@[simp] theorem tally_empty : tally (∅ : ExtTreeMap K V cmp) p = 0 := by
  simp [tally]

theorem nodup_toList (m : ExtTreeMap K V cmp) : m.toList.Nodup := by
  have distinct := ExtTreeMap.distinct_keys_toList (t := m)
  refine distinct.imp fun {a b} hne heq => hne ?_
  rw [heq]
  exact ReflCmp.compare_self

/-- The entries after an insertion. -/
theorem toList_insert_perm :
    (m.insert k v).toList.Perm ((k, v) :: (m.erase k).toList) := by
  have absent : (k, v) ∉ (m.erase k).toList := by
    rw [ExtTreeMap.mem_toList_iff_getElem?_eq_some, ExtTreeMap.getElem?_erase_self]
    exact nofun
  refine (List.perm_ext_iff_of_nodup (nodup_toList _)
    (List.nodup_cons.mpr ⟨absent, nodup_toList _⟩)).mpr fun x => ?_
  rw [List.mem_cons, ExtTreeMap.mem_toList_iff_getElem?_eq_some,
    ExtTreeMap.mem_toList_iff_getElem?_eq_some, ExtTreeMap.getElem?_insert,
    ExtTreeMap.getElem?_erase]
  obtain ⟨k', v'⟩ := x
  by_cases h : k = k'
  · subst h
    simp [ReflCmp.compare_self, eq_comm]
  · have apart : cmp k k' ≠ .eq := fun e => h (LawfulEqCmp.eq_of_compare e)
    simp [apart, Ne.symm h]

/-- An insertion adds one to the map without its key. -/
theorem tally_insert : tally (m.insert k v) p = tally (m.erase k) p + if p v then 1 else 0 := by
  rw [tally, toList_insert_perm.countP_eq, List.countP_cons, ← tally]
  simp

/-- A deletion takes off what it removes. -/
theorem tally_erase (h : m[k]? = some v) :
    tally (m.erase k) p + (if p v then 1 else 0) = tally m p := by
  have same : m.insert k v = m := by
    refine ExtTreeMap.ext_getElem? fun k' => ?_
    rw [ExtTreeMap.getElem?_insert]
    split
    · next e => rw [← LawfulEqCmp.eq_of_compare e, h]
    · rfl
  rw [← tally_insert, same]

/-- A deletion adds nothing. -/
theorem tally_erase_le : tally (m.erase k) p ≤ tally m p := by
  cases h : m[k]? with
  | none =>
      have same : m.erase k = m := by
        refine ExtTreeMap.ext_getElem? fun k' => ?_
        rw [ExtTreeMap.getElem?_erase]
        split
        · next e => rw [← LawfulEqCmp.eq_of_compare e, h]
        · rfl
      exact Nat.le_of_eq (by rw [same])
  | some v =>
      have := tally_erase (p := p) h
      omega

end RustDfs.Lib
