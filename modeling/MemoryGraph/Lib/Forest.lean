import Mathlib

/-! Sizes in a forest given by parent pointers to earlier nodes: `n` inner nodes and `m`
leaves. The subtree sizes of the roots add up to all nodes. -/

namespace Lib
open Finset

def parentBelow (k : Nat) (p : Option Nat) : Bool := p.all (fun q => q < k)

theorem parentBelow_succ (k : Nat) (p : Option Nat) :
    parentBelow (k + 1) p = (parentBelow k p || decide (p = some k)) := by
  cases p with
  | none => rfl
  | some q =>
    have hiff : q < k + 1 ↔ q < k ∨ q = k := Nat.lt_succ_iff_lt_or_eq
    simp only [parentBelow, Option.all_some, hiff, Option.some.injEq, Bool.decide_or]

section
variable {n m : Nat} {up : Nat → Option Nat} {leafUp : Nat → Option Nat} {w : Nat → Nat}

/-- What hangs below the nodes before `k`: their later children and their leaves. -/
def frontier (n m : Nat) (up leafUp : Nat → Option Nat) (w : Nat → Nat) (k : Nat) : Nat :=
  (∑ j ∈ Finset.range n, if k ≤ j ∧ parentBelow k (up j) then w j else 0) +
    ∑ o ∈ Finset.range m, if parentBelow k (leafUp o) then 1 else 0

variable (hup : ∀ j < n, ∀ p ∈ up j, p < j)
  (hw : ∀ j < n, w j = 1 + (∑ c ∈ Finset.range n, if up c = some j then w c else 0) +
    ∑ o ∈ Finset.range m, if leafUp o = some j then 1 else 0)
include hup hw

theorem frontier_succ {k : Nat} (hk : k < n) :
    frontier n m up leafUp w k = frontier n m up leafUp w (k + 1) + 1 := by
  have hleaf : (∑ o ∈ range m, if parentBelow (k + 1) (leafUp o) then 1 else 0) =
      (∑ o ∈ range m, if parentBelow k (leafUp o) then 1 else 0) +
        ∑ o ∈ range m, if leafUp o = some k then 1 else 0 := by
    rw [← sum_add_distrib]
    refine sum_congr rfl fun o _ => ?_
    rw [parentBelow_succ]
    by_cases h : leafUp o = some k
    · simp [h, parentBelow]
    · simp [h]
  have hnode : (∑ j ∈ range n, if k ≤ j ∧ parentBelow k (up j) then w j else 0) +
      (∑ j ∈ range n, if up j = some k then w j else 0) = w k +
        ∑ j ∈ range n, if k + 1 ≤ j ∧ parentBelow (k + 1) (up j) then w j else 0 := by
    have hself : w k = ∑ j ∈ range n, if j = k then w j else 0 := by
      rw [sum_ite_eq' (range n) k w, if_pos (mem_range.mpr hk)]
    rw [hself, ← sum_add_distrib, ← sum_add_distrib]
    refine sum_congr rfl fun j hj => ?_
    have hj' := mem_range.mp hj
    rw [parentBelow_succ]
    by_cases hjk : j = k
    · subst hjk
      have hb : parentBelow j (up j) = true := by
        cases hp : up j with
        | none => rfl
        | some p => simpa [parentBelow] using hup j hj' p hp
      have hne : up j ≠ some j := fun h => lt_irrefl _ (hup j hj' j h)
      simp [hb, hne]
    · by_cases hc : up j = some k
      · have hlt := hup j hj' k hc
        simp [hjk, hc, parentBelow, hlt.le, show k + 1 ≤ j from hlt]
      · have hiff : k + 1 ≤ j ↔ k ≤ j := ⟨fun h => by omega, fun h => by omega⟩
        simp [hjk, hc, hiff]
  have hwk := hw k hk
  rw [frontier, frontier, hleaf]
  omega

theorem frontier_add {k : Nat} (hk : k ≤ n) :
    frontier n m up leafUp w 0 = frontier n m up leafUp w k + k := by
  induction k with
  | zero => rfl
  | succ k ih =>
    rw [ih (by omega), frontier_succ hup hw (by omega)]
    omega

omit hup hw in
theorem frontier_last_le : frontier n m up leafUp w n ≤ m := by
  have h1 : (∑ j ∈ range n, if n ≤ j ∧ parentBelow n (up j) then w j else 0) = 0 := by
    refine sum_eq_zero fun j hj => if_neg fun h => ?_
    exact absurd (mem_range.mp hj) (not_lt.mpr h.1)
  have h2 : (∑ o ∈ range m, if parentBelow n (leafUp o) then 1 else 0) ≤ m := by
    refine (sum_le_card_nsmul _ _ 1 fun o _ => ?_).trans (by simp)
    split_ifs <;> simp
  rw [frontier, h1]
  omega

theorem roots_le : frontier n m up leafUp w 0 ≤ n + m := by
  have h := frontier_add hup hw (le_refl n)
  have : frontier n m up leafUp w n ≤ m := frontier_last_le
  omega

theorem subtree_le {k : Nat} (hk : k < n) : w k ≤ n + m := by
  have h1 := frontier_add hup hw hk.le
  have h2 := roots_le hup hw
  have hself : w k ≤ ∑ j ∈ range n, if k ≤ j ∧ parentBelow k (up j) then w j else 0 := by
    refine le_trans ?_ (single_le_sum (fun j _ => Nat.zero_le _) (mem_range.mpr hk))
    have hb : parentBelow k (up k) = true := by
      cases hp : up k with
      | none => rfl
      | some p => simpa [parentBelow] using hup k hk p hp
    simp [hb]
  have h3 : w k ≤ frontier n m up leafUp w k := hself.trans (Nat.le_add_right _ _)
  omega

end
end Lib
