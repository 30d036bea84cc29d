import Mathlib

/-! A library's sorting, of which only the contract is known: a sort puts a list in order, a
selection puts the smallest elements first. -/

namespace Lib

structure TotalOrder {α : Type} (le : α → α → Bool) : Prop where
  trans : ∀ a b c, le a b = true → le b c = true → le a c = true
  total : ∀ a b, le a b = true ∨ le b a = true

structure Sorting : Type 1 where
  sort : {α : Type} → (α → α → Bool) → List α → List α
  perm_sort : ∀ {α : Type} (le : α → α → Bool) (l : List α), (sort le l).Perm l
  sorted : ∀ {α : Type} {le : α → α → Bool}, TotalOrder le → ∀ l : List α,
    (sort le l).Pairwise fun a b => le a b = true
  -- the elements up to index `i` are the smallest
  select : {α : Type} → (α → α → Bool) → Nat → List α → List α
  perm_select : ∀ {α : Type} (le : α → α → Bool) (i : Nat) (l : List α), (select le i l).Perm l
  select_le : ∀ {α : Type} {le : α → α → Bool}, TotalOrder le → ∀ (i : Nat) (l : List α),
    ∀ a ∈ (select le i l).take (i + 1), ∀ b ∈ (select le i l).drop (i + 1), le a b = true

theorem TotalOrder.pairwise_mergeSort {α : Type} {le : α → α → Bool} (h : TotalOrder le)
    (l : List α) : (l.mergeSort le).Pairwise fun a b => le a b = true :=
  List.pairwise_mergeSort h.trans (fun a b => by simpa using h.total a b) l

def Sorting.merge : Sorting where
  sort := fun le l => l.mergeSort le
  perm_sort := fun le l => List.mergeSort_perm l le
  sorted := fun h l => h.pairwise_mergeSort l
  select := fun le _ l => l.mergeSort le
  perm_select := fun le _ l => List.mergeSort_perm l le
  select_le := by
    intro α le h i l a ha b hb
    have hsorted := h.pairwise_mergeSort l
    rw [← List.take_append_drop (i + 1) (l.mergeSort le)] at hsorted
    exact (List.pairwise_append.mp hsorted).2.2 a ha b hb

end Lib
