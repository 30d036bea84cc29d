import Mathlib

/-! Elements stored end to end, found again by the table of their ends. -/

namespace Lib
open List
variable {α : Type} (size : α → Nat)

def totalSize (xs : List α) : Nat := (xs.map size).sum

def endsFrom : Nat → List α → List Nat
  | _, [] => []
  | base, x :: xs => (base + size x) :: endsFrom (base + size x) xs

def startAt (ends : List Nat) (i : Nat) : Option Nat := if i = 0 then some 0 else ends[i - 1]?

def holder (ends : List Nat) (pos : Nat) : Nat := (ends.takeWhile (· ≤ pos)).length

@[simp] theorem totalSize_nil : totalSize size [] = 0 := rfl

@[simp] theorem totalSize_cons (x : α) (xs : List α) :
    totalSize size (x :: xs) = size x + totalSize size xs := by
  rw [totalSize, map_cons, sum_cons]
  rfl

@[simp] theorem totalSize_append (xs ys : List α) :
    totalSize size (xs ++ ys) = totalSize size xs + totalSize size ys := by
  rw [totalSize, map_append, sum_append]
  rfl

@[simp] theorem length_endsFrom (base : Nat) (xs : List α) :
    (endsFrom size base xs).length = xs.length := by
  induction xs generalizing base with
  | nil => rfl
  | cons x xs ih => rw [endsFrom, length_cons, ih, length_cons]

theorem endsFrom_append (base : Nat) (xs ys : List α) :
    endsFrom size base (xs ++ ys) =
      endsFrom size base xs ++ endsFrom size (base + totalSize size xs) ys := by
  induction xs generalizing base with
  | nil => rfl
  | cons x xs ih =>
    rw [cons_append, endsFrom, endsFrom, ih, totalSize_cons, cons_append, Nat.add_assoc]

theorem le_of_mem_endsFrom {base e : Nat} {xs : List α} (h : e ∈ endsFrom size base xs) :
    e ≤ base + totalSize size xs := by
  induction xs generalizing base with
  | nil => exact absurd h not_mem_nil
  | cons x xs ih =>
    rw [totalSize_cons]
    rcases mem_cons.mp h with rfl | h
    · omega
    · have := ih h
      omega

theorem endsFrom_getElem? (xs : List α) (x : α) (ys : List α) :
    (endsFrom size 0 (xs ++ x :: ys))[xs.length]? = some (totalSize size xs + size x) := by
  rw [endsFrom_append, getElem?_append_right (length_endsFrom size 0 xs).le, length_endsFrom,
    Nat.sub_self, Nat.zero_add]
  rfl

theorem startAt_endsFrom (xs ys : List α) :
    startAt (endsFrom size 0 (xs ++ ys)) xs.length = some (totalSize size xs) := by
  rcases eq_nil_or_concat xs with rfl | ⟨xs, x, rfl⟩
  · rfl
  · rw [concat_eq_append, startAt, if_neg (by simp), length_append, length_singleton,
      Nat.add_sub_cancel, append_assoc, singleton_append, endsFrom_getElem?, totalSize_append,
      totalSize_cons, totalSize_nil, Nat.add_zero]

theorem holder_endsFrom {xs : List α} {x : α} {pos : Nat} (hlo : totalSize size xs ≤ pos)
    (hhi : pos < totalSize size xs + size x) (ys : List α) :
    holder (endsFrom size 0 (xs ++ x :: ys)) pos = xs.length := by
  have hall : ∀ e ∈ endsFrom size 0 xs, decide (e ≤ pos) = true := by
    intro e he
    have := le_of_mem_endsFrom size he
    exact decide_eq_true (by omega)
  rw [holder, endsFrom_append, takeWhile_append_of_pos hall, endsFrom,
    takeWhile_cons_of_neg (by simp; omega), append_nil, length_endsFrom]

theorem exists_holder {xs : List α} {pos : Nat} (h : pos < totalSize size xs) :
    ∃ before x after, xs = before ++ x :: after ∧ totalSize size before ≤ pos ∧
      pos < totalSize size before + size x := by
  induction xs generalizing pos with
  | nil => exact absurd h (Nat.not_lt_zero pos)
  | cons x xs ih =>
    rw [totalSize_cons] at h
    by_cases hx : pos < size x
    · exact ⟨[], x, xs, rfl, Nat.zero_le _, by rw [totalSize_nil]; omega⟩
    · have hrest : pos - size x < totalSize size xs := by omega
      obtain ⟨before, y, after, rfl, hlo, hhi⟩ := ih hrest
      refine ⟨x :: before, y, after, rfl, ?_, ?_⟩ <;> rw [totalSize_cons] <;> omega

end Lib
