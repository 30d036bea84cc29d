import Mathlib

/-! The greedy partition of a sequence into batches: one is closed when it is full, and before an
element it cannot take. -/

namespace Lib.Batching
variable {α : Type} (full : List α → Bool) (tooBig : List α → α → Bool) {cur : List α}

/-- The batches of `xs` when `cur` is open and not full. -/
def batches (cur : List α) : List α → List (List α)
  | [] => if cur.isEmpty then [] else [cur]
  | x :: xs =>
    if !cur.isEmpty && tooBig cur x then
      cur :: (if full [x] then [x] :: batches [] xs else batches [x] xs)
    else if full (cur ++ [x]) then (cur ++ [x]) :: batches [] xs
    else batches (cur ++ [x]) xs

def resume (cur xs : List α) : List (List α) :=
  if full cur then cur :: batches full tooBig [] xs else batches full tooBig cur xs

variable {full tooBig}

theorem resume_of_not_full (h : full cur = false) (xs : List α) :
    resume full tooBig cur xs = batches full tooBig cur xs := by
  rw [resume, if_neg (by simp [h])]

theorem resume_of_full (h : full cur = true) (xs : List α) :
    resume full tooBig cur xs = cur :: batches full tooBig [] xs := by
  rw [resume, if_pos h]

theorem batches_take {x : α} (h : cur = [] ∨ tooBig cur x = false) (xs : List α) :
    batches full tooBig cur (x :: xs) = resume full tooBig (cur ++ [x]) xs := by
  have hstay : ¬(!cur.isEmpty && tooBig cur x) = true := by
    rcases h with rfl | h
    · simp
    · simp [h]
  rw [batches, if_neg hstay, resume]

theorem batches_close {x : α} (hne : cur ≠ []) (h : tooBig cur x = true) (xs : List α) :
    batches full tooBig cur (x :: xs) = cur :: batches full tooBig [] (x :: xs) := by
  have hclose : (!cur.isEmpty && tooBig cur x) = true := by simp [hne, h]
  rw [batches, if_pos hclose, batches_take (Or.inl rfl), resume, List.nil_append]

theorem batches_end (hne : cur ≠ []) : batches full tooBig cur [] = [cur] := by
  rw [batches, if_neg (by simp [hne])]

end Lib.Batching
