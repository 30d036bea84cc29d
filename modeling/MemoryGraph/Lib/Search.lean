import MemoryGraph.Lib.Fallible

/-! Binary search for the end of the initial segment that a probe accepts. -/

namespace Lib
variable {ε : Type}

/-- The halving loop on the half-open interval `lo..hi`; `fuel` bounds the steps. -/
def partitionPoint (probe : Nat → Except ε Bool) : Nat → Nat → Nat → Except ε Nat
  | 0, lo, _ => return lo
  | fuel + 1, lo, hi =>
    if lo < hi then do
      let mid := lo + (hi - lo) / 2
      let below ← probe mid
      if below then partitionPoint probe fuel (mid + 1) hi else partitionPoint probe fuel lo mid
    else return lo

theorem partitionPoint_eq {probe : Nat → Except ε Bool} {n k : Nat}
    (hprobe : ∀ i < n, probe i = .ok (decide (i < k))) {fuel lo hi : Nat} (hlo : lo ≤ k)
    (hk : k ≤ hi) (hi' : hi ≤ n) (hfuel : hi - lo ≤ fuel) :
    partitionPoint probe fuel lo hi = .ok k := by
  induction fuel generalizing lo hi with
  | zero =>
    have : lo = k := by omega
    rw [partitionPoint, this]
    rfl
  | succ fuel ih =>
    rw [partitionPoint]
    split_ifs with hlt
    · have hmid : lo + (hi - lo) / 2 < hi := by omega
      dsimp only
      rw [hprobe _ (by omega), ok_bind]
      -- the half that still holds `k`
      by_cases hb : lo + (hi - lo) / 2 < k
      · rw [decide_eq_true hb, if_pos rfl]
        exact ih (by omega) hk hi' (by omega)
      · rw [decide_eq_false hb, if_neg (by simp)]
        exact ih hlo (by omega) (by omega) (by omega)
    · have : lo = k := by omega
      rw [this]
      rfl

theorem lt_length_takeWhile {α : Type} {p : α → Bool} {l : List α}
    (h : l.Pairwise (fun a b => p b = true → p a = true)) {i : Nat} {a : α} (ha : l[i]? = some a) :
    i < (l.takeWhile p).length ↔ p a = true := by
  induction l generalizing i with
  | nil => simp at ha
  | cons b l ih =>
    obtain ⟨hb, hl⟩ := List.pairwise_cons.mp h
    cases i with
    | zero =>
      obtain rfl : b = a := by simpa using ha
      cases hp : p b <;> simp [hp]
    | succ i =>
      have ha' : l[i]? = some a := by simpa using ha
      cases hp : p b with
      | true => simpa [hp] using ih hl ha'
      | false =>
        have hna : p a = false := by
          cases hpa : p a with
          | false => rfl
          | true => exact absurd (hb a (List.mem_of_getElem? ha') hpa) (by simp [hp])
        simp [hp, hna]

end Lib
