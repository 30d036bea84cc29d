import MemoryGraph.Lib.Interleave

/-! A sweep over intervals in the order of their starts, with a stack of the open ones: as long as
every interval ends inside those still open, what is left is exactly the intervals that contain the
position. -/

namespace Lib
open List

section Stable
variable {α : Type} {r : α → α → Prop} [DecidableRel r] [Std.Total r] [IsTrans α r]

def StableOrder (r : α → α → Prop) (a b : α × Nat) : Prop := r a.1 b.1 ∧ (r b.1 a.1 → a.2 < b.2)

theorem pairwise_orderedInsert {x : α × Nat} {m : List (α × Nat)} (hm : m.Pairwise (StableOrder r))
    (hx : ∀ b ∈ m, x.2 < b.2) :
    (m.orderedInsert (fun a b => r a.1 b.1) x).Pairwise (StableOrder r) := by
  induction m with
  | nil => exact pairwise_singleton _ _
  | cons c m ih =>
    obtain ⟨hc, hm'⟩ := pairwise_cons.mp hm
    rw [orderedInsert]
    by_cases hle : r x.1 c.1
    · rw [if_pos hle]
      refine pairwise_cons.mpr ⟨fun b hb => ⟨?_, fun _ => hx b hb⟩, hm⟩
      rcases mem_cons.mp hb with rfl | hb
      · exact hle
      · exact IsTrans.trans _ _ _ hle (hc b hb).1
    · rw [if_neg hle]
      refine pairwise_cons.mpr ⟨fun b hb => ?_, ih hm' fun b hb => hx b (.tail _ hb)⟩
      rcases (mem_orderedInsert _).mp hb with rfl | hb
      · exact ⟨(Std.Total.total b.1 c.1).resolve_left hle, fun h => absurd h hle⟩
      · exact hc b hb

theorem pairwise_insertionSort_zipIdx (l : List α) (n : Nat) :
    ((l.zipIdx n).insertionSort (fun a b => r a.1 b.1)).Pairwise (StableOrder r) := by
  induction l generalizing n with
  | nil => exact List.Pairwise.nil
  | cons a l ih =>
    rw [zipIdx_cons, insertionSort_cons]
    refine pairwise_orderedInsert (ih (n + 1)) fun b hb => ?_
    have hmem := (mem_insertionSort _).mp hb
    exact Nat.lt_of_succ_le (le_snd_of_mem_zipIdx hmem)

theorem exists_stableOrder (r : α → α → Prop) [DecidableRel r] [Std.Total r] [IsTrans α r]
    (l : List α) :
    ∃ order : List (α × Nat), order.Perm l.zipIdx ∧
      order.map Prod.fst = l.insertionSort r ∧ order.Pairwise (StableOrder r) := by
  refine ⟨l.zipIdx.insertionSort (fun a b => r a.1 b.1), perm_insertionSort _ _, ?_,
    pairwise_insertionSort_zipIdx l 0⟩
  rw [map_insertionSort _ (s := r) Prod.fst l.zipIdx fun _ _ _ _ => Iff.rfl, zipIdx_map_fst]

end Stable

variable {α β K : Type} [LinearOrder K] (stop : α → K)

def close (pos : K) (stack : List α) : List α := stack.dropWhile (fun e => stop e ≤ pos)

def EndsFirst (stack : List α) : Prop := stack.Pairwise (fun a b => stop a ≤ stop b)

variable {stop}

theorem close_eq_filter {stack : List α} (h : EndsFirst stop stack) (pos : K) :
    close stop pos stack = stack.filter (fun e => pos < stop e) := by
  unfold close
  induction stack with
  | nil => rfl
  | cons e stack ih =>
    obtain ⟨he, hs⟩ := pairwise_cons.mp h
    rw [dropWhile_cons, filter_cons]
    by_cases hle : stop e ≤ pos
    · rw [if_pos (decide_eq_true hle), if_neg (by simpa using hle)]
      exact ih hs
    · have hkeep : stack.filter (fun e => decide (pos < stop e)) = stack := by
        rw [filter_eq_self]
        exact fun x hx => decide_eq_true ((not_le.mp hle).trans_le (he x hx))
      rw [if_neg (by simpa using hle), if_pos (by simpa using not_le.mp hle), hkeep]

/-- From `pos` on, the stack stands for the intervals `done`, the latest first. -/
structure Tracks (stop : α → K) (stack done : List α) (pos : K) : Prop where
  ends : EndsFirst stop stack
  live : ∀ p, pos ≤ p → stack.filter (fun e => p < stop e) = done.filter (fun e => p < stop e)

theorem tracks_nil (pos : K) : Tracks stop [] [] pos := ⟨List.Pairwise.nil, fun _ _ => rfl⟩

namespace Tracks
variable {stack done : List α} {pos p : K}

theorem close_eq (h : Tracks stop stack done pos) (hp : pos ≤ p) :
    close stop p stack = done.filter (fun e => p < stop e) := by
  rw [close_eq_filter h.ends, h.live p hp]

theorem closed (h : Tracks stop stack done pos) (hp : pos ≤ p) :
    Tracks stop (close stop p stack) done p := by
  rw [close_eq_filter h.ends]
  refine ⟨List.Pairwise.filter _ h.ends, fun q hq => ?_⟩
  rw [filter_filter, ← h.live q (hp.trans hq)]
  refine filter_congr fun e _ => ?_
  rw [Bool.and_eq_left_iff_imp, decide_eq_true_iff, decide_eq_true_iff]
  exact fun hlt => hq.trans_lt hlt

theorem push (h : Tracks stop stack done pos) (hp : pos ≤ p) {e : α}
    (he : ∀ x ∈ done, p < stop x → stop e ≤ stop x) :
    Tracks stop (e :: close stop p stack) (e :: done) p := by
  have hclosed := h.closed hp
  refine ⟨pairwise_cons.mpr ⟨fun x hx => ?_, hclosed.ends⟩, fun q hq => ?_⟩
  · rw [h.close_eq hp] at hx
    obtain ⟨hmem, hlt⟩ := mem_filter.mp hx
    exact he x hmem (of_decide_eq_true hlt)
  · rw [filter_cons, filter_cons, hclosed.live q hq]

end Tracks
end Lib
