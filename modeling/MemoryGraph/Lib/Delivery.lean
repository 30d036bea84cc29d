import Mathlib

/-! A log applied exactly once by a machine that may stop between any two of its commits and is
then started over at any entry not past its mark. -/

namespace Lib
open List

/-- A machine that marks what it applied: an entry at or below the mark is answered and
commits nothing, any other entry commits one state with its mark, or fails and commits none. -/
structure Machine (S E M : Type) where
  mark : S → Option M
  id : E → M
  index : M → Nat
  apply : S → E → List S × Bool
  seen : ∀ s e m, mark s = some m → index (id e) ≤ index m → apply s e = ([], true)
  once : ∀ s e, (∀ m ∈ mark s, index m < index (id e)) →
    (∃ t, apply s e = ([t], true) ∧ mark t = some (id e)) ∨ apply s e = ([], false)

/-- A machine under delivery: its state, the next entry, and how many of the entries were ever
handed to it and how many it ever answered. -/
structure Delivery (S : Type) where
  state : S
  next : Nat
  tried : Nat
  answered : Nat

namespace Machine
variable {S E M : Type} (m : Machine S E M) (log : List E)

def exec (s : S) (e : E) : Option S :=
  if (m.apply s e).2 then some ((m.apply s e).1.getLastD s) else none

def execAll (s : S) (l : List E) : Option S := l.foldlM m.exec s

/-- Delivery may start over at `j`: no earlier entry is past the mark. -/
def MayResume (s : S) (j : Nat) : Prop :=
  j ≤ log.length ∧ ∀ e ∈ log.take j, ∃ k ∈ m.mark s, m.index (m.id e) ≤ m.index k

inductive Step : Delivery S → Delivery S → Prop
  | deliver {d : Delivery S} {e : E} : log[d.next]? = some e → (m.apply d.state e).2 = true →
      Step d ⟨(m.apply d.state e).1.getLastD d.state, d.next + 1, max d.tried (d.next + 1),
        max d.answered (d.next + 1)⟩
  -- the machine stops after some of the commits of the next entry and is started over
  | crash {d : Delivery S} {e : E} {k j : Nat} : log[d.next]? = some e →
      m.MayResume log (((m.apply d.state e).1.take k).getLastD d.state) j →
      Step d ⟨((m.apply d.state e).1.take k).getLastD d.state, j,
        max d.tried (d.next + 1), d.answered⟩
  | restart {d : Delivery S} {j : Nat} :
    m.MayResume log d.state j → Step d ⟨d.state, j, d.tried, d.answered⟩

def Delivered (s₀ : S) : Delivery S → Prop := Relation.ReflTransGen (m.Step log) ⟨s₀, 0, 0, 0⟩

structure Holds (s₀ : S) (n : Nat) (s : S) : Prop where
  exec : m.execAll s₀ (log.take n) = some s
  mark : m.mark s = ((log.take n).getLast?.map m.id).or (m.mark s₀)

variable {m log} {s₀ s : S} {n : Nat}

theorem execAll_concat (l : List E) (e : E) :
    m.execAll s₀ (l ++ [e]) = (m.execAll s₀ l).bind fun s => m.exec s e := by
  unfold execAll
  rw [foldlM_append]
  cases foldlM m.exec s₀ l with
  | none => rfl
  | some s => simp

theorem Holds.succ {e : E} (he : log[n]? = some e) (h : m.Holds log s₀ n s) {t : S}
    (hexec : m.exec s e = some t) (hmark : m.mark t = some (m.id e)) :
    m.Holds log s₀ (n + 1) t := by
  have htake : log.take (n + 1) = log.take n ++ [e] := by rw [take_add_one, he, Option.toList_some]
  refine ⟨?_, ?_⟩
  · rw [htake, execAll_concat, h.exec]
    exact hexec
  · rw [htake, getLast?_concat]
    exact hmark

section
variable (hlog : log.Pairwise fun a b => m.index (m.id a) < m.index (m.id b))
  (hstart : ∀ k ∈ m.mark s₀, ∀ e ∈ log, m.index k < m.index (m.id e))
include hlog hstart

theorem Holds.past (h : m.Holds log s₀ n s) {e : E} (he : e ∈ log.drop n) :
    ∀ k ∈ m.mark s, m.index k < m.index (m.id e) := by
  intro k hk
  rw [h.mark] at hk
  cases hlast : (log.take n).getLast? with
  | none =>
    rw [hlast] at hk
    exact hstart k hk e (mem_of_mem_drop he)
  | some a =>
    rw [hlast] at hk
    cases hk
    rw [← take_append_drop n log] at hlog
    exact (pairwise_append.mp hlog).2.2 a (mem_of_getLast? hlast) e he

omit hstart in
theorem Holds.below (h : m.Holds log s₀ n s) {e : E} (he : e ∈ log.take n) :
    ∃ k, m.mark s = some k ∧ m.index (m.id e) ≤ m.index k := by
  obtain ⟨done, a, htake⟩ := eq_nil_or_concat (log.take n) |>.resolve_left (ne_nil_of_mem he)
  rw [concat_eq_append] at htake
  have hmark := h.mark
  rw [htake, getLast?_concat] at hmark
  refine ⟨m.id a, hmark, ?_⟩
  have hsorted := hlog.sublist (take_sublist n log)
  rw [htake] at he hsorted
  rcases mem_append.mp he with he | he
  · exact ((pairwise_append.mp hsorted).2.2 e he a mem_cons_self).le
  · rw [mem_singleton.mp he]

theorem Holds.resume (h : m.Holds log s₀ n s) {j : Nat} (hj : m.MayResume log s j) : j ≤ n := by
  by_contra hlt
  have hn : n < log.length := (not_le.mp hlt).trans_le hj.1
  have htake : log[n] ∈ log.take j := mem_take_iff_getElem.mpr ⟨n, by omega, rfl⟩
  have hdrop : log[n] ∈ log.drop n := mem_drop_iff_getElem.mpr ⟨0, by omega, by simp⟩
  obtain ⟨k, hk, hle⟩ := hj.2 _ htake
  exact absurd (h.past hlog hstart hdrop k hk) (not_lt.mpr hle)

theorem Holds.deliver (h : m.Holds log s₀ n s) {i : Nat} (hi : i ≤ n) {e : E}
    (he : log[i]? = some e) (k : Nat) :
    m.Holds log s₀ n (((m.apply s e).1.take k).getLastD s) ∧
      ((m.apply s e).2 = true → k ≠ 0 → i < n) ∨
      i = n ∧ m.Holds log s₀ (n + 1) (((m.apply s e).1.take k).getLastD s) := by
  rcases hi.lt_or_eq with hlt | rfl
  · have hmem : e ∈ log.take n := mem_of_getElem? (i := i) (by rw [getElem?_take_of_lt hlt, he])
    obtain ⟨mk, hmk, hle⟩ := h.below hlog hmem
    rw [m.seen s e mk hmk hle]
    exact Or.inl ⟨by simpa using h, fun _ _ => hlt⟩
  · have hmem : e ∈ log.drop i := mem_of_getElem? (i := 0) (by rw [getElem?_drop, add_zero, he])
    rcases m.once s e (h.past hlog hstart hmem) with ⟨t, happly, hmark⟩ | happly
    · cases k with
      | zero => exact Or.inl ⟨by simpa using h, fun _ hk => absurd rfl hk⟩
      | succ k =>
        refine Or.inr ⟨rfl, h.succ he ?_ ?_⟩
        · simp [Machine.exec, happly]
        · simpa [happly] using hmark
    · exact Or.inl ⟨by simpa [happly] using h, fun hok => by simp [happly] at hok⟩

/-- The state is that of the first `n` entries, each applied once and in order, where `n` is
between the entries ever answered and those ever handed over. -/
theorem Delivered.holds {d : Delivery S} (h : m.Delivered log s₀ d) :
    ∃ n, d.next ≤ n ∧ d.answered ≤ n ∧ n ≤ d.tried ∧ d.tried ≤ log.length ∧
      m.Holds log s₀ n d.state := by
  induction h with
  | refl => exact ⟨0, le_rfl, le_rfl, le_rfl, Nat.zero_le _, rfl, by simp⟩
  | @tail d _ _ hstep ih =>
    obtain ⟨n, hnext, hanswered, htried, hlen, hn⟩ := ih
    cases hstep with
    | @deliver e he hok =>
      have hlt := (List.getElem?_eq_some_iff.mp he).1
      have hall : (m.apply d.state e).1.take ((m.apply d.state e).1.length + 1) =
          (m.apply d.state e).1 :=
        take_of_length_le (by omega)
      have hcases := hn.deliver hlog hstart hnext he ((m.apply d.state e).1.length + 1)
      rw [hall] at hcases
      rcases hcases with ⟨hsame, hin⟩ | ⟨rfl, hmore⟩
      · have hin := hin hok (Nat.succ_ne_zero _)
        exact ⟨n, hin, max_le hanswered hin, htried.trans (le_max_left _ _), max_le hlen hlt, hsame⟩
      · exact ⟨_, le_rfl, max_le (hanswered.trans (Nat.le_succ _)) le_rfl, le_max_right _ _,
          max_le hlen hlt, hmore⟩
    | @crash e k j he hj =>
      have hlt := (List.getElem?_eq_some_iff.mp he).1
      rcases hn.deliver hlog hstart hnext he k with ⟨hsame, -⟩ | ⟨rfl, hmore⟩
      · exact ⟨n, hsame.resume hlog hstart hj, hanswered, htried.trans (le_max_left _ _),
        max_le hlen hlt, hsame⟩
      · exact ⟨_, hmore.resume hlog hstart hj, hanswered.trans (Nat.le_succ _), le_max_right _ _,
          max_le hlen hlt, hmore⟩
    | restart hj => exact ⟨n, hn.resume hlog hstart hj, hanswered, htried, hlen, hn⟩

end
end Machine
end Lib
