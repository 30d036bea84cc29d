import Mathlib

/-! Two lists merged in one pass, the left one first on ties. On sorted lists the merge
commutes with filtering. -/

namespace Lib
open List
variable {α β γ δ : Type} {bs : List β} {as : List α}

def interleaveGo (le : α → β → Bool) : Nat → List α → List β → List (α ⊕ β)
  | 0, _, _ => []
  | _ + 1, [], [] => []
  | n + 1, a :: as, [] => .inl a :: interleaveGo le n as []
  | n + 1, [], b :: bs => .inr b :: interleaveGo le n [] bs
  | n + 1, a :: as, b :: bs =>
    if le a b then .inl a :: interleaveGo le n as (b :: bs) else .inr b :: interleaveGo le n
      (a :: as) bs

def interleave (le : α → β → Bool) (as : List α) (bs : List β) : List (α ⊕ β) :=
  interleaveGo le (as.length + bs.length) as bs

variable (le : α → β → Bool)

@[simp] theorem interleave_nil_left (bs : List β) : interleave le [] bs = bs.map .inr := by
  induction bs with
  | nil => rfl
  | cons b bs ih =>
    rw [interleave, length_nil, Nat.zero_add] at ih ⊢
    rw [length_cons, interleaveGo, ih, map_cons]

@[simp] theorem interleave_nil_right (as : List α) : interleave le as [] = as.map .inl := by
  induction as with
  | nil => rfl
  | cons a as ih =>
    rw [interleave, length_nil, Nat.add_zero] at ih ⊢
    rw [length_cons, interleaveGo, ih, map_cons]

theorem interleave_cons_cons (a : α) (as : List α) (b : β) (bs : List β) :
    interleave le (a :: as) (b :: bs) =
      if le a b then .inl a :: interleave le as (b :: bs)
      else .inr b :: interleave le (a :: as) bs := by
  have h1 : (a :: as).length + (b :: bs).length = as.length + (b :: bs).length + 1 := by
    simp only [length_cons]
    omega
  have h2 : as.length + (b :: bs).length = (a :: as).length + bs.length := by
    simp only [length_cons]
    omega
  rw [interleave, h1, interleaveGo]
  split_ifs
  · rfl
  · rw [h2]
    rfl

theorem interleave_induction {motive : List α → List β → Prop}
    (left : ∀ as, motive as []) (right : ∀ bs, motive [] bs)
    (takeLeft : ∀ a as b bs, le a b = true → motive as (b :: bs) → motive (a :: as) (b :: bs))
    (takeRight : ∀ a as b bs, le a b = false → motive (a :: as) bs → motive (a :: as) (b :: bs)) :
    ∀ as bs, motive as bs := by
  intro as
  induction as with
  | nil => exact right
  | cons a as iha =>
    intro bs
    induction bs with
    | nil => exact left _
    | cons b bs ihb =>
      cases h : le a b with
      | true => exact takeLeft a as b bs h (iha _)
      | false => exact takeRight a as b bs h ihb

theorem filterMap_interleave (as : List α) (bs : List β) :
    (interleave le as bs).filterMap Sum.getLeft? = as ∧
    (interleave le as bs).filterMap Sum.getRight? = bs := by
  induction as, bs using interleave_induction le with
  | left as => simp [filterMap_map, Function.comp_def]
  | right bs => simp [filterMap_map, Function.comp_def]
  | takeLeft a as b bs h ih =>
    rw [interleave_cons_cons, if_pos h, filterMap_cons, filterMap_cons, ih.1, ih.2]
    exact ⟨rfl, rfl⟩
  | takeRight a as b bs h ih =>
    rw [interleave_cons_cons, if_neg (by simp [h]), filterMap_cons, filterMap_cons, ih.1, ih.2]
    exact ⟨rfl, rfl⟩

theorem perm_interleave (as : List α) (bs : List β) :
    (interleave le as bs).Perm (as.map .inl ++ bs.map .inr) := by
  induction as, bs using interleave_induction le with
  | left as => simp
  | right bs => simp
  | takeLeft a as b bs h ih =>
    rw [interleave_cons_cons, if_pos h]
    exact ih.cons _
  | takeRight a as b bs h ih =>
    rw [interleave_cons_cons, if_neg (by simp [h])]
    exact (ih.cons _).trans perm_middle.symm

theorem mem_interleave {x : α ⊕ β} :
    x ∈ interleave le as bs ↔ (∃ a ∈ as, x = .inl a) ∨ ∃ b ∈ bs, x = .inr b := by
  rw [(perm_interleave le as bs).mem_iff, mem_append, mem_map, mem_map]
  simp only [eq_comm]

theorem inl_mem_interleave {a : α} : .inl a ∈ interleave le as bs ↔ a ∈ as := by
  simp [mem_interleave]

theorem inr_mem_interleave {b : β} : .inr b ∈ interleave le as bs ↔ b ∈ bs := by
  simp [mem_interleave]

theorem sum_interleave (as : List α) (bs : List β) (w : α ⊕ β → Nat) :
    ((interleave le as bs).map w).sum =
      (as.map (fun a => w (.inl a))).sum + (bs.map (fun b => w (.inr b))).sum := by
  rw [((perm_interleave le as bs).map w).sum_eq, map_append, sum_append, map_map,
    map_map]
  rfl

theorem interleave_cons_left {a : α} (h : ∀ b ∈ bs, le a b = true) (as : List α) :
    interleave le (a :: as) bs = .inl a :: interleave le as bs := by
  cases bs with
  | nil => simp
  | cons b bs => rw [interleave_cons_cons, if_pos (h b mem_cons_self)]

theorem interleave_cons_right {b : β} (h : ∀ a ∈ as, le a b = false) (bs : List β) :
    interleave le as (b :: bs) = .inr b :: interleave le as bs := by
  cases as with
  | nil => simp
  | cons a as => rw [interleave_cons_cons, if_neg (by simp [h a mem_cons_self])]

theorem filter_interleave {K : Type} [LinearOrder K] (ka : α → K) (kb : β → K) (p : α ⊕ β → Bool)
    (as : List α) (bs : List β) :
    as.Pairwise (fun a a' => ka a ≤ ka a') →
    bs.Pairwise (fun b b' => kb b ≤ kb b') →
    (interleave (fun a b => ka a ≤ kb b) as bs).filter p =
      interleave (fun a b => ka a ≤ kb b) (as.filter (fun a => p (.inl a)))
        (bs.filter (fun b => p (.inr b))) := by
  induction as, bs using interleave_induction (fun a b => decide (ka a ≤ kb b)) with
  | left as => intro _ _; simp [filter_map, Function.comp_def]
  | right bs => intro _ _; simp [filter_map, Function.comp_def]
  | takeLeft a as b bs hle ih =>
    intro ha hb
    have hab : ka a ≤ kb b := of_decide_eq_true hle
    have hrec := ih (pairwise_cons.mp ha).2 hb
    rw [interleave_cons_cons, if_pos hle, filter_cons, filter_cons, hrec]
    cases hp : p (.inl a) with
    | false => rfl
    | true =>
      -- what is left on the right comes no earlier than `b`
      have hall : ∀ b' ∈ (b :: bs).filter (fun b => p (.inr b)), decide (ka a ≤ kb b') = true := by
        intro b' hb'
        apply decide_eq_true
        rcases mem_cons.mp (mem_filter.mp hb').1 with rfl | hmem
        · exact hab
        · exact hab.trans ((pairwise_cons.mp hb).1 b' hmem)
      exact (interleave_cons_left _ hall _).symm
  | takeRight a as b bs hle ih =>
    intro ha hb
    have hab : kb b < ka a := not_le.mp (of_decide_eq_false hle)
    have hrec := ih ha (pairwise_cons.mp hb).2
    rw [interleave_cons_cons, if_neg (by simpa using hab), filter_cons,
      filter_cons (x := b), hrec]
    cases hp : p (.inr b) with
    | false => rfl
    | true =>
      have hall : ∀ a' ∈ (a :: as).filter (fun a => p (.inl a)), decide (ka a' ≤ kb b) = false := by
        intro a' ha'
        apply decide_eq_false
        rcases mem_cons.mp (mem_filter.mp ha').1 with rfl | hmem
        · exact not_le.mpr hab
        · exact not_le.mpr (hab.trans_le ((pairwise_cons.mp ha).1 a' hmem))
      exact (interleave_cons_right _ hall _).symm

theorem pairwise_interleave {K : Type} [LinearOrder K] (ka : α → K) (kb : β → K)
    (R : α ⊕ β → α ⊕ β → Prop) (as : List α) (bs : List β) :
    as.Pairwise (fun a a' => ka a ≤ ka a') → bs.Pairwise (fun b b' => kb b ≤ kb b') →
      ((interleave (fun a b => ka a ≤ kb b) as bs).Pairwise R ↔
        as.Pairwise (fun a a' => R (.inl a) (.inl a')) ∧
          bs.Pairwise (fun b b' => R (.inr b) (.inr b')) ∧
          ∀ a ∈ as, ∀ b ∈ bs, (ka a ≤ kb b → R (.inl a) (.inr b)) ∧
            (kb b < ka a → R (.inr b) (.inl a))) := by
  induction as, bs using interleave_induction (fun a b => decide (ka a ≤ kb b)) with
  | left as => intro _ _; simp [pairwise_map]
  | right bs => intro _ _; simp [pairwise_map]
  | takeLeft a as b bs hle ih =>
    intro ha hb
    have hfirst : ∀ b' ∈ b :: bs, ka a ≤ kb b' := by
      intro b' hb'
      rcases mem_cons.mp hb' with rfl | hmem
      · exact of_decide_eq_true hle
      · exact (of_decide_eq_true hle).trans ((pairwise_cons.mp hb).1 b' hmem)
    rw [interleave_cons_cons, if_pos hle, pairwise_cons, ih (pairwise_cons.mp ha).2 hb,
      pairwise_cons (l := as)]
    simp only [Sum.forall, inl_mem_interleave, inr_mem_interleave]
    constructor
    · rintro ⟨⟨hl, hr⟩, has, hbs, hmix⟩
      refine ⟨⟨fun a' ha' => hl a' ha', has⟩, hbs, fun a' ha' b' hb' => ?_⟩
      rcases mem_cons.mp ha' with rfl | ha'
      · exact ⟨fun _ => hr b' hb', fun hlt => absurd (hfirst b' hb') (not_le.mpr hlt)⟩
      · exact hmix a' ha' b' hb'
    · rintro ⟨⟨hl, has⟩, hbs, hmix⟩
      exact ⟨⟨hl, fun b' hb' => (hmix a mem_cons_self b' hb').1 (hfirst b' hb')⟩, has, hbs,
        fun a' ha' => hmix a' (.tail _ ha')⟩
  | takeRight a as b bs hle ih =>
    intro ha hb
    have hfirst : ∀ a' ∈ a :: as, kb b < ka a' := by
      intro a' ha'
      rcases mem_cons.mp ha' with rfl | hmem
      · exact not_le.mp (of_decide_eq_false hle)
      · exact (not_le.mp (of_decide_eq_false hle)).trans_le ((pairwise_cons.mp ha).1 a' hmem)
    rw [interleave_cons_cons, if_neg (by simpa using of_decide_eq_false hle), pairwise_cons,
      ih ha (pairwise_cons.mp hb).2, pairwise_cons (l := bs)]
    simp only [Sum.forall, inl_mem_interleave, inr_mem_interleave]
    constructor
    · rintro ⟨⟨hl, hr⟩, has, hbs, hmix⟩
      refine ⟨has, ⟨fun b' hb' => hr b' hb', hbs⟩, fun a' ha' b' hb' => ?_⟩
      rcases mem_cons.mp hb' with rfl | hb'
      · exact ⟨fun hle' => absurd hle' (not_le.mpr (hfirst a' ha')), fun _ => hl a' ha'⟩
      · exact hmix a' ha' b' hb'
    · rintro ⟨has, ⟨hr, hbs⟩, hmix⟩
      exact ⟨⟨fun a' ha' => (hmix a' ha' b mem_cons_self).2 (hfirst a' ha'), hr⟩, has, hbs,
        fun a' ha' b' hb' => hmix a' ha' b' (.tail _ hb')⟩

end Lib
