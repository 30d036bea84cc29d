import MemoryGraph.Lib.Table

/-! Lists whose keys count up by one, and the rows of a table between two bounds. -/

namespace Lib
open List

section
variable {α : Type} {key : α → Nat} {s k : Nat} {l m : List α}

/-- The keys of the list are `s`, `s + 1`, … -/
def Contiguous (key : α → Nat) : Nat → List α → Prop
  | _, [] => True
  | s, a :: l => key a = s ∧ Contiguous key (s + 1) l

instance Contiguous.decidable (key : α → Nat) :
    (s : Nat) → (l : List α) → Decidable (Contiguous key s l)
  | _, [] => inferInstanceAs (Decidable True)
  | s, a :: l =>
    have := Contiguous.decidable key (s + 1) l
    inferInstanceAs (Decidable (key a = s ∧ Contiguous key (s + 1) l))

namespace Contiguous

theorem bounds (h : Contiguous key s l) {a : α} (ha : a ∈ l) :
    s ≤ key a ∧ key a < s + l.length := by
  induction l generalizing s with
  | nil => cases ha
  | cons b l ih =>
    rw [length_cons]
    rcases mem_cons.mp ha with rfl | ha
    · have := h.1
      omega
    · have := ih h.2 ha
      omega

theorem append (h : Contiguous key s l) (hm : Contiguous key (s + l.length) m) :
    Contiguous key s (l ++ m) := by
  induction l generalizing s with
  | nil => exact hm
  | cons b l ih =>
    exact ⟨h.1, ih h.2 (by rwa [length_cons, Nat.add_comm l.length, ← Nat.add_assoc] at hm)⟩

theorem pairwise (h : Contiguous key s l) : l.Pairwise fun a b => key a < key b := by
  induction l generalizing s with
  | nil => exact List.Pairwise.nil
  | cons b l ih =>
    refine pairwise_cons.mpr ⟨fun a ha => ?_, ih h.2⟩
    have := h.1
    have := h.2.bounds ha
    omega

theorem getLast (h : Contiguous key s l) {a : α} (ha : l.getLast? = some a) :
    key a + 1 = s + l.length := by
  obtain ⟨l, rfl⟩ := getLast?_eq_some_iff.mp ha
  clear ha
  induction l generalizing s with
  | nil =>
    have := h.1
    simpa using this
  | cons b l ih =>
    have := ih h.2
    rw [this, cons_append, length_cons]
    omega

theorem filter_lt (h : Contiguous key s l) (k : Nat) :
    Contiguous key s (l.filter fun a => key a < k) := by
  induction l generalizing s with
  | nil => trivial
  | cons b l ih =>
    by_cases hb : key b < k
    · rw [filter_cons_of_pos (by simpa using hb)]
      exact ⟨h.1, ih h.2⟩
    · -- the keys only grow, so nothing of the rest is kept either
      rw [filter_eq_nil_iff.mpr fun a ha => ?_]
      · trivial
      · have := (h.bounds ha).1
        have := h.1
        simp only [decide_eq_true_eq]
        omega

theorem filter_ge (h : Contiguous key s l) (hk : s ≤ k) :
    Contiguous key k (l.filter fun a => k ≤ key a) := by
  induction l generalizing s with
  | nil => trivial
  | cons b l ih =>
    have hb := h.1
    by_cases hs : s < k
    · rw [filter_cons_of_neg (by simp only [decide_eq_true_eq]; omega)]
      exact ih h.2 hs
    · obtain rfl : s = k := by omega
      rwa [filter_eq_self.mpr fun a ha => by simpa using (h.bounds ha).1]

theorem of_append (h : Contiguous key s (l ++ m)) :
    Contiguous key s l ∧ Contiguous key (s + l.length) m := by
  induction l generalizing s with
  | nil => exact ⟨trivial, h⟩
  | cons b l ih =>
    obtain ⟨hl, hm⟩ := ih h.2
    refine ⟨⟨h.1, hl⟩, ?_⟩
    rwa [length_cons, Nat.add_comm l.length, ← Nat.add_assoc]

theorem mem_of_le (h : Contiguous key s (l ++ m)) {a b : α} (ha : a ∈ l ++ m)
    (hb : l.getLast? = some b) (hle : key a ≤ key b) : a ∈ l := by
  obtain ⟨hl, hm⟩ := h.of_append
  rcases mem_append.mp ha with ha | ha
  · exact ha
  · have := (hm.bounds ha).1
    have := hl.getLast hb
    omega

theorem comparable {log : List α} (h : Contiguous key s log) {a b : α} (hl : a :: l <:+: log)
    (hm : b :: m <:+: log) (hab : key a = key b) : a :: l <+: b :: m ∨ b :: m <+: a :: l := by
  obtain ⟨u, u', hu⟩ := hl
  obtain ⟨v, v', hv⟩ := hm
  rw [append_assoc] at hu hv
  have hua : key a = s + u.length :=
    (of_append (hu ▸ h : Contiguous key s (u ++ (a :: l ++ u')))).2.1
  have hvb : key b = s + v.length :=
    (of_append (hv ▸ h : Contiguous key s (v ++ (b :: m ++ v')))).2.1
  -- they begin at the same place
  have hrest : a :: l ++ u' = b :: m ++ v' := (append_inj (hu.trans hv.symm) (by omega)).2
  exact prefix_or_prefix_of_prefix ⟨u', hrest⟩ (prefix_append _ _)

theorem of_slice {log : List α} (h : Contiguous key s log) (hl : l <:+: log) :
    ∃ t, Contiguous key t l := by
  obtain ⟨u, u', rfl⟩ := hl
  rw [append_assoc] at h
  exact ⟨_, h.of_append.2.of_append.1⟩

end Contiguous
end

inductive Bound (K : Type)
  | included (k : K)
  | excluded (k : K)
  | unbounded
deriving DecidableEq, Repr

namespace Bound
variable {K : Type} [LinearOrder K]

def startsBy : Bound K → K → Bool
  | included b, k => b ≤ k
  | excluded b, k => b < k
  | unbounded, _ => true

def endsBy : Bound K → K → Bool
  | included b, k => k ≤ b
  | excluded b, k => k < b
  | unbounded, _ => true

end Bound

namespace Table
variable {K V : Type} [LinearOrder K]

def between (t : Table K V) (lo hi : Bound K) : List (K × V) :=
  t.rows.filter fun r => lo.startsBy r.1 && hi.endsBy r.1

def last (t : Table K V) : Option (K × V) := t.rows.getLast?

def removeBetween (t : Table K V) (lo hi : Bound K) : Table K V :=
  t.removeAll ((t.between lo hi).map Prod.fst)

theorem rows_removeBetween (t : Table K V) (lo hi : Bound K) :
    (t.removeBetween lo hi).rows = t.rows.filter fun r => !(lo.startsBy r.1 && hi.endsBy r.1) := by
  have hget : ∀ k, (t.removeBetween lo hi).get k =
      if (!(lo.startsBy k && hi.endsBy k)) = true then t.get k else none := by
    intro k
    rw [removeBetween, get_removeAll]
    by_cases hin : (lo.startsBy k && hi.endsBy k) = true
    · rw [hin]
      by_cases hk : k ∈ (t.between lo hi).map Prod.fst
      · rw [if_pos hk]
        rfl
      · -- a row in the range is among those removed
        rw [if_neg hk]
        refine get_eq_none.mpr fun v hv => hk (mem_map.mpr ⟨(k, v), ?_, rfl⟩)
        exact mem_filter.mpr ⟨hv, hin⟩
    · have hk : k ∉ (t.between lo hi).map Prod.fst := by
        intro hk
        obtain ⟨r, hr, rfl⟩ := mem_map.mp hk
        exact hin (mem_filter.mp hr).2
      rw [if_neg hk, Bool.eq_false_of_not_eq_true hin]
      rfl
  refine (rows_eq_filter hget).trans (filter_congr fun r _ => ?_)
  exact Bool.decide_eq_true

theorem removeBetween_idem (t : Table K V) (lo hi : Bound K) :
    (t.removeBetween lo hi).removeBetween lo hi = t.removeBetween lo hi := by
  have hnone : (t.removeBetween lo hi).between lo hi = [] := by
    rw [between, rows_removeBetween]
    refine filter_eq_nil_iff.mpr fun r hr hin => ?_
    have hout := (mem_filter.mp hr).2
    rw [hin] at hout
    cases hout
  rw [removeBetween, hnone]
  rfl

theorem insertRow_of_lt {k : K} {v : V} {rs : List (K × V)} (h : ∀ r ∈ rs, r.1 < k) :
    insertRow k v rs = rs ++ [(k, v)] := by
  induction rs with
  | nil => rfl
  | cons r rs ih =>
    have hr := h r mem_cons_self
    rw [insertRow, if_neg hr.not_gt, if_neg hr.ne', ih fun r hr => h r (.tail _ hr), cons_append]

theorem rows_insertAll_of_lt {t : Table K V} {rs : List (K × V)}
    (h : (t.rows ++ rs).Pairwise fun a b => a.1 < b.1) : (t.insertAll rs).rows = t.rows ++ rs := by
  induction rs generalizing t with
  | nil => exact (append_nil _).symm
  | cons r rs ih =>
    have hins : (t.insert r.1 r.2).rows = t.rows ++ [r] :=
      insertRow_of_lt fun a ha => (pairwise_append.mp h).2.2 a ha r mem_cons_self
    have hstep := ih (t := t.insert r.1 r.2) (by rwa [hins, append_assoc, singleton_append])
    rw [hins, append_assoc, singleton_append] at hstep
    exact hstep

theorem insertAll_idem (t : Table K V) {rs : List (K × V)} (hnd : (rs.map Prod.fst).Nodup) :
    (t.insertAll rs).insertAll rs = t.insertAll rs := by
  refine ext fun k => ?_
  by_cases hk : k ∈ rs.map Prod.fst
  · obtain ⟨⟨k, v⟩, hr, rfl⟩ := mem_map.mp hk
    rw [(get_insertAll _ hnd k).1 v hr, (get_insertAll _ hnd k).1 v hr]
  · exact (get_insertAll _ hnd k).2 hk

end Table
end Lib
