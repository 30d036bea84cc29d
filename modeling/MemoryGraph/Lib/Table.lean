import Mathlib

/-! Ordered finite maps. Two tables that answer every lookup alike are equal, so an invariant of a
table can be stated through `get` alone. -/

namespace Lib
open List

theorem eq_of_sorted_of_mem {α : Type} [LinearOrder α] {l m : List α} (hl : l.Pairwise (· < ·))
    (hm : m.Pairwise (· < ·)) (h : ∀ x, x ∈ l ↔ x ∈ m) : l = m := by
  have hp : l.Perm m := (perm_ext_iff_of_nodup (hl.imp ne_of_lt) (hm.imp ne_of_lt)).mpr h
  exact hp.eq_of_pairwise (fun a b _ _ hab hba => absurd hab (not_lt.mpr hba.le)) hl hm

structure Table (K V : Type) [LinearOrder K] where
  rows : List (K × V)
  sorted : rows.Pairwise (fun a b => a.1 < b.1)

namespace Table
variable {K V : Type} [LinearOrder K]

def findRow (k : K) : List (K × V) → Option V
  | [] => none
  | (a, v) :: rs => if a = k then some v else findRow k rs

def insertRow (k : K) (v : V) : List (K × V) → List (K × V)
  | [] => [(k, v)]
  | (a, w) :: rs =>
    if k < a then (k, v) :: (a, w) :: rs
    else if k = a then (k, v) :: rs
    else (a, w) :: insertRow k v rs

theorem mem_insertRow {k : K} {v : V} {r : K × V} {rs : List (K × V)} :
    r ∈ insertRow k v rs → r = (k, v) ∨ r ∈ rs := by
  induction rs with
  | nil => simp [insertRow]
  | cons a rs ih =>
    rw [insertRow]
    split_ifs
    · simp
    · intro h
      rcases mem_cons.mp h with rfl | h
      · simp
      · exact Or.inr (.tail _ h)
    · intro h
      rcases mem_cons.mp h with rfl | h
      · simp
      · exact (ih h).imp id (mem_cons_of_mem _)

theorem sorted_insertRow (k : K) (v : V) {rs : List (K × V)}
    (h : rs.Pairwise (fun a b => a.1 < b.1)) :
    (insertRow k v rs).Pairwise (fun a b => a.1 < b.1) := by
  induction rs with
  | nil => simp [insertRow]
  | cons a rs ih =>
    obtain ⟨ha, hrs⟩ := pairwise_cons.mp h
    rw [insertRow]
    split_ifs with h1 h2
    · refine pairwise_cons.mpr ⟨fun b hb => ?_, h⟩
      rcases mem_cons.mp hb with rfl | hb
      · exact h1
      · exact h1.trans (ha b hb)
    · subst h2
      exact pairwise_cons.mpr ⟨ha, hrs⟩
    · refine pairwise_cons.mpr ⟨fun b hb => ?_, ih hrs⟩
      rcases mem_insertRow hb with rfl | hb
      · exact lt_of_le_of_ne (not_lt.mp h1) (Ne.symm h2)
      · exact ha b hb

def empty : Table K V := ⟨[], List.Pairwise.nil⟩

def get (t : Table K V) (k : K) : Option V := findRow k t.rows

def insert (t : Table K V) (k : K) (v : V) : Table K V :=
  ⟨insertRow k v t.rows, sorted_insertRow k v t.sorted⟩

def remove (t : Table K V) (k : K) : Table K V :=
  ⟨t.rows.filter (fun r => r.1 ≠ k), t.sorted.sublist List.filter_sublist⟩

def alter (t : Table K V) (k : K) (f : Option V → V) : Table K V := t.insert k (f (t.get k))

def len (t : Table K V) : Nat := t.rows.length

def keys (t : Table K V) : List K := t.rows.map Prod.fst

instance [DecidableEq V] : DecidableEq (Table K V) := fun t u =>
  decidable_of_iff (t.rows = u.rows) ⟨fun h => by cases t; cases u; simpa using h, fun h => h ▸ rfl⟩

theorem findRow_insertRow (k k' : K) (v : V) (rs : List (K × V)) :
    findRow k' (insertRow k v rs) = if k = k' then some v else findRow k' rs := by
  induction rs with
  | nil => simp [insertRow, findRow]
  | cons a rs ih =>
    rw [insertRow]
    split_ifs with h1 h2 h3 h3 h3
    all_goals simp only [findRow, ih]
    all_goals split_ifs <;> simp_all

theorem findRow_eq_some {rs : List (K × V)} (h : rs.Pairwise (fun a b => a.1 < b.1)) {k : K}
    {v : V} : findRow k rs = some v ↔ (k, v) ∈ rs := by
  induction rs with
  | nil => simp [findRow]
  | cons a rs ih =>
    obtain ⟨ha, hrs⟩ := pairwise_cons.mp h
    rw [findRow, mem_cons]
    split_ifs with h1
    · constructor
      · rintro ⟨rfl⟩
        exact Or.inl (by rw [← h1])
      · rintro (h2 | h2)
        · rw [← h2]
        · exact absurd (ha _ h2) (by simp [h1])
    · rw [ih hrs]
      exact ⟨Or.inr, fun h2 => h2.resolve_left (fun e => h1 (by rw [← e]))⟩

theorem get_eq_some {t : Table K V} {k : K} {v : V} : t.get k = some v ↔ (k, v) ∈ t.rows :=
  findRow_eq_some t.sorted

theorem get_eq_none {t : Table K V} {k : K} : t.get k = none ↔ ∀ v, (k, v) ∉ t.rows := by
  rw [Option.eq_none_iff_forall_ne_some]
  exact forall_congr' fun v => not_congr get_eq_some

@[simp] theorem get_empty (k : K) : (empty : Table K V).get k = none := rfl

@[simp] theorem get_insert (t : Table K V) (k k' : K) (v : V) :
    (t.insert k v).get k' = if k = k' then some v else t.get k' := findRow_insertRow k k' v t.rows

theorem get_insert_self (t : Table K V) (k : K) (v : V) : (t.insert k v).get k = some v := by simp

theorem get_insert_of_ne (t : Table K V) {k k' : K} (v : V) (h : k ≠ k') :
    (t.insert k v).get k' = t.get k' := by simp [h]

@[simp] theorem get_remove (t : Table K V) (k k' : K) :
    (t.remove k).get k' = if k = k' then none else t.get k' := by
  split_ifs with h
  · subst h
    simp [get_eq_none, remove]
  · cases hv : t.get k' with
    | none =>
      rw [get_eq_none] at hv ⊢
      exact fun v hm => hv v (mem_filter.mp hm).1
    | some v =>
      rw [get_eq_some] at hv ⊢
      exact mem_filter.mpr ⟨hv, by simpa using Ne.symm h⟩

@[simp] theorem get_alter (t : Table K V) (k k' : K) (f : Option V → V) :
    (t.alter k f).get k' = if k = k' then some (f (t.get k)) else t.get k' := get_insert t k k' _

theorem mem_rows_iff {t : Table K V} {r : K × V} : r ∈ t.rows ↔ t.get r.1 = some r.2 :=
  get_eq_some.symm

theorem nodup_rows (t : Table K V) : t.rows.Nodup :=
  t.sorted.imp (fun h e => absurd h (by rw [e]; exact lt_irrefl _))

theorem ext {t u : Table K V} (h : ∀ k, t.get k = u.get k) : t = u := by
  have hp : t.rows.Perm u.rows := by
    rw [perm_ext_iff_of_nodup t.nodup_rows u.nodup_rows]
    intro r
    rw [mem_rows_iff, mem_rows_iff, h]
  have he : t.rows = u.rows := hp.eq_of_pairwise
    (fun a b _ _ hab hba => absurd hab (not_lt.mpr hba.le)) t.sorted u.sorted
  cases t
  cases u
  simpa using he

theorem rows_eq_filter {t u : Table K V} {p : K → Prop} [DecidablePred p]
    (h : ∀ k, t.get k = if p k then u.get k else none) :
    t.rows = u.rows.filter (fun r => p r.1) := by
  have hsorted : (u.rows.filter (fun r => p r.1)).Pairwise (fun a b => a.1 < b.1) :=
    u.sorted.sublist filter_sublist
  have htable : t = ⟨u.rows.filter (fun r => p r.1), hsorted⟩ := by
    refine ext fun k => Option.ext fun v => ?_
    rw [h k, get_eq_some, mem_filter, mem_rows_iff]
    split_ifs with hk <;> simp [hk]
  exact congrArg rows htable

theorem mem_keys {t : Table K V} {k : K} : k ∈ t.keys ↔ ∃ v, t.get k = some v := by
  simp only [keys, mem_map, Prod.exists, exists_and_right, exists_eq_right, get_eq_some]

theorem keys_sorted (t : Table K V) : t.keys.Pairwise (· < ·) := pairwise_map.mpr t.sorted

def removeAll (t : Table K V) (ks : List K) : Table K V := ks.foldl remove t

def insertAll (t : Table K V) (rs : List (K × V)) : Table K V :=
  rs.foldl (fun t r => t.insert r.1 r.2) t

theorem get_removeAll (t : Table K V) (ks : List K) (k : K) :
    (t.removeAll ks).get k = if k ∈ ks then none else t.get k := by
  induction ks generalizing t with
  | nil => simp [removeAll]
  | cons a ks ih =>
    change ((t.remove a).removeAll ks).get k = _
    rw [ih, get_remove]
    by_cases hk : k ∈ ks
    · simp [hk]
    · by_cases ha : a = k
      · simp [ha]
      · simp [hk, ha, Ne.symm ha]

theorem get_insertAll (t : Table K V) {rs : List (K × V)} (hnd : (rs.map Prod.fst).Nodup) (k : K) :
    (∀ v, (k, v) ∈ rs → (t.insertAll rs).get k = some v) ∧
      (k ∉ rs.map Prod.fst → (t.insertAll rs).get k = t.get k) := by
  induction rs generalizing t with
  | nil => exact ⟨fun v hv => absurd hv not_mem_nil, fun _ => rfl⟩
  | cons r rs ih =>
    obtain ⟨hr, hnd⟩ := nodup_cons.mp hnd
    have hrec := ih (t.insert r.1 r.2) hnd
    change (∀ v, (k, v) ∈ r :: rs → ((t.insert r.1 r.2).insertAll rs).get k = some v) ∧
      (k ∉ (r :: rs).map Prod.fst → ((t.insert r.1 r.2).insertAll rs).get k = t.get k)
    constructor
    · intro v hv
      rcases mem_cons.mp hv with rfl | hv
      · rw [hrec.2 hr, get_insert_self]
      · exact hrec.1 v hv
    · intro hk
      obtain ⟨hne, hk⟩ := not_or.mp (fun h => hk (mem_cons.mpr h))
      rw [hrec.2 hk, get_insert_of_ne _ _ (Ne.symm hne)]

theorem insertAll_empty_eq {t : Table K V} {rs : List (K × V)} (hnd : (rs.map Prod.fst).Nodup)
    (h : ∀ k v, (k, v) ∈ rs ↔ t.get k = some v) : empty.insertAll rs = t := by
  refine ext fun k => ?_
  have hins := get_insertAll empty hnd k
  cases ht : t.get k with
  | some v => exact hins.1 v ((h k v).mpr ht)
  | none =>
    refine hins.2 fun hk => ?_
    obtain ⟨r, hr, rfl⟩ := mem_map.mp hk
    exact absurd (ht.symm.trans ((h r.1 r.2).mp hr)) (by simp)

theorem sum_rows_insert {M : Type} [AddCommGroup M] (t : Table K V) (k : K) (v : V)
    (w : K × V → M) :
    ((t.insert k v).rows.map w).sum =
      (t.rows.map w).sum - (t.get k).elim 0 (fun u => w (k, u)) + w (k, v) := by
  have hrows : ∀ rs : List (K × V), rs.Pairwise (fun a b => a.1 < b.1) →
      ((insertRow k v rs).map w).sum = (rs.map w).sum - (findRow k rs).elim 0 (fun u =>
        w (k, u)) + w (k, v) := by
    intro rs
    induction rs with
    | nil => simp [insertRow, findRow]
    | cons a rs ih =>
      intro hs
      obtain ⟨ha, hs⟩ := pairwise_cons.mp hs
      rw [insertRow, findRow]
      rcases lt_trichotomy k a.1 with hlt | heq | hgt
      · have hnone : findRow k rs = none := by
          rw [Option.eq_none_iff_forall_ne_some]
          intro u hu
          exact absurd (ha _ ((findRow_eq_some hs).mp hu)) (not_lt.mpr hlt.le)
        rw [if_pos hlt, if_neg hlt.ne', hnone]
        simp only [map_cons, sum_cons, Option.elim_none]
        abel
      · subst heq
        rw [if_neg (lt_irrefl _), if_pos rfl, if_pos rfl]
        simp only [map_cons, sum_cons, Option.elim_some]
        abel
      · rw [if_neg hgt.not_gt, if_neg hgt.ne', if_neg hgt.ne]
        simp only [map_cons, sum_cons, ih hs]
        abel
  exact hrows t.rows t.sorted

section
variable {α : Type} (key : α → K) (val : α → V)

def countBy (l : List α) : Table K (V × Int) :=
  l.foldl (fun t a => t.alter (key a) (fun old => (val a, old.elim 0 Prod.snd + 1))) empty

theorem sum_countBy (hval : ∀ a b, key a = key b → val a = val b) (g : K → V → Int) (l : List α) :
    ((countBy key val l).rows.map (fun r => r.2.2 * g r.1 r.2.1)).sum =
      (l.map (fun a => g (key a) (val a))).sum := by
  have hloop : ∀ (l : List α) (t : Table K (V × Int)), (∀ k p, t.get k = some p → ∃ a, key a = k ∧
      val a = p.1) → ((l.foldl (fun t a =>
      t.alter (key a) (fun old => (val a, old.elim 0 Prod.snd + 1))) t).rows.map
        (fun r => r.2.2 * g r.1 r.2.1)).sum =
      (t.rows.map (fun r => r.2.2 * g r.1 r.2.1)).sum +
        (l.map (fun a => g (key a) (val a))).sum := by
    intro l
    induction l with
    | nil => simp
    | cons a l ih =>
      intro t ht
      rw [foldl_cons, ih, alter, sum_rows_insert, map_cons, sum_cons]
      · cases hk : t.get (key a) with
        | none =>
          simp only [Option.elim_none]
          ring
        | some p =>
          obtain ⟨b, hb, hp⟩ := ht _ _ hk
          simp only [Option.elim_some, ← hp, hval b a hb]
          ring
      · intro k p hp
        rw [get_alter] at hp
        split_ifs at hp with hk
        · exact ⟨a, hk, congrArg Prod.fst (Option.some.inj hp)⟩
        · exact ht k p hp
  have h := hloop l empty (fun k p hp => by cases hp)
  rw [countBy, h]
  exact zero_add _

end

end Table
end Lib
