import MemoryGraph.Lib.Table

/-! Tables of counters. A table counts `c` when it has a row for each key that occurs, and
no row for the others; it is then determined by `c`. -/

namespace Lib.Table
variable {K : Type} [LinearOrder K] {k : K}

/-- The rows of `t` are the positive values of `c`. -/
def Counts (t : Table K Nat) (c : K → Nat) : Prop := ∀ k, t.get k = if c k = 0 then none
    else some (c k)

def bump (t : Table K Nat) (k : K) : Table K Nat := t.alter k (fun n => n.getD 0 + 1)

theorem counts_empty : (empty : Table K Nat).Counts (fun _ => 0) := fun _ => rfl

namespace Counts
variable {t u : Table K Nat} {c : K → Nat}

theorem unique (ht : t.Counts c) (hu : u.Counts c) : t = u :=
  Table.ext fun k => (ht k).trans (hu k).symm

theorem congr {c' : K → Nat} (h : t.Counts c) (hc : ∀ k, c' k = c k) : t.Counts c' := by
  intro k
  rw [hc k]
  exact h k

theorem getD (h : t.Counts c) (k : K) : (t.get k).getD 0 = c k := by
  rw [h k]
  split_ifs with h0
  · exact h0.symm
  · rfl

theorem insert (h : t.Counts c) {n : Nat} (hn : 0 < n) (k : K) :
    (t.insert k (c k + n)).Counts (fun k' => c k' + if k' = k then n else 0) := by
  intro k'
  rw [get_insert, h k']
  by_cases hk : k = k'
  · subst hk
    simp [hn.ne']
  · simp [hk, Ne.symm hk]

theorem bump (h : t.Counts c) (k : K) :
    (t.bump k).Counts (fun k' => c k' + if k' = k then 1 else 0) := by
  rw [Table.bump, alter, h.getD]
  exact h.insert one_pos k

theorem bumpAll (h : t.Counts c) (l : List K) :
    (l.foldl Table.bump t).Counts (fun k => c k + l.count k) := by
  induction l generalizing t c with
  | nil => exact h
  | cons a l ih =>
    refine (ih (h.bump a)).congr fun k => ?_
    rw [List.count_cons]
    by_cases hk : k = a
    · subst hk
      simp only [beq_self_eq_true, if_true]
      omega
    · simp [hk, Ne.symm hk]

end Counts

section
variable {V : Type}

theorem nodup_cons_remove (t : Table K V) (k : K) (v : V) :
    ((k, v) :: (t.remove k).rows).Nodup := by
  refine List.nodup_cons.mpr ⟨?_, nodup_rows _⟩
  rw [mem_rows_iff]
  simp

theorem rows_insert_perm (t : Table K V) (k : K) (v : V) :
    (t.insert k v).rows.Perm ((k, v) :: (t.remove k).rows) := by
  refine (List.perm_ext_iff_of_nodup (nodup_rows _) (nodup_cons_remove t k v)).mpr ?_
  rintro ⟨k', v'⟩
  rw [List.mem_cons, mem_rows_iff, mem_rows_iff, get_insert, get_remove, Prod.mk.injEq]
  by_cases h : k = k'
  · simp [h, eq_comm]
  · simp [h, Ne.symm h]

theorem rows_perm_remove {t : Table K V} {v : V} (h : t.get k = some v) :
    t.rows.Perm ((k, v) :: (t.remove k).rows) := by
  refine (List.perm_ext_iff_of_nodup (nodup_rows _) (nodup_cons_remove t k v)).mpr ?_
  rintro ⟨k', v'⟩
  rw [List.mem_cons, mem_rows_iff, mem_rows_iff, get_remove, Prod.mk.injEq]
  by_cases hk : k = k'
  · subst hk
    simp [h, eq_comm]
  · simp [hk, Ne.symm hk]

theorem remove_of_get_eq_none {t : Table K V} (h : t.get k = none) : t.remove k = t := by
  apply ext
  intro k'
  rw [get_remove]
  split_ifs with hk
  · rw [← hk, h]
  · rfl

theorem rows_insert_perm_of_new {t : Table K V} (h : t.get k = none) (v : V) :
    (t.insert k v).rows.Perm ((k, v) :: t.rows) := by
  have := rows_insert_perm t k v
  rwa [remove_of_get_eq_none h] at this

theorem rows_update_perm {t : Table K V} {v : V} (h : t.get k = some v) (v' : V) :
    ∃ rest, t.rows.Perm ((k, v) :: rest) ∧ (t.insert k v').rows.Perm ((k, v') :: rest) :=
  ⟨(t.remove k).rows, rows_perm_remove h, rows_insert_perm t k v'⟩

theorem keys_insert_perm_of_new {t : Table K V} (h : t.get k = none) (v : V) :
    (t.insert k v).keys.Perm (k :: t.keys) := (rows_insert_perm_of_new h v).map Prod.fst

theorem keys_perm_remove {t : Table K V} {v : V} (h : t.get k = some v) :
    t.keys.Perm (k :: (t.remove k).keys) := (rows_perm_remove h).map Prod.fst

theorem keys_update_perm {t : Table K V} {v : V} (h : t.get k = some v) (v' : V) :
    (t.insert k v').keys.Perm t.keys := by
  obtain ⟨rest, hold, hnew⟩ := rows_update_perm h v'
  exact (hnew.map Prod.fst).trans (hold.map Prod.fst).symm

theorem get_eq_none_of_notMem_keys {t : Table K V} (h : k ∉ t.keys) : t.get k = none := by
  rw [mem_keys] at h
  exact Option.eq_none_iff_forall_ne_some.mpr fun v hv => h ⟨v, hv⟩

end

section
variable {V : Type} (p : V → Bool)

def countOf (t : Table K V) : Nat := t.rows.countP fun r => p r.2

theorem countOf_eq_sum (t : Table K V) :
    (t.countOf p : Int) = (t.rows.map fun r => if p r.2 then (1 : Int) else 0).sum := by
  rw [countOf]
  induction t.rows with
  | nil => rfl
  | cons r rs ih =>
    rw [List.countP_cons, List.map_cons, List.sum_cons, ← ih]
    split_ifs with hr
    · push_cast
      ring
    · push_cast
      ring

theorem countOf_insert (t : Table K V) (k : K) (v : V) :
    (t.insert k v).countOf p + (if (t.get k).any p then 1 else 0) = t.countOf p +
    if p v then 1 else 0 := by
  have h := sum_rows_insert t k v fun r => if p r.2 then (1 : Int) else 0
  rw [← countOf_eq_sum, ← countOf_eq_sum] at h
  cases hk : t.get k with
  | none =>
    rw [hk, Option.elim_none] at h
    rw [Option.any_none, if_neg Bool.false_ne_true]
    cases hv : p v <;> simp only [hv, if_true, if_false, Bool.false_eq_true] at h ⊢ <;> omega
  | some u =>
    rw [hk, Option.elim_some] at h
    rw [Option.any_some]
    cases hu : p u <;> cases hv : p v <;>
      simp only [hu, hv, if_true, if_false, Bool.false_eq_true] at h ⊢ <;> omega

theorem countOf_eq_zero {p : V → Bool} {t : Table K V} (h : t.countOf p = 0) {v : V}
    (hv : t.get k = some v) : p v = false := by
  have := List.countP_eq_zero.mp h (k, v) (get_eq_some.mp hv)
  simpa using this

end
end Lib.Table
