import MemoryGraph.Lib.Table

/-! Tables whose keys number their rows from zero, as lists. -/

namespace Lib
open List
variable {V : Type}

def Table.Holds (t : Table Nat V) (vs : List V) : Prop := ∀ i, t.get i = vs[i]?

namespace Table.Holds
variable {t : Table Nat V} {vs : List V}

theorem empty : (Table.empty : Table Nat V).Holds [] := fun _ => rfl

theorem keys_eq (h : t.Holds vs) : t.keys = List.range vs.length := by
  refine eq_of_sorted_of_mem t.keys_sorted pairwise_lt_range fun i => ?_
  rw [mem_keys, mem_range, h i]
  exact ⟨fun ⟨v, hv⟩ => (List.getElem?_eq_some_iff.mp hv).1, fun hi =>
    ⟨_, List.getElem?_eq_getElem hi⟩⟩

theorem len_eq (h : t.Holds vs) : t.len = vs.length := by
  have hk := congrArg length h.keys_eq
  rwa [length_range, keys, length_map] at hk

theorem rows_eq (h : t.Holds vs) : t.rows.map Prod.snd = vs := by
  refine ext_getElem? fun i => ?_
  rw [getElem?_map]
  cases hr : t.rows[i]? with
  | none =>
    have hlen := getElem?_eq_none_iff.mp hr
    rw [show t.rows.length = t.len from rfl, h.len_eq] at hlen
    rw [getElem?_eq_none hlen]
    rfl
  | some r =>
    have hk : t.keys[i]? = some r.1 := by rw [keys, getElem?_map, hr]; rfl
    have hi : i = r.1 := by
      rw [h.keys_eq, getElem?_eq_some_iff] at hk
      obtain ⟨hi, he⟩ := hk
      rwa [getElem_range] at he
    rw [hi, ← h, mem_rows_iff.mp (mem_of_getElem? hr)]
    rfl

theorem insert_len (h : t.Holds vs) (v : V) : (t.insert t.len v).Holds (vs ++ [v]) := by
  intro i
  rw [get_insert, h.len_eq, h i]
  split_ifs with hi
  · subst hi
    simp
  · rcases Nat.lt_or_gt_of_ne hi with hlt | hgt
    · rw [getElem?_eq_none hlt.le, getElem?_eq_none (by simp; omega)]
    · rw [getElem?_append_left hgt]

theorem insert_last {v w : V} (h : t.Holds (vs ++ [v])) :
    (t.insert (t.len - 1) w).Holds (vs ++ [w]) := by
  intro i
  rw [get_insert, h.len_eq, h i, length_append, length_singleton, Nat.add_sub_cancel]
  split_ifs with hi
  · subst hi
    simp
  · rcases Nat.lt_or_gt_of_ne hi with hlt | hgt
    · rw [getElem?_eq_none (by simp; omega), getElem?_eq_none (by simp; omega)]
    · rw [getElem?_append_left hgt, getElem?_append_left hgt]

end Table.Holds

def clearRows (t : Table Nat V) (n : Nat) : Table Nat V := (List.range n).foldl Table.remove t

def fillRows (t : Table Nat V) (vs : List V) : Table Nat V :=
  vs.zipIdx.foldl (fun t p => t.insert p.2 p.1) t

theorem get_clearRows (t : Table Nat V) (n i : Nat) :
    (clearRows t n).get i = if i < n then none else t.get i := by
  induction n with
  | zero => rfl
  | succ n ih =>
    rw [clearRows, range_succ, foldl_append]
    change ((clearRows t n).remove n).get i = _
    rw [Table.get_remove, ih]
    split_ifs <;> first | rfl | omega

theorem clearRows_holds {t : Table Nat V} {vs : List V} (h : t.Holds vs) :
    (clearRows t t.len).Holds [] := by
  intro i
  rw [get_clearRows, h.len_eq]
  split_ifs with hi
  · rfl
  · rw [h i, getElem?_eq_none (not_lt.mp hi)]
    rfl

theorem fillRows_holds {t : Table Nat V} (h : t.Holds []) (vs : List V) :
    (fillRows t vs).Holds vs := by
  induction vs using reverseRecOn with
  | nil => exact h
  | append_singleton vs v ih =>
    rw [fillRows, zipIdx_append, foldl_append]
    change ((fillRows t vs).insert (0 + vs.length) v).Holds _
    rw [Nat.zero_add, ← ih.len_eq]
    exact ih.insert_len v

end Lib
