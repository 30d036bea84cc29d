import MemoryGraph.Lib.Table

/-! Ordered multimaps: the set of pairs of a table, ascending by key and then by
value. Two multimaps with the same pairs are equal. -/

namespace Lib

structure Multimap (K V : Type) [LinearOrder K] [LinearOrder V] where
  table : Table (K ×ₗ V) Unit
deriving DecidableEq

namespace Multimap
variable {K V : Type} [LinearOrder K] [LinearOrder V]

def empty : Multimap K V := ⟨Table.empty⟩

def pairs (m : Multimap K V) : List (K × V) := m.table.keys.map ofLex

def insert (m : Multimap K V) (k : K) (v : V) : Multimap K V :=
  ⟨m.table.insert (toLex (k, v)) ()⟩

def remove (m : Multimap K V) (k : K) (v : V) : Multimap K V :=
  ⟨m.table.remove (toLex (k, v))⟩

def get (m : Multimap K V) (k : K) : List V := (m.pairs.filter (fun p => p.1 = k)).map Prod.snd

theorem mem_pairs {m : Multimap K V} {p : K × V} :
    p ∈ m.pairs ↔ m.table.get (toLex p) = some () := by
  rw [pairs, List.mem_map]
  constructor
  · rintro ⟨a, ha, rfl⟩
    obtain ⟨u, hu⟩ := Table.mem_keys.mp ha
    exact hu
  · exact fun h => ⟨toLex p, Table.mem_keys.mpr ⟨(), h⟩, rfl⟩

@[simp] theorem pairs_empty : (empty : Multimap K V).pairs = [] := rfl

@[simp] theorem mem_pairs_insert {m : Multimap K V} {k : K} {v : V} {p : K × V} :
    p ∈ (m.insert k v).pairs ↔ p = (k, v) ∨ p ∈ m.pairs := by
  rw [mem_pairs, mem_pairs, insert, Table.get_insert]
  split_ifs with h
  · simp [show p = (k, v) from h.symm]
  · simp [show p ≠ (k, v) from fun e => h (by rw [e])]

@[simp] theorem mem_pairs_remove {m : Multimap K V} {k : K} {v : V} {p : K × V} :
    p ∈ (m.remove k v).pairs ↔ p ≠ (k, v) ∧ p ∈ m.pairs := by
  rw [mem_pairs, mem_pairs, remove, Table.get_remove]
  split_ifs with h
  · simp [show p = (k, v) from h.symm]
  · simp [show p ≠ (k, v) from fun e => h (by rw [e])]

theorem pairs_sorted (m : Multimap K V) : m.pairs.Pairwise (fun a b => toLex a < toLex b) := by
  rw [pairs, List.pairwise_map]
  exact m.table.keys_sorted

theorem ext {m n : Multimap K V} (h : ∀ p, p ∈ m.pairs ↔ p ∈ n.pairs) : m = n := by
  have ht : m.table = n.table := by
    refine Table.ext fun k => ?_
    have hk := h (ofLex k)
    rw [mem_pairs, mem_pairs, toLex_ofLex] at hk
    rcases hm : m.table.get k with _ | u <;> rcases hn : n.table.get k with _ | w
    · rfl
    · exact absurd (hk.mpr hn) (by simp [hm])
    · exact absurd (hk.mp hm) (by simp [hn])
    · rfl
  cases m
  cases n
  simpa using ht

@[simp] theorem mem_get {m : Multimap K V} {k : K} {v : V} : v ∈ m.get k ↔ (k, v) ∈ m.pairs := by
  simp [get]

theorem get_sorted (m : Multimap K V) (k : K) : (m.get k).Pairwise (· < ·) := by
  rw [get, List.pairwise_map]
  refine (m.pairs_sorted.filter _).imp_of_mem fun {a b} ha hb hab => ?_
  have ea : a.1 = k := by simpa using (List.mem_filter.mp ha).2
  have eb : b.1 = k := by simpa using (List.mem_filter.mp hb).2
  rcases Prod.Lex.toLex_lt_toLex.mp hab with h | h
  · exact absurd h (by rw [ea, eb]; exact lt_irrefl _)
  · exact h.2

def insertAll (m : Multimap K V) (ps : List (K × V)) : Multimap K V :=
  ps.foldl (fun m p => m.insert p.1 p.2) m

def removeAll (m : Multimap K V) (ps : List (K × V)) : Multimap K V :=
  ps.foldl (fun m p => m.remove p.1 p.2) m

theorem mem_pairs_insertAll {m : Multimap K V} {ps : List (K × V)} {p : K × V} :
    p ∈ (m.insertAll ps).pairs ↔ p ∈ ps ∨ p ∈ m.pairs := by
  induction ps generalizing m with
  | nil => simp [insertAll]
  | cons q ps ih =>
    change p ∈ ((m.insert q.1 q.2).insertAll ps).pairs ↔ _
    rw [ih, mem_pairs_insert, List.mem_cons, or_left_comm, or_assoc]

theorem mem_pairs_removeAll {m : Multimap K V} {ps : List (K × V)} {p : K × V} :
    p ∈ (m.removeAll ps).pairs ↔ p ∉ ps ∧ p ∈ m.pairs := by
  induction ps generalizing m with
  | nil => simp [removeAll]
  | cons q ps ih =>
    change p ∈ ((m.remove q.1 q.2).removeAll ps).pairs ↔ _
    rw [ih, mem_pairs_remove, List.mem_cons, not_or, and_left_comm, and_assoc]

end Multimap
end Lib
