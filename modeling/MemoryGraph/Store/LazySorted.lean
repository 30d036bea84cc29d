import MemoryGraph.Schema
import MemoryGraph.Lib.Sorting

/-! A vector handed out in sorted order, sorted only as far as it is read. -/

namespace MemoryGraph
open Lib List

structure LazySorted (T : Type) where
  items : List (Option T)
  pos : Nat
  sortedTo : Nat
  chunk : Nat
deriving DecidableEq, Repr

namespace LazySorted
variable {T : Type}

def new (items : List T) : LazySorted T := ⟨items.map some, 0, 0, 64⟩

/-- Items are compared with others of the slice that is ordered: `none`, the `unreachable!` of the
comparison, when one of them was read already. -/
def unread (slice : List (Option T)) : Option (List T) := slice.mapM id

def order (lib : Sorting) (cmp : T → T → Ordering) (k : Nat) (rest : List T) : List T :=
  let rest := if k < rest.length then lib.select (fun a b => (cmp a b).isLE) (k - 1) rest else rest
  lib.sort (fun a b => (cmp a b).isLE) (rest.take k) ++ rest.drop k

def prepare (lib : Sorting) (cmp : T → T → Ordering) (s : LazySorted T) : Option (LazySorted T) :=
  if s.pos < s.sortedTo ∨ s.items.length ≤ s.pos then some s
  else do
    let rest ← unread (s.items.drop s.pos)
    let k := min s.chunk rest.length
    return { items := s.items.take s.pos ++ (order lib cmp k rest).map some
             pos := s.pos
             sortedTo := s.pos + k
             chunk := min (s.chunk * 2) usizeMax }

def next (lib : Sorting) (cmp : T → T → Ordering) (s : LazySorted T) :
    Option (Option T × LazySorted T) := do
  let s ← s.prepare lib cmp
  match s.items[s.pos]? with
  | none => return (none, s)
  | some item => return (item, { s with items := s.items.set s.pos none, pos := s.pos + 1 })

inductive Call
  | prepare
  | next
deriving DecidableEq, Repr

def run (lib : Sorting) (cmp : T → T → Ordering) :
    List Call → LazySorted T → Option (List (Option T))
  | [], _ => some []
  | .prepare :: calls, s => do
    let s ← s.prepare lib cmp
    run lib cmp calls s
  | .next :: calls, s => do
    let (item, s) ← s.next lib cmp
    return item :: (← run lib cmp calls s)

structure Left (full : List T) (s : LazySorted T) (front back rest : List T) : Prop where
  items : s.items = List.replicate s.pos none ++ (front ++ back).map some
  full : full.drop s.pos = front ++ rest
  back : back.Perm rest
  sortedTo : s.sortedTo - s.pos = front.length
  chunk : 0 < s.chunk

section
variable {lib : Sorting} {cmp : T → T → Ordering} {full front back rest : List T} {s : LazySorted T}

theorem unread_map_some (l : List T) : unread (l.map some) = some l := by
  rw [unread]
  induction l with
  | nil => rfl
  | cons a l ih => rw [map_cons, mapM_cons, ih]; rfl

theorem left_new {l : List T} (h : full.Perm l) : Left full (new l) [] l full :=
  ⟨rfl, rfl, h.symm, rfl, (by decide : 0 < 64)⟩

theorem Left.drop_items (h : Left full s front back rest) :
    s.items.drop s.pos = (front ++ back).map some := by
  rw [h.items, drop_left' length_replicate]

theorem Left.length_items (h : Left full s front back rest) :
    s.items.length = s.pos + (front ++ back).length := by
  rw [h.items, length_append, length_replicate, length_map]

variable [Std.TransCmp cmp]

theorem totalOrder : TotalOrder fun a b => (cmp a b).isLE where
  trans _ _ _ := Std.TransCmp.isLE_trans
  total a b := by
    rw [(Std.OrientedCmp.eq_swap : cmp b a = (cmp a b).swap)]
    cases cmp a b <;> simp

variable (cmp) in
theorem order_split (lib : Sorting) {k : Nat} {l : List T} (hk : 0 < k) (hl : k ≤ l.length) :
    ∃ front back, order lib cmp k l = front ++ back ∧ front.length = k ∧ (front ++ back).Perm l ∧
      front.Pairwise (fun a b => (cmp a b).isLE) ∧ ∀ a ∈ front, ∀ b ∈ back, (cmp a b).isLE := by
  obtain ⟨r, hr, hperm, hle⟩ :
    ∃ r, (if k < l.length then lib.select (fun a b => (cmp a b).isLE) (k - 1) l
      else l) = r ∧ r.Perm l ∧ ∀ a ∈ r.take k, ∀ b ∈ r.drop k, (cmp a b).isLE := by
    split
    next =>
      have hle := lib.select_le (totalOrder : TotalOrder fun a b => (cmp a b).isLE) (k - 1) l
      rw [Nat.sub_add_cancel hk] at hle
      exact ⟨_, rfl, lib.perm_select _ _ _, hle⟩
    next hge =>
      refine ⟨l, rfl, .refl l, fun a _ b hb => ?_⟩
      rw [drop_eq_nil_of_le (not_lt.mp hge)] at hb
      exact nomatch hb
  have hsort := lib.perm_sort (fun a b => (cmp a b).isLE) (r.take k)
  refine ⟨_, _, by rw [order, hr], ?_, ?_, lib.sorted totalOrder _,
    fun a ha => hle a (hsort.mem_iff.mp ha)⟩
  · rw [hsort.length_eq, length_take, hperm.length_eq, Nat.min_eq_left hl]
  · have happend := hsort.append_right (r.drop k)
    rw [take_append_drop] at happend
    exact happend.trans hperm

variable [Std.LawfulEqCmp cmp]

theorem split_sorted (hfull : full.Pairwise fun a b => (cmp a b).isLE)
    (hp : (front ++ back).Perm full) (hfront : front.Pairwise fun a b => (cmp a b).isLE)
    (hle : ∀ a ∈ front, ∀ b ∈ back, (cmp a b).isLE) :
    ∃ rest, full = front ++ rest ∧ back.Perm rest := by
  have hsort := mergeSort_perm back fun a b => (cmp a b).isLE
  refine ⟨_, ?_, hsort.symm⟩
  refine List.Perm.eq_of_pairwise (fun a b _ _ hab hba => ?_) hfull ?_
    (hp.symm.trans (hsort.symm.append_left _))
  · exact Std.LawfulEqCmp.eq_of_compare (Std.OrientedCmp.isLE_antisymm hab hba)
  · refine pairwise_append.mpr ⟨hfront, totalOrder.pairwise_mergeSort back, fun a ha b hb => ?_⟩
    exact hle a ha b (hsort.mem_iff.mp hb)

theorem Left.prepare (lib : Sorting) (h : Left full s front back rest)
    (hfull : full.Pairwise fun a b => (cmp a b).isLE) :
    ∃ t front' back' rest', s.prepare lib cmp = some t ∧ Left full t front' back' rest' ∧
      t.pos = s.pos ∧ (front' = [] → back' = []) := by
  have hto := h.sortedTo
  have hlen := h.length_items
  have hchunk := h.chunk
  rw [length_append] at hlen
  rw [LazySorted.prepare]
  split
  next hdone =>
    refine ⟨s, front, back, rest, rfl, h, rfl, fun hnil => eq_nil_of_length_eq_zero ?_⟩
    rw [hnil, length_nil] at hto hlen
    omega
  next hgo =>
    obtain rfl : front = [] := eq_nil_of_length_eq_zero (by omega)
    rw [length_nil] at hlen
    have hk : 0 < min s.chunk back.length := by omega
    rw [h.drop_items, nil_append, unread_map_some]
    obtain ⟨front, back', hsplit, hlength, hperm, hsorted, hle⟩ :=
      order_split cmp lib hk (Nat.min_le_right _ _)
    -- the new chunk is the next part of the full sort
    have hrest := hfull.sublist (drop_sublist s.pos full)
    rw [h.full, nil_append] at hrest
    obtain ⟨rest', rfl, hback⟩ := split_sorted hrest (hperm.trans h.back) hsorted hle
    refine ⟨_, front, back', rest', rfl, ⟨?_, h.full, hback, ?_, ?_⟩, rfl, fun hnil => ?_⟩
    · show s.items.take s.pos ++ _ = _
      rw [h.items, take_left' length_replicate, hsplit]
    · exact (Nat.add_sub_cancel_left _ _).trans hlength.symm
    · show 0 < min (s.chunk * 2) usizeMax
      have : 0 < usizeMax := by decide
      omega
    · rw [hnil, length_nil] at hlength
      omega

theorem Left.next (lib : Sorting) (h : Left full s front back rest)
    (hfull : full.Pairwise fun a b => (cmp a b).isLE) :
    ∃ t front' back' rest', s.next lib cmp = some (full[s.pos]?, t) ∧
      Left full t front' back' rest' ∧ ∀ i, full[t.pos + i]? = full[s.pos + (i + 1)]? := by
  obtain ⟨u, front, back, rest, hu, h, hpos, hend⟩ := h.prepare lib hfull
  have hget := h.items
  have hdrop := h.full
  have hto := h.sortedTo
  rw [LazySorted.next, hu, ← hpos]
  cases front with
  | nil =>
    -- everything is read
    obtain rfl := hend rfl
    obtain rfl := h.back.symm.eq_nil
    have hge := drop_eq_nil_iff.mp hdrop
    refine ⟨u, [], [], [], ?_, h, fun i => ?_⟩
    · rw [Option.bind_eq_bind, Option.bind_some, hget, getElem?_eq_none hge]
      simp
    · rw [getElem?_eq_none (by omega), getElem?_eq_none (by omega)]
  | cons f front =>
    have hf : full[u.pos]? = some f := by
      rw [← head?_drop, hdrop]
      rfl
    refine ⟨{ u with items := u.items.set u.pos none, pos := u.pos + 1 }, front, back, rest, ?_,
      ⟨?_, ?_, h.back, ?_, h.chunk⟩, fun i => ?_⟩
    · rw [Option.bind_eq_bind, Option.bind_some, hget, hf]
      simp
    · show u.items.set u.pos none = _
      rw [hget, set_append, if_neg (by simp)]
      simp [replicate_succ']
    · show full.drop (u.pos + 1) = _
      rw [← drop_drop, hdrop]
      rfl
    · show u.sortedTo - (u.pos + 1) = _
      rw [length_cons] at hto
      omega
    · show full[u.pos + 1 + i]? = _
      rw [Nat.add_assoc, Nat.add_comm 1 i]

theorem Left.run (lib : Sorting) (hfull : full.Pairwise fun a b => (cmp a b).isLE)
    (calls : List Call) (h : Left full s front back rest) :
    run lib cmp calls s = some ((List.range (calls.count .next)).map fun i =>
      full[s.pos + i]?) := by
  induction calls generalizing s front back rest with
  | nil => rfl
  | cons call calls ih =>
    cases call with
    | prepare =>
      obtain ⟨t, _, _, _, ht, hleft, hpos, -⟩ := h.prepare lib hfull
      rw [LazySorted.run, ht, Option.bind_eq_bind, Option.bind_some, ih hleft, hpos]
      rfl
    | next =>
      obtain ⟨t, _, _, _, ht, hleft, hget⟩ := h.next lib hfull
      rw [LazySorted.run, ht, Option.bind_eq_bind, Option.bind_some]
      simp only
      rw [ih hleft, count_cons_self, range_succ_eq_map, map_cons, map_map]
      simp only [hget]
      rfl

end

/-- However `prepare` and `next` are called: item by item, the calls of `next` return the full sort,
and then nothing. -/
theorem run_eq_sort (lib : Sorting)
    (cmp : T → T → Ordering) [Std.TransCmp cmp] [Std.LawfulEqCmp cmp]
    (l full : List T) (hperm : full.Perm l) (hfull : full.Pairwise fun a b => (cmp a b).isLE)
    (calls : List Call) :
    run lib cmp calls (new l) = some ((List.range (calls.count .next)).map fun i => full[i]?) := by
  have hrun := (left_new hperm).run lib hfull calls
  simpa only [new, Nat.zero_add] using hrun

theorem run_eq_sort_descending :
    run .merge compare (.next :: .prepare :: List.replicate 100 .next)
      (new (List.range 100).reverse) = some ((List.range 101).map fun i =>
        (List.range 100)[i]?) := by
  refine run_eq_sort .merge compare _ (List.range 100) (List.reverse_perm _).symm ?_ _
  exact List.pairwise_lt_range.imp fun h => Nat.isLE_compare.mpr h.le

end LazySorted
end MemoryGraph
