import MemoryGraph.Read.Children
import MemoryGraph.Lib.Forest

/-! The order of a walk: every item followed by what lies below it. The stack loops list
exactly that, and never more items than the stream has. -/

namespace MemoryGraph
open Lib Codec List

def InStream (d : Stream) : Item → Prop
  | .inl p => d.symbols[p.2]? = some p.1
  | .inr p => d.tokens[p.2]? = some p.1

theorem mem_childItems {d : Stream} {par : Option U32} {it : Item} :
    it ∈ childItems d par ↔ InStream d it ∧ itemParent it = par := by
  rw [childItems, mem_interleave]
  cases it with
  | inl p => simp [InStream, itemParent, mem_kidsOf]
  | inr p => simp [InStream, itemParent, mem_toksOf]

def subtree (d : Stream) : Nat → Item → List Item
  | 0, it => [it]
  | _ + 1, .inr p => [.inr p]
  | depth + 1, .inl p => .inl p :: (childItems d (some (u32 p.2))).flatMap (subtree d depth)

def preorder (d : Stream) (it : Item) : List Item := subtree d d.symbols.length it

def room (d : Stream) : Item → Nat
  | .inl p => d.symbols.length - p.2
  | .inr _ => 0

theorem inStream_of_mem_subtree {d : Stream} {depth : Nat} {it x : Item} (hit : InStream d it)
    (hx : x ∈ subtree d depth it) : InStream d x := by
  induction depth generalizing it with
  | zero => rwa [mem_singleton.mp hx]
  | succ depth ih =>
    cases it with
    | inr p => rwa [mem_singleton.mp hx]
    | inl p =>
      rcases mem_cons.mp hx with rfl | hx
      · exact hit
      · obtain ⟨c, hc, hx⟩ := mem_flatMap.mp hx
        exact ih (mem_childItems.mp hc).1 hx

theorem inStream_of_mem_walk {d : Stream} {par : Option U32} {x : Item}
    (hx : x ∈ (childItems d par).flatMap (preorder d)) : InStream d x := by
  obtain ⟨c, hc, hx⟩ := mem_flatMap.mp hx
  exact inStream_of_mem_subtree (mem_childItems.mp hc).1 hx

@[simp] theorem preorder_tok (d : Stream) (p : TokRec × Nat) : preorder d (.inr p) = [.inr p] := by
  rw [preorder]
  cases d.symbols.length <;> rfl

section Order
variable {d : Stream} (hd : Decoded d)
include hd

theorem u32_val {i : Nat} (hi : i < d.symbols.length) : (u32 i).val = i :=
  Nat.mod_eq_of_lt (hi.trans_le hd.nsym)

theorem room_child {p : SymRec × Nat} (hp : InStream d (.inl p)) {it : Item}
    (hit : it ∈ childItems d (some (u32 p.2))) : room d it + 1 ≤ room d (.inl p) := by
  obtain ⟨hin, hpar⟩ := mem_childItems.mp hit
  have hlt := lt_of_getElem? hp
  cases it with
  | inr q =>
    simp only [room]
    omega
  | inl q =>
    have h := hd.laid.parents _ _ hin _ hpar
    rw [u32_val hd hlt] at h
    have := lt_of_getElem? hin
    simp only [room]
    omega

theorem subtree_stable {k l : Nat} {it : Item} (hin : InStream d it) (hk : room d it ≤ k)
    (hl : room d it ≤ l) : subtree d k it = subtree d l it := by
  induction k generalizing l it with
  | zero =>
    cases it with
    | inl p =>
      have := lt_of_getElem? hin
      simp only [room] at hk
      omega
    | inr p => cases l <;> rfl
  | succ k ih =>
    cases it with
    | inr p => cases l <;> rfl
    | inl p =>
      cases l with
      | zero =>
        have := lt_of_getElem? hin
        simp only [room] at hl
        omega
      | succ l =>
        rw [subtree, subtree]
        congr 1
        refine flatMap_congr fun it hit => ?_
        have := room_child hd hin hit
        exact ih (mem_childItems.mp hit).1 (by omega) (by omega)

theorem preorder_sym {p : SymRec × Nat} (hp : InStream d (.inl p)) :
    preorder d (.inl p) = .inl p :: (childItems d (some (u32 p.2))).flatMap (preorder d) := by
  have hlt := lt_of_getElem? hp
  obtain ⟨n, hn⟩ := Nat.exists_eq_add_of_lt hlt
  rw [preorder, subtree_stable hd hp (Nat.sub_le _ _) (show room d (.inl p) ≤ d.symbols.length +
    1 from (Nat.sub_le _ _).trans (Nat.le_succ _)), subtree]
  rfl

end Order

section Loop
variable {d : Stream} (hd : Decoded d) (text : Nat → Except StoreError String) (file : Nat)
include hd

theorem walkStack_eq {children : Nat → Except StoreError (List Item)} {P : Item → Prop}
    (hin : ∀ it, P it → InStream d it)
    (hkids : ∀ p, P (.inl p) → children p.2 = .ok (childItems d (some (u32 p.2))) ∧
      ∀ it ∈ childItems d (some (u32 p.2)), P it) (fuel : Nat) (stack : List Item)
    (hok : ∀ it ∈ stack, P it) (hfuel : (stack.flatMap (preorder d)).length ≤ fuel) :
    walkStack text file children fuel stack =
      (stack.flatMap (preorder d)).mapM (itemNode text file) := by
  induction fuel generalizing stack with
  | zero =>
    cases stack with
    | nil => rfl
    | cons it stack =>
      cases it with
      | inl p => simp [preorder_sym hd (hin _ (hok _ mem_cons_self))] at hfuel
      | inr p => simp at hfuel
  | succ fuel ih =>
    cases stack with
    | nil => rfl
    | cons it stack =>
      obtain ⟨hit, hrest⟩ := forall_mem_cons.mp hok
      rw [walkStack]
      cases it with
      | inl p =>
        -- the symbol's children go on top of the rest of the stack
        obtain ⟨hc, hall⟩ := hkids p hit
        have hpre := preorder_sym hd (hin _ hit)
        rw [flatMap_cons, hpre, cons_append, ← flatMap_append] at hfuel ⊢
        rw [mapM_cons]
        simp only [hc, ok_bind]
        rw [ih (childItems d (some (u32 p.2)) ++ stack)
          (fun it h => (mem_append.mp h).elim (hall it) (hrest it)) (Nat.le_of_succ_le_succ hfuel)]
      | inr p =>
        rw [flatMap_cons, preorder_tok, singleton_append] at hfuel ⊢
        rw [mapM_cons]
        simp only [pure_eq_ok, ok_bind, nil_append]
        rw [ih stack hrest (Nat.le_of_succ_le_succ hfuel)]

end Loop

theorem sum_zipIdx_filter {α : Type} (l : List α) (q : α → Bool) (g : Nat → Nat) :
    ((l.zipIdx.filter (fun p => q p.1)).map (fun p => g p.2)).sum =
      ∑ c ∈ Finset.range l.length, if l[c]?.any q then g c else 0 := by
  induction l using reverseRecOn with
  | nil => rfl
  | append_singleton l a ih =>
    rw [zipIdx_append, filter_append, map_append, sum_append, ih,
      length_append, length_singleton, Finset.sum_range_succ]
    congr 1
    · refine Finset.sum_congr rfl fun c hc => ?_
      rw [getElem?_append_left (Finset.mem_range.mp hc)]
    · cases hq : q a <;> simp [hq]

def symUp (d : Stream) (c : Nat) : Option Nat := d.symbols[c]?.bind (fun s => s.parent.map Fin.val)

def tokUp (d : Stream) (o : Nat) : Option Nat := d.tokens[o]?.bind (fun t => t.parent.map Fin.val)

def weight (d : Stream) (c : Nat) : Nat := d.symbols[c]?.elim 0
    (fun s => (preorder d (.inl (s, c))).length)

theorem length_flatMap_childItems (d : Stream) (par : Option U32) :
    ((childItems d par).flatMap (preorder d)).length =
      (∑ c ∈ Finset.range d.symbols.length, if symUp d c = par.map Fin.val then weight d c else 0) +
        ∑ o ∈ Finset.range d.tokens.length, if tokUp d o = par.map Fin.val then 1 else 0 := by
  have hinj : ∀ p : Option U32, p.map Fin.val = par.map Fin.val ↔ p = par :=
    fun p => (Option.map_injective Fin.val_injective).eq_iff
  rw [length_flatMap, childItems, sum_interleave]
  congr 1
  · have hw : (kidsOf d par).map (fun p => (preorder d (.inl p)).length) =
        (kidsOf d par).map (fun p => weight d p.2) := by
      refine map_congr_left fun p hp => ?_
      simp [weight, (mem_kidsOf.mp hp).1]
    rw [hw, kidsOf, sum_zipIdx_filter d.symbols (fun s => s.parent = par)]
    refine Finset.sum_congr rfl fun c hc => ?_
    have hs := getElem?_eq_getElem (Finset.mem_range.mp hc)
    simp [symUp, hs, hinj]
  · simp only [preorder_tok, length_singleton]
    rw [toksOf, sum_zipIdx_filter d.tokens (fun t => t.parent = par) (fun _ => 1)]
    refine Finset.sum_congr rfl fun o ho => ?_
    have ht := getElem?_eq_getElem (Finset.mem_range.mp ho)
    simp [tokUp, ht, hinj]

section Size
variable {d : Stream} (hd : Decoded d)
include hd

theorem symUp_lt : ∀ j < d.symbols.length, ∀ p ∈ symUp d j, p < j := by
  intro j hj p hp
  have hs := getElem?_eq_getElem hj
  rw [symUp, hs, Option.bind_some, Option.mem_def, Option.map_eq_some_iff] at hp
  obtain ⟨q, hq, rfl⟩ := hp
  exact hd.laid.parents _ _ hs q hq

theorem weight_eq : ∀ j < d.symbols.length, weight d j = 1 +
    (∑ c ∈ Finset.range d.symbols.length, if symUp d c = some j then weight d c else 0) +
      ∑ o ∈ Finset.range d.tokens.length, if tokUp d o = some j then 1 else 0 := by
  intro j hj
  have hs := getElem?_eq_getElem hj
  rw [weight, hs, Option.elim_some,
    preorder_sym hd (show InStream d (.inl (d.symbols[j], j)) from hs), length_cons,
    length_flatMap_childItems, Option.map_some, u32_val hd hj]
  omega

theorem length_walk_file :
    ((childItems d none).flatMap (preorder d)).length ≤ d.symbols.length + d.tokens.length := by
  have h := roots_le (symUp_lt hd) (weight_eq hd)
  have hnone : ∀ p : Option Nat, parentBelow 0 p = decide (p = none) := by
    intro p
    cases p <;> simp [parentBelow]
  rw [length_flatMap_childItems]
  simpa [Lib.frontier, hnone] using h

theorem length_walk_sym {i : Nat} (hi : i < d.symbols.length) :
    ((childItems d (some (u32 i))).flatMap (preorder d)).length ≤ d.symbols.length +
    d.tokens.length := by
  have h := subtree_le (symUp_lt hd) (weight_eq hd) hi
  rw [weight_eq hd i hi] at h
  rw [length_flatMap_childItems, Option.map_some, u32_val hd hi]
  omega

end Size
end MemoryGraph
