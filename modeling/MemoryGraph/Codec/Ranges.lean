import MemoryGraph.Codec.Stream

/-! The token ranges: `computeRanges` finds the least and greatest token under a symbol and tells
whether they form an interval. -/

namespace MemoryGraph.Codec
open Finset
variable {i : Nat} {a : RangeAcc} {symbols : List SymRec} {cur : Option U32} {s : Finset Nat}
  {accs : List RangeAcc}

inductive Encloses (symbols : List SymRec) : Option U32 → Nat → Prop
  | here {i : U32} : i.val < symbols.length → Encloses symbols (some i) i.val
  | up {p : U32} {s : SymRec} {i : Nat} :
      symbols[p.val]? = some s → Encloses symbols s.parent i → Encloses symbols (some p) i

/-- The token ordinals transitively under symbol `i`. -/
def Stream.under (st : Stream) (i : Nat) : Set Nat :=
  {ord | ∃ t, st.tokens[ord]? = some t ∧ Encloses st.symbols t.parent i}

def EarlierParents (symbols : List SymRec) : Prop :=
  ∀ (i : Nat) (s : SymRec), symbols[i]? = some s → ∀ p ∈ s.parent, p.val < i

instance (symbols : List SymRec) : Decidable (EarlierParents symbols) :=
  decidable_of_iff (∀ p ∈ symbols.zipIdx, p.1.parent.all (fun q => q.val < p.2) = true)
    ⟨fun h i s hs q hq => of_decide_eq_true
        ((Option.all_eq_true _ _).mp (h (s, i) (List.mem_zipIdx_iff_getElem?.mpr hs)) q hq),
      fun h p hp => (Option.all_eq_true _ _).mpr fun q hq =>
        decide_eq_true (h p.2 p.1 (List.mem_zipIdx_iff_getElem?.mp hp) q hq)⟩

theorem encloses_le (h : EarlierParents symbols)
    (he : Encloses symbols cur i) : ∀ p ∈ cur, i ≤ p.val := by
  induction he with
  | here _ =>
    rintro p ⟨⟩
    exact le_rfl
  | @up _ s _ hs he ih =>
    rintro p ⟨⟩
    cases hq : s.parent with
    | none => rw [hq] at he; cases he
    | some q => exact (ih q hq).trans (h _ _ hs q hq).le

def chain (symbols : List SymRec) : Nat → Option U32 → List Nat
  | 0, _ => []
  | _ + 1, none => []
  | n + 1, some i =>
    match symbols[i.val]? with
    | none => []
    | some sym => i.val :: chain symbols n sym.parent

theorem ascend_eq_foldl (symbols : List SymRec) (ord : U32) (n : Nat) (cur : Option U32)
    (accs : List RangeAcc) :
    ascend symbols ord n cur accs =
      (chain symbols n cur).foldl (fun accs i => accs.modify i (RangeAcc.touch ord)) accs := by
  induction n generalizing cur accs with
  | zero => rfl
  | succ n ih =>
    cases cur with
    | none => rfl
    | some i =>
      rw [ascend, chain]
      cases symbols[i.val]? with
      | none => rfl
      | some sym => exact ih _ _

theorem mem_chain (h : EarlierParents symbols) {n : Nat}
    (hn : ∀ p ∈ cur, p.val < symbols.length → p.val < n) :
    i ∈ chain symbols n cur ↔ Encloses symbols cur i := by
  induction n generalizing cur with
  | zero =>
    refine ⟨fun hi => absurd hi (by simp [chain]), fun he => ?_⟩
    cases he with
    | here hi => exact absurd (hn _ rfl hi) (by omega)
    | up hs _ => exact absurd (hn _ rfl (List.getElem?_eq_some_iff.mp hs).1) (by omega)
  | succ n ih =>
    cases cur with
    | none => exact ⟨fun hi => absurd hi (by simp [chain]), fun he => by cases he⟩
    | some p =>
      rw [chain]
      cases hs : symbols[p.val]? with
      | none =>
        have hlen := List.getElem?_eq_none_iff.mp hs
        refine ⟨fun hi => absurd hi (by simp), fun he => ?_⟩
        cases he with
        | here hi => omega
        | up hs' _ => rw [hs] at hs'; cases hs'
      | some s =>
        have hp := (List.getElem?_eq_some_iff.mp hs).1
        have hrec : i ∈ chain symbols n s.parent ↔ Encloses symbols s.parent i :=
          ih fun q hq _ => by
          have := h _ _ hs q hq
          have := hn p rfl hp
          omega
        simp only [List.mem_cons, hrec]
        constructor
        · rintro (rfl | he)
          · exact .here hp
          · exact .up hs he
        · rintro (_ | ⟨hs', he⟩)
          · exact Or.inl rfl
          · rw [hs] at hs'
            cases hs'
            exact Or.inr he

theorem nodup_chain (h : EarlierParents symbols) {n : Nat}
    (hn : ∀ p ∈ cur, p.val < symbols.length → p.val < n) : (chain symbols n cur).Nodup := by
  induction n generalizing cur with
  | zero => exact List.nodup_nil
  | succ n ih =>
    cases cur with
    | none => exact List.nodup_nil
    | some p =>
      rw [chain]
      cases hs : symbols[p.val]? with
      | none => exact List.nodup_nil
      | some s =>
        have hn' : ∀ q ∈ s.parent, q.val < symbols.length → q.val < n := fun q hq _ => by
          have := h _ _ hs q hq
          have := hn p rfl (List.getElem?_eq_some_iff.mp hs).1
          omega
        refine List.nodup_cons.mpr ⟨fun hmem => ?_, ih hn'⟩
        have he := (mem_chain h hn').mp hmem
        cases hq : s.parent with
        | none => rw [hq] at he; cases he
        | some q =>
          have h1 := encloses_le h he q hq
          have h2 := h _ _ hs q hq
          omega

theorem getElem?_foldl_modify {α : Type} (f : α → α) (is : List Nat) (hnd : is.Nodup) (l : List α)
    (j : Nat) :
    (is.foldl (fun l i => l.modify i f) l)[j]? = if j ∈ is then l[j]?.map f else l[j]? := by
  induction is generalizing l with
  | nil => simp
  | cons i is ih =>
    obtain ⟨hi, hnd⟩ := List.nodup_cons.mp hnd
    rw [List.foldl_cons, ih hnd, List.getElem?_modify]
    by_cases hj : i = j
    · subst hj
      simp [hi]
    · simp [hj, Ne.symm hj]

structure RangeAcc.Counts (a : RangeAcc) (s : Finset Nat) : Prop where
  count : a.count = s.card
  range : (a.first = none ∧ a.last = none ∧ s = ∅) ∨ ∃ f l, a.first = some f ∧ a.last = some l ∧
    IsLeast (s : Set Nat) f.val ∧ IsGreatest (s : Set Nat) l.val

theorem RangeAcc.counts_touch {ord : Nat} (h : a.Counts s)
    (hs : ∀ o ∈ s, o < ord) (hord : ord < 4294967296) :
    (a.touch (u32 ord)).Counts (insert ord s) := by
  have hval : (u32 ord).val = ord := Nat.mod_eq_of_lt hord
  refine ⟨?_, Or.inr ?_⟩
  · rw [card_insert_of_notMem (fun hm => lt_irrefl _ (hs ord hm)), ← h.count]
    rfl
  · rcases h.range with ⟨hf, hl, rfl⟩ | ⟨f, l, hf, hl, hleast, hgreat⟩
    · refine ⟨u32 ord, u32 ord, by simp [touch, hf], by simp [touch, hl], ?_, ?_⟩
      all_goals simp [hval, IsLeast, IsGreatest, lowerBounds, upperBounds]
    · have hfo : f ≤ u32 ord := Fin.le_def.mpr (by have := hs _ hleast.1; omega)
      have hlo : l ≤ u32 ord := Fin.le_def.mpr (by have := hs _ hgreat.1; omega)
      refine ⟨f, u32 ord, by simp [touch, hf, hfo], by simp [touch, hl, hlo], ?_, ?_⟩
      · rw [coe_insert]
        refine ⟨Set.mem_insert_of_mem _ hleast.1, fun o ho => ?_⟩
        rcases Set.mem_insert_iff.mp ho with rfl | ho
        · exact (hs _ hleast.1).le
        · exact hleast.2 ho
      · rw [coe_insert, hval]
        refine ⟨Set.mem_insert _ _, fun o ho => ?_⟩
        rcases Set.mem_insert_iff.mp ho with rfl | ho
        · exact le_rfl
        · exact (hs o ho).le

/-- `r` is the range of `s`: its least and greatest element, none when it is empty. -/
def IsRange (s : Set Nat) : Option (U32 × U32) → Prop
  | none => s = ∅
  | some (f, l) => IsLeast s f.val ∧ IsGreatest s l.val

def Contiguous (s : Set Nat) : Prop := s = ∅ ∨ ∃ a b, s = Set.Icc a b

theorem RangeAcc.Counts.isRange (h : a.Counts s) :
    IsRange s a.range := by
  rcases h.range with ⟨hf, hl, rfl⟩ | ⟨f, l, hf, hl, hr⟩
  · simp [RangeAcc.range, hf, IsRange]
  · rw [RangeAcc.range, hf, hl]
    exact hr

theorem RangeAcc.Counts.dense_iff (h : a.Counts s) :
    a.dense = true ↔ Contiguous (s : Set Nat) := by
  rcases h.range with ⟨hf, hl, rfl⟩ | ⟨f, l, hf, hl, hleast, hgreat⟩
  · simp [RangeAcc.dense, RangeAcc.range, hf, Contiguous]
  · have hfl : f.val ≤ l.val := hleast.2 hgreat.1
    have hsub : s ⊆ Finset.Icc f.val l.val := fun o ho => mem_Icc.mpr ⟨hleast.2 ho, hgreat.2 ho⟩
    simp only [RangeAcc.dense, RangeAcc.range, hf, hl, decide_eq_true_eq, h.count]
    constructor
    · intro hc
      have hcard : (Finset.Icc f.val l.val).card ≤ s.card := by
        rw [Nat.card_Icc]
        omega
      refine Or.inr ⟨f.val, l.val, ?_⟩
      rw [eq_of_subset_of_card_le hsub hcard, coe_Icc]
    · rintro (he | ⟨x, y, he⟩)
      · exact absurd hleast.1 (by rw [he]; exact Set.notMem_empty _)
      · have hxy : x ≤ y := by
          have := hleast.1
          rw [he] at this
          exact this.1.trans this.2
        rw [he] at hleast hgreat
        have hfx : f.val = x := hleast.unique (isLeast_Icc hxy)
        have hly : l.val = y := hgreat.unique (isGreatest_Icc hxy)
        have hs : s = Finset.Icc x y := by
          apply coe_injective
          rw [he, coe_Icc]
        rw [hs, Nat.card_Icc]
        omega

section Loop
open Classical

noncomputable def Stream.underBelow (st : Stream) (i k : Nat) : Finset Nat :=
  (Finset.range k).filter (· ∈ st.under i)

theorem Stream.underBelow_succ (st : Stream) (i k : Nat) : st.underBelow i (k + 1) =
    if k ∈ st.under i then insert k (st.underBelow i k) else st.underBelow i k := by
  rw [underBelow, range_add_one, filter_insert]
  rfl

theorem Stream.coe_underBelow (st : Stream) (i : Nat) :
    (st.underBelow i st.tokens.length : Set Nat) = st.under i := by
  ext o
  simp only [underBelow, coe_filter, mem_range, Set.mem_ofPred_eq, and_iff_right_iff_imp]
  rintro ⟨t, ht, -⟩
  exact (List.getElem?_eq_some_iff.mp ht).1

theorem ascend_counts {st : Stream} (hp : EarlierParents st.symbols) {k : Nat} {t : TokRec}
    (ht : st.tokens[k]? = some t) (hk : k < 4294967296)
    (ha : accs[i]? = some a) (hc : a.Counts (st.underBelow i k)) :
    ∃ b, (ascend st.symbols (u32 k) st.symbols.length t.parent accs)[i]? = some b ∧
      b.Counts (st.underBelow i (k + 1)) := by
  have hn : ∀ p ∈ t.parent, p.val < st.symbols.length → p.val < st.symbols.length := fun _ _ h => h
  have hiff : i ∈ chain st.symbols st.symbols.length t.parent ↔ k ∈ st.under i := by
    rw [mem_chain hp hn]
    exact ⟨fun h => ⟨t, ht, h⟩, fun ⟨u, hu, h⟩ => by rw [ht] at hu; cases hu; exact h⟩
  rw [ascend_eq_foldl, getElem?_foldl_modify _ _ (nodup_chain hp hn), Stream.underBelow_succ]
  by_cases hmem : k ∈ st.under i
  · rw [if_pos (hiff.mpr hmem), if_pos hmem, ha]
    exact ⟨_, rfl, RangeAcc.counts_touch hc (fun o ho => by
      simpa using (mem_filter.mp ho).1) hk⟩
  · rw [if_neg (fun h => hmem (hiff.mp h)), if_neg hmem, ha]
    exact ⟨a, rfl, hc⟩

theorem rangeAccs_counts {st : Stream} (hp : EarlierParents st.symbols)
    (hlen : st.tokens.length < 4294967296) (ts : List TokRec) :
    ∀ (k : Nat), st.tokens.drop k = ts → ∀ (accs : List RangeAcc) (i : Nat) (a : RangeAcc),
      accs[i]? = some a → k ≤ st.tokens.length → a.Counts (st.underBelow i k) →
      ∃ b, (rangeAccs st.symbols k ts accs)[i]? = some b ∧
        b.Counts (st.underBelow i st.tokens.length) := by
  -- by induction on the tokens left; the accumulators count the ordinals before `k`
  induction ts with
  | nil =>
    intro k hk accs i a ha hle hc
    have : k = st.tokens.length := le_antisymm hle (List.drop_eq_nil_iff.mp hk)
    exact ⟨a, ha, this ▸ hc⟩
  | cons t ts ih =>
    intro k hk accs i a ha hle hc
    have ht : st.tokens[k]? = some t := by
      rw [← List.head?_drop, hk]
      rfl
    have hlt := (List.getElem?_eq_some_iff.mp ht).1
    obtain ⟨b, hb, hcb⟩ := ascend_counts hp ht (by omega) ha hc
    refine ih (k + 1) ?_ _ i b hb hlt hcb
    rw [← List.tail_drop, hk, List.tail_cons]

theorem length_ascend (symbols : List SymRec) (ord : U32) (n : Nat) (cur : Option U32)
    (accs : List RangeAcc) : (ascend symbols ord n cur accs).length = accs.length := by
  induction n generalizing cur accs with
  | zero => rfl
  | succ n ih =>
    cases cur with
    | none => rfl
    | some i =>
      rw [ascend]
      cases symbols[i.val]? with
      | none => rfl
      | some sym => simpa using ih sym.parent (accs.modify i.val (RangeAcc.touch ord))

theorem length_rangeAccs (symbols : List SymRec) (k : Nat) (ts : List TokRec)
    (accs : List RangeAcc) : (rangeAccs symbols k ts accs).length = accs.length := by
  induction ts generalizing k accs with
  | nil => rfl
  | cons t ts ih => rw [rangeAccs, ih, length_ascend]

end Loop

theorem length_computeRanges (symbols : List SymRec) (tokens : List TokRec) :
    (computeRanges symbols tokens).1.length = symbols.length := by
  simp [computeRanges, length_rangeAccs]

def RangeAcc.Ordered (a : RangeAcc) : Prop := ∀ p ∈ a.range, p.1 ≤ p.2

theorem RangeAcc.ordered_touch (ord : U32) (a : RangeAcc) : (a.touch ord).Ordered := by
  intro p hp
  have hrange : (a.touch ord).range = some (_, _) := rfl
  obtain rfl := Option.mem_unique hrange hp
  refine le_trans (b := ord) ?_ ?_
  · dsimp only
    cases a.first with
    | none => exact le_rfl
    | some f => exact min_le_right f ord
  · dsimp only
    cases a.last with
    | none => exact le_rfl
    | some l => exact le_max_right l ord

theorem ascend_ordered (symbols : List SymRec) (ord : U32) (n : Nat) (cur : Option U32)
    (h : ∀ a ∈ accs, a.Ordered) :
    ∀ a ∈ ascend symbols ord n cur accs, a.Ordered := by
  induction n generalizing cur accs with
  | zero => exact h
  | succ n ih =>
    cases cur with
    | none => exact h
    | some i =>
      rw [ascend]
      cases symbols[i.val]? with
      | none => exact h
      | some sym =>
        refine ih sym.parent fun a ha => ?_
        obtain ⟨j, hj⟩ := List.mem_iff_getElem?.mp ha
        rw [List.getElem?_modify] at hj
        split_ifs at hj
        · obtain ⟨b, -, rfl⟩ := Option.map_eq_some_iff.mp hj
          exact RangeAcc.ordered_touch ord b
        · exact h a (List.mem_of_getElem? (by simpa using hj))

theorem rangeAccs_ordered (symbols : List SymRec) (k : Nat) (ts : List TokRec)
    (h : ∀ a ∈ accs, a.Ordered) : ∀ a ∈ rangeAccs symbols k ts accs, a.Ordered := by
  induction ts generalizing k accs with
  | nil => exact h
  | cons t ts ih => exact ih (k + 1) (ascend_ordered symbols _ _ _ h)

theorem computeRanges_le (symbols : List SymRec) (tokens : List TokRec) :
    ∀ r ∈ (computeRanges symbols tokens).1, ∀ p ∈ r, p.1 ≤ p.2 := by
  intro r hr
  obtain ⟨a, ha, rfl⟩ := List.mem_map.mp hr
  refine rangeAccs_ordered symbols 0 tokens (fun b hb => ?_) a ha
  rw [List.eq_of_mem_replicate hb]
  intro p hp
  cases hp

variable {st : Stream} (hp : EarlierParents st.symbols) (hlen : st.tokens.length < 4294967296)
include hp hlen

theorem accs_counts (hi : i < st.symbols.length) :
    ∃ a, (rangeAccs st.symbols 0 st.tokens
        (List.replicate st.symbols.length ⟨none, none, 0⟩))[i]? = some a ∧
      a.Counts (st.underBelow i st.tokens.length) := by
  refine rangeAccs_counts hp hlen st.tokens 0 rfl _ i ⟨none, none, 0⟩ ?_ (Nat.zero_le _) ?_
  · simp [hi]
  · exact ⟨by simp [Stream.underBelow], Or.inl ⟨rfl, rfl, by simp [Stream.underBelow]⟩⟩

theorem computeRanges_isRange (hi : i < st.symbols.length) :
    ∃ r, (computeRanges st.symbols st.tokens).1[i]? = some r ∧ IsRange (st.under i) r := by
  obtain ⟨a, ha, hc⟩ := accs_counts hp hlen hi
  refine ⟨a.range, by simp [computeRanges, ha], ?_⟩
  rw [← st.coe_underBelow i]
  exact hc.isRange

theorem computeRanges_dense : (computeRanges st.symbols st.tokens).2 = true ↔
    ∀ i < st.symbols.length, Contiguous (st.under i) := by
  have key : ∀ i (hi : i < st.symbols.length) a, (rangeAccs st.symbols 0 st.tokens
      (List.replicate st.symbols.length ⟨none, none, 0⟩))[i]? = some a →
      (a.dense = true ↔ Contiguous (st.under i)) := by
    intro i hi a ha
    obtain ⟨b, hb, hc⟩ := accs_counts hp hlen hi
    rw [hb] at ha
    cases ha
    rw [hc.dense_iff, st.coe_underBelow i]
  have hl := length_rangeAccs st.symbols 0 st.tokens
    (List.replicate st.symbols.length ⟨none, none, 0⟩)
  rw [List.length_replicate] at hl
  rw [computeRanges, List.all_eq_true]
  constructor
  · intro h i hi
    obtain ⟨a, ha, -⟩ := accs_counts hp hlen hi
    exact (key i hi a ha).mp (h a (List.mem_of_getElem? ha))
  · intro h a ha
    obtain ⟨i, hi⟩ := List.mem_iff_getElem?.mp ha
    have hlt := (List.getElem?_eq_some_iff.mp hi).1
    exact (key i (by omega) a hi).mpr (h i (by omega))

end MemoryGraph.Codec
