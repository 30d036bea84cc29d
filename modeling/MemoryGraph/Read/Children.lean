import MemoryGraph.Read.Traverse
import MemoryGraph.Prep.Laid
import MemoryGraph.Codec.Access

/-! Both the eager tree and the gaps between the stored ranges list exactly the items with that
parent, in source order. -/

namespace MemoryGraph
open Lib Codec List
variable {i : Nat} {last : Nat} {rs : List (U32 × U32)} {par : Option U32} {p : TokRec × Nat}

def kidsOf (d : Stream) (par : Option U32) : List (SymRec × Nat) :=
  d.symbols.zipIdx.filter (fun p => p.1.parent = par)

def toksOf (d : Stream) (par : Option U32) : List (TokRec × Nat) :=
  d.tokens.zipIdx.filter (fun p => p.1.parent = par)

def childItems (d : Stream) (par : Option U32) : List Item :=
  interleave symFirst (kidsOf d par) (toksOf d par)

theorem mem_kidsOf {d : Stream} {p : SymRec × Nat} :
    p ∈ kidsOf d par ↔ d.symbols[p.2]? = some p.1 ∧ p.1.parent = par := by
  rw [kidsOf, mem_filter, mem_zipIdx_iff_getElem?, decide_eq_true_eq]

theorem mem_toksOf {d : Stream} :
    p ∈ toksOf d par ↔ d.tokens[p.2]? = some p.1 ∧ p.1.parent = par := by
  rw [toksOf, mem_filter, mem_zipIdx_iff_getElem?, decide_eq_true_eq]

theorem zipIdx_pairwise_snd {α : Type} (l : List α) : l.zipIdx.Pairwise (fun a b => a.2 < b.2) := by
  have h : (l.zipIdx.map Prod.snd).Pairwise (· < ·) := by
    rw [zipIdx_map_snd]
    exact pairwise_lt_range'
  exact pairwise_map.mp h

theorem zipIdx_pairwise_fst {α : Type} {r : α → α → Prop} {l : List α} (h : l.Pairwise r) :
    l.zipIdx.Pairwise (fun a b => r a.1 b.1) := by
  have h' : (l.zipIdx.map Prod.fst).Pairwise r := by rwa [zipIdx_map_fst]
  exact pairwise_map.mp h'

theorem foldl_push_top (items : List Item) (t : Tree) :
    (items.foldl Tree.push t).top = t.top ++ items.filter (fun it => itemParent it = none) := by
  induction items generalizing t with
  | nil => simp
  | cons it items ih =>
    rw [foldl_cons, ih, filter_cons, Tree.push]
    cases h : itemParent it with
    | none => simp
    | some p => simp

theorem foldl_push_kids (items : List Item) (t : Tree) (hi : i < 4294967296) :
    (items.foldl Tree.push t).kids[i]? =
      t.kids[i]?.map (fun ks => ks ++ items.filter (fun it => itemParent it = some (u32 i))) := by
  have hval : (u32 i).val = i := Nat.mod_eq_of_lt hi
  induction items generalizing t with
  | nil => simp
  | cons it items ih =>
    rw [foldl_cons, ih, filter_cons, Tree.push]
    cases h : itemParent it with
    | none => simp
    | some p =>
      by_cases hp : p = u32 i
      · subst hp
        simp [hval, Function.comp_def]
      · have hne : p.val ≠ i := fun e => hp (Fin.ext (e.trans hval.symm))
        simp [hne, hp]

section Laid
variable {d : Stream} (hd : d.Laid)
include hd

theorem filter_streamItems (par : Option U32) :
    (streamItems d).filter (fun it => itemParent it = par) = childItems d par :=
  filter_interleave (fun s : SymRec × Nat => s.1.span.start) (fun t : TokRec × Nat =>
    t.1.span.start)
    _ _ _ (zipIdx_pairwise_fst hd.symStarts) (zipIdx_pairwise_fst hd.tokStarts)

theorem streamTree_top : (streamTree d).top = childItems d none := by
  rw [streamTree, foldl_push_top, nil_append, filter_streamItems hd]

theorem streamTree_kids (hi : i < d.symbols.length) (hn : d.symbols.length ≤ 4294967296) :
    (streamTree d).kids[i]? = some (childItems d (some (u32 i))) := by
  rw [streamTree, foldl_push_kids _ _ (by omega), filter_streamItems hd]
  simp [hi]

omit hd in
theorem encloses_kid {cur : Option U32} {i : U32} (h : Encloses d.symbols cur i.val) :
    cur = some i ∨ ∃ p ∈ kidsOf d (some i), Encloses d.symbols cur p.2 := by
  generalize hj : i.val = j at h
  induction h with
  | @here k hk => exact Or.inl (by rw [Fin.ext hj])
  | @up p s j hs he ih =>
    have hself : Encloses d.symbols (some p) p.val := .here (List.getElem?_eq_some_iff.mp hs).1
    rcases ih hj with hp | ⟨q, hq, he'⟩
    · exact Or.inr ⟨(s, p.val), mem_kidsOf.mpr ⟨hs, hp⟩, hself⟩
    · exact Or.inr ⟨q, hq, .up hs he'⟩

omit hd in
theorem encloses_parent {cur : Option U32} {s : SymRec} {p : U32} (hs : d.symbols[i]? = some s)
    (hpar : s.parent = some p) (hp : p.val < d.symbols.length) (h : Encloses d.symbols cur i) :
    Encloses d.symbols cur p.val := by
  induction h with
  | here _ => exact .up hs (hpar ▸ .here hp)
  | up hs' _ ih => exact .up hs' (ih hs)

theorem encloses_top (k : Nat) : ∀ p : U32, p.val < k → p.val < d.symbols.length →
    ∃ q ∈ kidsOf d none, Encloses d.symbols (some p) q.2 := by
  induction k with
  | zero => exact fun p hp => absurd hp (Nat.not_lt_zero _)
  | succ k ih =>
    intro p hk hp
    have hs := getElem?_eq_getElem hp
    cases hpar : d.symbols[p.val].parent with
    | none => exact ⟨(d.symbols[p.val], p.val), mem_kidsOf.mpr ⟨hs, hpar⟩, .here hp⟩
    | some r =>
      have hr := hd.parents _ _ hs r hpar
      obtain ⟨q, hq, he⟩ := ih r (by omega) (by omega)
      exact ⟨q, hq, .up hs (hpar ▸ he)⟩

theorem mem_toksOf_some {i : U32} : p ∈ toksOf d (some i) ↔
    d.tokens[p.2]? = some p.1 ∧ i.val < d.symbols.length ∧ Encloses d.symbols p.1.parent i.val ∧
      ∀ q ∈ kidsOf d (some i), ¬ Encloses d.symbols p.1.parent q.2 := by
  rw [mem_toksOf]
  refine and_congr_right fun hp => ⟨fun hpar => ?_, fun ⟨_, he, hno⟩ => ?_⟩
  · have hi := hd.tokParents _ (mem_of_getElem? hp) i hpar
    refine ⟨hi, hpar ▸ .here hi, fun q hq he => ?_⟩
    obtain ⟨hs, hq'⟩ := mem_kidsOf.mp hq
    have h1 := encloses_le hd.parents he i hpar
    have h2 := hd.parents _ _ hs i hq'
    omega
  · exact (encloses_kid he).resolve_right fun ⟨q, hq, he'⟩ => hno q hq he'

theorem mem_toksOf_none : p ∈ toksOf d none ↔
    d.tokens[p.2]? = some p.1 ∧ ∀ q ∈ kidsOf d none, ¬ Encloses d.symbols p.1.parent q.2 := by
  rw [mem_toksOf]
  refine and_congr_right fun hp => ⟨fun hpar q _ he => ?_, fun hno => ?_⟩
  · rw [hpar] at he
    cases he
  · cases hpar : p.1.parent with
    | none => rfl
    | some r =>
      have hr := hd.tokParents _ (mem_of_getElem? hp) r hpar
      obtain ⟨q, hq, he⟩ := encloses_top hd (r.val + 1) r (Nat.lt_succ_self _) hr
      exact absurd (hpar ▸ he) (hno q hq)

end Laid

/-- The ranges ascend, are disjoint and lie in `cur..=last`. -/
def RangesFit (last : Nat) : Nat → List (U32 × U32) → Prop
  | _, [] => True
  | cur, (cf, cl) :: rest =>
      cur ≤ cf.val ∧ cf.val ≤ cl.val ∧ cl.val ≤ last ∧ RangesFit last (cl.val + 1) rest

theorem rangesFit_of_pairwise {cur : Nat}
    (hs : rs.Pairwise (fun a b => a.2.val < b.1.val))
    (hall : ∀ r ∈ rs, cur ≤ r.1.val ∧ r.1.val ≤ r.2.val ∧ r.2.val ≤ last) :
    RangesFit last cur rs := by
  induction rs generalizing cur with
  | nil => trivial
  | cons r rs ih =>
    obtain ⟨hlt, hs⟩ := pairwise_cons.mp hs
    obtain ⟨h1, h2, h3⟩ := hall r mem_cons_self
    refine ⟨h1, h2, h3, ih hs fun r' hr' => ?_⟩
    obtain ⟨-, h5, h6⟩ := hall r' (.tail _ hr')
    exact ⟨hlt r' hr', h5, h6⟩

theorem RangesFit.le {cur : Nat} (h : RangesFit last cur rs) :
    ∀ r ∈ rs, cur ≤ r.1.val := by
  induction rs generalizing cur with
  | nil => exact fun r hr => absurd hr not_mem_nil
  | cons a rs ih =>
    obtain ⟨h1, h2, -, h4⟩ := h
    intro r hr
    rcases mem_cons.mp hr with rfl | hr
    · exact h1
    · exact (h1.trans (h2.trans (Nat.le_succ _))).trans (ih h4 r hr)

theorem mem_rangeGapsGo {cur ord : Nat} (h : RangesFit last cur rs) :
    ord ∈ rangeGapsGo last cur rs ↔
      cur ≤ ord ∧ ord ≤ last ∧ ∀ r ∈ rs, ¬ (r.1.val ≤ ord ∧ ord ≤ r.2.val) := by
  induction rs generalizing cur with
  | nil =>
    rw [rangeGapsGo]
    split_ifs with hle
    · simp only [mem_range'_1, not_mem_nil, false_imp_iff, implies_true, and_true]
      omega
    · simp only [not_mem_nil, false_iff]
      omega
  | cons r rs ih =>
    obtain ⟨h1, h2, h3, h4⟩ := h
    rw [rangeGapsGo, mem_append, ih h4, forall_mem_cons]
    have hgap : ord ∈ (if cur < r.1.val then range' cur (r.1.val - cur) else []) ↔
        cur ≤ ord ∧ ord < r.1.val := by
      split_ifs with hlt
      · rw [mem_range'_1]
        omega
      · simp only [not_mem_nil, false_iff]
        omega
    rw [hgap]
    -- later ranges start behind this one
    have hrest : ord < r.1.val → ∀ r' ∈ rs, ¬ (r'.1.val ≤ ord ∧ ord ≤ r'.2.val) := by
      intro hlt r' hr' hc
      have := h4.le r' hr'
      omega
    constructor
    · rintro (⟨h5, h6⟩ | ⟨h5, h6, h7⟩)
      · exact ⟨h5, by omega, by omega, hrest h6⟩
      · exact ⟨by omega, h6, by omega, h7⟩
    · rintro ⟨h5, h6, h7, h8⟩
      rcases Nat.lt_or_ge ord r.1.val with hlt | hge
      · exact Or.inl ⟨h5, hlt⟩
      · exact Or.inr ⟨by omega, h6, h8⟩

theorem sorted_rangeGapsGo {cur : Nat} (h : RangesFit last cur rs) :
    (rangeGapsGo last cur rs).Pairwise (· < ·) := by
  induction rs generalizing cur with
  | nil =>
    rw [rangeGapsGo]
    split_ifs
    · exact pairwise_lt_range'
    · exact List.Pairwise.nil
  | cons r rs ih =>
    obtain ⟨h1, h2, h3, h4⟩ := h
    rw [rangeGapsGo, pairwise_append]
    refine ⟨?_, ih h4, fun a ha b hb => ?_⟩
    · split_ifs
      · exact pairwise_lt_range'
      · exact List.Pairwise.nil
    · have hb' := (mem_rangeGapsGo h4).mp hb
      split_ifs at ha
      · rw [mem_range'_1] at ha
        omega
      · simp at ha

structure Decoded (d : Stream) : Prop where
  laid : d.Laid
  ranges : ∀ (i : Nat) (s : SymRec), d.symbols[i]? = some s → IsRange (d.under i) s.toks
  nsym : d.symbols.length ≤ 4294967296
  ntok : d.tokens.length < 4294967296

section Decoded
variable {d : Stream} (hd : Decoded d)
include hd

theorem mem_range_iff {s : SymRec} (hs : d.symbols[i]? = some s) {r : U32 × U32}
    (hr : s.toks = some r) (ord : Nat) : (r.1.val ≤ ord ∧ ord ≤ r.2.val) ↔ ord ∈ d.under i := by
  obtain ⟨lo, hi, hb, -⟩ := hd.laid.intervals
  obtain ⟨-, -, hmem⟩ := hb i (List.getElem?_eq_some_iff.mp hs).1
  have hrange := hd.ranges i s hs
  rw [hr] at hrange
  obtain ⟨hleast, hgreat⟩ : IsLeast (d.under i) r.1.val ∧ IsGreatest (d.under i) r.2.val := hrange
  refine ⟨fun ⟨h1, h2⟩ => ?_, fun h => ⟨hleast.2 h, hgreat.2 h⟩⟩
  have h3 := (hmem _).mp hleast.1
  have h4 := (hmem _).mp hgreat.1
  exact (hmem ord).mpr ⟨by omega, by omega⟩

theorem kidRanges_pairwise (par : Option U32) :
    ((kidsOf d par).filterMap (fun p => p.1.toks)).Pairwise (fun a b => a.2.val < b.1.val) := by
  obtain ⟨lo, hi, hb, hsib⟩ := hd.laid.intervals
  rw [pairwise_filterMap]
  refine ((zipIdx_pairwise_snd d.symbols).filter _).imp_of_mem fun {p q} hp hq hlt a ha b hb' => ?_
  obtain ⟨hsp, hpp⟩ := mem_kidsOf.mp hp
  obtain ⟨hsq, hqp⟩ := mem_kidsOf.mp hq
  have h1 := hsib p.2 q.2 p.1 q.1 hlt hsp hsq (hpp.trans hqp.symm)
  have hra := hd.ranges _ _ hsp
  have hrb := hd.ranges _ _ hsq
  rw [ha] at hra
  rw [hb'] at hrb
  have h2 := ((hb p.2 (List.getElem?_eq_some_iff.mp hsp).1).2.2 _).mp hra.2.1
  have h3 := ((hb q.2 (List.getElem?_eq_some_iff.mp hsq).1).2.2 _).mp hrb.1.1
  omega

theorem mem_kidGaps (par : Option U32) (first last : Nat)
    (hin : ∀ p ∈ kidsOf d par, ∀ ord ∈ d.under p.2, first ≤ ord ∧ ord ≤ last) :
    (rangeGaps first last ((kidsOf d par).filterMap (fun p => p.1.toks))).Pairwise (· < ·) ∧
      ∀ ord, ord ∈ rangeGaps first last ((kidsOf d par).filterMap (fun p => p.1.toks)) ↔
        first ≤ ord ∧ ord ≤ last ∧ ∀ p ∈ kidsOf d par, ord ∉ d.under p.2 := by
  have hfit : RangesFit last first ((kidsOf d par).filterMap (fun p => p.1.toks)) := by
    refine rangesFit_of_pairwise (kidRanges_pairwise hd par) fun r hr => ?_
    obtain ⟨p, hp, hpr⟩ := mem_filterMap.mp hr
    have hrange := hd.ranges _ _ (mem_kidsOf.mp hp).1
    rw [hpr] at hrange
    exact ⟨(hin p hp _ hrange.1.1).1, hrange.1.2 hrange.2.1, (hin p hp _ hrange.2.1).2⟩
  refine ⟨sorted_rangeGapsGo hfit, fun ord => ?_⟩
  rw [rangeGaps, mem_rangeGapsGo hfit]
  refine and_congr_right fun _ => and_congr_right fun _ =>
    ⟨fun h p hp hord => ?_, fun h r hr hc => ?_⟩
  · obtain ⟨hs, -⟩ := mem_kidsOf.mp hp
    cases ht : p.1.toks with
    | none =>
      have hrange := hd.ranges _ _ hs
      rw [ht] at hrange
      exact absurd hord (by rw [show d.under p.2 = ∅ from hrange]; exact Set.notMem_empty _)
    | some r =>
      exact h r (mem_filterMap.mpr ⟨p, hp, ht⟩) ((mem_range_iff hd hs ht ord).mpr hord)
  · obtain ⟨p, hp, hpr⟩ := mem_filterMap.mp hr
    exact h p hp ((mem_range_iff hd (mem_kidsOf.mp hp).1 hpr ord).mp hc)

omit hd in
theorem toksOf_snd_sorted (par : Option U32) : ((toksOf d par).map Prod.snd).Pairwise (· < ·) := by
  rw [pairwise_map]
  exact (zipIdx_pairwise_snd d.tokens).filter _

omit hd in
theorem mem_toksOf_snd {ord : Nat} : ord ∈ (toksOf d par).map Prod.snd ↔
    ∃ t, (t, ord) ∈ toksOf d par := by
  simp

theorem directTokenOrdinals_eq {i : U32} {s : SymRec} (hs : d.symbols[i.val]? = some s) :
    directTokenOrdinals s (kidsOf d (some i)) = (toksOf d (some i)).map Prod.snd := by
  have hi := lt_of_getElem? hs
  have hsub : ∀ p ∈ kidsOf d (some i), ∀ ord ∈ d.under p.2, ord ∈ d.under i.val := by
    rintro p hp ord ⟨t, ht, he⟩
    obtain ⟨hsp, hpar⟩ := mem_kidsOf.mp hp
    exact ⟨t, ht, encloses_parent hsp hpar hi he⟩
  have hrange := hd.ranges _ _ hs
  rw [directTokenOrdinals]
  cases ht : s.toks with
  | none =>
    rw [ht] at hrange
    refine (map_eq_nil_iff.mpr (eq_nil_iff_forall_not_mem.mpr fun p hp => ?_)).symm
    obtain ⟨hp', -, he, -⟩ := (mem_toksOf_some hd.laid).mp hp
    have : p.2 ∈ d.under i.val := ⟨p.1, hp', he⟩
    rw [show d.under i.val = ∅ from hrange] at this
    exact this
  | some r =>
    have hcov := mem_range_iff hd hs ht
    obtain ⟨hsorted, hmem⟩ := mem_kidGaps hd (some i) r.1.val r.2.val
      fun p hp ord hord => (hcov ord).mpr (hsub p hp ord hord)
    refine eq_of_sorted_of_mem hsorted (toksOf_snd_sorted _) fun ord => ?_
    rw [hmem, ← and_assoc, hcov, mem_toksOf_snd]
    constructor
    · rintro ⟨⟨t, ht', he⟩, hno⟩
      exact ⟨t, (mem_toksOf_some hd.laid).mpr ⟨ht', hi, he, fun q hq hq' => hno q hq ⟨t, ht', hq'⟩⟩⟩
    · rintro ⟨t, ht'⟩
      obtain ⟨h1, -, h3, h4⟩ := (mem_toksOf_some hd.laid).mp ht'
      refine ⟨⟨t, h1, h3⟩, fun q hq ⟨u, hu, he⟩ => ?_⟩
      rw [h1] at hu
      cases hu
      exact h4 q hq he

omit hd in
theorem topLevelIdxs_eq (d : Stream) : topLevelIdxs d.symbols = kidsOf d none := by
  rw [topLevelIdxs, kidsOf]
  refine filter_congr fun p _ => ?_
  cases p.1.parent <;> rfl

theorem topLevelOrdinals_eq :
    topLevelOrdinals (kidsOf d none) d.tokens.length = (toksOf d none).map Prod.snd := by
  rw [topLevelOrdinals]
  split_ifs with h0
  · rw [toksOf, eq_nil_of_length_eq_zero h0]
    rfl
  · have hn := hd.ntok
    have hlast : (u32 (d.tokens.length - 1)).val = d.tokens.length - 1 :=
      Nat.mod_eq_of_lt (by omega)
    obtain ⟨hsorted, hmem⟩ := mem_kidGaps hd none 0 (u32 (d.tokens.length - 1)).val
      (fun p _ ord ⟨t, ht, _⟩ => by
        have := lt_of_getElem? ht
        omega)
    refine eq_of_sorted_of_mem hsorted (toksOf_snd_sorted _) fun ord => ?_
    rw [hmem, mem_toksOf_snd]
    constructor
    · rintro ⟨-, hle, hno⟩
      have ht := getElem?_eq_getElem (show ord < d.tokens.length by omega)
      exact ⟨_, (mem_toksOf_none hd.laid).mpr ⟨ht, fun q hq he => hno q hq ⟨_, ht, he⟩⟩⟩
    · rintro ⟨t, ht⟩
      obtain ⟨h1, h2⟩ := (mem_toksOf_none hd.laid).mp ht
      have := lt_of_getElem? h1
      refine ⟨Nat.zero_le _, by omega, fun q hq ⟨u, hu, he⟩ => ?_⟩
      rw [h1] at hu
      cases hu
      exact h2 q hq he

end Decoded
end MemoryGraph
