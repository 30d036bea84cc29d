import MemoryGraph.Prep.Terms
import MemoryGraph.Lib.Sweep

/-! What `validate_spans` accepts. The check looks at the innermost open symbol only; over
the whole sweep that comes to a condition on every pair. -/

namespace MemoryGraph
open Lib Codec List

def Span.Inside (a b : Span) : Prop := b.start ≤ a.start ∧ a.stop ≤ b.stop

def Span.Apart (a b : Span) : Prop := a.stop ≤ b.start ∨ b.stop ≤ a.start

def Span.Nests (a b : Span) : Prop := a.Inside b ∨ b.Inside a ∨ a.Apart b

def Span.Contains (a : Span) (p : U32) : Prop := a.start ≤ p ∧ p < a.stop

instance (a : Span) (p : U32) : Decidable (a.Contains p) := inferInstanceAs (Decidable (_ ∧ _))

/-- No span is inverted, symbols are nested or disjoint, and a token that starts inside a
symbol ends inside it. -/
structure Extraction.WellNested (ex : Extraction) : Prop where
  symbols : ∀ s ∈ ex.symbols, s.span.start ≤ s.span.stop
  tokens : ∀ t ∈ ex.tokens, t.span.start ≤ t.span.stop
  nested : ∀ a ∈ ex.symbols, ∀ b ∈ ex.symbols, a.span.Nests b.span
  inside : ∀ s ∈ ex.symbols, ∀ t ∈ ex.tokens, s.span.Contains t.span.start →
    t.span.stop ≤ s.span.stop

def Span.Fits (it : Span) (stop : U32) : Prop := it.start < stop → it.stop ≤ stop

abbrev spanOf (it : Span ⊕ Span) : Span := it.elim id id

def symStop (it : Span ⊕ Span) : List U32 := it.elim (fun sp => [sp.stop]) (fun _ => [])

theorem checkSpan_eq_ok {opened opened' : List U32} {isSym : Bool} {sp : Span} :
    checkSpan opened isSym sp = .ok opened' ↔
      sp.start ≤ sp.stop ∧ (∀ e ∈ (close id sp.start opened).head?, sp.stop ≤ e) ∧
        opened' =
          if isSym then sp.stop :: close id sp.start opened else close id sp.start opened := by
  have hclose : opened.dropWhile (fun stop => decide (stop ≤ sp.start)) =
      close id sp.start opened := rfl
  rw [checkSpan, bind_eq_ok]
  simp only [hclose, failIf_eq_ok, not_lt]
  constructor
  · rintro ⟨-, hsp, h⟩
    refine ⟨hsp, ?_⟩
    cases hhead : (close id sp.start opened).head? with
    | none =>
      rw [hhead] at h
      exact ⟨by simp, (Except.ok.inj h).symm⟩
    | some stop =>
      rw [hhead] at h
      obtain ⟨u, hstop, h⟩ := bind_eq_ok.mp h
      refine ⟨fun e he => ?_, (Except.ok.inj h).symm⟩
      rw [← Option.some.inj he]
      exact not_lt.mp (failIf_eq_ok.mp hstop)
  · rintro ⟨hsp, hfit, rfl⟩
    refine ⟨(), hsp, ?_⟩
    cases hhead : (close id sp.start opened).head? with
    | none => rfl
    | some stop =>
      dsimp only
      rw [failIf_of_not (not_lt.mpr (hfit stop hhead))]
      rfl

theorem head_fits_iff {opened done : List U32} {pos : U32} (h : Tracks id opened done pos)
    {sp : Span} (hpos : pos ≤ sp.start) :
    (∀ e ∈ (close id sp.start opened).head?, sp.stop ≤ e) ↔ ∀ e ∈ done, sp.Fits e := by
  have hmem : ∀ e, e ∈ close id sp.start opened ↔ e ∈ done ∧ sp.start < e := by
    intro e
    rw [h.close_eq hpos, mem_filter, decide_eq_true_iff]
    rfl
  have hends := (h.closed hpos).ends
  constructor
  · intro hhead e he hlt
    have hin := (hmem e).mpr ⟨he, hlt⟩
    cases hc : close id sp.start opened with
    | nil => rw [hc] at hin; cases hin
    | cons x rest =>
      rw [hc] at hin hends hhead
      have hx := hhead x rfl
      rcases mem_cons.mp hin with rfl | hin
      · exact hx
      · exact hx.trans ((pairwise_cons.mp hends).1 e hin)
  · intro hfit e he
    obtain ⟨hd, hlt⟩ := (hmem e).mp (mem_of_mem_head? he)
    exact hfit e hd hlt

theorem checkItem_eq_ok {opened done : List U32} {pos : U32} (h : Tracks id opened done pos)
    {it : Span ⊕ Span} (hpos : pos ≤ (spanOf it).start) {opened' : List U32} :
    checkItem opened it = .ok opened' ↔
      (spanOf it).start ≤ (spanOf it).stop ∧ (∀ e ∈ done, (spanOf it).Fits e) ∧
        opened' = symStop it ++ close id (spanOf it).start opened := by
  rw [← head_fits_iff h hpos]
  cases it with
  | inl sp => rw [checkItem, checkSpan_eq_ok]; rfl
  | inr sp => rw [checkItem, checkSpan_eq_ok]; rfl

theorem foldlM_checkItem (its : List (Span ⊕ Span)) :
    ∀ {opened done : List U32} {pos : U32}, Tracks id opened done pos →
      (∀ it ∈ its, pos ≤ (spanOf it).start) →
      its.Pairwise (fun a b => (spanOf a).start ≤ (spanOf b).start) →
      ((∃ r, its.foldlM checkItem opened = .ok r) ↔
        (∀ it ∈ its, (spanOf it).start ≤ (spanOf it).stop) ∧
          (∀ it ∈ its, ∀ e ∈ done, (spanOf it).Fits e) ∧
          its.Pairwise (fun a b => ∀ e ∈ symStop a, (spanOf b).Fits e)) := by
  induction its with
  | nil =>
    intro opened done pos _ _ _
    exact ⟨fun _ => ⟨by simp, by simp, List.Pairwise.nil⟩, fun _ => ⟨opened, rfl⟩⟩
  | cons it its ih =>
    intro opened done pos h hpos hsort
    obtain ⟨hafter, hsort'⟩ := pairwise_cons.mp hsort
    have hit := hpos it mem_cons_self
    -- the stack after this item stands for the symbols so far
    have hnext : (∀ e ∈ done, (spanOf it).Fits e) →
        Tracks id (symStop it ++ close id (spanOf it).start opened) (symStop it ++ done)
        (spanOf it).start := by
      intro hfit
      cases it with
      | inl sp => exact h.push hit hfit
      | inr sp => exact h.closed hit
    constructor
    · rintro ⟨r, hr⟩
      rw [foldlM_cons] at hr
      obtain ⟨opened', hok, hrest⟩ := bind_eq_ok.mp hr
      obtain ⟨hsp, hfit, rfl⟩ := (checkItem_eq_ok h hit).mp hok
      obtain ⟨hsps, hdone, hpair⟩ := (ih (hnext hfit) hafter hsort').mp ⟨r, hrest⟩
      refine ⟨forall_mem_cons.mpr ⟨hsp, hsps⟩, forall_mem_cons.mpr ⟨hfit, fun x hx e he => ?_⟩,
        pairwise_cons.mpr ⟨fun x hx e he => ?_, hpair⟩⟩
      · exact hdone x hx e (mem_append_right _ he)
      · exact hdone x hx e (mem_append_left _ he)
    · rintro ⟨hsps, hdone, hpair⟩
      obtain ⟨hsp, hsps⟩ := forall_mem_cons.mp hsps
      obtain ⟨hfit, hdone⟩ := forall_mem_cons.mp hdone
      obtain ⟨hit', hpair⟩ := pairwise_cons.mp hpair
      obtain ⟨r, hr⟩ := (ih (hnext hfit) hafter hsort').mpr ⟨hsps, fun x hx e he => by
        rcases mem_append.mp he with he | he
        · exact hit' x hx e he
        · exact hdone x hx e he, hpair⟩
      exact ⟨r, by rw [foldlM_cons, (checkItem_eq_ok h hit).mpr ⟨hsp, hfit, rfl⟩, ok_bind, hr]⟩

theorem symBefore.start_le {a b : Span} (h : symBefore a b) : a.start ≤ b.start :=
  h.elim le_of_lt fun e => e.1.le

theorem Span.nests_self (a : Span) : a.Nests a := Or.inl ⟨le_rfl, le_rfl⟩

instance : Std.Symm Span.Nests := ⟨fun a b h => by
  unfold Span.Nests Span.Apart at h ⊢
  tauto⟩

theorem fits_iff {a b : Span} (hab : symBefore a b) :
    b.Fits a.stop ↔ a.Nests b := by
  have hstart := hab.start_le
  unfold Span.Fits Span.Nests Span.Inside Span.Apart
  constructor
  · intro hfit
    rcases le_or_gt a.stop b.start with hle | hlt
    · exact Or.inr (Or.inr (Or.inl hle))
    · exact Or.inr (Or.inl ⟨hstart, hfit hlt⟩)
  · rintro (⟨hs, -⟩ | ⟨-, hstop⟩ | hle | hle) hlt
    · rcases hab with hs' | ⟨-, hstop⟩
      · exact absurd hs (not_le.mpr hs')
      · exact hstop
    · exact hstop
    · exact absurd hlt (not_lt.mpr hle)
    · exact hle.trans (hstart.trans hlt.le)

section
variable {syms toks : List Span} (hsyms : syms.Pairwise symBefore) (htoks : toks.Pairwise tokBefore)
include hsyms htoks

theorem sweep_sorted :
    (interleave takeSym syms toks).Pairwise (fun a b => (spanOf a).start ≤ (spanOf b).start) :=
  (pairwise_interleave Span.start Span.start _ syms toks (hsyms.imp symBefore.start_le) htoks).mpr
    ⟨hsyms.imp symBefore.start_le, htoks, fun _ _ _ _ => ⟨id, le_of_lt⟩⟩

theorem sweep_fits :
    (interleave takeSym syms toks).Pairwise (fun a b => ∀ e ∈ symStop a, (spanOf b).Fits e) ↔
      (∀ a ∈ syms, ∀ b ∈ syms, a.Nests b) ∧
      ∀ a ∈ syms, ∀ t ∈ toks, a.Contains t.start → t.stop ≤ a.stop := by
  have hsplit := pairwise_interleave Span.start Span.start
    (fun a b => ∀ e ∈ symStop a, (spanOf b).Fits e) syms toks (hsyms.imp symBefore.start_le) htoks
  have hone : ∀ {sp b : Span}, (∀ e ∈ symStop (.inl sp), b.Fits e) ↔ b.Fits sp.stop := by
    intro sp b
    exact ⟨fun h => h _ (mem_singleton.mpr rfl), fun h e he => mem_singleton.mp he ▸ h⟩
  refine hsplit.trans ⟨?_, ?_⟩
  · rintro ⟨hpair, -, hmix⟩
    have hnest : syms.Pairwise Span.Nests := (hpair.and hsyms).imp fun h =>
      (fits_iff h.2).mp (hone.mp h.1)
    refine ⟨fun a ha b hb => ?_, fun a ha t ht hin => ?_⟩
    · exact hnest.forall_of_forall (fun a _ => Span.nests_self a) ha hb
    · exact hone.mp ((hmix a ha t ht).1 hin.1) hin.2
  · rintro ⟨hnest, hin⟩
    refine ⟨?_, pairwise_of_forall fun _ _ e he => (nomatch he), fun a ha t ht =>
      ⟨fun hle => ?_, ?_⟩⟩
    · exact hsyms.imp_of_mem fun {a b} ha hb h => hone.mpr ((fits_iff h).mpr (hnest a ha b hb))
    · exact hone.mpr fun hlt => hin a ha t ht ⟨hle, hlt⟩
    · exact fun _ e he => (nomatch he)

end

theorem validateSpans_iff (ex : Extraction) : validateSpans ex = .ok () ↔ ex.WellNested := by
  have hsyms : ((ex.symbols.map SymbolDecl.span).insertionSort symBefore).Pairwise symBefore :=
    pairwise_insertionSort _ _
  have htoks : ((ex.tokens.map TokenDecl.span).insertionSort tokBefore).Pairwise tokBefore :=
    pairwise_insertionSort _ _
  have hrun : validateSpans ex = .ok () ↔ ∃ r, (interleave takeSym
      ((ex.symbols.map SymbolDecl.span).insertionSort symBefore)
      ((ex.tokens.map TokenDecl.span).insertionSort tokBefore)).foldlM checkItem [] = .ok r := by
    rw [validateSpans, bind_eq_ok]
    exact ⟨fun ⟨r, hr, _⟩ => ⟨r, hr⟩, fun ⟨r, hr⟩ => ⟨r, hr, rfl⟩⟩
  have hmemS : ∀ {P : Span → Prop}, (∀ a ∈ (ex.symbols.map SymbolDecl.span).insertionSort symBefore,
      P a) ↔ ∀ s ∈ ex.symbols, P s.span := by
    intro P
    simp [mem_insertionSort]
  have hmemT : ∀ {P : Span → Prop}, (∀ a ∈ (ex.tokens.map TokenDecl.span).insertionSort tokBefore,
      P a) ↔ ∀ t ∈ ex.tokens, P t.span := by
    intro P
    simp [mem_insertionSort]
  have hwide : ∀ {syms toks : List Span},
      (∀ it ∈ interleave takeSym syms toks, (spanOf it).start ≤ (spanOf it).stop) ↔
      (∀ a ∈ syms, a.start ≤ a.stop) ∧ ∀ t ∈ toks, t.start ≤ t.stop := by
    intro syms toks
    simp only [Sum.forall, inl_mem_interleave, inr_mem_interleave]
    rfl
  rw [hrun, foldlM_checkItem _ (tracks_nil 0) (fun _ _ => Fin.zero_le _) (sweep_sorted hsyms htoks),
    hwide]
  constructor
  · rintro ⟨⟨hs, ht⟩, -, hpair⟩
    obtain ⟨hnest, hin⟩ := (sweep_fits hsyms htoks).mp hpair
    exact ⟨hmemS.mp hs, hmemT.mp ht, fun a ha => hmemS.mp (hmemS.mp hnest a ha), fun s hs =>
      hmemT.mp (hmemS.mp hin s hs)⟩
  · intro h
    have hs := (hmemS (P := fun a => a.start ≤ a.stop)).mpr h.symbols
    have ht := (hmemT (P := fun a => a.start ≤ a.stop)).mpr h.tokens
    refine ⟨⟨hs, ht⟩, by simp, (sweep_fits hsyms htoks).mpr ⟨?_, ?_⟩⟩
    · exact hmemS.mpr fun a ha => hmemS.mpr (h.nested a ha)
    · exact hmemS.mpr fun s hs => hmemT.mpr (h.inside s hs)

end MemoryGraph
