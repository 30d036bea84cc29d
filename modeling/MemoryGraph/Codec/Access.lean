import MemoryGraph.Codec.RoundTrip

/-! The three ways to read the token records of a stream visit exactly its records. -/

namespace MemoryGraph.Codec
open Lib List
variable {i : Nat} {ords : List Nat}

variable {σ : Type}

def visit (f : Visitor σ) : List (TokRec × Nat) → σ → σ × Bool
  | [], s => (s, true)
  | (t, ord) :: ts, s => if (f ord t s).2 then visit f ts (f ord t s).1 else ((f ord t s).1, false)

def pick (tokens : List TokRec) (ords : List Nat) : List (TokRec × Nat) :=
  ords.filterMap (fun ord => tokens[ord]?.map (fun t => (t, ord)))

theorem pick_cons {tokens : List TokRec} {ord : Nat} {t : TokRec} (ht : tokens[ord]? = some t)
    (ords : List Nat) : pick tokens (ord :: ords) = (t, ord) :: pick tokens ords := by
  simp [pick, ht]

theorem drop_eq_cons {α : Type} {l : List α} {t : α} (h : l[i]? = some t) :
    l.drop i = t :: l.drop (i + 1) := by
  obtain ⟨hi, rfl⟩ := List.getElem?_eq_some_iff.mp h
  exact drop_eq_getElem_cons hi

theorem Span.Agree.refl (a : Span) : Span.Agree a a := ⟨rfl, rfl, rfl⟩

/-- What a full pass over a token section establishes: where each record stands, and that the
checkpoint before each block gives its place and the span state there. -/
structure Lazy.Holds (lz : Lazy) (tokens : List TokRec) (off : Nat → Nat) : Prop where
  ntok : lz.ntok = tokens.length
  start : off 0 = 0
  stop : off tokens.length = lz.toks.length
  record : ∀ i t, tokens[i]? = some t →
    (lz.record (prevSpan tokens i)).run ⟨lz.toks, off i⟩ = .ok (t, ⟨lz.toks, off (i + 1)⟩)
  ck : ∀ i < tokens.length, 0 < i → i % checkpointEvery = 0 → lz.cks[i / checkpointEvery - 1]? =
    some ⟨off i, (prevSpan tokens i).start, (prevSpan tokens i).startLine,
      (prevSpan tokens i).startCol⟩

section
variable {lz : Lazy} {tokens : List TokRec} {off : Nat → Nat} (h : lz.Holds tokens off)
  (f : Visitor σ)
include h

theorem Lazy.Holds.run_record {t : TokRec} (ht : tokens[i]? = some t) {prev : Span}
    (hp : Span.Agree prev (prevSpan tokens i)) :
    (lz.record prev).run ⟨lz.toks, off i⟩ = .ok (t, ⟨lz.toks, off (i + 1)⟩) := by
  rw [record_congr _ hp]
  exact h.record i t ht

theorem Lazy.Holds.run_checkCk (hi : i < tokens.length) :
    (lz.checkCk i (prevSpan tokens i)).run ⟨lz.toks, off i⟩ = .ok ((), ⟨lz.toks, off i⟩) := by
  rw [Lazy.checkCk]
  split_ifs with hc
  · rw [h.ck i hi hc.1 hc.2]
    simp
  · rfl

theorem Lazy.Holds.run_tokensGo (ts : List TokRec) :
    ∀ (i : Nat), tokens.drop i = ts → i ≤ tokens.length → ∀ s : σ, ∃ c : Cursor,
      (lz.tokensGo f ts.length i (prevSpan tokens i) s).run ⟨lz.toks, off i⟩ =
        .ok (visit f (ts.zipIdx i) s, c) ∧
        ((visit f (ts.zipIdx i) s).2 = true → c.pos = lz.toks.length) := by
  induction ts with
  | nil =>
    intro i hi hle s
    have hend : i = tokens.length := le_antisymm hle (drop_eq_nil_iff.mp hi)
    exact ⟨_, rfl, fun _ => by rw [hend]; exact h.stop⟩
  | cons t ts ih =>
    intro i hi hle s
    have ht : tokens[i]? = some t := by
      rw [← head?_drop, hi]
      rfl
    have hlt := lt_of_getElem? ht
    have hrun : (lz.tokensGo f (ts.length + 1) i (prevSpan tokens i) s).run ⟨lz.toks, off i⟩ =
        (if (f i t s).2 then lz.tokensGo f ts.length (i + 1) t.span (f i t s).1 else
          pure ((f i t s).1, false)).run ⟨lz.toks, off (i + 1)⟩ := by
      rw [Lazy.tokensGo, StateT.run_bind, h.run_checkCk hlt, ok_bind, StateT.run_bind,
        h.run_record ht (Span.Agree.refl _), ok_bind]
    rw [length_cons, hrun, zipIdx_cons, visit]
    split_ifs with hmore
    · have hrec := ih (i + 1) (by rw [← tail_drop, hi, tail_cons]) hlt (f i t s).1
      rwa [prevSpan_succ ht] at hrec
    · exact ⟨_, rfl, fun hf => absurd hf (by simp)⟩

theorem Lazy.Holds.tokens_eq (s : σ) : lz.tokens f s = .ok (visit f tokens.zipIdx s).1 := by
  obtain ⟨c, hrun, hpos⟩ := h.run_tokensGo f tokens 0 rfl (Nat.zero_le _) s
  have hfull : ¬ ((visit f tokens.zipIdx s).2 = true ∧ c.pos ≠ lz.toks.length) := by
    rintro ⟨hv, hne⟩
    exact hne (hpos hv)
  rw [h.start] at hrun
  rw [Lazy.tokens, h.ntok]
  change ((lz.tokensGo f tokens.length 0 (prevSpan tokens 0) s).run ⟨lz.toks, 0⟩ >>= _) = _
  rw [hrun, ok_bind]
  dsimp only
  rw [failIf_of_not hfull]
  rfl

theorem Lazy.Holds.run_seek {block : Nat} (h0 : 0 < block)
    (hb : block * checkpointEvery < tokens.length) (pos : Nat) :
    ∃ prev, (lz.seek block).run ⟨lz.toks, pos⟩ =
      .ok (prev, ⟨lz.toks, off (block * checkpointEvery)⟩) ∧
      Span.Agree prev (prevSpan tokens (block * checkpointEvery)) := by
  have hck := h.ck _ hb (Nat.mul_pos h0 (by decide)) (Nat.mul_mod_left ..)
  rw [Nat.mul_div_cancel _ (by decide)] at hck
  rw [Lazy.seek, hck]
  exact ⟨_, rfl, rfl, rfl, rfl⟩

theorem Lazy.Holds.run_skip (n : Nat) :
    ∀ (i : Nat) (prev : Span), Span.Agree prev (prevSpan tokens i) →
    i + n ≤ tokens.length → ∃ prev', (lz.skip n prev).run ⟨lz.toks, off i⟩ =
      .ok (prev', ⟨lz.toks, off (i + n)⟩) ∧ Span.Agree prev' (prevSpan tokens (i + n)) := by
  induction n with
  | zero => exact fun i prev hp _ => ⟨prev, rfl, hp⟩
  | succ n ih =>
    intro i prev hp hle
    have ht := getElem?_eq_getElem (show i < tokens.length by omega)
    obtain ⟨prev', hrun, hp'⟩ := ih (i + 1) tokens[i].span (by
      rw [prevSpan_succ ht]
      exact Span.Agree.refl _) (by omega)
    rw [show i + (n + 1) = i + 1 + n by omega]
    refine ⟨prev', ?_, hp'⟩
    rw [Lazy.skip, StateT.run_bind, h.run_record ht hp, ok_bind]
    exact hrun

theorem Lazy.Holds.run_approach {ord next : Nat} (hord : ord < tokens.length) (hnext : next ≤ ord)
    {prev : Span} (hp : Span.Agree prev (prevSpan tokens next)) :
    ∃ prev' next', (lz.approach ord next prev).run ⟨lz.toks, off next⟩ =
      .ok ((prev', next'), ⟨lz.toks, off next'⟩) ∧
      next' ≤ ord ∧ Span.Agree prev' (prevSpan tokens next') := by
  have hblock : ord / checkpointEvery * checkpointEvery ≤ ord := Nat.div_mul_le_self _ _
  rw [Lazy.approach]
  split_ifs with hlt
  · have h0 : 0 < ord / checkpointEvery := by
      by_contra h0
      rw [Nat.eq_zero_of_not_pos h0] at hlt
      omega
    obtain ⟨prev', hrun, hp'⟩ := h.run_seek h0 (by omega) (off next)
    refine ⟨prev', _, ?_, hblock, hp'⟩
    rw [StateT.run_bind, hrun, ok_bind]
    rfl
  · exact ⟨prev, next, rfl, hnext, hp⟩

/-- What reading chosen ordinals comes to: an ordinal past the end is an error, unless the
visitor stops before it is reached. -/
def visitAt (f : Visitor σ) (tokens : List TokRec) (ords : List Nat) (s : σ) :
    Except StoreError σ :=
  if (visit f (pick tokens ords) s).2 = true ∧ ∃ ord ∈ ords, tokens.length ≤ ord then
    .error (bad "token ordinal out of order or range")
  else .ok (visit f (pick tokens ords) s).1

omit h in
theorem pick_eq_nil (hall : ∀ ord ∈ ords, tokens.length ≤ ord) : pick tokens ords = [] := by
  rw [pick, filterMap_eq_nil_iff]
  intro ord ho
  rw [getElem?_eq_none (hall ord ho)]
  rfl

theorem Lazy.Holds.run_tokensAtGo (ords : List Nat) :
    ∀ (last : Option Nat) (next : Nat) (prev : Span) (s : σ),
    ords.Pairwise (· < ·) → (∀ ord ∈ ords, next ≤ ord ∧ ∀ l ∈ last, l < ord) →
    Span.Agree prev (prevSpan tokens next) →
    (Prod.fst <$> (lz.tokensAtGo f ords last next prev s).run ⟨lz.toks, off next⟩) =
    visitAt f tokens ords s := by
  induction ords with
  | nil =>
    intro last next prev s _ _ _
    rw [visitAt, if_neg (by simp)]
    rfl
  | cons ord ords ih =>
    intro last next prev s hs hall hp
    obtain ⟨hnext, hlast⟩ := hall ord mem_cons_self
    obtain ⟨hords, hs'⟩ := pairwise_cons.mp hs
    have hmono : last.any (fun l => decide (ord ≤ l)) ≠ true := by
      intro hany
      obtain ⟨l, hl, hle⟩ := (Option.any_eq_true_iff_get _ _).mp hany |>.elim fun hsome hdec =>
        (⟨_, Option.get_mem hsome, of_decide_eq_true hdec⟩ : ∃ l, l ∈ last ∧ ord ≤ l)
      exact absurd (hlast l hl) (not_lt.mpr hle)
    by_cases hlt : ord < tokens.length
    · have ht := getElem?_eq_getElem hlt
      have hok : ¬ (lz.ntok ≤ ord ∨ last.any (fun l => decide (ord ≤ l)) = true) := by
        rw [h.ntok]
        exact not_or.mpr ⟨not_le.mpr hlt, hmono⟩
      obtain ⟨prev1, next1, hrun1, hle1, hp1⟩ := h.run_approach hlt hnext hp
      obtain ⟨prev2, hrun2, hp2⟩ := h.run_skip (ord - next1) next1 prev1 hp1 (by omega)
      rw [Nat.add_sub_cancel' hle1] at hrun2 hp2
      have hrun : (lz.tokensAtGo f (ord :: ords) last next prev s).run ⟨lz.toks, off next⟩ =
          (if (f ord tokens[ord] s).2 then
            lz.tokensAtGo f ords (some ord) (ord + 1) tokens[ord].span (f ord tokens[ord] s).1 else
            pure (f ord tokens[ord] s).1).run ⟨lz.toks, off (ord + 1)⟩ := by
        rw [Lazy.tokensAtGo, failIf_of_not hok, pure_bind, StateT.run_bind, hrun1, ok_bind,
          StateT.run_bind, hrun2, ok_bind, StateT.run_bind, h.run_record ht hp2, ok_bind]
      have hcons : (∃ o ∈ ord :: ords, tokens.length ≤ o) ↔
          ∃ o ∈ ords, tokens.length ≤ o := by simp [hlt]
      rw [hrun, visitAt, pick_cons ht, visit]
      by_cases hmore : (f ord tokens[ord] s).2 = true
      · simp only [if_pos hmore, hcons]
        exact ih (some ord) (ord + 1) tokens[ord].span (f ord tokens[ord] s).1 hs'
          (fun o ho => ⟨hords o ho, fun l hl => by cases hl; exact hords o ho⟩) (by
            rw [prevSpan_succ ht]
            exact Span.Agree.refl _)
      · simp only [if_neg hmore, Bool.false_eq_true, false_and, if_false]
        rfl
    · have hout : lz.ntok ≤ ord ∨ last.any (fun l => decide (ord ≤ l)) = true :=
        Or.inl (h.ntok.trans_le (not_lt.mp hlt))
      have hnil : pick tokens (ord :: ords) = [] := by
        refine pick_eq_nil fun o ho => ?_
        rcases mem_cons.mp ho with rfl | ho
        · exact not_lt.mp hlt
        · exact (not_lt.mp hlt).trans (hords o ho).le
      have hstop : (visit f (pick tokens (ord :: ords)) s).2 = true ∧ ∃ o ∈ ord :: ords,
          tokens.length ≤ o := by
        rw [hnil]
        exact ⟨rfl, ord, mem_cons_self, not_lt.mp hlt⟩
      rw [Lazy.tokensAtGo, failIf, if_pos hout, visitAt, if_pos hstop]
      rfl

theorem Lazy.Holds.tokensAtWhile_eq (hs : ords.Pairwise (· < ·)) (s : σ) :
    lz.tokensAtWhile ords f s = visitAt f tokens ords s := by
  have hrun := h.run_tokensAtGo f ords none 0 zero s hs
    (fun o _ => ⟨Nat.zero_le _, fun _ hl => by cases hl⟩) (Span.Agree.refl _)
  rw [h.start] at hrun
  exact hrun

omit h in
theorem visitAt_of_lt (hall : ∀ ord ∈ ords, ord < tokens.length) (s : σ) :
    visitAt f tokens ords s = .ok (visit f (pick tokens ords) s).1 := by
  refine if_neg ?_
  rintro ⟨-, ord, ho, hle⟩
  exact absurd (hall ord ho) (not_lt.mpr hle)

theorem Lazy.Holds.run_tokensFromGo (first n : Nat) : ∀ (i : Nat) (prev : Span) (s : σ),
    i + n = tokens.length → Span.Agree prev (prevSpan tokens i) →
    ∃ c, (lz.tokensFromGo first f n i prev s).run ⟨lz.toks, off i⟩ =
      .ok ((visit f ((tokens.drop (max i first)).zipIdx (max i first)) s).1, c) := by
  -- records before `first` are decoded and dropped
  induction n with
  | zero =>
    intro i prev s hi _
    refine ⟨⟨lz.toks, off i⟩, ?_⟩
    rw [drop_eq_nil_of_le (by omega)]
    rfl
  | succ n ih =>
    intro i prev s hi hp
    have ht := getElem?_eq_getElem (show i < tokens.length by omega)
    have hp' : Span.Agree tokens[i].span (prevSpan tokens (i + 1)) := by
      rw [prevSpan_succ ht]
      exact Span.Agree.refl _
    have hrun : (lz.tokensFromGo first f (n + 1) i prev s).run ⟨lz.toks, off i⟩ = (if first ≤ i then
          (if (f i tokens[i] s).2 then lz.tokensFromGo first f n (i + 1)
            tokens[i].span (f i tokens[i] s).1 else pure (f i tokens[i] s).1) else
          lz.tokensFromGo first f n (i + 1) tokens[i].span s).run ⟨lz.toks, off (i + 1)⟩ := by
      rw [Lazy.tokensFromGo, StateT.run_bind, h.run_record ht hp, ok_bind]
    rw [hrun]
    by_cases hfirst : first ≤ i
    · rw [if_pos hfirst, max_eq_left hfirst, drop_eq_cons ht, zipIdx_cons, visit]
      split_ifs with hmore
      · have hrec := ih (i + 1) _ (f i tokens[i] s).1 (by omega) hp'
        rwa [max_eq_left (by omega)] at hrec
      · exact ⟨_, rfl⟩
    · have hrec := ih (i + 1) _ s (by omega) hp'
      rw [if_neg hfirst, show max i first = max (i + 1) first by omega]
      exact hrec

theorem Lazy.Holds.tokensFromWhile_eq (first : Nat) (s : σ) : lz.tokensFromWhile first f s =
    .ok (visit f ((tokens.drop first).zipIdx first) s).1 := by
  rw [Lazy.tokensFromWhile, h.ntok]
  split_ifs with hlen
  · rw [drop_eq_nil_of_le hlen]
    rfl
  · have hlt : first < tokens.length := not_le.mp hlen
    have hblock : first / checkpointEvery * checkpointEvery ≤ first := Nat.div_mul_le_self _ _
    have hstart : ∃ prev, (lz.blockStart (first / checkpointEvery)).run ⟨lz.toks, 0⟩ =
        .ok (prev, ⟨lz.toks, off (first / checkpointEvery * checkpointEvery)⟩) ∧
        Span.Agree prev (prevSpan tokens (first / checkpointEvery * checkpointEvery)) := by
      rw [Lazy.blockStart]
      split_ifs with h0
      · rw [h0, Nat.zero_mul, h.start]
        exact ⟨zero, rfl, Span.Agree.refl _⟩
      · exact h.run_seek (Nat.pos_of_ne_zero h0) (by omega) 0
    obtain ⟨prev, hrun1, hp⟩ := hstart
    obtain ⟨c, hrun2⟩ := h.run_tokensFromGo f first
      (tokens.length - first / checkpointEvery * checkpointEvery) _ prev s (by omega) hp
    rw [max_eq_right hblock] at hrun2
    have hrun : (lz.walkFrom first f s).run ⟨lz.toks, 0⟩ =
        .ok ((visit f ((tokens.drop first).zipIdx first) s).1, c) := by
      rw [Lazy.walkFrom, StateT.run_bind, hrun1, ok_bind, h.ntok]
      exact hrun2
    rw [hrun]
    rfl

end

section
variable {st : Stream} (h : st.Storable) (f : Visitor σ)
include h

theorem holds_lazyOf : (lazyOf st).Holds st.tokens (tokOff st.tokens) where
  ntok := rfl
  start := rfl
  stop := tokOff_length _
  record i t ht := by
    have hmem := mem_of_getElem? ht
    have hread : Reads ((lazyOf st).record (prevSpan st.tokens i)) _ t :=
      reads_record (prevSpan st.tokens i) (h.terms t hmem) (h.tokParents t hmem)
    rw [tokOff_succ ht]
    exact hread.run_at _ _ (tokBytes_split ht)
  ck i hi h0 hmod := by
    have h64 : i / checkpointEvery * checkpointEvery = i := by
      rw [checkpointEvery] at hmod ⊢
      omega
    have hget : (cksOf st.tokens)[i / checkpointEvery - 1]? = _ := getElem?_cksOf
      (by rw [checkpointEvery] at hmod ⊢; omega) (by rw [h64]; exact hi)
    rw [h64] at hget
    exact hget

theorem tokens_lazyOf (s : σ) : (lazyOf st).tokens f s = .ok (visit f st.tokens.zipIdx s).1 :=
  (holds_lazyOf h).tokens_eq f s

theorem tokensAtWhile_lazyOf (hs : ords.Pairwise (· < ·))
    (hall : ∀ ord ∈ ords, ord < st.tokens.length) (s : σ) :
    (lazyOf st).tokensAtWhile ords f s = .ok (visit f (pick st.tokens ords) s).1 :=
  ((holds_lazyOf h).tokensAtWhile_eq f hs s).trans (visitAt_of_lt f hall s)

end

theorem visit_collect (ts : List (TokRec × Nat)) (acc : List TokRec) :
    (visit (fun _ t (ts : List TokRec) => (ts ++ [t], true)) ts acc).1 = acc ++
    ts.map Prod.fst := by
  induction ts generalizing acc with
  | nil => simp [visit]
  | cons t ts ih =>
    rw [visit, if_pos rfl, ih]
    simp

theorem decode_encode {st : Stream} (h : st.Storable) :
    decode (encode st) = .ok ⟨st.ranged, st.tokens⟩ := by
  rw [decode, decodeLazy_encode h, ok_bind, symbols_lazyOf h, ok_bind, tokens_lazyOf h, ok_bind,
    visit_collect]
  simp

theorem length_ranged (st : Stream) : st.ranged.length = st.symbols.length := by
  rw [Stream.ranged, length_map, length_zip_ranges]

theorem exists_ranged {st : Stream} {s : SymRec} (hs : st.symbols[i]? = some s) :
    ∃ r, st.ranged[i]? = some { s with toks := r } ∧ st.ranges[i]? = some r := by
  have hi : i < st.ranges.length := by
    rw [Stream.ranges, length_computeRanges]
    exact lt_of_getElem? hs
  have hr := getElem?_eq_getElem hi
  have hz : (st.symbols.zip st.ranges)[i]? = some (s, st.ranges[i]) :=
    getElem?_zip_eq_some.mpr ⟨hs, hr⟩
  refine ⟨_, ?_, hr⟩
  rw [Stream.ranged, getElem?_map, hz]
  rfl

theorem getElem?_ranged {st : Stream} (h : st.Wf) {s : SymRec} (hs : st.symbols[i]? = some s) :
    ∃ r, st.ranged[i]? = some { s with toks := r } ∧ IsRange (st.under i) r := by
  obtain ⟨r, hr, hget⟩ := exists_ranged hs
  obtain ⟨r', hr', hrange⟩ :=
    computeRanges_isRange h.parents h.ntok (List.getElem?_eq_some_iff.mp hs).1
  obtain rfl := Option.mem_unique hget hr'
  exact ⟨r, hr, hrange⟩

/-- Decoding undoes encoding, except that every symbol gets the range of the token ordinals
under it; the density flag says whether all those sets are intervals. -/
theorem decode_encode_ranged {st : Stream} (h : st.Wf) :
    (∃ symbols, decode (encode st) = .ok ⟨symbols, st.tokens⟩ ∧
      symbols.length = st.symbols.length ∧
      ∀ (i : Nat) (s : SymRec), st.symbols[i]? = some s →
        ∃ r, symbols[i]? = some { s with toks := r } ∧ IsRange (st.under i) r) ∧
    ∃ lz, decodeLazy (encode st) = .ok lz ∧
      (lz.rangesDense = true ↔ ∀ i < st.symbols.length, Contiguous (st.under i)) :=
  ⟨⟨st.ranged, decode_encode h.storable, length_ranged st, fun _ _ hs => getElem?_ranged h hs⟩,
    lazyOf st, decodeLazy_encode h.storable, computeRanges_dense h.parents h.ntok⟩

def sampleStream : Stream where
  symbols :=
    [⟨7, .type, none, none, ⟨0, 90, 0, 0, 9, 0⟩, none, none⟩,
      ⟨8, .method, some 3, some 0, ⟨40, 10, 4, 0, 1, 7⟩, some (5, 2), some 7⟩]
  tokens :=
    [⟨18446744073709551615, .keyword, some 0, ⟨4294967295, 0, 0, 0, 0, 0⟩⟩,
      ⟨8, .identifier, some 1, ⟨41, 44, 4, 1, 4, 4⟩⟩, ⟨9, .other, some 0, ⟨60, 61, 6, 0, 6, 1⟩⟩]

theorem decode_encode_ranged_sample : sampleStream.Wf ∧
    (∃ symbols, decode (encode sampleStream) = .ok ⟨symbols, sampleStream.tokens⟩ ∧
      symbols.length = sampleStream.symbols.length ∧
      ∀ (i : Nat) (s : SymRec), sampleStream.symbols[i]? = some s →
        ∃ r, symbols[i]? = some { s with toks := r } ∧ IsRange (sampleStream.under i) r) ∧
    ∃ lz, decodeLazy (encode sampleStream) = .ok lz ∧
      (lz.rangesDense = true ↔ ∀ i < sampleStream.symbols.length,
        Contiguous (sampleStream.under i)) :=
  ⟨by decide +kernel, decode_encode_ranged (by decide +kernel)⟩

end MemoryGraph.Codec
