import MemoryGraph.Prep.Spans
import MemoryGraph.Prep.Traversals

/-! The parents that the builder gives: in an accepted extraction, following them from any
symbol or token leads through exactly the symbols around it. -/

namespace MemoryGraph
open Lib Codec List
variable {symbols : List SymRec} {ex : Extraction}

/-- The symbols that following parents from `cur` leads through, innermost first. -/
inductive Chain (symbols : List SymRec) : Option U32 → List Nat → Prop
  | top : Chain symbols none []
  | up {p : U32} {s : SymRec} {rest : List Nat} :
      symbols[p.val]? = some s → Chain symbols s.parent rest → Chain symbols (some p)
      (p.val :: rest)

def around (symbols : List SymRec) (n : Nat) (pos : U32) : List Nat :=
  (List.range n).reverse.filter (fun j => symbols[j]?.any (fun s => s.span.Contains pos))

theorem Chain.unique {cur : Option U32} {l m : List Nat} (hl : Chain symbols cur l)
    (hm : Chain symbols cur m) : l = m := by
  induction hl generalizing m with
  | top =>
    cases hm
    rfl
  | up hs _ ih =>
    cases hm with
    | up hs' hrest' =>
      obtain rfl := Option.mem_unique hs hs'
      rw [ih hrest']

theorem Chain.append {cur : Option U32} {l : List Nat} (h : Chain symbols cur l) (x : SymRec) :
    Chain (symbols ++ [x]) cur l := by
  induction h with
  | top => exact .top
  | up hs _ ih =>
    exact .up (by rw [List.getElem?_append_left (List.getElem?_eq_some_iff.mp hs).1, hs]) ih

theorem Stacked.chain {stack : List U32} (h : Stacked symbols stack) :
    Chain symbols stack.head? (stack.map Fin.val) := by
  induction stack with
  | nil => exact .top
  | cons i rest ih =>
    obtain ⟨⟨s, hs, hp⟩, hrest⟩ := h
    exact .up hs (hp ▸ ih hrest)

def stopAt (symbols : List SymRec) (j : Nat) : U32 :=
  (symbols[j]?.map (fun s => s.span.stop)).getD 0

def allEnds (symbols : List SymRec) : List (U32 × U32) :=
  (List.range symbols.length).reverse.map (fun j => (u32 j, stopAt symbols j))

theorem allEnds_append (symbols : List SymRec) (x : SymRec) :
    allEnds (symbols ++ [x]) = (u32 symbols.length, x.span.stop) :: allEnds symbols := by
  have hkeep : ∀ j ∈ (range symbols.length).reverse, (u32 j, stopAt (symbols ++ [x]) j) =
      (u32 j, stopAt symbols j) := by
    intro j hj
    have hlt := mem_range.mp (mem_reverse.mp hj)
    rw [stopAt, stopAt, getElem?_append_left hlt]
  rw [allEnds, length_append, length_singleton, range_succ, reverse_append, map_append,
    map_congr_left hkeep]
  simp [allEnds, stopAt]

theorem around_append {n : Nat} (hn : n ≤ symbols.length) (x : SymRec) (pos : U32) :
    around (symbols ++ [x]) n pos = around symbols n pos := by
  refine filter_congr fun j hj => ?_
  have hlt := mem_range.mp (mem_reverse.mp hj)
  rw [getElem?_append_left (hlt.trans_le hn)]

theorem around_append_later {x : SymRec} {pos : U32} (hlt : pos < x.span.start) :
    around (symbols ++ [x]) (symbols ++ [x]).length pos = around symbols symbols.length pos := by
  have hout : ¬ x.span.Contains pos := fun hc => absurd hc.1 (not_le.mpr hlt)
  have hlast : ((symbols ++ [x])[symbols.length]?.any fun s => decide (s.span.Contains pos)) =
      false := by
    simpa using hout
  rw [length_append, length_singleton, ← around_append le_rfl x pos, around, around, range_succ,
    reverse_append, reverse_singleton, singleton_append, filter_cons,
    if_neg (by rw [hlast]; exact Bool.false_ne_true)]

theorem live_eq_around (hn : symbols.length ≤ 4294967296) {pos : U32}
    (hstart : ∀ s ∈ symbols, s.span.start ≤ pos) :
    (((allEnds symbols).filter (fun e => pos < e.2)).map Prod.fst).map Fin.val =
    around symbols symbols.length pos := by
  have hpred : ∀ j ∈ (range symbols.length).reverse, decide (pos < stopAt symbols j) =
      symbols[j]?.any (fun s => decide (s.span.Contains pos)) := by
    intro j hj
    have hlt := mem_range.mp (mem_reverse.mp hj)
    have hs := hstart symbols[j] (getElem_mem hlt)
    rw [stopAt, getElem?_eq_getElem hlt]
    simp [Span.Contains, hs]
  have hval : ∀ j ∈ around symbols symbols.length pos, (u32 j).val = j := by
    intro j hj
    have hlt := mem_range.mp (mem_reverse.mp (mem_filter.mp hj).1)
    exact Nat.mod_eq_of_lt (hlt.trans_le hn)
  rw [allEnds, filter_map, map_map, map_map]
  have hfilter : (range symbols.length).reverse.filter ((fun e : U32 × U32 => decide (pos < e.2)) ∘
      fun j => (u32 j, stopAt symbols j)) = around symbols symbols.length pos := filter_congr hpred
  rw [hfilter]
  exact (map_congr_left hval).trans (map_id' _)

/-- The chains of everything laid out so far are as they should be, and the stack stands for
the symbols that can still contain something. -/
structure NestInv (st : BuildState) (pos : U32) : Prop where
  base : ∃ lo hi, BuildInv st lo hi
  tracks : Tracks Prod.snd st.opened (allEnds st.symbols) pos
  started : ∀ s ∈ st.symbols, s.span.start ≤ pos
  symbols : ∀ k s, st.symbols[k]? = some s →
    Chain st.symbols s.parent (around st.symbols k s.span.start)
  tokens : ∀ t ∈ st.tokens,
    Chain st.symbols t.parent (around st.symbols st.symbols.length t.span.start)

theorem nestInv_init : NestInv ⟨[], [], [], []⟩ 0 where
  base := ⟨_, _, buildInv_init⟩
  tracks := tracks_nil 0
  started s hs := absurd hs not_mem_nil
  symbols k s hs := by simp at hs
  tokens t ht := absurd ht not_mem_nil

section
variable {st : BuildState} {pos : U32} (h : NestInv st pos) (hn : st.symbols.length ≤ 4294967296)
include h hn

theorem NestInv.chain_at {p : U32} (hp : pos ≤ p) :
    Chain st.symbols ((closeTo p st.opened).head?.map Prod.fst)
      (around st.symbols st.symbols.length p) := by
  obtain ⟨lo, hi, hbase⟩ := h.base
  have hstack : Stacked st.symbols ((closeTo p st.opened).map Prod.fst) :=
    hbase.stacked.suffix (stack_closeTo_suffix p st.opened)
  have hopen : closeTo p st.opened = (allEnds st.symbols).filter (fun e => decide (p < e.2)) :=
    h.tracks.close_eq hp
  have hchain := hstack.chain
  rw [head?_map, hopen, live_eq_around hn fun s hs => (h.started s hs).trans hp] at hchain
  rw [hopen]
  exact hchain

theorem NestInv.pushSym {s : SymbolDecl} (hp : pos ≤ s.span.start)
    (hlt : st.symbols.length < 4294967296) (hfit : ∀ r ∈ st.symbols, s.span.Fits r.span.stop)
    (hafter : ∀ t ∈ st.tokens, t.span.start < s.span.start) :
    NestInv (pushSym st s) s.span.start := by
  obtain ⟨lo, hi, hbase⟩ := h.base
  have hchain := h.chain_at hn hp
  obtain ⟨rec, hrec, hspan, hpar⟩ : ∃ rec : SymRec, (MemoryGraph.pushSym st s).symbols =
      st.symbols ++ [rec] ∧ rec.span = s.span ∧
      rec.parent = (closeTo s.span.start st.opened).head?.map Prod.fst := ⟨_, rfl, rfl, rfl⟩
  refine ⟨⟨_, _, pushSym_inv hbase s hlt⟩, ?_, ?_, ?_, ?_⟩
  · rw [hrec, allEnds_append, hspan]
    refine h.tracks.push hp fun e he hstop => ?_
    obtain ⟨j, hj, rfl⟩ := mem_map.mp he
    have hlt := mem_range.mp (mem_reverse.mp hj)
    have hstopAt : stopAt st.symbols j = st.symbols[j].span.stop := by
      rw [stopAt, getElem?_eq_getElem hlt]
      rfl
    rw [hstopAt] at hstop ⊢
    exact hfit _ (getElem_mem hlt) hstop
  · intro r hr
    rw [hrec] at hr
    rcases mem_append.mp hr with hr | hr
    · exact (h.started r hr).trans hp
    · rw [mem_singleton.mp hr, hspan]
  · intro k r hr
    rw [hrec] at hr ⊢
    rcases Nat.lt_or_ge k st.symbols.length with hk | hk
    · rw [getElem?_append_left hk] at hr
      rw [around_append hk.le]
      exact (h.symbols k r hr).append rec
    · obtain ⟨hk', rfl⟩ := List.getElem?_eq_some_iff.mp hr
      obtain rfl : k = st.symbols.length := by
        rw [length_append, length_singleton] at hk'
        omega
      rw [around_append le_rfl, getElem_concat_length rfl, hspan, hpar]
      exact hchain.append rec
  · intro t ht
    rw [hrec, around_append_later (hspan ▸ hafter t ht)]
    exact (h.tokens t ht).append rec

theorem NestInv.pushTok {t : TokenDecl} (hp : pos ≤ t.span.start) :
    NestInv (pushTok st t) t.span.start := by
  obtain ⟨lo, hi, hbase⟩ := h.base
  obtain ⟨hi', hbase'⟩ := pushTok_inv hbase t
  refine ⟨⟨lo, hi', hbase'⟩, h.tracks.closed hp, fun s hs => (h.started s hs).trans hp, h.symbols,
    fun r hr => ?_⟩
  rcases mem_append.mp hr with hr | hr
  · exact h.tokens r hr
  · rw [mem_singleton.mp hr]
    exact h.chain_at hn hp

end

abbrev itemSpan (it : SymbolDecl ⊕ TokenDecl) : Span := it.elim SymbolDecl.span TokenDecl.span

structure Follows (a b : SymbolDecl ⊕ TokenDecl) : Prop where
  start : (itemSpan a).start ≤ (itemSpan b).start
  fits : ∀ s, a = .inl s → (itemSpan b).Fits s.span.stop
  later : ∀ t s, a = .inr t → b = .inl s → t.span.start < s.span.start

theorem foldl_pushItem_nest (items : List (SymbolDecl ⊕ TokenDecl)) :
    ∀ (st : BuildState) (pos : U32), NestInv st pos →
      st.symbols.length + (items.filterMap Sum.getLeft?).length ≤ 4294967296 →
    (∀ it ∈ items, pos ≤ (itemSpan it).start ∧ (∀ r ∈ st.symbols, (itemSpan it).Fits r.span.stop) ∧
      ∀ t ∈ st.tokens, ∀ s, it = .inl s → t.span.start < s.span.start) →
    items.Pairwise Follows → ∃ pos', NestInv (items.foldl pushItem st) pos' := by
  induction items with
  | nil => exact fun st pos h _ _ _ => ⟨pos, h⟩
  | cons it items ih =>
    intro st pos h hlen hafter hpair
    obtain ⟨hp, hfit, hlater⟩ := hafter it mem_cons_self
    obtain ⟨hhead, hpair'⟩ := pairwise_cons.mp hpair
    cases it with
    | inl s =>
      have hlen' : st.symbols.length + ((items.filterMap Sum.getLeft?).length + 1) ≤ 4294967296 :=
        hlen
      refine ih _ _ (h.pushSym (by omega) hp (by omega) hfit fun t ht =>
        hlater t ht s rfl) ?_ ?_ hpair'
      · rw [length_pushItem, Sum.elim_inl]
        omega
      · intro x hx
        obtain ⟨-, hfitx, hlaterx⟩ := hafter x (.tail _ hx)
        refine ⟨(hhead x hx).start, fun r hr => ?_, hlaterx⟩
        rcases mem_append.mp hr with hr | hr
        · exact hfitx r hr
        · rw [mem_singleton.mp hr]
          exact (hhead x hx).fits s rfl
    | inr t =>
      refine ih _ _ (h.pushTok (by omega) hp) hlen ?_ hpair'
      intro x hx
      obtain ⟨-, hfitx, hlaterx⟩ := hafter x (.tail _ hx)
      refine ⟨(hhead x hx).start, hfitx, fun r hr s hs => ?_⟩
      rcases mem_append.mp hr with hr | hr
      · exact hlaterx r hr s hs
      · rw [mem_singleton.mp hr]
        exact (hhead x hx).later t s rfl hs

theorem sortedSyms_pairwise (ex : Extraction) :
    (sortedSyms ex).Pairwise (fun a b => symBefore a.span b.span) :=
  pairwise_insertionSort _ _

theorem sortedToks_pairwise (ex : Extraction) :
    (sortedToks ex).Pairwise (fun a b => tokBefore a.span b.span) :=
  pairwise_insertionSort _ _

theorem buildItems_follows (h : ex.WellNested) : (buildItems ex).Pairwise Follows := by
  have hsyms := sortedSyms_pairwise ex
  refine (pairwise_interleave (fun s : SymbolDecl => s.span.start) (fun t : TokenDecl =>
    t.span.start) Follows _ _ (hsyms.imp symBefore.start_le) (sortedToks_pairwise ex)).mpr
    ⟨?_, ?_, ?_⟩
  · refine hsyms.imp_of_mem fun {a b} ha hb hab =>
      ⟨hab.start_le, fun s hs => ?_, fun t s ht => (nomatch ht)⟩
    cases hs
    exact (fits_iff hab).mpr (h.nested a (mem_sortedSyms.mp ha) b (mem_sortedSyms.mp hb))
  · exact (sortedToks_pairwise ex).imp fun hab =>
      ⟨hab, fun s hs => (nomatch hs), fun t s _ hs => (nomatch hs)⟩
  · intro s hs t ht
    refine ⟨fun hle => ⟨hle, fun s' hs' hlt => ?_, fun t' s' ht' => (nomatch ht')⟩,
      fun hlt => ⟨hlt.le, fun s' hs' => (nomatch hs'), fun t' s' ht' hs' => ?_⟩⟩
    · cases hs'
      exact h.inside s (mem_sortedSyms.mp hs) t (mem_sortedToks.mp ht) ⟨hle, hlt⟩
    · cases ht'
      cases hs'
      exact hlt

theorem exists_nestInv (hn : ex.symbols.length ≤ 4294967296) (h : ex.WellNested) :
    ∃ pos, NestInv (buildLoop ex) pos := by
  refine foldl_pushItem_nest (buildItems ex) _ 0 nestInv_init ?_ ?_ (buildItems_follows h)
  · rw [buildItems, (filterMap_interleave ..).1, sortedSyms, length_insertionSort]
    simpa using hn
  · intro it _
    exact ⟨Fin.zero_le _, fun r hr => absurd hr not_mem_nil, fun t ht => absurd ht not_mem_nil⟩

def symOrder (a b : SymbolDecl × Nat) : Prop :=
  a.1.span.start < b.1.span.start ∨ a.1.span.start = b.1.span.start ∧
    (b.1.span.stop < a.1.span.stop ∨ a.1.span.stop = b.1.span.stop ∧ a.2 < b.2)

def tokOrder (a b : TokenDecl × Nat) : Prop :=
  a.1.span.start < b.1.span.start ∨ a.1.span.start = b.1.span.start ∧ a.2 < b.2

theorem symOrder_of_stable {a b : SymbolDecl × Nat}
    (h : StableOrder (fun a b : SymbolDecl => symBefore a.span b.span) a b) : symOrder a b := by
  rcases h.1 with hlt | ⟨heq, hle⟩
  · exact Or.inl hlt
  · rcases hle.lt_or_eq with hlt | hstop
    · exact Or.inr ⟨heq, Or.inl hlt⟩
    · exact Or.inr ⟨heq, Or.inr ⟨hstop.symm, h.2 (Or.inr ⟨heq.symm, hstop.ge⟩)⟩⟩

theorem tokOrder_of_stable {a b : TokenDecl × Nat}
    (h : StableOrder (fun a b : TokenDecl => tokBefore a.span b.span) a b) : tokOrder a b := by
  rcases (show a.1.span.start ≤ b.1.span.start from h.1).lt_or_eq with hlt | heq
  · exact Or.inl hlt
  · exact Or.inr ⟨heq, h.2 heq.ge⟩

/-- The stream holds the symbols and tokens in their order, and the parents of any of them are
exactly the earlier symbols that contain its start, innermost first. -/
structure Extraction.LaidAs (ex : Extraction) (prep : V2Prep) : Prop where
  symbols : ∃ order : List (SymbolDecl × Nat), order.Perm ex.symbols.zipIdx ∧
    order.Pairwise symOrder ∧
    List.Forall₂ (fun r d => r.Describes prep.terms d.1) prep.stream.symbols order
  tokens : ∃ order : List (TokenDecl × Nat), order.Perm ex.tokens.zipIdx ∧ order.Pairwise tokOrder ∧
    List.Forall₂ (fun r d => r.Describes prep.terms d.1) prep.stream.tokens order
  symChains : ∀ k s, prep.stream.symbols[k]? = some s →
    Chain prep.stream.symbols s.parent (around prep.stream.symbols k s.span.start)
  tokChains : ∀ t ∈ prep.stream.tokens,
    Chain prep.stream.symbols t.parent
    (around prep.stream.symbols prep.stream.symbols.length t.span.start)

theorem laidAs_build (hn : ex.symbols.length ≤ 4294967296) (h : ex.WellNested) :
    ex.LaidAs (V2Prep.build ex) := by
  obtain ⟨pos, hinv⟩ := exists_nestInv hn h
  have hsp := build_spelled ex
  obtain ⟨syms, hsperm, hsmap, hsord⟩ :=
    exists_stableOrder (fun a b : SymbolDecl => symBefore a.span b.span) ex.symbols
  obtain ⟨toks, htperm, htmap, htord⟩ :=
    exists_stableOrder (fun a b : TokenDecl => tokBefore a.span b.span) ex.tokens
  refine ⟨⟨syms, hsperm, hsord.imp symOrder_of_stable, ?_⟩,
    ⟨toks, htperm, htord.imp tokOrder_of_stable, ?_⟩, hinv.symbols, hinv.tokens⟩
  · have hsym := hsp.symbols
    rw [sortedSyms, ← hsmap, forall₂_map_right_iff] at hsym
    exact hsym
  · have htok := hsp.tokens
    rw [sortedToks, ← htmap, forall₂_map_right_iff] at htok
    exact htok

/-- `validate_spans` accepts what is well nested, and of that the builder makes the tree of
containment, up to 2^32 symbols. -/
theorem spans_checked_and_laid (ex : Extraction) : (validateSpans ex = .ok () ↔ ex.WellNested) ∧
    (validateSpans ex = .ok () → ex.symbols.length ≤ 4294967296 → ex.LaidAs (V2Prep.build ex)) :=
  ⟨validateSpans_iff ex, fun hok hn => laidAs_build hn ((validateSpans_iff ex).mp hok)⟩

theorem spans_checked_and_laid_sample : sampleExtraction.LaidAs (V2Prep.build sampleExtraction) :=
  (spans_checked_and_laid sampleExtraction).2 (by decide) (by decide)

def dotSym : SymbolDecl := ⟨"d", .other, none, ⟨0, 0, 1, 0, 1, 0⟩, none⟩

def boxSym : SymbolDecl := ⟨"b", .function, none, ⟨1, 3, 1, 1, 1, 3⟩, none⟩

def markTok : TokenDecl := ⟨"x", .identifier, ⟨1, 2, 1, 1, 1, 2⟩⟩

def dotsAndBox (k : Nat) : Extraction := ⟨List.replicate k dotSym ++ [boxSym], [markTok], false⟩

theorem wellNested_dotsAndBox (k : Nat) : (dotsAndBox k).WellNested := by
  have hsym : ∀ s ∈ (dotsAndBox k).symbols, s = dotSym ∨ s = boxSym := by
    intro s hs
    rcases mem_append.mp hs with hs | hs
    · exact Or.inl (eq_of_mem_replicate hs)
    · exact Or.inr (mem_singleton.mp hs)
  have htok : ∀ t ∈ (dotsAndBox k).tokens, t = markTok := fun t ht => mem_singleton.mp ht
  refine ⟨fun s hs => ?_, fun t ht => ?_, fun a ha b hb => ?_, fun s hs t ht => ?_⟩
  · rcases hsym s hs with rfl | rfl <;> decide
  · rw [htok t ht]
    decide
  · unfold Span.Nests Span.Inside Span.Apart
    rcases hsym a ha with rfl | rfl <;> rcases hsym b hb with rfl | rfl <;> decide
  · rw [htok t ht]
    rcases hsym s hs with rfl | rfl <;> decide

theorem interleave_singleton_right {α β : Type} {le : α → β → Bool} {as : List α} {b : β}
    (h : ∀ a ∈ as, le a b = true) : interleave le as [b] = as.map .inl ++ [.inr b] := by
  induction as with
  | nil => rw [interleave_nil_left]; rfl
  | cons a as ih =>
    rw [interleave_cons_cons, if_pos (h a mem_cons_self), ih fun a ha => h a (.tail _ ha)]
    rfl

theorem buildItems_dotsAndBox (k : Nat) :
    buildItems (dotsAndBox k) = List.replicate k (.inl dotSym) ++ [.inl boxSym, .inr markTok] := by
  have hsorted : sortedSyms (dotsAndBox k) = (dotsAndBox k).symbols := by
    refine List.Pairwise.insertionSort_eq (pairwise_append.mpr ⟨?_, pairwise_singleton _ _, ?_⟩)
    · exact pairwise_replicate_of_refl
    · intro a ha b hb
      rw [eq_of_mem_replicate ha, mem_singleton.mp hb]
      decide
  have hfirst : ∀ a ∈ (dotsAndBox k).symbols, takeSym a.span markTok.span = true := by
    intro a ha
    rcases mem_append.mp ha with ha | ha
    · rw [eq_of_mem_replicate ha]
      decide
    · rw [mem_singleton.mp ha]
      decide
  rw [buildItems, hsorted]
  refine (@interleave_singleton_right SymbolDecl TokenDecl (fun s t => takeSym s.span t.span)
    _ markTok hfirst).trans ?_
  rw [dotsAndBox, map_append, map_replicate, append_assoc]
  rfl

theorem foldl_dotSym (k : Nat) :
    ∀ st : BuildState, (∀ e ∈ st.opened, e.2 = 0) → (∀ s ∈ st.symbols, s.parent = none) →
    let st' := (replicate k (.inl dotSym : SymbolDecl ⊕ TokenDecl)).foldl pushItem st
    st'.symbols.length = st.symbols.length + k ∧ (∀ e ∈ st'.opened, e.2 = 0) ∧
      (∀ s ∈ st'.symbols, s.parent = none) ∧ st'.tokens = st.tokens := by
  induction k with
  | zero => exact fun st ho hs => ⟨rfl, ho, hs, rfl⟩
  | succ k ih =>
    intro st ho hs
    have hclosed : closeTo dotSym.span.start st.opened = [] := by
      refine dropWhile_eq_nil_iff.mpr fun e he => ?_
      rw [ho e he]
      decide
    obtain ⟨hlen, hopen, hpar, htok⟩ := ih (pushSym st dotSym) (by
      intro e he
      rcases mem_cons.mp he with rfl | he
      · rfl
      · rw [hclosed] at he
        cases he) (by
      intro s hmem
      rcases mem_append.mp hmem with hmem | hmem
      · exact hs s hmem
      · rw [mem_singleton.mp hmem]
        dsimp only
        rw [hclosed]
        rfl)
    have hone : (pushSym st dotSym).symbols.length = st.symbols.length + 1 :=
      length_pushItem st (.inl dotSym)
    refine ⟨?_, hopen, hpar, htok⟩
    rw [hone] at hlen
    exact hlen.trans (by omega)

theorem build_dotsAndBox (k : Nat) : ∃ (dots : List SymRec) (box : SymRec) (mark : TokRec),
    (V2Prep.build (dotsAndBox k)).stream.symbols = dots ++ [box] ∧
    (V2Prep.build (dotsAndBox k)).stream.tokens = [mark] ∧ dots.length = k ∧
    (∀ s ∈ dots, s.parent = none) ∧ box.span = boxSym.span ∧ mark.span = markTok.span ∧
    mark.parent = some (u32 k) := by
  obtain ⟨hlen, hopen, hpar, htok⟩ := foldl_dotSym k ⟨[], [], [], []⟩ (by simp) (by simp)
  have hloop : buildLoop (dotsAndBox k) =
      pushTok (pushSym ((replicate k (.inl dotSym)).foldl pushItem ⟨[], [], [], []⟩) boxSym)
      markTok := by
    rw [buildLoop, buildItems_dotsAndBox, foldl_append]
    rfl
  generalize (replicate k (.inl dotSym : SymbolDecl ⊕ TokenDecl)).foldl pushItem
    ⟨[], [], [], []⟩ = st at *
  have hclosed : closeTo boxSym.span.start st.opened = [] := by
    refine dropWhile_eq_nil_iff.mpr fun e he => ?_
    rw [hopen e he]
    decide
  have hunder : closeTo markTok.span.start (pushSym st boxSym).opened =
      [(u32 st.symbols.length, 3)] := by
    have hstack : (pushSym st boxSym).opened = [(u32 st.symbols.length, 3)] := by
      unfold pushSym
      dsimp only
      rw [hclosed]
      rfl
    have hopen : ¬ decide ((3 : U32) ≤ markTok.span.start) = true := by decide
    rw [hstack, closeTo, dropWhile_cons, if_neg hopen]
  rw [length_nil, Nat.zero_add] at hlen
  have hsyms : ∃ box : SymRec, (pushSym st boxSym).symbols = st.symbols ++ [box] ∧
      box.span = boxSym.span :=
    ⟨_, rfl, rfl⟩
  have htoks : ∃ mark : TokRec, (pushTok (pushSym st boxSym) markTok).tokens = st.tokens ++ [mark] ∧
      mark.span = markTok.span ∧
      mark.parent = (closeTo markTok.span.start (pushSym st boxSym).opened).head?.map Prod.fst :=
      ⟨_, rfl, rfl, rfl⟩
  obtain ⟨box, hbox, hboxspan⟩ := hsyms
  obtain ⟨mark, hmark, hmarkspan, hparent⟩ := htoks
  rw [htok, nil_append] at hmark
  rw [hunder, hlen] at hparent
  refine ⟨st.symbols, box, mark, ?_, ?_, hlen, hpar, hboxspan, hmarkspan, hparent⟩
  · rw [V2Prep.build, hloop]
    exact hbox
  · rw [V2Prep.build, hloop]
    exact hmark

theorem laidAs_dotsAndBox : validateSpans (dotsAndBox (2 ^ 32)) = .ok () ∧
    ¬ (dotsAndBox (2 ^ 32)).LaidAs (V2Prep.build (dotsAndBox (2 ^ 32))) := by
  refine ⟨(validateSpans_iff _).mpr (wellNested_dotsAndBox _), fun hlaid => ?_⟩
  obtain ⟨dots, box, mark, hsyms, htoks, hlen, hpar, hbox, hmark, hparent⟩ :=
    build_dotsAndBox (2 ^ 32)
  have hchain := hlaid.tokChains mark (by rw [htoks]; exact List.mem_singleton.mpr rfl)
  rw [hsyms, hparent] at hchain
  -- parents lead to the first symbol, the token lies in the last
  have hzero : Chain (dots ++ [box]) (some (u32 (2 ^ 32))) [0] := by
    have h0 : (0 : Nat) < dots.length := by rw [hlen]; decide
    have hget : (dots ++ [box])[(u32 (2 ^ 32)).val]? = some dots[0] := by
      rw [show (u32 (2 ^ 32)).val = 0 from rfl, List.getElem?_append_left h0,
        List.getElem?_eq_getElem h0]
    have hup := Chain.up hget (by rw [hpar _ (List.getElem_mem h0)]; exact .top)
    exact hup
  have hin : 2 ^ 32 ∈ around (dots ++ [box]) (dots ++ [box]).length mark.span.start := by
    refine List.mem_filter.mpr ⟨List.mem_reverse.mpr (List.mem_range.mpr ?_), ?_⟩
    · rw [List.length_append, hlen]
      exact Nat.lt_succ_self _
    · rw [List.getElem?_append_right hlen.le, hlen, Nat.sub_self, hmark]
      simp [hbox, Span.Contains]
      decide
  rw [hchain.unique hzero] at hin
  simp at hin

end MemoryGraph
