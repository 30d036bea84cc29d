import MemoryGraph.Lib.Scanning
import MemoryGraph.Lex.Tokens
import MemoryGraph.Prep.Spans

/-! The helpers of `graph_core::scan`: symbols that run from one code token to another pass the
span check of the store if the positions are nested or apart. -/

namespace MemoryGraph.Lang
open Lib List

def spanBetween (first last : Span) : Span :=
  { first with stop := last.stop, endLine := last.endLine, endCol := last.endCol }

@[simp] theorem spanBetween_start (a b : Span) : (spanBetween a b).start = a.start := rfl

@[simp] theorem spanBetween_stop (a b : Span) : (spanBetween a b).stop = b.stop := rfl

def opensBracket (t : TokenDecl) : Bool := ["(", "[", "\x7b"].contains t.text

def closesBracket (t : TokenDecl) : Bool := [")", "]", "\x7d"].contains t.text

def isTrivia (t : TokenDecl) : Bool := t.cls = .comment || t.cls = .literal

def closerFor : String → Option String
  | "(" => some ")"
  | "[" => some "]"
  | "\x7b" => some "\x7d"
  | _ => none

def codeOf (tokens : List TokenDecl) : List (TokenDecl × Nat) := tokens.zipIdx.filter fun t =>
    t.1.cls ≠ .comment

def codeIndex (tokens : List TokenDecl) : List Nat := (codeOf tokens).map Prod.snd

def codeTokens (tokens : List TokenDecl) : List TokenDecl := (codeOf tokens).map Prod.fst

theorem codeTokens_sublist (tokens : List TokenDecl) : (codeTokens tokens).Sublist tokens := by
  have := (filter_sublist (p := fun t => decide (t.1.cls ≠ .comment)) (l := tokens.zipIdx)).map
    Prod.fst
  rwa [zipIdx_map_fst] at this

theorem codeIndex_sublist (tokens : List TokenDecl) :
    (codeIndex tokens).Sublist (List.range' 0 tokens.length) := by
  have := (filter_sublist (p := fun t => decide (t.1.cls ≠ .comment)) (l := tokens.zipIdx)).map
    Prod.snd
  rwa [zipIdx_map_snd] at this

def markStep (isKeyword : String → Bool) (isEscaped : List TokenDecl → Nat → Bool)
    (tokens : List TokenDecl) (i : Nat) : List TokenDecl :=
  tokens.modify i fun t => if t.cls = .identifier && isKeyword t.text &&
    !isEscaped tokens i then { t with cls := .keyword } else t

def markKeywords (isKeyword : String → Bool) (isEscaped : List TokenDecl → Nat → Bool)
    (tokens : List TokenDecl) : List TokenDecl :=
  (List.range tokens.length).foldl (markStep isKeyword isEscaped) tokens

theorem markKeywords_kept (isKeyword : String → Bool) (isEscaped : List TokenDecl → Nat → Bool)
    (tokens : List TokenDecl) :
    (markKeywords isKeyword isEscaped tokens).map (fun t => (t.text, t.span)) = tokens.map fun t =>
    (t.text, t.span) := by
  rw [markKeywords]
  generalize range tokens.length = is
  induction is generalizing tokens with
  | nil => rfl
  | cons i is ih =>
    rw [foldl_cons, ih, markStep]
    apply ext_getElem?
    intro j
    rw [getElem?_map, getElem?_map, getElem?_modify]
    cases tokens[j]? with
    | none => rfl
    | some t =>
      simp only [Option.map_eq_map, Option.map_some]
      split_ifs <;> rfl

theorem markKeywords_spans (isKeyword : String → Bool) (isEscaped : List TokenDecl → Nat → Bool)
    (tokens : List TokenDecl) :
    (markKeywords isKeyword isEscaped tokens).map TokenDecl.span = tokens.map TokenDecl.span := by
  have hkept := congrArg (map Prod.snd) (markKeywords_kept isKeyword isEscaped tokens)
  rwa [map_map, map_map] at hkept

structure Decl where
  name : String
  kind : SymbolKind
  langKind : String
  owner : Option String := none
deriving DecidableEq, Repr

def declare (units : List Span) (p : Piece Decl) : Option SymbolDecl := do
  let first ← units[p.first]?
  let last ← units[p.last]?
  return ⟨p.what.name, p.what.kind, some p.what.langKind, spanBetween first last, p.what.owner⟩

structure InOrder (spans : List Span) : Prop where
  nonempty : ∀ s ∈ spans, s.start < s.stop
  ordered : spans.Pairwise fun a b => a.stop ≤ b.start

theorem InOrder.of_tiles {u : Lex.Unicode} {src : List Char} {toks : List TokenDecl}
    (h : Lex.Tiles u src toks) : InOrder (toks.map TokenDecl.span) := by
  refine ⟨fun s hs => ?_, pairwise_map.mpr h.ordered⟩
  obtain ⟨t, ht, rfl⟩ := mem_map.mp hs
  obtain ⟨pre, text, post, hp⟩ := h.located t ht
  rw [Fin.lt_def, hp.start, hp.stop, Utf8.byteLen_append]
  have := Utf8.byteLen_pos hp.ne_nil
  omega

theorem InOrder.of_covers {u : Lex.Unicode} {src : List Char} {toks : List TokenDecl}
    (h : Lex.Covers u src toks) : InOrder (toks.map TokenDecl.span) := .of_tiles h.tiles

theorem InOrder.apart {spans : List Span} (h : InOrder spans) {a b : Span} (ha : a ∈ spans)
    (hb : b ∈ spans) : a = b ∨ a.stop ≤ b.start ∨ b.stop ≤ a.start := by
  have hpair : spans.Pairwise fun a b => a.stop ≤ b.start ∨ b.stop ≤ a.start := h.ordered.imp .inl
  have : Std.Symm fun a b : Span => a.stop ≤ b.start ∨ b.stop ≤ a.start := ⟨fun _ _ => Or.symm⟩
  by_cases heq : a = b
  · exact .inl heq
  · exact .inr (hpair.forall ha hb heq)

theorem InOrder.stop_le {units : List Span} (h : InOrder units) {i j : Nat} {a b : Span}
    (ha : units[i]? = some a) (hb : units[j]? = some b) (hlt : i < j) : a.stop ≤ b.start := by
  obtain ⟨hi, rfl⟩ := List.getElem?_eq_some_iff.mp ha
  obtain ⟨hj, rfl⟩ := List.getElem?_eq_some_iff.mp hb
  exact pairwise_iff_getElem.mp h.ordered i j hi hj hlt

theorem InOrder.mono {units : List Span} (h : InOrder units) {i j : Nat} {a b : Span}
    (ha : units[i]? = some a) (hb : units[j]? = some b) (hle : i ≤ j) :
    a.start ≤ b.start ∧ a.stop ≤ b.stop := by
  have hna := (h.nonempty a (mem_of_getElem? ha)).le
  have hnb := (h.nonempty b (mem_of_getElem? hb)).le
  rcases hle.lt_or_eq with hlt | rfl
  · have := h.stop_le ha hb hlt
    exact ⟨hna.trans this, this.trans hnb⟩
  · obtain rfl := Option.mem_unique ha hb
    exact ⟨le_rfl, le_rfl⟩

structure Units (spans units : List Span) : Prop where
  inOrder : InOrder units
  last : ∀ s ∈ units, ∃ t ∈ spans, t.stop = s.stop

def Declares (units : List Span) (p : Piece Decl) (s : SymbolDecl) : Prop :=
  ∃ first last, units[p.first]? = some first ∧ units[p.last]? = some last ∧
    s = ⟨p.what.name, p.what.kind, some p.what.langKind, spanBetween first last, p.what.owner⟩

section
variable {spans units : List Span} {p q : Piece Decl} {r s : SymbolDecl}

theorem Declares.start_le (h : InOrder units) (hp : Declares units p r) (hq : Declares units q s)
    (hle : p.first ≤ q.first) : r.span.start ≤ s.span.start := by
  obtain ⟨a, b, ha, hb, rfl⟩ := hp
  obtain ⟨c, d, hc, hd, rfl⟩ := hq
  exact (h.mono ha hc hle).1

theorem Declares.inside (h : InOrder units) (hp : Declares units p r) (hq : Declares units q s)
    (hin : p.first ≤ q.first ∧ q.last ≤ p.last) : s.span.Inside r.span := by
  refine ⟨hp.start_le h hq hin.1, ?_⟩
  obtain ⟨a, b, ha, hb, rfl⟩ := hp
  obtain ⟨c, d, hc, hd, rfl⟩ := hq
  exact (h.mono hd hb hin.2).2

theorem Declares.before (h : InOrder units) (hp : Declares units p r) (hq : Declares units q s)
    (hlt : p.last < q.first) : r.span.stop ≤ s.span.start := by
  obtain ⟨a, b, ha, hb, rfl⟩ := hp
  obtain ⟨c, d, hc, hd, rfl⟩ := hq
  have := h.stop_le hb hc hlt
  exact this

theorem Declares.nests (h : InOrder units) (hp : Declares units p r) (hq : Declares units q s)
    (hn : p.Nests q) : r.span.Nests s.span := by
  rcases hn with hin | hin | hlt | hlt
  · exact .inr (.inl (hp.inside h hq hin))
  · exact .inl (hq.inside h hp hin)
  · exact .inr (.inr (.inl (hp.before h hq hlt)))
  · exact .inr (.inr (.inr (hq.before h hp hlt)))

theorem Declares.nonempty (h : InOrder units) (hp : Declares units p r) (hle : p.first ≤ p.last) :
    r.span.start < r.span.stop := by
  obtain ⟨a, b, ha, hb, rfl⟩ := hp
  exact (h.nonempty a (mem_of_getElem? ha)).trans_le (h.mono ha hb hle).2

theorem declare_ends (hp : p.first < units.length) (hq : p.last < units.length) :
    Ends (declare units p) (Declares units p) := by
  apply (Ends.getElem? hp).bind
  intro a ha
  apply (Ends.getElem? hq).bind
  intro b hb
  exact Ends.pure ⟨a, b, ha, hb, rfl⟩

def AtTokens (toks : List TokenDecl) (syms : List SymbolDecl) : Prop :=
  ∀ s ∈ syms, (∃ t ∈ toks, t.span.start = s.span.start) ∧ ∃ t ∈ toks, t.span.stop = s.span.stop

theorem Declares.crossing (h : InOrder units) (hp : Declares units p r) (hq : Declares units q s)
    (hfirst : p.first < q.first) (hin : q.first ≤ p.last) (hout : p.last < q.last) :
    ¬r.span.Nests s.span := by
  obtain ⟨a, b, ha, hb, rfl⟩ := hp
  obtain ⟨c, d, hc, hd, rfl⟩ := hq
  have hac : a.start < c.start :=
    (h.nonempty a (mem_of_getElem? ha)).trans_le (h.stop_le ha hc hfirst)
  have hcb : c.start < b.stop :=
    (h.nonempty c (mem_of_getElem? hc)).trans_le (h.mono hc hb hin).2
  have hbd : b.stop < d.stop :=
    (h.stop_le hb hd hout).trans_lt (h.nonempty d (mem_of_getElem? hd))
  rintro (hin | hin | hapart | hapart)
  · exact absurd hin.1 (not_le.mpr hac)
  · exact absurd hin.2 (not_le.mpr hbd)
  · exact absurd hapart (not_le.mpr hcb)
  · exact absurd hapart (not_le.mpr (hac.trans (hcb.trans hbd)))

theorem Declares.nests_iff (h : InOrder units) (hp : Declares units p r) (hq : Declares units q s) :
    r.span.Nests s.span ↔ p.Nests q := by
  refine ⟨fun hn => ?_, hp.nests h hq⟩
  by_contra hcross
  rcases Piece.crossing hcross with ⟨h1, h2, h3⟩ | ⟨h1, h2, h3⟩
  · exact hp.crossing h hq h1 h2 h3 hn
  · exact hq.crossing h hp h1 h2 h3 (Std.Symm.symm _ _ hn)

/-- The symbols of pieces pass the span check exactly when the pieces are nested or apart. -/
theorem extraction_of_pieces {ps : List (Piece Decl)}
    (hw : ∀ p ∈ ps, p.first ≤ p.last ∧ p.last < units.length) {toks : List TokenDecl}
    (ht : InOrder (toks.map TokenDecl.span)) (hu : Units (toks.map TokenDecl.span) units)
    (e : Bool) :
    Ends (ps.mapM (declare units)) fun syms =>
      (⟨syms, toks, e⟩ : Extraction).WellNested ↔ ∀ p ∈ ps, ∀ q ∈ ps, p.Nests q := by
  refine (Ends.forall₂ fun p hp => declare_ends (by have := hw p hp; omega) (hw p hp).2).mono
    fun syms hsyms => ?_
  have hof : ∀ s ∈ syms, ∃ p ∈ ps, Declares units p s := fun s hs => exists_of_forall₂ hsyms.flip hs
  constructor
  · intro hwell p hp q hq
    obtain ⟨r, hr, hpr⟩ := exists_of_forall₂ hsyms hp
    obtain ⟨s, hs, hqs⟩ := exists_of_forall₂ hsyms hq
    exact (hpr.nests_iff hu.inOrder hqs).mp (hwell.nested r hr s hs)
  · intro hnest
    refine ⟨fun s hs => ?_, fun t ht' => ?_, fun a ha b hb => ?_, fun s hs t ht' hin => ?_⟩
    · obtain ⟨p, hp, hdecl⟩ := hof s hs
      exact (hdecl.nonempty hu.inOrder (hw p hp).1).le
    · exact (ht.nonempty _ (mem_map_of_mem ht')).le
    · obtain ⟨p, hp, hdp⟩ := hof a ha
      obtain ⟨q, hq, hdq⟩ := hof b hb
      exact hdp.nests hu.inOrder hdq (hnest p hp q hq)
    · -- the symbol ends with a token, and tokens do not overlap
      obtain ⟨p, hp, a, b, ha, hb, rfl⟩ := hof s hs
      obtain ⟨l, hl, hstop⟩ := hu.last b (mem_of_getElem? hb)
      show t.span.stop ≤ b.stop
      rw [← hstop]
      have hlt : t.span.start < l.stop := hstop ▸ hin.2
      rcases ht.apart (mem_map_of_mem ht') hl with heq | hle | hle
      · rw [heq]
      · exact hle.trans (ht.nonempty l hl).le
      · exact absurd hlt (not_lt.mpr hle)

end

end MemoryGraph.Lang
