import MemoryGraph.Lang.Scan

/-! The Python extractor: symbols by logical lines and their indentation. The span of a definition
starts at a decorator that is still pending, wherever that stands. -/

namespace MemoryGraph.Lang.Python
open Lib List
variable {all : List Line}

def tokenizer : Lex.TokenizerOptions where
  singleQuoteStrings := true
  noLineSlashComments := true
  noBlockSlashComments := true
  hashComments := true
  tripleQuoteStrings := true
  pythonStringPrefixes := true

def keywords : List String :=
  ["False", "None", "True", "and", "as", "assert", "async", "await", "break", "class", "continue",
    "def", "del", "elif", "else", "except", "finally", "for", "from", "global", "if", "import",
    "in", "is", "lambda", "nonlocal", "not", "or", "pass", "raise", "return", "try", "while",
    "with", "yield"]

structure Line where
  first : TokenDecl
  rest : List TokenDecl

namespace Line
variable (l : Line)

def toks : List TokenDecl := l.first :: l.rest

def last : TokenDecl := l.rest.getLastD l.first

def col : U32 := l.first.span.startCol

def text (k : Nat) : Option String := l.toks[k]?.map TokenDecl.text

def isIdent (k : Nat) : Bool := l.toks[k]?.any fun t => t.cls = .identifier

def decorator : Bool := l.first.text = "@"

def span : Span := spanBetween l.first.span l.last.span

end Line

def bracketDepth (depth : Nat) (t : TokenDecl) : Nat :=
  if t.cls = .literal then depth
  else if opensBracket t then depth + 1
  else if closesBracket t then depth - 1
  else depth

def linesFrom (l : Line) (prev : TokenDecl) (depth : Nat) : List TokenDecl → List Line
  | [] => [l]
  | t :: ts =>
    if prev.span.endLine < t.span.startLine && prev.text != "\\" && depth == 0 then
      l :: linesFrom ⟨t, []⟩ t (bracketDepth depth t) ts
    else linesFrom ⟨l.first, l.rest ++ [t]⟩ t (bracketDepth depth t) ts

def logicalLines : List TokenDecl → List Line
  | [] => []
  | t :: ts => linesFrom ⟨t, []⟩ t (bracketDepth 0 t) ts

def unbalanced : List TokenDecl → List String → Bool
  | [], stack => !stack.isEmpty
  | t :: ts, stack =>
    if t.cls = .literal then unbalanced ts stack
    else match closerFor t.text with
      | some c => unbalanced ts (c :: stack)
      | none =>
          if closesBracket t then stack.head? != some t.text || unbalanced ts stack.tail
            else unbalanced ts stack

def misindented : List Line → List U32 → Bool → Bool
  | [], _, blockExpected => blockExpected
  | l :: ls, levels, blockExpected =>
    let top := levels.headD 1
    let expected := l.last.text = ":"
    if blockExpected then l.col ≤ top || misindented ls (l.col :: levels) expected
    else if l.col > top then true
    else
      let levels := levels.dropWhile (· > l.col)
      levels.head? != some l.col || misindented ls levels expected

def hasSyntaxErrors (code : List TokenDecl) (lines : List Line) : Bool :=
  unbalanced code [] || misindented lines [1] false

def isConstantName (name : String) : Bool :=
  name.toList.any Char.isUpper && name.toList.all fun c => c.isUpper || c.isDigit || c == '_'

def assignment (l : Line) : Option Nat :=
  (List.range l.toks.length).find? fun e =>
    0 < e && l.text e == some "=" && l.text (e + 1) != some "=" &&
      !(["=", "!", "<", ">", ":"].contains ((l.text (e - 1)).getD ""))

def assigned (l : Line) (top : Bool) : Option Decl :=
  let simple := l.text 1 == some "=" || l.text 1 == some ":"
  if !l.isIdent 0 || !simple then none
  else (assignment l).bind fun eq =>
    if l.text (eq + 1) == some "lambda" && (l.text 1 == some "=" || 2 < eq) then
      some ⟨l.first.text, .function, "lambda", none⟩
    else if top && isConstantName l.first.text then some ⟨l.first.text, .constant, "constant", none⟩
    else none

def header (l : Line) : Option (String × String) :=
  let c := if l.text 0 = some "async" ∧ 1 < l.toks.length then 1 else 0
  match l.text c, l.text (c + 1) with
  | some kw, some name =>
    if ["def", "class"].contains kw && l.isIdent (c + 1) then some (kw, name) else none
  | _, _ => none

/-- The loop of `scan` from line `k` on: open definitions by their last line, innermost first, and
the first line of pending decorators. -/
def scan : List Line → Nat → List (Nat × Bool) → Option Nat → List (Piece Decl)
  | [], _, _, _ => []
  | l :: ls, k, opened, decorators =>
    let opened := opened.dropWhile fun o => o.1 < k
    if l.decorator then scan ls (k + 1) opened (some (decorators.getD k))
    else match header l with
      | some (kw, name) =>
        let last := k + (ls.takeWhile fun b => l.col < b.col).length
        let cls := kw = "class"
        let d : Decl := if cls then ⟨name, .type, "class", none⟩
          else if opened.head?.any Prod.snd then ⟨name, .method, "method", none⟩
          else ⟨name, .function, "function", none⟩
        ⟨d, decorators.getD k, last⟩ :: scan ls (k + 1) ((last, cls) :: opened) none
      | none =>
        match assigned l opened.isEmpty with
        | some d => ⟨d, k, k⟩ :: scan ls (k + 1) opened none
        | none => scan ls (k + 1) opened none

def extract (u : Lex.Unicode) (src : String) : Option Extraction := do
  let tokens ← Lex.tokenizeWith u src tokenizer
  let code := codeTokens tokens
  let lines := logicalLines code
  let hasErrors := hasSyntaxErrors code lines
  let symbols ← (if hasErrors then [] else scan lines 0 [] none).mapM
      (declare (lines.map Line.span))
  return ⟨symbols, markKeywords keywords.contains (fun _ _ => false) tokens, hasErrors⟩

def isDefinition (lines : List Line) (h : Nat) : Bool := lines[h]?.any fun l => (header l).isSome

/-- The first of the decorators right before line `h`. -/
def decorated (lines : List Line) (h : Nat) : Nat :=
  h - ((lines.take h).rtakeWhile Line.decorator).length

/-- The last line of the block of line `h`. -/
def blockEnd (lines : List Line) (h : Nat) : Nat :=
  match lines[h]? with
  | some l => h + ((lines.drop (h + 1)).takeWhile fun b => l.col < b.col).length
  | none => h

/-- A definition whose decorators start in the block of an earlier one is in the block itself. -/
def Attached (lines : List Line) : Prop :=
  ∀ h' < lines.length, ∀ h < h', isDefinition lines h = true → isDefinition lines h' = true →
    decorated lines h' ≤ blockEnd lines h → h' ≤ blockEnd lines h

instance (lines : List Line) : Decidable (Attached lines) :=
  inferInstanceAs (Decidable (∀ h' < lines.length, ∀ h < h', _))

section
variable {ls : List Line} {l : Line} {h h' k : Nat}

theorem getElem?_of_drop (hk : all.drop k = l :: ls) : all[k]? = some l := by
  rw [← Nat.add_zero k, ← getElem?_drop, hk]
  rfl

theorem decorator_of_header (hh : (header l).isSome) : l.decorator = false := by
  cases hl : l.decorator with
  | false => rfl
  | true =>
    have hfirst : l.first.text = "@" := of_decide_eq_true hl
    have htext : l.text 0 = some "@" := congrArg some hfirst
    cases hnext : l.text 1 <;> simp [header, htext, hnext] at hh

theorem decorated_le (lines : List Line) (h : Nat) : decorated lines h ≤ h := Nat.sub_le _ _

theorem decorated_succ (hl : all[k]? = some l) :
    decorated all (k + 1) = if l.decorator then decorated all k else k + 1 := by
  have hlt := lt_of_getElem? hl
  have htake : all.take (k + 1) = all.take k ++ [l] := by rw [take_add_one, hl, Option.toList_some]
  have hle : ((all.take k).rtakeWhile Line.decorator).length ≤ k :=
    ((rtakeWhile_suffix _ _).length_le).trans (length_take_le _ _)
  rw [decorated, htake]
  split
  · next hd =>
    rw [rtakeWhile_concat_pos _ _ _ hd, length_append, decorated]
    exact Nat.add_sub_add_right k 1 _
  · next hd => rw [rtakeWhile_concat_neg _ _ _ hd, length_nil, Nat.sub_zero]

theorem lt_decorated (hl : all[h]? = some l) (hd : l.decorator = false) (hlt : h < h')
    (hlen : h' ≤ all.length) : h < decorated all h' := by
  induction h', hlt using Nat.le_induction with
  | base =>
    rw [decorated_succ hl, hd]
    exact Nat.lt_succ_self h
  | succ n hn ih =>
    have hget : all[n]? = some all[n] := getElem?_eq_getElem hlen
    rw [decorated_succ hget]
    split
    · exact ih (by omega)
    · omega

theorem blockEnd_eq (hk : all.drop k = l :: ls) :
    blockEnd all k = k + (ls.takeWhile fun b => l.col < b.col).length := by
  have htail : all.drop (k + 1) = ls := by
    rw [← tail_drop, hk]
    rfl
  rw [blockEnd, getElem?_of_drop hk]
  dsimp only
  rw [htail]

theorem le_blockEnd (lines : List Line) (h : Nat) : h ≤ blockEnd lines h := by
  unfold blockEnd
  split
  · exact Nat.le_add_right _ _
  · exact le_rfl

theorem takeWhile_spec {α : Type} (f : α → Bool) (l : List α) :
    (∀ i < (l.takeWhile f).length, ∀ b ∈ l[i]?, f b = true) ∧
      ∀ b ∈ l[(l.takeWhile f).length]?, f b = false := by
  induction l with
  | nil => simp
  | cons a l ih =>
    by_cases ha : f a = true
    · rw [takeWhile_cons_of_pos ha]
      refine ⟨fun i hi b hb => ?_, ih.2⟩
      cases i with
      | zero =>
        cases hb
        exact ha
      | succ i => exact ih.1 i (by simpa using hi) b hb
    · rw [takeWhile_cons_of_neg ha]
      refine ⟨nofun, fun b hb => ?_⟩
      cases hb
      exact Bool.eq_false_iff.mpr ha

theorem le_blockEnd_iff (hl : all[h]? = some l) (hlen : h' < all.length) :
    h' ≤ blockEnd all h ↔ ∀ i, h < i → i ≤ h' → ∀ b ∈ all[i]?, l.col < b.col := by
  obtain ⟨hin, hout⟩ := takeWhile_spec (fun b : Line => decide (l.col < b.col)) (all.drop (h + 1))
  have hend : blockEnd all h = h + ((all.drop (h + 1)).takeWhile fun b =>
      decide (l.col < b.col)).length := by
    rw [blockEnd, hl]
  have hget : ∀ i, (all.drop (h + 1))[i]? = all[h + 1 + i]? := fun i => getElem?_drop
  constructor
  · intro hle i hi hile b hb
    obtain ⟨j, rfl⟩ : ∃ j, i = h + 1 + j := ⟨i - h - 1, by omega⟩
    exact of_decide_eq_true (hin j (by omega) b ((hget j).trans hb))
  · intro hdeeper
    by_contra hgt
    -- the line after the block would be in it
    have hlast : all[blockEnd all h + 1]? = some all[blockEnd all h + 1] :=
      getElem?_eq_getElem (by omega)
    have hnot := hout _ (((hget _).trans (congrArg (all[·]?) (by omega))).trans hlast)
    exact of_decide_eq_false hnot
      (hdeeper _ (by have := le_blockEnd all h; omega) (by omega) _ hlast)

theorem blockEnd_lt (hh : h < all.length) : blockEnd all h < all.length := by
  have hl : all[h]? = some all[h] := getElem?_eq_getElem hh
  have htake : ((all.drop (h + 1)).takeWhile fun b => decide (all[h].col < b.col)).length ≤
      all.length - (h + 1) := by
    rw [← length_drop]
    exact (List.takeWhile_prefix _).length_le
  rw [blockEnd, hl]
  dsimp only
  omega

theorem blockEnd_le (hlt : h < h') (hin : h' ≤ blockEnd all h) (hlen : h' < all.length) :
    blockEnd all h' ≤ blockEnd all h := by
  have hl : all[h]? = some all[h] := getElem?_eq_getElem (by omega)
  have hl' : all[h']? = some all[h'] := getElem?_eq_getElem hlen
  have houter := (le_blockEnd_iff hl hlen).mp hin
  rcases (le_blockEnd all h').eq_or_lt with heq | hmore
  · rwa [← heq]
  have hinner := (le_blockEnd_iff hl' (blockEnd_lt hlen)).mp le_rfl
  refine (le_blockEnd_iff hl (blockEnd_lt hlen)).mpr fun i hi hile b hb => ?_
  rcases Nat.lt_or_ge h' i with hgt | hle
  · exact (houter h' hlt le_rfl _ hl').trans (hinner i hgt hile b hb)
  · exact houter i hi hle b hb

end

structure Lies (all : List Line) (p : Piece Decl) (h : Nat) : Prop where
  lt : h < all.length
  not_decorator : ∀ l ∈ all[h]?, l.decorator = false
  place : isDefinition all h = true ∧ p.first = decorated all h ∧ p.last = blockEnd all h ∨
    p.first = h ∧ p.last = h

theorem Lies.within {p : Piece Decl} {h : Nat} (hp : Lies all p h) :
    p.first ≤ h ∧ h ≤ p.last ∧ p.last < all.length := by
  rcases hp.place with ⟨-, hfirst, hlast⟩ | ⟨hfirst, hlast⟩
  · rw [hfirst, hlast]
    exact ⟨decorated_le all h, le_blockEnd all h, blockEnd_lt hp.lt⟩
  · rw [hfirst, hlast]
    exact ⟨le_rfl, le_rfl, hp.lt⟩

theorem Lies.nests (hall : Attached all) {p q : Piece Decl} {h h' : Nat} (hp : Lies all p h)
    (hq : Lies all q h') (hlt : h < h') : p.Nests q := by
  have hpw := hp.within
  have hqw := hq.within
  have hl : all[h]? = some all[h] := getElem?_eq_getElem (hlt.trans hq.lt)
  have hfirst : h < q.first := by
    rcases hq.place with ⟨-, hfirst, -⟩ | ⟨hfirst, -⟩
    · rw [hfirst]
      exact lt_decorated hl (hp.not_decorator _ hl) hlt hq.lt.le
    · rwa [hfirst]
  rcases Nat.lt_or_ge p.last q.first with hapart | hin
  · exact .inr (.inr (.inl hapart))
  rcases hp.place with ⟨hdef, -, hlast⟩ | ⟨-, hlast⟩
  · refine .inl ⟨by omega, ?_⟩
    rcases hq.place with ⟨hdef', hfirst', hlast'⟩ | ⟨hfirst', hlast'⟩
    · rw [hlast', hlast]
      refine blockEnd_le hlt (hall h' hq.lt h hlt hdef hdef' ?_) hq.lt
      rwa [← hfirst', ← hlast]
    · omega
  · omega

structure Pieces (all : List Line) (k : Nat) (ps : List (Piece Decl)) : Prop where
  lies : ∀ p ∈ ps, ∃ h, k ≤ h ∧ Lies all p h
  nested : Attached all → ps.Pairwise Piece.Nests
  found : ∀ h, k ≤ h → isDefinition all h = true →
    ∃ p ∈ ps, p.first = decorated all h ∧ p.last = blockEnd all h

section
variable {ls : List Line} {l : Line} {k : Nat} {ps : List (Piece Decl)}

theorem Pieces.nil (hk : all.drop k = []) : Pieces all k [] := by
  refine ⟨nofun, fun _ => .nil, fun h hle hdef => ?_⟩
  have hnone : all[h]? = none := getElem?_eq_none ((drop_eq_nil_iff.mp hk).trans hle)
  rw [isDefinition, hnone] at hdef
  exact absurd hdef Bool.false_ne_true

theorem Pieces.skip (hdef : isDefinition all k = false) (h : Pieces all (k + 1) ps) :
    Pieces all k ps := by
  refine ⟨fun p hp => ?_, h.nested, fun h' hle hdef' => h.found h' ?_ hdef'⟩
  · obtain ⟨h', hle, hlies⟩ := h.lies p hp
    exact ⟨h', by omega, hlies⟩
  · rcases hle.eq_or_lt with rfl | hlt
    · rw [hdef] at hdef'
      exact absurd hdef' Bool.false_ne_true
    · exact hlt

theorem Pieces.cons {p : Piece Decl} (hp : Lies all p k)
    (hfound : isDefinition all k = true → p.first = decorated all k ∧ p.last = blockEnd all k)
    (h : Pieces all (k + 1) ps) : Pieces all k (p :: ps) := by
  refine ⟨forall_mem_cons.mpr ⟨⟨k, le_rfl, hp⟩, fun q hq => ?_⟩,
    fun hall => pairwise_cons.mpr ⟨fun q hq => ?_, h.nested hall⟩, fun h' hle hdef => ?_⟩
  · obtain ⟨h', hle, hlies⟩ := h.lies q hq
    exact ⟨h', by omega, hlies⟩
  · obtain ⟨h', hle, hlies⟩ := h.lies q hq
    exact hp.nests hall hlies hle
  · rcases hle.eq_or_lt with rfl | hlt
    · exact ⟨p, mem_cons_self, hfound hdef⟩
    · obtain ⟨q, hq, hplace⟩ := h.found h' hlt hdef
      exact ⟨q, mem_cons_of_mem p hq, hplace⟩

end

theorem scan_pieces (ls : List Line) :
    ∀ (k : Nat) (opened : List (Nat × Bool)) (decorators : Option Nat), all.drop k = ls →
      decorators.getD k = decorated all k → Pieces all k (scan ls k opened decorators) := by
  induction ls with
  | nil => exact fun k opened decorators hk _ => .nil hk
  | cons l ls ih =>
    intro k opened decorators hk hdec
    have hl := getElem?_of_drop hk
    have hk' : all.drop (k + 1) = ls := by
      rw [← tail_drop, hk]
      rfl
    have hdef : isDefinition all k = (header l).isSome := by rw [isDefinition, hl, Option.any_some]
    rw [scan]
    split
    · next hd =>
      refine (ih (k + 1) _ _ hk' ?_).skip ?_
      · rw [decorated_succ hl, if_pos hd]
        exact hdec
      · rw [hdef, Bool.eq_false_iff]
        intro hh
        rw [decorator_of_header hh] at hd
        exact Bool.false_ne_true hd
    · next hd =>
      have hlies : ∀ {p : Piece Decl}, (isDefinition all k = true ∧ p.first = decorated all k ∧
          p.last = blockEnd all k ∨ p.first = k ∧ p.last = k) → Lies all p k := fun hplace =>
        ⟨lt_of_getElem? hl, fun x hx => Option.mem_unique hl hx ▸ Bool.eq_false_iff.mpr hd, hplace⟩
      have hnone : (none : Option Nat).getD (k + 1) = decorated all (k + 1) := by
        rw [decorated_succ hl, if_neg hd]
        rfl
      split
      · next kw name hh =>
        have hplace := And.intro hdec (blockEnd_eq hk).symm
        refine .cons (hlies (.inl ⟨?_, hplace⟩)) (fun _ => hplace) (ih (k + 1) _ _ hk' hnone)
        rw [hdef, hh, Option.isSome_some]
      · next hh =>
        have hdef : isDefinition all k = false := by rw [hdef, hh, Option.isSome_none]
        split
        · refine .cons (hlies (.inr ⟨rfl, rfl⟩)) (fun h => ?_) (ih (k + 1) _ _ hk' hnone)
          rw [hdef] at h
          exact absurd h Bool.false_ne_true
        · exact (ih (k + 1) _ _ hk' hnone).skip hdef

theorem Pieces.nests_iff {ps : List (Piece Decl)} (h : Pieces all 0 ps) :
    (∀ p ∈ ps, ∀ q ∈ ps, p.Nests q) ↔ Attached all := by
  constructor
  · intro hnests h₂ hlen h₁ hlt hdef₁ hdef₂ hin
    obtain ⟨p, hp, hpf, hpl⟩ := h.found h₁ (Nat.zero_le _) hdef₁
    obtain ⟨q, hq, hqf, hql⟩ := h.found h₂ (Nat.zero_le _) hdef₂
    obtain ⟨l, hl, hhead⟩ := Option.any_eq_true _ _ |>.mp hdef₁
    have hfirst := lt_decorated hl (decorator_of_header hhead) hlt hlen.le
    have := decorated_le all h₁
    have := le_blockEnd all h₂
    have hn := hnests p hp q hq
    rw [Piece.Nests] at hn
    omega
  · intro hall p hp q hq
    exact (h.nested hall).forall_of_forall (fun _ _ => .inl ⟨le_rfl, le_rfl⟩) hp hq

theorem linesFrom_flatten (ts : List TokenDecl) : ∀ (l : Line) (prev : TokenDecl) (depth : Nat),
    (linesFrom l prev depth ts).flatMap Line.toks = l.toks ++ ts := by
  induction ts with
  | nil => exact fun l prev depth => by simp [linesFrom]
  | cons t ts ih =>
    intro l prev depth
    rw [linesFrom]
    split
    · rw [flatMap_cons, ih]
      rfl
    · rw [ih, Line.toks, Line.toks, cons_append, cons_append, append_assoc]
      rfl

theorem logicalLines_flatten (code : List TokenDecl) :
    (logicalLines code).flatMap Line.toks = code := by
  cases code with
  | nil => rfl
  | cons t ts => exact linesFrom_flatten ts _ _ _

theorem Line.last_mem (l : Line) : l.last ∈ l.toks := by
  rw [Line.last, Line.toks, ← getLast_eq_getLastD (cons_ne_nil _ _)]
  exact getLast_mem _

theorem units_of_lines {toks : List TokenDecl} (h : InOrder (toks.map TokenDecl.span))
    {lines : List Line} (hsub : (lines.flatMap Line.toks).Sublist toks) :
    Units (toks.map TokenDecl.span) (lines.map Line.span) := by
  have hmem : ∀ l ∈ lines, ∀ t ∈ l.toks, t.span ∈ toks.map TokenDecl.span := fun l hl t ht =>
    mem_map_of_mem (hsub.subset (mem_flatMap.mpr ⟨l, hl, ht⟩))
  obtain ⟨hline, hlines⟩ := pairwise_flatMap.mp ((pairwise_map.mp h.ordered).sublist hsub)
  refine ⟨⟨?_, ?_⟩, ?_⟩
  · intro s hs
    obtain ⟨l, hl, rfl⟩ := mem_map.mp hs
    have hfirst := h.nonempty _ (hmem l hl l.first mem_cons_self)
    have hlast := h.nonempty _ (hmem l hl l.last l.last_mem)
    rcases mem_cons.mp l.last_mem with heq | hin
    · show l.first.span.start < l.last.span.stop
      rwa [heq]
    · exact (hfirst.trans_le ((pairwise_cons.mp (hline l hl)).1 _ hin)).trans hlast
  · exact pairwise_map.mpr (hlines.imp fun h => h _ (Line.last_mem _) _ mem_cons_self)
  · intro s hs
    obtain ⟨l, hl, rfl⟩ := mem_map.mp hs
    exact ⟨_, hmem l hl l.last l.last_mem, rfl⟩

theorem scan_nests (err : Bool) (lines : List Line) {ps : List (Piece Decl)}
    (hps : (if err then [] else scan lines 0 [] none) = ps) :
    (∀ p ∈ ps, p.first ≤ p.last ∧ p.last < lines.length) ∧
      ((∀ p ∈ ps, ∀ q ∈ ps, p.Nests q) ↔ err = true ∨ Attached lines) := by
  have hscan := scan_pieces lines 0 [] none rfl rfl
  subst hps
  split_ifs with herr
  · exact ⟨nofun, fun _ => .inl herr, fun _ => nofun⟩
  · refine ⟨fun p hp => ?_, hscan.nests_iff.trans (or_iff_right herr).symm⟩
    obtain ⟨h, -, hlies⟩ := hscan.lies p hp
    have hpw := hlies.within
    exact ⟨hpw.1.trans hpw.2.1, hpw.2.2⟩

/-- The source has syntax errors, or its definitions are attached to their decorators. -/
def Regular (u : Lex.Unicode) (src : String) : Prop :=
  ∀ tokens, Lex.tokenizeWith u src tokenizer = some tokens →
    hasSyntaxErrors (codeTokens tokens) (logicalLines (codeTokens tokens)) = true ∨
      Attached (logicalLines (codeTokens tokens))

/-- The extraction of a source below 4 GiB passes the span check exactly when the source is
regular. -/
theorem extract_accepted (u : Lex.Unicode) (src : String)
    (hlen : Utf8.byteLen src.toList < 4294967296) :
    ∃ ex, extract u src = some ex ∧ (validateSpans ex = .ok () ↔ Regular u src) ∧
      (validateSpans ex = .ok () → (∀ a ∈ ex.symbols, ∀ b ∈ ex.symbols, a.span.Nests b.span) ∧
        ∀ s ∈ ex.symbols, ∀ t ∈ ex.tokens, s.span.Contains t.span.start →
          t.span.stop ≤ s.span.stop) := by
  obtain ⟨tokens, htokens, hlexed⟩ := Lex.tokenizeWith_lexed u src tokenizer
  have horder := InOrder.of_tiles (hlexed.tiles hlen)
  have hunits : Units _ ((logicalLines (codeTokens tokens)).map Line.span) :=
    units_of_lines horder (by rw [logicalLines_flatten]; exact codeTokens_sublist tokens)
  rw [← markKeywords_spans keywords.contains fun _ _ => false] at horder hunits
  have hregular : Regular u src ↔
      hasSyntaxErrors (codeTokens tokens) (logicalLines (codeTokens tokens)) = true ∨
      Attached (logicalLines (codeTokens tokens)) :=
    ⟨fun h => h tokens htokens, fun h tokens' htokens' => Option.mem_unique htokens htokens' ▸ h⟩
  obtain ⟨hwithin, hnests⟩ := scan_nests
    (hasSyntaxErrors (codeTokens tokens) (logicalLines (codeTokens tokens)))
    (logicalLines (codeTokens tokens)) rfl
  rw [← List.length_map (f := Line.span)] at hwithin
  obtain ⟨syms, hsyms, hwell⟩ := extraction_of_pieces hwithin horder hunits
    (hasSyntaxErrors (codeTokens tokens) (logicalLines (codeTokens tokens)))
  refine ⟨_, ?_, (validateSpans_iff _).trans (hwell.trans (hnests.trans hregular.symm)),
    fun hok => ?_⟩
  · rw [extract, htokens, Option.bind_eq_bind, Option.bind_some]
    dsimp only
    rw [hsyms]
    rfl
  · have hnested := (validateSpans_iff _).mp hok
    exact ⟨hnested.nested, hnested.inside⟩

theorem extract_accepted_method : ∃ ex, extract ⟨fun _ => false, fun _ => false, fun _ => false⟩
      "class A:\n    @d\n    def f(self):\n        pass\nB = 1\n" = some ex ∧
      validateSpans ex = .ok () := by
  obtain ⟨ex, hex, hok, -⟩ := extract_accepted ⟨fun _ => false, fun _ => false, fun _ => false⟩
    "class A:\n    @d\n    def f(self):\n        pass\nB = 1\n" (by decide)
  refine ⟨ex, hex, hok.mpr fun tokens htokens => ?_⟩
  have heval : (Lex.tokenizeWith ⟨fun _ => false, fun _ => false, fun _ => false⟩
      "class A:\n    @d\n    def f(self):\n        pass\nB = 1\n" tokenizer).all
      (fun tokens => Attached (logicalLines (codeTokens tokens))) = true := by decide +kernel
  rw [htokens] at heval
  exact .inr (of_decide_eq_true heval)

/-- A decorator at the end of a class and a definition after the class: no syntax error is seen, and
the function starts inside the class and ends after it. -/
theorem dedented_decorator_rejected :
    (extract ⟨fun _ => false, fun _ => false, fun _ => false⟩
      "class A:\n    @d\ndef f():\n    pass\n").map (fun ex => (ex.hasErrors, validateSpans ex)) =
    some (false, .error (.invalidSpan
      "bytes 13..33 partially overlap an enclosing symbol ending at 15")) := by
  decide +kernel

end MemoryGraph.Lang.Python
