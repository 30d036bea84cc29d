import MemoryGraph.Lang.AsmEvents
import MemoryGraph.Lex.Segments
import MemoryGraph.Lib.Decimal
import MemoryGraph.Prep.Nesting

/-! The assembly extractor: symbols from events, trailing comments merged after that, and the
symbols cut back to the tokens that are left. -/

namespace MemoryGraph.Lang.Asm
open Lib List Option

def tokenizer : Lex.TokenizerOptions where
  doubledSingleQuotes := true
  hashComments := true
  hashCommentsLineStartOnly := true
  semicolonComments := true

def blockKind : Block → SymbolKind × String
  | .proc => (.function, "proc")
  | .macros => (.other, "macro")
  | .segment => (.module, "segment")
  | .struct | .struc => (.type, "struct")

structure Opened where
  block : Block
  name : Option String
  first : Nat
  last : Nat

def blockPiece (o : Opened) (last : Nat) : List (Piece Decl) :=
  o.name.toList.map fun n =>
    ⟨⟨n, (blockKind o.block).1, (blockKind o.block).2, none⟩, o.first, last⟩

def headerOnly (o : Opened) : List (Piece Decl) := blockPiece o o.last

def closes (b : Block) (o : Opened) : Bool :=
  match b with
  | .segment => o.block = .segment || o.block = .struct
  | b => o.block = b

def isBoundary : Ev → Bool
  | .label _ | .dataLabel _ | .sect _ | .opened _ _ | .closed _ => true
  | _ => false

def promo (evs : List E) (name : String) : Option (Option Bool × Bool) :=
  match evs.filterMap fun e =>
      match e.ev with | .promote n f => if n = name then some f else none | _ => none with
  | [] => none
  | fs =>
    some (if fs.any Option.isSome then some (fs.any (· == some true)) else none,
      fs.any Option.isNone)

def lastBefore (code : List Nat) (b : Option Nat) : Option Nat :=
  (match b with | some b => code.takeWhile (· < b) | none => code).getLast?

def labelKind (evs : List E) (name : String) (dataLabel : Bool) (own : List E) :
    Option SymbolKind :=
  let kind := if dataLabel then some .variable
    else own.findSome? fun x =>
      match x.ev with | .data => some SymbolKind.variable | .instr => some .function | _ => none
  match promo evs name with
  | some (some true, _) => some .function
  | some (some false, _) => some .variable
  | some (none, true) => if kind.isNone then some .function else kind
  | _ => kind

def labelLast (code : List Nat) (e : E) (dataLabel : Bool) (kind : Option SymbolKind)
    (es own : List E) : Nat :=
  if dataLabel then e.last
  -- a data label ends with its own data directives
  else if kind = some .variable then
    ((own.takeWhile fun x => x.ev = .data).getLast?.map E.last).getD e.last
  else max ((lastBefore code ((es[own.length]?).map E.first)).getD e.last) e.last

def labelPiece (evs : List E) (code : List Nat) (e : E) (name : String) (dataLabel : Bool)
    (es : List E) : List (Piece Decl) :=
  let own := es.takeWhile fun x => !isBoundary x.ev
  let kind := labelKind evs name dataLabel own
  let last := labelLast code e dataLabel kind es own
  match kind with
  | some .function => [⟨⟨name, .function, "label", none⟩, e.first, last⟩]
  | some k => [⟨⟨name, k, "data", none⟩, e.first, last⟩]
  | none => []

def sectionLast (code : List Nat) (e : E) (es : List E) : Nat :=
  let next := es.find? fun x => match x.ev with | .sect _ | .opened .segment _ => true | _ => false
  max ((lastBefore code (next.map E.first)).getD e.last) e.last

def symbolsGo (evs : List E) (code : List Nat) : List E → List Opened → List (Piece Decl)
  | [], stack => stack.reverse.flatMap headerOnly
  | e :: es, stack =>
    match e.ev with
    | .constant n lk => ⟨⟨n, .constant, lk, none⟩, e.first, e.last⟩ :: symbolsGo evs code es stack
    | .sect n =>
        ⟨⟨n, .module, "section", none⟩, e.first, sectionLast code e es⟩ ::
          symbolsGo evs code es stack
    | .label n => labelPiece evs code e n false es ++ symbolsGo evs code es stack
    | .dataLabel n => labelPiece evs code e n true es ++ symbolsGo evs code es stack
    | .opened b n => symbolsGo evs code es (⟨b, n, e.first, e.last⟩ :: stack)
    | .closed b =>
      match stack.dropWhile fun o => !closes b o with
      | [] => symbolsGo evs code es stack
      | o :: rest =>
        (stack.takeWhile fun o => !closes b o).reverse.flatMap headerOnly ++ blockPiece o e.last ++
          symbolsGo evs code es rest
    | .promote _ _ | .data | .instr => symbolsGo evs code es stack

def keepNested : List SymbolDecl → List U32 → List SymbolDecl
  | [], _ => []
  | s :: ss, opened =>
    let opened := opened.dropWhile fun stop => stop ≤ s.span.start
    if opened.head?.any fun stop => stop < s.span.stop then keepNested ss opened
    else s :: keepNested ss (s.span.stop :: opened)

def noPartialOverlap (syms : List SymbolDecl) : List SymbolDecl :=
  keepNested (syms.insertionSort fun a b => symBefore a.span b.span) []

def symbols (tokens : List TokenDecl) : Option (List SymbolDecl) :=
  ((symbolsGo (events tokens) (codeIndex tokens) (events tokens) []).mapM
    (declare (tokens.map TokenDecl.span))).map noPartialOverlap

def isX86Register (name : String) : Bool :=
  let n := name.toLower.toList
  let stem := match n with | 'e' :: s | 'r' :: s => s | s => s
  let numberedGpr := match n with
    | 'r' :: r =>
      (Decimal.digits (r.rdropWhile fun c => c == 'd' || c == 'w' || c == 'b')).any fun v =>
        decide (8 ≤ v) && decide (v ≤ 15)
    | _ => false
  ["al", "ah", "bl", "bh", "cl", "ch", "dl", "dh", "sil", "dil", "spl", "bpl", "cs", "ds", "es",
      "fs", "gs", "ss", "st"].contains (String.ofList n) ||
    ["ax", "bx", "cx", "dx", "si", "di", "sp", "bp", "ip"].contains (String.ofList stem) ||
      numberedGpr ||
    ["xmm", "ymm", "zmm", "mm", "cr", "dr", "st"].any fun p => (n.dropPrefix? p.toList).any fun s =>
      (Decimal.digits s).isSome

def trailingCommentMarker (t : List TokenDecl) : Option String :=
  let glued := (t.zip t.tail).filter fun w => w.1.span.stop == w.2.span.start
  if glued.any fun w => w.1.text == "%" && decide (w.2.cls = .identifier) &&
    isX86Register w.2.text then some "#"
  else if glued.any fun w => w.1.text == "." && ["arm", "thumb", "thumb_func", "syntax"].contains
    w.2.text.toLower then some "@"
  else none

def commentTo (src : List Char) (t : TokenDecl) (stop : Nat) : Option TokenDecl :=
  (Utf8.slice src t.span.start stop).map fun text =>
    { text := String.ofList text
      cls := .comment
      span := { t.span with
        stop := u32 stop
        endLine := t.span.startLine
        endCol := t.span.startCol + u32 (text.countP (· ≠ '\ufeff')) } }

def lineEnd (src : List Char) (t : TokenDecl) : Option Nat :=
  (Utf8.sliceFrom src t.span.start).map fun s =>
    (Utf8.findChar (· == '\n') s).elim (Utf8.byteLen src) (t.span.start.val + ·)

/-- Both loops of `merge_trailing_comments` in one: `skip` tokens are in the last comment. -/
def mergeGo (src : List Char) (marker : String) :
    List TokenDecl → (skip : Nat) → Option (List TokenDecl)
  | [], _ => some []
  | _ :: ts, skip + 1 => mergeGo src marker ts skip
  | t :: ts, 0 =>
    if t.text ≠ marker ∨ isTrivia t then (mergeGo src marker ts 0).map (t :: ·)
    else do
      let stop ← lineEnd src t
      let run := ts.takeWhile fun x => x.span.start.val < stop
      if (run.getLast?.getD t).span.stop.val ≤ stop then
        let c ← commentTo src t stop
        let rest ← mergeGo src marker ts run.length
        return c :: rest
      else (mergeGo src marker ts 0).map (t :: ·)

def inside (tokens : List TokenDecl) (pos : U32) : Option (List TokenDecl) :=
  match tokens.dropWhile fun t => t.span.stop ≤ pos with
  | t :: _ => if t.cls = .comment ∧ t.span.start < pos then some (tokens.takeWhile fun t =>
    t.span.stop ≤ pos) else none
  | [] => none

def clip (tokens : List TokenDecl) (s : SymbolDecl) : Option SymbolDecl :=
  if (inside tokens s.span.start).isSome then none
  else match inside tokens s.span.stop with
    | none => some s
    | some before => (before.reverse.find? fun t => s.span.start < t.span.stop).map fun prev =>
      { s with span := spanBetween s.span prev.span }

def clipToComments (syms : List SymbolDecl) (tokens : List TokenDecl) : List SymbolDecl :=
  noPartialOverlap (syms.filterMap (clip tokens))

def scanned (u : Lex.Unicode) (src : String) : Option (List SymbolDecl × List TokenDecl) := do
  let tokens ← Lex.tokenizeWith u src tokenizer
  let syms ← symbols tokens
  match trailingCommentMarker tokens with
  | some marker =>
    let merged ← mergeGo src.toList marker tokens 0
    return (clipToComments syms merged, merged)
  | none => return (syms, tokens)

/-- Which dotted and which bare words are directives only changes classes. -/
def extract (u : Lex.Unicode) (dotted bare : String → Bool)
    (notDotted notBare : List TokenDecl → Nat → Bool) (src : String) : Option Extraction :=
  (scanned u src).map fun r =>
    ⟨r.1, markKeywords bare notBare (markKeywords dotted notDotted r.2), false⟩

section
variable {evs es : List E} {code : List Nat} {n lo : Nat}

theorem lastBefore_lt (hcode : ∀ i ∈ code, i < n) {b : Option Nat} {i : Nat}
    (h : lastBefore code b = some i) : i < n := by
  unfold lastBefore at h
  split at h
  · exact hcode i ((takeWhile_sublist _).subset (mem_of_getLast? h))
  · exact hcode i (mem_of_getLast? h)

theorem max_lastBefore (hcode : ∀ i ∈ code, i < n) {e : E} (he : e.first ≤ e.last ∧ e.last < n)
    (b : Option Nat) :
    e.first ≤ max ((lastBefore code b).getD e.last) e.last ∧
      max ((lastBefore code b).getD e.last) e.last < n := by
  refine ⟨he.1.trans (le_max_right _ _), max_lt ?_ he.2⟩
  cases h : lastBefore code b with
  | none => exact he.2
  | some i => exact lastBefore_lt hcode h

theorem labelPiece_within (hcode : ∀ i ∈ code, i < n) {e : E} (he : e.first ≤ e.last ∧ e.last < n)
    (hes : Evs e.first n es) (name : String) (dataLabel : Bool) :
    ∀ p ∈ labelPiece evs code e name dataLabel es, p.first ≤ p.last ∧ p.last < n := by
  have hlast : ∀ kind own, own.Sublist es → e.first ≤ labelLast code e dataLabel kind es own ∧
      labelLast code e dataLabel kind es own < n := by
    intro kind own hown
    unfold labelLast
    split_ifs
    · exact he
    · cases h : (own.takeWhile fun x => x.ev = .data).getLast? with
      | none => exact he
      | some x =>
        have := hes.within x (hown.subset ((takeWhile_sublist _).subset (mem_of_getLast? h)))
        exact ⟨this.1.trans this.2.1, this.2.2⟩
    · exact max_lastBefore hcode he _
  intro p hp
  unfold labelPiece at hp
  dsimp only at hp
  split at hp
  · rw [mem_singleton.mp hp]
    exact hlast _ _ (takeWhile_sublist _)
  · rw [mem_singleton.mp hp]
    exact hlast _ _ (takeWhile_sublist _)
  · exact absurd hp not_mem_nil

theorem blockPiece_within {o : Opened} {last : Nat} (h : o.first ≤ last ∧ last < n) :
    ∀ p ∈ blockPiece o last, p.first ≤ p.last ∧ p.last < n := by
  intro p hp
  obtain ⟨name, -, rfl⟩ := mem_map.mp hp
  exact h

theorem symbolsGo_within (hcode : ∀ i ∈ code, i < n) (es : List E) :
    ∀ {lo : Nat} {stack : List Opened}, Evs lo n es →
      (∀ o ∈ stack, o.first ≤ o.last ∧ o.last < n ∧ o.first ≤ lo) →
    ∀ p ∈ symbolsGo evs code es stack, p.first ≤ p.last ∧ p.last < n := by
  have hheaders : ∀ {lo : Nat} {stack : List Opened}, (∀ o ∈ stack, o.first ≤ o.last ∧ o.last < n ∧
      o.first ≤ lo) → ∀ p ∈ stack.reverse.flatMap headerOnly, p.first ≤ p.last ∧ p.last < n := by
    intro lo stack hstack p hp
    obtain ⟨o, ho, hp⟩ := mem_flatMap.mp hp
    have := hstack o (mem_reverse.mp ho)
    exact blockPiece_within ⟨this.1, this.2.1⟩ p hp
  induction es with
  | nil => exact fun _ hstack => hheaders hstack
  | cons e es ih =>
    intro lo stack hevs hstack
    obtain ⟨he, hes⟩ := pairwise_cons.mp hevs.sorted
    have hw := hevs.within e mem_cons_self
    have hrest : Evs e.first n es := ⟨fun x hx => ⟨he x hx, (hevs.within x (.tail _ hx)).2⟩, hes⟩
    have hstack' : ∀ o ∈ stack, o.first ≤ o.last ∧ o.last < n ∧ o.first ≤ e.first := fun o ho =>
      ⟨(hstack o ho).1, (hstack o ho).2.1, (hstack o ho).2.2.trans hw.1⟩
    rw [symbolsGo]
    split
    · exact forall_mem_cons.mpr ⟨hw.2, ih hrest hstack'⟩
    · exact forall_mem_cons.mpr ⟨max_lastBefore hcode hw.2 _, ih hrest hstack'⟩
    · exact forall_mem_append.mpr ⟨labelPiece_within hcode hw.2 hrest _ _, ih hrest hstack'⟩
    · exact forall_mem_append.mpr ⟨labelPiece_within hcode hw.2 hrest _ _, ih hrest hstack'⟩
    · exact ih hrest (forall_mem_cons.mpr ⟨⟨hw.2.1, hw.2.2, le_rfl⟩, hstack'⟩)
    · next b _ =>
      split
      · exact ih hrest hstack'
      · next o rest hdrop =>
        have hmem : ∀ x ∈ o :: rest, x ∈ stack :=
          fun x hx => (dropWhile_sublist _).subset (hdrop ▸ hx)
        refine forall_mem_append.mpr ⟨forall_mem_append.mpr ⟨?_, ?_⟩, ?_⟩
        · exact hheaders fun x hx => hstack' x ((takeWhile_sublist _).subset hx)
        · exact blockPiece_within ⟨(hstack' o (hmem o mem_cons_self)).2.2.trans hw.2.1, hw.2.2⟩
        · exact ih hrest fun x hx => hstack' x (hmem x (.tail _ hx))
    all_goals exact ih hrest hstack'

end

theorem keepNested_sublist (ss : List SymbolDecl) :
    ∀ opened, (keepNested ss opened).Sublist ss := by
  induction ss with
  | nil => exact fun _ => .slnil
  | cons s ss ih =>
    intro opened
    rw [keepNested]
    split
    · exact (ih _).cons s
    · exact (ih _).cons_cons s

theorem keepNested_nested (ss : List SymbolDecl) :
    ∀ {opened done : List U32} {pos : U32}, Tracks id opened done pos →
    (∀ s ∈ ss, pos ≤ s.span.start) → ss.Pairwise (fun a b => symBefore a.span b.span) →
    (∀ s ∈ keepNested ss opened, ∀ e ∈ done, s.span.Fits e) ∧
      (keepNested ss opened).Pairwise fun a b => a.span.Nests b.span := by
  induction ss with
  | nil => exact fun _ _ _ => ⟨nofun, .nil⟩
  | cons s ss ih =>
    intro opened done pos h hpos hsorted
    obtain ⟨hs, hss⟩ := pairwise_cons.mp hsorted
    have hp := hpos s mem_cons_self
    have hpos' : ∀ x ∈ ss, s.span.start ≤ x.span.start := fun x hx => (hs x hx).start_le
    rw [keepNested]
    split
    · exact ih (h.closed hp) hpos' hss
    · next hhead =>
      have hfits : ∀ e ∈ done, s.span.Fits e := by
        rw [← head_fits_iff h hp]
        intro e he
        by_contra hlt
        have he' : (opened.dropWhile fun stop => decide (stop ≤ s.span.start)).head? = some e := he
        rw [he'] at hhead
        exact hhead (decide_eq_true (not_le.mp hlt))
      obtain ⟨hall, hpair⟩ := ih (h.push hp hfits) hpos' hss
      refine ⟨forall_mem_cons.mpr ⟨hfits, fun x hx e he => hall x hx e (.tail _ he)⟩,
        pairwise_cons.mpr ⟨fun x hx => ?_, hpair⟩⟩
      exact (fits_iff (hs x ((keepNested_sublist ss _).subset hx))).mp (hall x hx _ mem_cons_self)

theorem noPartialOverlap_nested (syms : List SymbolDecl) :
    (∀ s ∈ noPartialOverlap syms, s ∈ syms) ∧ ∀ a ∈ noPartialOverlap syms,
    ∀ b ∈ noPartialOverlap syms, a.span.Nests b.span := by
  constructor
  · exact fun s hs => (mem_insertionSort _).mp ((keepNested_sublist _ _).subset hs)
  · have hsorted := sortedSyms_pairwise ⟨syms, [], false⟩
    have hpair := (keepNested_nested _ (tracks_nil 0) (fun _ _ => Fin.zero_le _) hsorted).2
    intro a ha b hb
    exact (pairwise_map.mpr hpair).forall_of_forall (fun a _ => Span.nests_self a)
      (mem_map_of_mem ha) (mem_map_of_mem hb)

section
open Utf8 MemoryGraph.Lex
variable {src : List Char} {t : TokenDecl}

theorem lineEnd_ends {pre text post : List Char} (h : Placed src t pre text post)
    (hline : '\n' ∉ text) :
    Ends (lineEnd src t) fun stop => ∃ line rest,
      src = pre ++ (line ++ rest) ∧ stop = byteLen (pre ++ line) ∧ line ≠ [] ∧ '\n' ∉ line := by
  obtain ⟨line, rest, hsplit, hstop, hrest, hnone⟩ := @Lexer.line_split (text ++ post) (byteLen pre)
    (byteLen src) (by rw [h.split, byteLen_append pre])
  refine ⟨byteLen (pre ++ line), ?_, line, rest, by rw [h.split, hsplit], rfl, ?_, hnone⟩
  · rw [lineEnd, h.start]
    conv_lhs => rw [h.split, sliceFrom_append]
    rw [map_some, ← h.split, hstop, byteLen_append]
  · rintro rfl
    rcases hrest with rfl | ⟨y, rfl⟩
    · exact h.ne_nil (append_eq_nil_iff.mp hsplit).1
    · obtain ⟨c, text', rfl⟩ := exists_cons_of_ne_nil h.ne_nil
      exact hline (by rw [(cons.inj hsplit).1]; exact mem_cons_self)

theorem commentTo_ends (hlen : byteLen src + 1 < 4294967296) {pre text post line rest : List Char}
    (h : Placed src t pre text post) (hsrc : src = pre ++ (line ++ rest)) (hne : line ≠ [])
    (hline : '\n' ∉ line) :
    Ends (commentTo src t (byteLen (pre ++ line))) fun c => Placed src c pre line rest ∧
      c.span.start = t.span.start ∧ c.cls = .comment := by
  have hcol := colAfter_append pre hline
  have hlines := lineAfter_append pre hline
  have hle := colAfter_le (pre ++ line)
  have hstop : byteLen (pre ++ line) ≤ byteLen src := by
    rw [hsrc, ← append_assoc, byteLen_append (pre ++ line)]
    exact Nat.le_add_right _ _
  have hslice : slice src t.span.start (byteLen (pre ++ line)) = some line := by
    rw [h.start, hsrc, slice_append]
  rw [commentTo, hslice, map_some]
  refine ⟨_, rfl, ⟨hsrc, hne, rfl, h.start, val_u32 (by omega), h.startLine, h.startCol, ?_, ?_⟩,
    rfl, rfl⟩
  · rw [hlines]
    exact h.startLine
  · show (t.span.startCol + u32 (line.countP (· ≠ '\ufeff'))).val = _
    rw [Fin.val_add, h.startCol, val_u32 (by omega), hcol]
    exact Nat.mod_eq_of_lt (by omega)

theorem dropWhile_head {α : Type} {p : α → Prop} [DecidablePred p] {l rest : List α} {a : α}
    (h : l.dropWhile (fun x => decide (p x)) = a :: rest) : ¬p a := by
  have hne : l.dropWhile (fun x => decide (p x)) ≠ [] := by
    rw [h]
    exact cons_ne_nil a rest
  have hhead := head_dropWhile_not (fun x => decide (p x)) hne
  simp only [h, head_cons] at hhead
  exact of_decide_eq_false hhead

theorem comment_joins {c : TokenDecl} {ts : List TokenDecl} {stop : Nat}
    (h : InOrder ((t :: ts).map TokenDecl.span)) (hc : ∃ pre text post, Placed src c pre text post)
    (hstart : c.span.start = t.span.start) (hstop : c.span.stop.val = stop)
    (hlast : ((ts.takeWhile fun x => x.span.start.val < stop).getLast?.getD t).span.stop.val ≤
      stop) :
    Joins src (t :: ts.takeWhile fun x => x.span.start.val < stop) c
      (ts.dropWhile fun x => x.span.start.val < stop) := by
  have hordered := pairwise_map.mp h.ordered
  have hpos : ∀ x ∈ t :: ts, x.span.start < x.span.stop :=
    fun x hx => h.nonempty _ (mem_map_of_mem hx)
  have hsub : (t :: ts.takeWhile fun x => x.span.start.val < stop).Sublist (t :: ts) :=
    (takeWhile_sublist _).cons_cons t
  refine ⟨hc, ⟨t, mem_cons_self, hstart.symm⟩, fun r hr => ⟨?_, ?_⟩, fun x hx => ?_⟩
  · rw [hstart]
    rcases mem_cons.mp (hsub.subset hr) with rfl | hr
    · exact le_rfl
    · exact (hpos t mem_cons_self).le.trans ((pairwise_cons.mp hordered).1 r hr)
  · have hstops : (t :: ts.takeWhile fun x => x.span.start.val < stop).Pairwise fun a b =>
        a.span.stop ≤ b.span.stop :=
      (hordered.sublist hsub).imp_of_mem fun _ hb hab => hab.trans (hpos _ (hsub.subset hb)).le
    have : Std.Refl fun a b : TokenDecl => a.span.stop ≤ b.span.stop := ⟨fun _ => le_rfl⟩
    have hle := hstops.rel_getLast hr
    rw [getLast_eq_getLastD, getLastD_eq_getLast?] at hle
    rw [Fin.le_def] at hle ⊢
    omega
  · obtain ⟨y, rest, hdrop⟩ := exists_cons_of_ne_nil (ne_nil_of_mem hx)
    have hy := dropWhile_head hdrop
    have hafter := hordered.sublist
      ((dropWhile_sublist (l := ts) fun x => decide (x.span.start.val < stop)).trans
      (sublist_cons_self t ts))
    rw [hdrop] at hx hafter
    have hyts : y ∈ t :: ts :=
      mem_cons_of_mem t ((dropWhile_sublist _).subset (hdrop ▸ mem_cons_self))
    have hle : y.span.start ≤ x.span.start := by
      rcases mem_cons.mp hx with rfl | hx
      · exact le_rfl
      · exact (hpos y hyts).le.trans ((pairwise_cons.mp hafter).1 x hx)
    rw [Fin.le_def] at hle ⊢
    omega

theorem mergeGo_ends (hlen : byteLen src + 1 < 4294967296) {marker : String}
    (hmarker : '\n' ∉ marker.toList) (ts : List TokenDecl) :
    ∀ skip, (∀ t ∈ ts, ∃ pre text post, Placed src t pre text post) →
    InOrder (ts.map TokenDecl.span) → Ends (mergeGo src marker ts skip) fun out =>
      Merged src (ts.drop skip) out ∧ ∀ t ∈ out, t.cls ≠ .comment → t ∈ ts := by
  induction ts with
  | nil => exact fun skip _ _ => ⟨[], rfl, by rw [drop_nil]; exact .nil, nofun⟩
  | cons t ts ih =>
    intro skip hplaced horder
    obtain ⟨ht, hts⟩ := forall_mem_cons.mp hplaced
    obtain ⟨hafter, hordered⟩ := pairwise_cons.mp (pairwise_map.mp horder.ordered)
    replace ih := fun skip =>
      ih skip hts ⟨fun s hs => horder.nonempty s (.tail _ hs), pairwise_map.mpr hordered⟩
    have hkeep : Ends ((mergeGo src marker ts 0).map (t :: ·)) fun out =>
        Merged src (t :: ts) out ∧ ∀ x ∈ out, x.cls ≠ .comment → x ∈ t :: ts := by
      obtain ⟨out, hout, hm, hcode⟩ := ih 0
      refine ⟨t :: out, by rw [hout]; rfl, .keep rfl rfl ht hafter hm,
        forall_mem_cons.mpr ⟨fun _ => mem_cons_self, fun x hx hc => ?_⟩⟩
      exact mem_cons_of_mem t (hcode x hx hc)
    cases skip with
    | succ skip =>
      obtain ⟨out, hout, hm, hcode⟩ := ih skip
      exact ⟨out, hout, hm, fun x hx hc => mem_cons_of_mem t (hcode x hx hc)⟩
    | zero =>
      rw [mergeGo]
      split_ifs with hskip
      · exact hkeep
      obtain ⟨pre, text, post, hp⟩ := ht
      have hline : '\n' ∉ text := by
        rw [← String.toList_ofList (l := text), ← hp.text_eq, not_not.mp (not_or.mp hskip).1]
        exact hmarker
      apply (lineEnd_ends hp hline).bind
      rintro stop ⟨line, rest, hsrc, rfl, hne, hnl⟩
      dsimp only
      split_ifs with hstop
      swap
      · exact hkeep
      apply (commentTo_ends hlen hp hsrc hne hnl).bind
      rintro c ⟨hc, hstart, hcls⟩
      obtain ⟨out, hout, hm, hcode⟩ :=
        ih (ts.takeWhile fun x => x.span.start.val < byteLen (pre ++ line)).length
      rw [hout]
      refine ⟨c :: out, rfl, ?_, forall_mem_cons.mpr ⟨fun h => absurd hcls h, fun x hx h =>
        mem_cons_of_mem t (hcode x hx h)⟩⟩
      have hsplit := takeWhile_append_dropWhile (p := fun x : TokenDecl =>
        decide (x.span.start.val < byteLen (pre ++ line))) (l := ts)
      have hjoins := comment_joins horder ⟨pre, line, rest, hc⟩ hstart hc.stop hstop
      have hrest : ts.drop (ts.takeWhile fun x => x.span.start.val < byteLen (pre ++ line)).length =
          ts.dropWhile fun x => x.span.start.val < byteLen (pre ++ line) :=
        append_cancel_left ((prefix_iff_eq_append.mp (List.takeWhile_prefix _)).trans hsplit.symm)
      rw [hrest] at hm
      have hjoin := Merged.join hjoins hm
      rw [cons_append, hsplit] at hjoin
      exact hjoin

end

def Clear (spans : List Span) (pos : U32) : Prop := ∀ s ∈ spans, s.start < pos → s.stop ≤ pos

theorem clear_start {spans : List Span} (h : InOrder spans) {a : Span} (ha : a ∈ spans) :
    Clear spans a.start := by
  intro s hs hlt
  rcases h.apart hs ha with rfl | hle | hle
  · exact absurd hlt (lt_irrefl _)
  · exact hle
  · exact absurd (hlt.trans (h.nonempty a ha)) (not_lt.mpr hle)

theorem clear_stop {spans : List Span} (h : InOrder spans) {a : Span} (ha : a ∈ spans) :
    Clear spans a.stop := by
  intro s hs hlt
  rcases h.apart hs ha with rfl | hle | hle
  · exact le_rfl
  · exact hle.trans (h.nonempty a ha).le
  · exact absurd hlt (not_lt.mpr hle)

section
variable {toks : List TokenDecl} {s s' : SymbolDecl}

theorem clear_of_inside (h : InOrder (toks.map TokenDecl.span)) {pos : U32}
    (hcode : ∀ t ∈ toks, t.cls ≠ .comment → t.span.start < pos → t.span.stop ≤ pos)
    (hnone : inside toks pos = none) : Clear (toks.map TokenDecl.span) pos := by
  intro sp hsp hlt
  obtain ⟨x, hx, rfl⟩ := mem_map.mp hsp
  have hordered := pairwise_map.mp h.ordered
  by_contra hstop
  have hdrop : x ∈ toks.dropWhile fun t => decide (t.span.stop ≤ pos) := by
    have hsplit := takeWhile_append_dropWhile (p := fun t : TokenDecl =>
      decide (t.span.stop ≤ pos)) (l := toks)
    rw [← hsplit] at hx
    refine (mem_append.mp hx).resolve_left fun hx => ?_
    have hle := mem_takeWhile_imp hx
    exact hstop (of_decide_eq_true hle)
  obtain ⟨t, rest, hrest⟩ := exists_cons_of_ne_nil (ne_nil_of_mem hdrop)
  have ht := dropWhile_head hrest
  rw [inside, hrest] at hnone
  dsimp only at hnone
  rw [ite_eq_right_iff] at hnone
  have hafter := hordered.sublist (dropWhile_sublist fun t : TokenDecl =>
    decide (t.span.stop ≤ pos))
  rw [hrest] at hdrop hafter
  rcases mem_cons.mp hdrop with rfl | hdrop
  · by_cases hc : x.cls = .comment
    · exact nomatch hnone ⟨hc, hlt⟩
    · exact hstop (hcode x hx hc hlt)
  · exact ht (((pairwise_cons.mp hafter).1 x hdrop).trans hlt.le)

theorem clip_clear (h : InOrder (toks.map TokenDecl.span)) (hs : s.span.start < s.span.stop)
    (hcode : ∀ t ∈ toks, t.cls ≠ .comment →
      Clear [t.span] s.span.start ∧ Clear [t.span] s.span.stop) (hclip : clip toks s = some s') :
    s'.span.start < s'.span.stop ∧ Clear (toks.map TokenDecl.span) s'.span.start ∧
      Clear (toks.map TokenDecl.span) s'.span.stop := by
  rw [clip] at hclip
  split_ifs at hclip with hstart
  have hclear := clear_of_inside h (fun t ht hc => (hcode t ht hc).1 _ (mem_singleton_self _))
    (not_isSome_iff_eq_none.mp hstart)
  split at hclip
  · next hstop =>
    cases hclip
    exact ⟨hs, hclear, clear_of_inside h (fun t ht hc =>
      (hcode t ht hc).2 _ (mem_singleton_self _)) hstop⟩
  · next before hbefore =>
    obtain ⟨prev, hprev, rfl⟩ := map_eq_some_iff.mp hclip
    have hmem : prev ∈ toks := by
      have hin := mem_reverse.mp (mem_of_find?_eq_some hprev)
      unfold inside at hbefore
      split at hbefore
      · split_ifs at hbefore
        rw [← some.inj hbefore] at hin
        exact (takeWhile_sublist _).subset hin
      · exact nomatch hbefore
    have hlt := find?_some hprev
    have hend := clear_stop h (mem_map_of_mem hmem)
    exact ⟨of_decide_eq_true hlt, hclear, hend⟩

end

theorem symbols_ends {tokens : List TokenDecl} (h : InOrder (tokens.map TokenDecl.span)) :
    Ends (symbols tokens) fun syms => (∀ s ∈ syms, s.span.start < s.span.stop) ∧
      AtTokens tokens syms ∧ ∀ a ∈ syms, ∀ b ∈ syms, a.span.Nests b.span := by
  have hcode : ∀ i ∈ codeIndex tokens, i < (tokens.map TokenDecl.span).length := by
    intro i hi
    have := (mem_range'_1.mp ((codeIndex_sublist tokens).subset hi)).2
    rwa [Nat.zero_add, ← length_map TokenDecl.span] at this
  have hevs := events_evs tokens
  rw [← length_map TokenDecl.span] at hevs
  have hwithin := @symbolsGo_within (events tokens) _ _ hcode (events tokens) _ [] hevs nofun
  obtain ⟨all, hall, hdecl⟩ := Ends.mapM fun p hp =>
    declare_ends ((hwithin p hp).1.trans_lt (hwithin p hp).2) (hwithin p hp).2
  obtain ⟨hkept, hnested⟩ := noPartialOverlap_nested all
  refine ⟨noPartialOverlap all, by rw [symbols, hall, map_some], fun s hs => ?_, fun s hs => ?_,
    hnested⟩
  · obtain ⟨p, hp, hd⟩ := hdecl s (hkept s hs)
    exact hd.nonempty h (hwithin p hp).1
  · obtain ⟨p, hp, a, b, ha, hb, rfl⟩ := hdecl s (hkept s hs)
    obtain ⟨t, ht, rfl⟩ := mem_map.mp (mem_of_getElem? ha)
    obtain ⟨r, hr, rfl⟩ := mem_map.mp (mem_of_getElem? hb)
    exact ⟨⟨t, ht, rfl⟩, r, hr, rfl⟩

/-- Symbols that are non-empty, nested or apart, and neither start nor end inside a token. -/
structure Fitted (syms : List SymbolDecl) (spans : List Span) : Prop where
  nonempty : ∀ s ∈ syms, s.span.start < s.span.stop
  nested : ∀ a ∈ syms, ∀ b ∈ syms, a.span.Nests b.span
  clear : ∀ s ∈ syms, Clear spans s.span.start ∧ Clear spans s.span.stop

theorem fitted_clipToComments {tokens merged : List TokenDecl} {syms : List SymbolDecl}
    (h : InOrder (tokens.map TokenDecl.span)) (hm : InOrder (merged.map TokenDecl.span))
    (hcode : ∀ t ∈ merged, t.cls ≠ .comment → t ∈ tokens)
    (hpos : ∀ s ∈ syms, s.span.start < s.span.stop) (hat : AtTokens tokens syms) :
    Fitted (clipToComments syms merged) (merged.map TokenDecl.span) := by
  obtain ⟨hkept, hnested⟩ := noPartialOverlap_nested (syms.filterMap (clip merged))
  have hclip : ∀ s ∈ clipToComments syms merged, s.span.start < s.span.stop ∧
      Clear (merged.map TokenDecl.span) s.span.start ∧
      Clear (merged.map TokenDecl.span) s.span.stop := by
    intro s hs
    obtain ⟨r, hr, hclip⟩ := mem_filterMap.mp (hkept s hs)
    obtain ⟨⟨a, ha, hstart⟩, b, hb, hstop⟩ := hat r hr
    refine clip_clear hm (hpos r hr) (fun t ht hc => ?_) hclip
    have hin := mem_map_of_mem (f := TokenDecl.span) (hcode t ht hc)
    rw [← hstart, ← hstop]
    exact ⟨fun x hx => clear_start h (mem_map_of_mem ha) x (mem_singleton.mp hx ▸ hin),
      fun x hx => clear_stop h (mem_map_of_mem hb) x (mem_singleton.mp hx ▸ hin)⟩
  exact ⟨fun s hs => (hclip s hs).1, hnested, fun s hs => (hclip s hs).2⟩

theorem marker_no_newline {tokens : List TokenDecl} {marker : String}
    (h : trailingCommentMarker tokens = some marker) : '\n' ∉ marker.toList := by
  unfold trailingCommentMarker at h
  dsimp only at h
  split_ifs at h
  · rw [← some.inj h]
    decide
  · rw [← some.inj h]
    decide

theorem scanned_ends (u : Lex.Unicode) (src : String)
    (hlen : Utf8.byteLen src.toList + 1 < 4294967296) :
    Ends (scanned u src) fun r =>
      Lex.Covers u src.toList r.2 ∧ Fitted r.1 (r.2.map TokenDecl.span) := by
  obtain ⟨tokens, htokens, hlexed⟩ := Lex.tokenizeWith_lexed u src tokenizer
  have hcov := hlexed.covers hlen
  have horder := InOrder.of_covers hcov
  obtain ⟨syms, hsyms, hpos, hat, hnested⟩ := symbols_ends horder
  rw [scanned, htokens, bind_eq_bind, bind_some, hsyms, bind_eq_bind, bind_some]
  split
  · next marker hmarker =>
    apply (mergeGo_ends hlen (marker_no_newline hmarker) tokens 0 hcov.placed horder).bind
    rintro merged ⟨hm, hcode⟩
    have hcov' := hcov.merged hm
    exact .pure ⟨hcov', fitted_clipToComments horder (.of_covers hcov') hcode hpos hat⟩
  · refine .pure ⟨hcov, hpos, hnested, fun s hs => ?_⟩
    obtain ⟨⟨a, ha, hstart⟩, b, hb, hstop⟩ := hat s hs
    rw [← hstart, ← hstop]
    exact ⟨clear_start horder (mem_map_of_mem ha), clear_stop horder (mem_map_of_mem hb)⟩

/-- Whatever is marked as a directive, the tokens cover the source, the symbols fit them, and the
span check passes, if the source leaves room for one more character below 4 GiB. -/
theorem extract_fitted (u : Lex.Unicode) (dotted bare : String → Bool)
    (notDotted notBare : List TokenDecl → Nat → Bool) (src : String)
    (hlen : Utf8.byteLen src.toList + 1 < 4294967296) :
    ∃ ex, extract u dotted bare notDotted notBare src = some ex ∧
      Lex.Covers u src.toList ex.tokens ∧
      (∀ t ∈ ex.tokens, Utf8.slice src.toList t.span.start t.span.stop = some t.text.toList) ∧
      Fitted ex.symbols (ex.tokens.map TokenDecl.span) ∧ validateSpans ex = .ok () := by
  obtain ⟨⟨syms, tokens⟩, hscan, hcov, hfit⟩ := scanned_ends u src hlen
  have hmarked := Lex.Covers.congr (hcov.congr (markKeywords_kept dotted notDotted tokens))
    (markKeywords_kept bare notBare (markKeywords dotted notDotted tokens))
  have horder := InOrder.of_covers hmarked
  rw [← markKeywords_spans dotted notDotted, ← markKeywords_spans bare notBare] at hfit
  refine ⟨_, by rw [extract, hscan, Option.map_some], hmarked, fun t ht => ?_, hfit,
    (validateSpans_iff _).mpr ?_⟩
  · obtain ⟨pre, text, post, hp⟩ := hmarked.placed t ht
    exact hp.located.slice_eq
  · refine ⟨fun s hs => (hfit.nonempty s hs).le, fun t ht =>
      (horder.nonempty _ (List.mem_map_of_mem ht)).le, hfit.nested, fun s hs t ht hin => ?_⟩
    exact (hfit.clear s hs).2 _ (List.mem_map_of_mem ht) hin.2

theorem extract_fitted_trailing :
    ∃ ex,
      extract ⟨fun _ => false, fun _ => false, fun _ => false⟩ (· == "globl") (fun _ => false)
        (fun _ _ => false) (fun _ _ => false) "f:\n  addl %eax, x # sum\n" = some ex ∧
      ex.tokens.map TokenDecl.text = ["f", ":", "addl", "%", "eax", ",", "x", "# sum"] ∧
      ex.symbols.map SymbolDecl.name = ["f"] ∧ validateSpans ex = .ok () := by
  obtain ⟨ex, hex, -, -, -, hok⟩ := extract_fitted ⟨fun _ => false, fun _ => false, fun _ => false⟩
    (· == "globl") (fun _ => false) (fun _ _ => false) (fun _ _ =>
      false) "f:\n  addl %eax, x # sum\n" (by decide)
  have heval : (extract ⟨fun _ => false, fun _ => false, fun _ => false⟩ (· == "globl") (fun _ =>
      false) (fun _ _ => false) (fun _ _ => false) "f:\n  addl %eax, x # sum\n").map
      (fun ex => (ex.tokens.map TokenDecl.text, ex.symbols.map SymbolDecl.name)) =
      some (["f", ":", "addl", "%", "eax", ",", "x", "# sum"], ["f"]) := by decide +kernel
  rw [hex] at heval
  obtain ⟨htexts, hnames⟩ := Prod.mk.inj (Option.some.inj heval)
  exact ⟨ex, hex, htexts, hnames, hok⟩

theorem extract_long_uncovered : ∃ src : String, ∀ u dotted bare notDotted notBare, ¬∃ ex,
    extract u dotted bare notDotted notBare src = some ex ∧ Lex.Covers u src.toList ex.tokens := by
  have hn : 4294967295 + 1 = 4294967296 := rfl
  generalize 4294967295 = n at hn
  refine ⟨String.ofList (List.replicate (n + 1) 'a'), ?_⟩
  rintro u dotted bare notDotted notBare ⟨ex, -, hcov⟩
  rw [String.toList_ofList] at hcov
  exact Lex.not_covers_long hn u hcov

end MemoryGraph.Lang.Asm
