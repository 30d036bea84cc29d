import MemoryGraph.Lex.Lengths

/-! The tokenizer: its options, the rules it tries at each character in their order, and the
drivers for free-form text, fixed columns and data sections. -/

namespace MemoryGraph.Lex
open Lib Utf8

inductive FixedLayout where
  | cobol
  | rpg
deriving DecidableEq, Repr

structure TokenizerOptions where
  rustLiterals : Bool := false
  singleQuoteStrings : Bool := false
  csharpStrings : Bool := false
  markup : Bool := false
  aspx : Bool := false
  regexLiterals : Bool := false
  noLineSlashComments : Bool := false
  noBlockSlashComments : Bool := false
  hashComments : Bool := false
  hashCommentsLineStartOnly : Bool := false
  dashComments : Bool := false
  haskellBlockComments : Bool := false
  mlBlockComments : Bool := false
  semicolonComments : Bool := false
  tripleQuoteStrings : Bool := false
  tripleQuoteRaw : Bool := false
  doubledSingleQuotes : Bool := false
  primeIdents : Bool := false
  rawBacktickStrings : Bool := false
  sqlStrings : Bool := false
  shellWords : Bool := false
  hyphenIdents : Bool := false
  fixedColumns : Option FixedLayout := none
  pythonStringPrefixes : Bool := false
  rRawStrings : Bool := false
  sqlHashComments : Bool := false
  rpgCompileTimeData : Bool := false
deriving DecidableEq, Repr

structure MarkupState where
  tag : Bool := false
  code : Bool := false
  pending : Option Char := none

/-- What the lexer remembers besides its position: heredoc bodies awaiting the next line, open
shell parentheses (innermost first, true inside arithmetic), and the rules given up. -/
structure Modes where
  m : MarkupState := {}
  heredocs : List (List Char × Bool) := []
  parens : List Bool := []
  shellNestOff : Bool := false
  rRawOff : Bool := false

/-- What the rules see at a character: it and the text from it to the limit, the character
before, the last token, and whether the line has no token yet. -/
structure Here where
  c : Char
  rest : List Char
  prevChar : Option Char
  prev : Option TokenDecl
  lineStart : Bool

/-- A rule: a length and a class if it applies, and the modes after it. -/
def Rule := Here → Modes → Checked (Modes × Option (Nat × TokenClass))

section
variable (u : Unicode) (o : TokenizerOptions)

def Modes.markup (md : Modes) : Bool := o.markup && !md.m.code

def ruleIf (cond : Here → Modes → Bool) (len : Here → Checked (Option Nat)) (cls : TokenClass) :
    Rule := fun h md =>
  if cond h md then (len h).map fun n => (md, n.map fun n => (n, cls)) else some (md, none)

def toEol (rest : List Char) : Nat := (findChar (· == '\n') rest).getD (byteLen rest)

def tagRule : Rule := fun h md =>
  match if o.aspx then aspxLen h.rest else none with
  | some (n, cls) =>
    some ({ md with
      m := if cls = .punctuation then { md.m with code := startsWith h.rest "<%" } else md.m },
      some (n, cls))
  | none =>
    match if md.markup o then md.m.pending else none with
    | some q =>
      let (n, closed) := attrValueLen h.rest q 0 o.aspx
      some ({ md with m := { md.m with pending := if closed then none else some q } },
        some (n, .literal))
    | none => some (md, none)

def htmlCommentRule : Rule := ruleIf (fun h md => md.markup o && startsWith h.rest "<!--")
  (fun h => (sliceFrom h.rest 2).map fun t =>
  some (((findStr "-->".toList t).map (· + 5)).getD (byteLen h.rest))) .comment

def hashOk (h : Here) : Bool :=
  if o.hashCommentsLineStartOnly && !h.lineStart then false
  else match h.prevChar with
    | some p => if o.shellWords then u.isGap p || oneOf ";&|()" p else true
    | none => true

def hash (h : Here) : Bool :=
  h.c == '#' && ((o.hashComments && hashOk u o h) ||
    (o.sqlHashComments && h.lineStart && (h.rest.drop 1).head?.all u.isWhitespace))

def dashCommentAt (h : Here) : Bool :=
  if !startsWith h.rest "--" then false
  else if !o.haskellBlockComments then true
  else
    let symbol := oneOf "!#$%&*+./<=>?@\\^|-~:"
    !(h.rest.dropWhile (· == '-')).head?.any symbol && !h.prevChar.any symbol

def lineCommentRule : Rule := ruleIf
  (fun h _ => hash u o h || (o.fixedColumns == some .cobol && startsWith h.rest "*>") ||
    (o.dashComments && dashCommentAt o h) || (o.semicolonComments && h.c == ';'))
  (fun h => some (some (toEol h.rest))) .comment

def haskellBlockRule : Rule :=
  ruleIf (fun h _ => o.haskellBlockComments && startsWith h.rest "\x7b-")
  (fun h => some (some (nestedLen h.rest ('{', '-') ('-', '}')))) .comment

def mlBlockRule : Rule := ruleIf
  (fun h _ => o.mlBlockComments && startsWith h.rest "(*" && !startsWith h.rest "(*)")
  (fun h => some (some (nestedLen h.rest ('(', '*') ('*', ')')))) .comment

def slashCommentRule : Rule := fun h md =>
  if !md.markup o && !o.noLineSlashComments && startsWith h.rest "//" then
    let n := toEol h.rest
    if md.m.code then
      (sliceTo h.rest n).map fun t => (md, some ((findStr "%>".toList t).getD n, .comment))
    else some (md, some (n, .comment))
  else some (md, none)

def rustBlockRule : Rule := ruleIf (fun h _ => o.rustLiterals && startsWith h.rest "/*")
  (fun h => some (some (nestedLen h.rest ('/', '*') ('*', '/')))) .comment

def blockRule : Rule := ruleIf
  (fun h md => startsWith h.rest "/*" && !md.markup o && !o.noBlockSlashComments)
  (fun h => (sliceFrom h.rest 2).map fun t =>
  some (((findStr "*/".toList t).map (· + 4)).getD (byteLen h.rest))) .comment

def shellVarRule : Rule := ruleIf (fun h _ => o.shellWords && h.c == '$')
    (fun h => shellVarLen h.rest) .identifier

def heredocRule : Rule := fun h md =>
  if o.shellWords && h.c == '<' && h.prevChar != some '<' && !md.parens.head?.getD false then
    (heredocMarker h.rest).map fun
      | some (n, delim, strip) =>
        ({ md with heredocs := md.heredocs ++ [(delim, strip)] }, some (n, .operator))
      | none => (md, none)
  else some (md, none)

def ansiRule : Rule := ruleIf (fun h _ => o.shellWords && startsWith h.rest "$'")
  (fun h => (sliceFrom h.rest 1).map fun r => some (1 + quotedLen r '\'')) .literal

def shellSingleRule : Rule := ruleIf (fun h md => o.shellWords && h.c == '\'' && !md.markup o)
  (fun h => (sliceFrom h.rest 1).map fun t =>
    some (((findChar (· == '\'') t).map (· + 2)).getD (lineLen h.rest))) .literal

def tripleRule : Rule := ruleIf (fun _ _ => o.tripleQuoteStrings)
  (fun h => some (tripleQuotedLen h.rest o.tripleQuoteRaw)) .literal

def backtickRule : Rule := ruleIf (fun h md => o.rawBacktickStrings && h.c == '`' && !md.markup o)
  (fun h => (sliceFrom h.rest 1).map fun t =>
    some (((findChar (· == '`') t).map (· + 2)).getD (byteLen h.rest))) .literal

def sqlStringRule : Rule := ruleIf (fun h _ => o.sqlStrings && h.c == '\'')
  (fun h => (doubledLen h.rest).map some) .literal

def sqlNameRule : Rule := ruleIf (fun h _ => o.sqlStrings && h.c == '"')
  (fun h => (doubledLen h.rest).map some) .identifier

def sqlBracketRule : Rule := ruleIf (fun h _ => o.sqlStrings && h.c == '[')
    (fun h => sqlBracketLen u h.rest) .identifier

def rustLiteralRule : Rule := ruleIf (fun _ _ => o.rustLiterals)
    (fun h => prefixedLiteralLen h.rest) .literal

def csharpRule : Rule := ruleIf (fun _ md => o.csharpStrings && !md.markup o)
    (fun h => csharpLiteralLen h.rest) .literal

def pythonRule : Rule := ruleIf (fun _ md => o.pythonStringPrefixes && !md.markup o)
  (fun h => pythonPrefixedLen h.rest o.singleQuoteStrings) .literal

def rRawRule : Rule := fun h md =>
  if o.rRawStrings && !md.markup o && !md.rRawOff then
    match rRawLen h.rest with
    | .ok n => some (md, n.map fun n => (n, .literal))
    | .error () => some ({ md with rRawOff := true }, none)
  else some (md, none)

def identRule : Rule := fun h md =>
  if u.isAlphabetic h.c || h.c == '_' then
    some (md, some (identLen u h.rest (md.markup o && md.m.tag) o.hyphenIdents o.primeIdents,
      .identifier))
  else some (md, none)

def numberRule : Rule := ruleIf (fun h _ => h.c.isDigit)
    (fun h => (numberLen u h.rest).map some) .literal

def markupQuoteRule : Rule := fun h md =>
  if md.markup o && (h.c == '"' || h.c == '\'' || h.c == '`') then
    if md.m.tag && h.c != '`' then
      let (n, closed) := attrValueLen h.rest h.c 1 o.aspx
      some ({ md with m := { md.m with pending := if closed then md.m.pending else some h.c } },
        some (n, .literal))
    else some (md, some (1, .punctuation))
  else some (md, none)

def doubledQuoteRule : Rule := ruleIf (fun h _ => h.c == '\'' && o.doubledSingleQuotes)
  (fun h => (sliceTo h.rest (lineLen h.rest)).bind fun l => (doubledLen l).map some) .literal

def singleQuoteRule : Rule := ruleIf (fun h _ => h.c == '\'' && o.singleQuoteStrings)
  (fun h => (singleQuotedLen h.rest).map some) .literal

def shellDqRule : Rule := fun h md =>
  if o.shellWords && h.c == '"' && !md.markup o && !md.shellNestOff then
    match shellDqLen h.rest with
    | .ok n => some (md, n.map fun n => (n, .literal))
    | .error () => some ({ md with shellNestOff := true }, none)
  else some (md, none)

def quoteRule : Rule :=
  ruleIf (fun h _ => h.c == '"' || h.c == '`' || (h.c == '\'' && isCharLiteral h.rest))
  (fun h => some (some (quotedLen h.rest h.c))) .literal

def regexRule : Rule := ruleIf (fun h _ => o.regexLiterals && h.c == '/' && regexAllowed h.prev)
  (fun h => some (regexLen h.rest)) .literal

def rules : List Rule :=
  [tagRule o, htmlCommentRule o, lineCommentRule u o, haskellBlockRule o, mlBlockRule o,
    slashCommentRule o, rustBlockRule o, blockRule o, shellVarRule o, heredocRule o, ansiRule o,
    shellSingleRule o, tripleRule o, backtickRule o, sqlStringRule o, sqlNameRule o,
    sqlBracketRule u o, rustLiteralRule o, csharpRule o, pythonRule o, rRawRule o, identRule u o,
    numberRule u, markupQuoteRule o, doubledQuoteRule o, singleQuoteRule o, shellDqRule o,
    quoteRule, regexRule o]

def firstRule : List Rule → Rule
  | [], _, md => some (md, none)
  | r :: rs, h, md => (r h md).bind fun
    | (md', some t) => some (md', some t)
    | (md', none) => firstRule rs h md'

def lexeme (h : Here) (md : Modes) : Checked (Modes × Nat × TokenClass) :=
  (firstRule (rules u o) h md).map fun
    | (md', some (n, cls)) => (md', n, cls)
    | (md', none) =>
      (md', h.c.utf8Size, if oneOf "+-*/%=<>!&|^~?@" h.c then .operator else .punctuation)

def track (h : Here) (markup : Bool) (len : Nat) (md : Modes) : Modes :=
  let m := if markup && len == 1 then
      if h.c = '<' then
        { md.m with tag := (h.rest.drop 1).head?.any fun n => u.isAlphabetic n || oneOf "/!?" n }
      else if h.c = '>' then { md.m with tag := false }
      else md.m
    else md.m
  let parens := if o.shellWords && len == 1 then
      if h.c = '(' then (startsWith h.rest "((" || md.parens.head? == some true) :: md.parens
      else if h.c = ')' then md.parens.tail
      else md.parens
    else md.parens
  { md with m := m, parens := parens }

end

structure Lexer where
  out : List TokenDecl
  i : Nat
  line : U32
  col : U32
  modes : Modes

namespace Lexer

def new : Lexer := { out := [], i := 0, line := 1, col := 1, modes := {} }

def advance (p : U32 × U32) (c : Char) : U32 × U32 :=
  if c = '\n' then (p.1 + 1, 1) else if c = '\ufeff' then p else (p.1, p.2 + 1)

section
variable (src : List Char)

def advTo (lx : Lexer) (stop : Nat) : Checked Lexer :=
  (slice src lx.i stop).map fun s =>
    let p := s.foldl advance (lx.line, lx.col)
    { lx with i := stop, line := p.1, col := p.2 }

def push (lx : Lexer) (stop : Nat) (cls : TokenClass) : Checked Lexer := do
  let lx' ← lx.advTo src stop
  let text ← slice src lx.i stop
  return { lx' with out := lx'.out ++ [
    { text := String.ofList text, cls := cls
      span := ⟨u32 lx.i, u32 stop, lx.line, lx.col, lx'.line, lx'.col⟩ }] }

def atLineStart (lx : Lexer) : Bool := lx.out.getLast?.all fun t => t.span.endLine < lx.line

variable (u : Unicode) (o : TokenizerOptions)

def trimmed (lx : Lexer) (start stop : Nat) (cls : TokenClass) : Checked Lexer := do
  let s ← slice src start stop
  let t := s.dropWhile u.isGap
  let first := stop - byteLen t
  let last := first + byteLen (t.rdropWhile u.isGap)
  if last > first then
    let lx ← lx.advTo src first
    lx.push src last cls
  else return lx

def heredocEnd (delim : List Char) (strip : Bool) (limit : Nat) :
    (fuel : Nat) → (p : Nat) → Checked Nat
  | 0, _ => none
  | fuel + 1, p =>
    if p < limit then do
      let body ← slice src p limit
      let le := (findChar (· == '\n') body).elim limit (p + ·)
      let line ← slice src p le
      let content := if line.getLast? = some '\r' then line.dropLast else line
      if (if strip then content.dropWhile (· == '\t') else content) = delim then
        return p + byteLen content
      heredocEnd delim strip limit fuel (le + 1)
    else return limit

def heredocBody (lx : Lexer) (stop : Nat) : Checked Lexer := do
  let body ← slice src lx.i stop
  let first := (findChar (fun c => !u.isGap c) body).elim stop (lx.i + ·)
  if first < stop then (lx.advTo src first).bind fun lx => lx.push src stop .literal
    else lx.advTo src stop

def heredocBodies (limit : Nat) : List (List Char × Bool) → Lexer → Checked Lexer
  | [], lx => some lx
  | (delim, strip) :: ds, lx =>
    if lx.i ≥ limit then some lx
    else do
      let stop ← heredocEnd src delim strip limit (limit + 1) lx.i
      let lx ← lx.heredocBody src u stop
      -- step over the terminator's line break before the next body
      let after ← slice src lx.i limit
      match findChar (· == '\n') after with
      | none => return lx
      | some nl =>
        let blank ← slice src lx.i (lx.i + nl)
        if blank.all u.isGap then
          let lx ← lx.advTo src (lx.i + nl + 1)
          heredocBodies limit ds lx
        else return lx

def turn (limit : Nat) (lx : Lexer) : Checked Lexer := do
  let tail ← sliceFrom src lx.i
  match tail with
  | [] => none
  | c :: _ =>
    if u.isGap c then
      let lx ← lx.advTo src (lx.i + c.utf8Size)
      if c = '\n' ∧ lx.modes.heredocs ≠ [] then
        heredocBodies src u limit lx.modes.heredocs
          { lx with modes := { lx.modes with heredocs := [] } }
      else return lx
    else
      let rest ← slice src lx.i limit
      let before ← sliceTo src lx.i
      let h : Here :=
        { c := c, rest := rest, prevChar := before.getLast?, prev := lx.out.getLast?,
          lineStart := lx.atLineStart }
      let (md, len, cls) ← lexeme u o h lx.modes
      { lx with modes := track u o h (lx.modes.markup o) len md }.push src (lx.i + len) cls

def run (limit : Nat) : (fuel : Nat) → Lexer → Checked Lexer
  | 0, _ => none
  | fuel + 1, lx => if lx.i < limit then (lx.turn src u o limit).bind (run limit fuel) else some lx

def runTo (lx : Lexer) (limit : Nat) : Checked Lexer := run src u o limit (byteLen src + 1) lx

def nthColumn : List Char → (n p : Nat) → Option Nat
  | [], _, _ => none
  | c :: s, n, p =>
    if c = '\ufeff' then nthColumn s n (p + c.utf8Size)
    else match n with
      | 0 => some p
      | n + 1 => nthColumn s n (p + c.utf8Size)

def columns : FixedLayout → Nat × Bool × Nat
  | .cobol => (6, false, 72)
  | .rpg => (5, true, 80)

def indicator (layout : FixedLayout) (codeStart indEnd : Nat) (lx : Lexer) : Checked Lexer :=
  if layout = .cobol then (lx.advTo src codeStart).bind fun lx =>
    lx.runTo src u o indEnd else some lx

def fixedCode (layout : FixedLayout) (colAt : Nat → Nat) (ce codeStart : Nat) (lx : Lexer) :
    Checked Lexer := do
  let indEnd := colAt 8
  let ind ← slice src codeStart indEnd
  if ind = ['*'] ∨ (layout = .cobol ∧ ind = ['/']) then lx.trimmed src u codeStart ce .comment
  else
    let areaEnd := colAt ((columns layout).2.2 + 1)
    let lx ← lx.indicator src u o layout codeStart indEnd
    let lx ← lx.advTo src (if layout = .cobol then indEnd else codeStart)
    let lx ← lx.runTo src u o areaEnd
    lx.trimmed src u areaEnd ce .comment

def fixedArea (layout : FixedLayout) (colAt : Nat → Nat) (ce seqEnd : Nat) (lx : Lexer) :
    Checked Lexer :=
  if (columns layout).2.1 then do
    let formEnd := colAt ((columns layout).1 + 2)
    let lx ← lx.advTo src seqEnd
    let lx ← lx.runTo src u o formEnd
    lx.fixedCode src u o layout colAt ce formEnd
  else lx.fixedCode src u o layout colAt ce seqEnd

def fixedLine (layout : FixedLayout) (lx : Lexer) : Checked Lexer := do
  let ls := lx.i
  let tail ← sliceFrom src ls
  let le := (findChar (· == '\n') tail).elim (byteLen src) (ls + ·)
  let line ← slice src ls le
  let ce := if line.getLast? = some '\r' then le - 1 else le
  let text ← slice src ls ce
  let colAt := fun n => (nthColumn text (n - 1) 0).elim ce (ls + ·)
  let seqEnd := colAt ((columns layout).1 + 1)
  let lx ← lx.trimmed src u ls seqEnd .comment
  let lx ← lx.fixedArea src u o layout colAt ce seqEnd
  lx.advTo src (min (le + 1) (byteLen src))

def fixed (layout : FixedLayout) (limit : Nat) : (fuel : Nat) → Lexer → Checked Lexer
  | 0, _ => none
  | fuel + 1, lx =>
    if lx.i < limit then (lx.fixedLine src u o layout).bind (fixed layout limit fuel) else some lx

end

def splitInclusive : List Char → List (List Char)
  | [] => []
  | c :: s =>
    if c = '\n' then [c] :: splitInclusive s
    else match splitInclusive s with
      | [] => [[c]]
      | l :: ls => (c :: l) :: ls

def stripBom : List Char → List Char
  | '\ufeff' :: s => s
  | s => s

def isRpgDataMarker (line : List Char) (free : Bool) : Bool :=
  startsWith line "**" &&
    let rest := (line.drop 2).rdropWhile (fun c => c == '\r' || c == '\n')
    (!free && (rest.isEmpty || rest.head?.any fun c => c == ' ' || c == '\t')) ||
      ["CTDATA", "FTRANS", "ALTSEQ"].any (startsWith (rest.map Char.toUpper))

def isFreeRpg (u : Unicode) (src : List Char) : Bool :=
  let first := (stripBom src).takeWhile (· ≠ '\n')
  let first := if first.getLast? = some '\r' then first.dropLast else first
  (first.rdropWhile u.isWhitespace).map Char.toLower = "**free".toList

def rpgDataGo (free : Bool) : List (List Char) → (n off : Nat) → Option Nat
  | [], _, _ => none
  | line :: ls, n, off =>
    if isRpgDataMarker (if n = 0 then stripBom line else line) free &&
      !(n == 0 && free) then some off
    else rpgDataGo free ls (n + 1) (off + byteLen line)

def rpgDataStart (u : Unicode) (src : List Char) : Nat :=
  (rpgDataGo (isFreeRpg u src) (splitInclusive src) 0 0).getD (byteLen src)

def dataGo (src : List Char) (u : Unicode) (free : Bool) :
    List (List Char) → (start off : Nat) → Lexer → Checked Lexer
  | [], start, _, lx => lx.trimmed src u start (byteLen src) .literal
  | line :: ls, start, off, lx =>
    if off > start ∧ isRpgDataMarker line free = true then
      (lx.trimmed src u start off .literal).bind (dataGo src u free ls off (off + byteLen line))
    else dataGo src u free ls start (off + byteLen line) lx

def dataSections (src : List Char) (u : Unicode) (start : Nat) (lx : Lexer) : Checked Lexer :=
  (sliceFrom src start).bind fun tail =>
    dataGo src u (isFreeRpg u src) (splitInclusive tail) start start lx

def code (src : List Char) (u : Unicode) (o : TokenizerOptions) (stop : Nat) : Checked Lexer :=
  match o.fixedColumns with
  | some layout =>
    if layout = .rpg ∧ isFreeRpg u src = true then new.runTo src u o stop
    else fixed src u o layout stop (byteLen src + 1) new
  | none => new.runTo src u o stop

end Lexer

/-- `tokenize_with`: `none` is a panic. -/
def tokenizeWith (u : Unicode) (src : String) (o : TokenizerOptions) : Checked (List TokenDecl) :=
  let s := src.toList
  let stop := if o.rpgCompileTimeData then Lexer.rpgDataStart u s else byteLen s
  (Lexer.code s u o stop).bind fun lx =>
    (if stop < byteLen s then lx.dataSections s u stop else some lx).map Lexer.out

end MemoryGraph.Lex
