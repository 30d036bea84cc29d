import MemoryGraph.Lib.Utf8
import MemoryGraph.Schema

/-! The lengths of literals, comments and words at the start of a text. A slice off a character
boundary would be a panic, `none`. -/

namespace MemoryGraph.Lex
open Lib Utf8

structure Unicode where
  alphabetic : Char → Bool
  numeric : Char → Bool
  whiteSpace : Char → Bool

namespace Unicode
variable (u : Unicode)

def isAlphabetic (c : Char) : Bool := c.isAlpha || (decide ('\x7f' < c) && u.alphabetic c)
def isNumeric (c : Char) : Bool := c.isDigit || (decide ('\x7f' < c) && u.numeric c)
def isAlphanumeric (c : Char) : Bool := u.isAlphabetic c || u.isNumeric c

def isWhitespace (c : Char) : Bool :=
  c == ' ' || (decide ('\x09' ≤ c) && decide (c ≤ '\x0d')) ||
    (decide ('\x7f' < c) && u.whiteSpace c)

def isGap (c : Char) : Bool := u.isWhitespace c || c == '\ufeff'

end Unicode

abbrev Checked (α : Type) := Option α

def oneOf (s : String) (c : Char) : Bool := s.toList.contains c

def startsWith (s : List Char) (p : String) : Bool := p.toList.isPrefixOf s

/-- What a scan over the characters does at one of them, given those after it: it goes on with a
new state, stops `k` bytes further, or gives up. -/
inductive Move (σ : Type) where
  | go (st : σ)
  | stop (k : Nat)
  | fail

def scan {σ : Type} (f : σ → Char → List Char → Move σ) : List Char → σ → Nat → Option Nat
  | [], _, _ => none
  | ch :: s, st, p =>
    match f st ch s with
    | .go st' => scan f s st' (p + ch.utf8Size)
    | .stop k => some (p + k)
    | .fail => none

def lineLen (rest : List Char) : Nat :=
  let line := rest.takeWhile (· ≠ '\n')
  if line.getLast? = some '\r' ∧ byteLen line > 1 then byteLen line - 1 else byteLen line

def quotedLen (rest : List Char) (q : Char) : Nat :=
  let step := fun (esc : Bool) (ch : Char) (_ : List Char) =>
    if esc then Move.go false
    else if ch = '\\' then .go true
    else if ch = q then .stop ch.utf8Size
    else .go false
  (scan step rest.tail false (byteLen (rest.take 1))).getD (byteLen rest)

def singleQuotedLen (rest : List Char) : Checked Nat :=
  (sliceTo rest (lineLen rest)).map fun l => quotedLen l '\''

def nestedGo (o c : Char × Char) : List Char → (depth p : Nat) → Option Nat
  | x :: y :: s, depth, p =>
    if (x, y) = o then nestedGo o c s (depth + 1) (p + 2)
    else if (x, y) = c then if depth = 1 then some (p + 2) else nestedGo o c s (depth - 1) (p + 2)
    else nestedGo o c (y :: s) depth (p + x.utf8Size)
  | _, _, _ => none

def nestedLen (rest : List Char) (o c : Char × Char) : Nat :=
  (nestedGo o c rest 0 0).getD (byteLen rest)

def tripleQuotedLen (rest : List Char) (raw : Bool) : Option Nat :=
  (["\"\"\"", "'''"].find? fun q => startsWith rest q).map fun q =>
    let step := fun (esc : Bool) (ch : Char) (s : List Char) =>
      if esc then Move.go false
      else if ch = '\\' ∧ raw = false then .go true
      else if startsWith (ch :: s) q then .stop 3
      else .go false
    (scan step (rest.drop 3) false 3).getD (byteLen rest)

def doubledGo (q : UInt8) : List UInt8 → Nat → Option Nat
  | x :: y :: bs, p =>
  if x = q then if y = q then doubledGo q bs (p + 2) else some (p + 1) else doubledGo q
    (y :: bs) (p + 1)
  | [x], p => if x = q then some (p + 1) else none
  | [], _ => none

def doubledLen (rest : List Char) : Checked Nat :=
  match bytes rest with
  | [] => none
  | q :: bs => some ((doubledGo q bs 1).getD (byteLen rest))

def sqlBracketLen (u : Unicode) (rest : List Char) : Checked (Option Nat) := do
  let tl ← sliceFrom rest 1
  match tl.head? with
  | none => return none
  | some first =>
    if !(u.isAlphabetic first || oneOf "_@# " first) then return none
    let body ← slice rest 1 (lineLen rest)
    match findChar (· == ']') body with
    | none => return none
    | some close =>
      let name ← sliceTo body close
      return if name.contains '[' then none else some (close + 2)

def shellVarLen (rest : List Char) : Checked (Option Nat) := do
  let tl ← sliceFrom rest 1
  match tl.head? with
  | none => return none
  | some '{' =>
    let step := fun (depth : Nat) (ch : Char) (_ : List Char) =>
      if ch = '\n' then Move.fail
      else if ch = '{' then .go (depth + 1)
      else if ch = '}' then if depth = 1 then .stop 1 else .go (depth - 1)
      else .go depth
    return scan step tl 0 1
  | some c =>
    if c.isAlpha || c == '_' then
      return some (1 + (findChar (fun ch => !(ch.isAlphanum || ch == '_')) tl).getD
        (byteLen rest - 1))
    return if c.isDigit || oneOf "@*#?$!-" c then some 2 else none

def heredocWord (word : List Char) (p : Nat) (strip : Bool) :
    Checked (Option (Nat × List Char × Bool)) := do
  match word.head? with
  | none => return none
  | some q =>
    if q == '\'' || q == '"' then
      let line ← slice word 1 (lineLen word)
      match findChar (· == q) line with
      | none => return none
      | some close =>
        let delim ← slice word 1 (1 + close)
        return if delim.isEmpty then none else some (p + close + 2, delim, strip)
    else
      let skip := if q == '\\' then 1 else 0
      let word ← sliceFrom word skip
      if !word.head?.any (fun c => c.isAlpha || c == '_') then return none
      let name := word.takeWhile fun c => c.isAlphanum || c == '_'
      return some (p + skip + byteLen name, name, strip)

/-- A heredoc marker: its length, the delimiter, and whether leading tabs are stripped. -/
def heredocMarker (rest : List Char) : Checked (Option (Nat × List Char × Bool)) := do
  if !startsWith rest "<<" || startsWith (rest.drop 2) "<" then return none
  let strip := startsWith (rest.drop 2) "-"
  let p := if strip then 3 else 2
  let after ← sliceFrom rest p
  let p := p + (findChar (fun c => c != ' ' && c != '\t') after).getD (byteLen rest - p)
  let word ← sliceFrom rest p
  heredocWord word p strip

def identLen (u : Unicode) (rest : List Char) (markup hyphen prime : Bool) : Nat :=
  let word := fun ch => u.isAlphanumeric ch || ch == '_' || (prime && ch == '\'')
  let step := fun (_ : Unit) (ch : Char) (s : List Char) =>
    if word ch then Move.go ()
    else if ((markup && (ch == '-' || ch == ':')) || (hyphen && ch == '-')) &&
      s.head?.any word then .go ()
    else .stop 0
  (scan step rest () 0).getD (byteLen rest)

def attrValueGo (q : Char) (aspx : Bool) : List Char → Nat → Option (Nat × Bool)
  | [], _ => none
  | ch :: s, p =>
    if ch = q then some (p + 1, true)
    else if aspx && startsWith (ch :: s) "<%" then some (p, false)
    else attrValueGo q aspx s (p + ch.utf8Size)

def attrValueLen (rest : List Char) (q : Char) (start : Nat) (aspx : Bool) : Nat × Bool :=
  (attrValueGo q aspx (rest.drop start) (byteLen (rest.take start))).getD (byteLen rest, false)

def csharpLiteralLen (rest : List Char) : Checked (Option Nat) :=
  match ["$@\"", "@$\"", "@\"", "$\""].find? fun p => startsWith rest p with
  | none => some none
  | some p =>
    let start := p.toList.length - 1
    if oneOf p '@' then
      -- verbatim: no escapes but the doubled quote
      some (some ((doubledGo '"'.toUInt8 ((bytes rest).drop (start + 1)) (start + 1)).getD
        (byteLen rest)))
    else (sliceFrom rest start).map fun r => some (start + quotedLen r '"')

def pythonPrefixes : List String := ["r", "u", "b", "f", "t", "br", "rb", "fr", "rf", "tr", "rt"]

def pythonPrefixedLen (rest : List Char) (sq : Bool) : Checked (Option Nat) := do
  let letters := rest.takeWhile Char.isAlpha
  let q := rest.dropWhile Char.isAlpha
  if !pythonPrefixes.contains (String.ofList (letters.map Char.toLower)) then return none
  match tripleQuotedLen q false with
  | some n => return some (byteLen letters + n)
  | none =>
    if startsWith q "\"" then return some (byteLen letters + quotedLen q '"')
    if startsWith q "'" && sq then
      let n ← singleQuotedLen q
      return some (byteLen letters + n)
    return none

def findBytes (needle : List UInt8) : List UInt8 → Option Nat
  | [] => if needle.isEmpty then some 0 else none
  | x :: bs => if needle.isPrefixOf (x :: bs) then some 0 else (findBytes needle bs).map (1 + ·)

def rRawLen (rest : List Char) : Except Unit (Option Nat) :=
  match bytes rest with
  | r :: q :: bs =>
    if (r = 'r'.toUInt8 ∨ r = 'R'.toUInt8) ∧ (q = '"'.toUInt8 ∨ q = '\''.toUInt8) then
      let dashes := (bs.takeWhile (· = '-'.toUInt8)).length
      let close := if bs[dashes]? = some '('.toUInt8 then some ')'
        else if bs[dashes]? = some '['.toUInt8 then some ']'
        else if bs[dashes]? = some '{'.toUInt8 then some '}'
        else none
      match close with
      | none => .ok none
      | some c =>
        let term := c.toUInt8 :: List.replicate dashes '-'.toUInt8 ++ [q]
        match findBytes term (bs.drop (1 + dashes)) with
        | some p => .ok (some (3 + dashes + p + term.length))
        | none => .error ()
    else .ok none
  | _ => .ok none

def SHELL_NEST_MAX : Nat := 64

mutual
/-- The end of a double-quoted string whose body goes on at `p`, and whether it held a command
substitution. The fuel bounds the loop; see `shellDqEnd_fuel`. -/
def shellDqEnd : (fuel : Nat) → (b : List UInt8) → (p depth : Nat) → (subst : Bool) →
    Option (Nat × Bool)
  | 0, _, _, _, _ => none
  | fuel + 1, b, p, depth, subst =>
    if SHELL_NEST_MAX < depth then none
    else match b[p]? with
      | none => none
      | some x =>
        if x = '\\'.toUInt8 then shellDqEnd fuel b (p + 2) depth subst
        else if x = '"'.toUInt8 then some (p + 1, subst)
        else if x = '$'.toUInt8 ∧ b[p + 1]? = some '('.toUInt8 then
          match shellSubstEnd fuel b (p + 2) (depth + 1) 1 with
          | none => none
          | some q => shellDqEnd fuel b q depth true
        else shellDqEnd fuel b (p + 1) depth subst

def shellSubstEnd : (fuel : Nat) → (b : List UInt8) → (p depth parens : Nat) → Option Nat
  | 0, _, _, _, _ => none
  | fuel + 1, b, p, depth, parens =>
    if SHELL_NEST_MAX < depth then none
    else match b[p]? with
      | none => none
      | some x =>
        if x = '\\'.toUInt8 then shellSubstEnd fuel b (p + 2) depth parens
        else if x = '('.toUInt8 then shellSubstEnd fuel b (p + 1) depth (parens + 1)
        else if x = ')'.toUInt8 then
          if parens = 1 then some (p + 1) else shellSubstEnd fuel b (p + 1) depth (parens - 1)
        else if x = '"'.toUInt8 then
          match shellDqEnd fuel b (p + 1) (depth + 1) false with
          | none => none
          | some (q, _) => shellSubstEnd fuel b q depth parens
        else if x = '\''.toUInt8 ∨ x = '`'.toUInt8 then
          match (b.drop (p + 1)).findIdx? (· = x) with
          | none => none
          | some k => shellSubstEnd fuel b (p + 2 + k) depth parens
        else shellSubstEnd fuel b (p + 1) depth parens
end

def shellDqLen (rest : List Char) : Except Unit (Option Nat) :=
  match shellDqEnd (byteLen rest + 1) (bytes rest) 1 0 false with
  | none => .error ()
  | some (stop, subst) => .ok (if subst then some stop else none)

def regexWords : List String :=
  ["return", "typeof", "case", "do", "else", "in", "of", "new", "delete", "void", "throw",
    "instanceof", "yield", "await"]

/-- Whether a `/` after `prev` starts a regex rather than dividing. -/
def regexAllowed : Option TokenDecl → Bool
  | none => true
  | some p =>
    match p.cls with
    | .identifier => regexWords.contains p.text
    | .literal => false
    | _ => !([")", "]", "\x7d", "<", ">"].contains p.text)

def regexLen (rest : List Char) : Option Nat :=
  if startsWith rest "//" || startsWith rest "/*" then none
  else
    let step := fun (st : Bool × Bool) (ch : Char) (s : List Char) =>
      if ch = '\n' ∨ ch = '\r' then Move.fail
      else if st.1 then .go (false, st.2)
      else if ch = '\\' then .go (true, st.2)
      else if ch = '[' then .go (false, true)
      else if ch = ']' then .go (false, false)
      else if ch = '/' ∧ st.2 = false then .stop (1 + byteLen (s.takeWhile Char.isAlpha))
      else .go st
    scan step rest.tail (false, false) (byteLen (rest.take 1))

def aspxLen (rest : List Char) : Option (Nat × TokenClass) :=
  if startsWith rest "<%--" then
    some (((findStr "--%>".toList (rest.drop 4)).map (· + 8)).getD (byteLen rest), .comment)
  else if startsWith rest "%>" then some (2, .punctuation)
  else if startsWith rest "<%" then
    some (if (rest.drop 2).head?.any (oneOf "@=#:$") then 3 else 2, .punctuation)
  else none

def isCharLiteral (rest : List Char) : Bool :=
  match rest.drop 1 with
  | [] => false
  | c :: s =>
    if c = '\\' then ((rest.drop 2).take 10).any (· == '\'')
    else if c ≠ '\'' ∧ c ≠ '\n' then s.head? == some '\''
    else false

def rawStringLen (b : List UInt8) (p total : Nat) : Option Nat :=
  let hashes := ((b.drop p).takeWhile (· = '#'.toUInt8)).length
  if b[p + hashes]? = some '"'.toUInt8 then
    let body := p + hashes + 1
    let close := '"'.toUInt8 :: List.replicate hashes '#'.toUInt8
    some (((findBytes close (b.drop body)).map fun k => body + k + close.length).getD total)
  else none

def prefixedLiteralLen (rest : List Char) : Checked (Option Nat) :=
  match bytes rest with
  | [] => none
  | b :: bs =>
    let p := if b = 'b'.toUInt8 ∨ b = 'c'.toUInt8 then 1 else 0
    if (b :: bs)[p]? = some 'r'.toUInt8 then some (rawStringLen (b :: bs) (p + 1) (byteLen rest))
    else if (b = 'b'.toUInt8 ∨ b = 'c'.toUInt8) ∧ bs.head? = some '"'.toUInt8 then
      (sliceFrom rest 1).map fun r => some (1 + quotedLen r '"')
    else if b = 'b'.toUInt8 ∧ bs.head? = some '\''.toUInt8 then
      (sliceFrom rest 1).map fun r => if isCharLiteral r then some (1 + quotedLen r '\'') else none
    else some none

def trimDots (rest : List Char) : Nat → Checked Nat
  | 0 => some 0
  | n + 1 =>
    if n + 1 > 1 then
      (sliceTo rest (n + 1)).bind fun t => if t.getLast? = some '.' then trimDots rest n
        else some (n + 1)
    else some (n + 1)

def numberLen (u : Unicode) (rest : List Char) : Checked Nat :=
  trimDots rest ((findChar (fun ch => !(u.isAlphanumeric ch || ch == '_' || ch == '.')) rest).getD
    (byteLen rest))

end MemoryGraph.Lex
