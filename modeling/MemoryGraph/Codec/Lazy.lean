import MemoryGraph.Codec.Stream

/-! The decoder: a stream's header, and the records read on demand. A visitor is a fold over the
visited records that may stop the walk. -/

namespace MemoryGraph.Codec
open Lib

def readSpan (prev : Span) : Reader Span := do
  let start ← rel prev.start
  let stop ← rel start
  let startLine ← rel prev.startLine
  let startCol ← rel prev.startCol
  let endLine ← rel startLine
  let n ← varint
  match toU32 n with
  | some endCol => return ⟨start, stop, startLine, startCol, endLine, endCol⟩
  | none => throw (bad "span col out of range")

def parent : Reader (Option U32) := do
  let p ← varint
  if p = 0 then
    return none
  match toU32 (p - 1) with
  | some p => return some p
  | none => throw (bad "parent out of range")

structure Lazy where
  nsym : Nat
  ntok : Nat
  rangesDense : Bool
  hasOwners : Bool
  symBytes : List UInt8
  cks : List Ck
  toks : List UInt8
deriving DecidableEq, Repr

def readCks : Nat → Ck → Reader (List Ck)
  | 0, _ => return []
  | n + 1, last => do
    let d ← varint
    if last.off + d > usizeMax then
      throw (bad "checkpoint offset overflow")
    let start ← rel last.start
    let line ← rel last.line
    let col ← rel last.col
    let ck : Ck := ⟨last.off + d, start, line, col⟩
    let cks ← readCks n ck
    return ck :: cks

def readHeader : Reader (Nat × Nat × Nat × UInt8) := do
  let fmt ← byte
  if fmt ≠ streamFormat then
    throw (bad ("unknown or old stream format byte " ++ toString fmt.toNat ++ " (expected " ++
      toString streamFormat.toNat ++ "); the v2 store's on-disk layout changed and old v2 files " ++
      "must be re-indexed"))
  let nsym ← varint
  let ntok ← varint
  let symlen ← varint
  let flags ← byte
  if flags &&& ~~~3 ≠ 0 then
    throw (bad "reserved stream flag bits set")
  return (nsym, ntok, symlen, flags)

def decodeLazy (b : List UInt8) : Except StoreError Lazy := do
  let ((nsym, ntok, symlen, flags), c) ← readHeader.run ⟨b, 0⟩
  failIf (satAdd nsym ntok > b.length) (bad "record count exceeds input")
  let symEnd := c.pos + symlen
  failIf (symEnd > b.length) (bad "symbol section exceeds input")
  let nck := (ntok - 1) / checkpointEvery
  failIf (nck > b.length) (bad "checkpoint count exceeds input")
  let (cks, c') ← (readCks nck Ck.init).run ⟨b, symEnd⟩
  let toks := b.drop c'.pos
  failIf (cks.getLast?.any (fun c => toks.length ≤ c.off)) (bad "checkpoint offset out of range")
  return { nsym, ntok, rangesDense := flags &&& 1 ≠ 0, hasOwners := flags &&& 2 ≠ 0,
           symBytes := (b.drop c.pos).take symlen, cks, toks }

def readKind : Reader SymbolKind := do
  let b ← byte
  match kinds[b.toNat]? with
  | some k => return k
  | none => throw (bad "bad symbol kind")

def readId : Reader (Option Nat) := do
  let v ← varint
  return if v = 0 then none else some (v - 1)

def readOwner (hasOwners : Bool) : Reader (Option Nat) := if hasOwners then readId else pure none

def readRange (prevFirst : U32) : Reader (Option (U32 × U32)) := do
  let n ← varint
  if n = 0 then
    return none
  let first ← rel prevFirst
  match toU32 (n - 1) with
  | none => throw (bad "token range length out of range")
  | some len =>
    match toU32 (first.val + len.val) with
    | none => throw (bad "token range overflow")
    | some last => return some (first, last)

def readSym (hasOwners : Bool) (i : Nat) (prev : Span) (prevFirst : U32) : Reader SymRec := do
  let name ← varint
  let kind ← readKind
  let langKind ← readId
  let owner ← readOwner hasOwners
  let parent ← parent
  if parent.any (fun p => i ≤ p.val) then
    throw (bad "parent index out of range")
  let span ← readSpan prev
  let toks ← readRange prevFirst
  return ⟨name, kind, langKind, parent, span, toks, owner⟩

def readSyms (hasOwners : Bool) : Nat → Nat → Span → U32 → Reader (List SymRec)
  | 0, _, _, _ => return []
  | n + 1, i, prev, prevFirst => do
    let sym ← readSym hasOwners i prev prevFirst
    let syms ← readSyms hasOwners n (i + 1) sym.span (nextFirst prevFirst sym.toks)
    return sym :: syms

def Lazy.symbols (lz : Lazy) : Except StoreError (List SymRec) := do
  let (syms, c) ← (readSyms lz.hasOwners lz.nsym 0 zero 0).run ⟨lz.symBytes, 0⟩
  failIf (c.pos ≠ lz.symBytes.length) (bad "trailing bytes in symbol section")
  return syms

def readClass : Reader TokenClass := do
  let b ← byte
  match classes[b.toNat]? with
  | some c => return c
  | none => throw (bad "bad token class")

def Lazy.record (lz : Lazy) (prev : Span) : Reader TokRec := do
  let term ← varint
  let cls ← readClass
  let parent ← parent
  if parent.any (fun p => lz.nsym ≤ p.val) then
    throw (bad "parent index out of range")
  let span ← readSpan prev
  return ⟨term, cls, parent, span⟩

abbrev Visitor (σ : Type) := Nat → TokRec → σ → σ × Bool

variable {σ : Type}

def Ck.span (c : Ck) : Span := ⟨c.start, 0, c.line, c.col, 0, 0⟩

def Lazy.checkCk (lz : Lazy) (ord : Nat) (prev : Span) : Reader Unit := do
  if 0 < ord ∧ ord % checkpointEvery = 0 then
    match lz.cks[ord / checkpointEvery - 1]? with
    | none => throw (.panic "checkpoint index out of bounds")
    | some c =>
      let r ← get
      if (c.off, c.start, c.line, c.col) ≠ (r.pos, prev.start, prev.startLine, prev.startCol) then
        throw (bad "checkpoint mismatch")

def Lazy.tokensGo (lz : Lazy) (f : Visitor σ) : Nat → Nat → Span → σ → Reader (σ × Bool)
  | 0, _, _, st => return (st, true)
  | n + 1, ord, prev, st => do
    lz.checkCk ord prev
    let t ← lz.record prev
    let (st, more) := f ord t st
    if more then lz.tokensGo f n (ord + 1) t.span st else return (st, false)

def Lazy.tokens (lz : Lazy) (f : Visitor σ) (init : σ) : Except StoreError σ := do
  let ((st, full), c) ← (lz.tokensGo f lz.ntok 0 zero init).run ⟨lz.toks, 0⟩
  failIf (full ∧ c.pos ≠ lz.toks.length) (bad "trailing bytes")
  return st

def Lazy.seek (lz : Lazy) (block : Nat) : Reader Span := do
  match lz.cks[block - 1]? with
  | none => throw (.panic "checkpoint index out of bounds")
  | some c =>
    modify (fun r => { r with pos := c.off })
    return c.span

def Lazy.skip (lz : Lazy) : Nat → Span → Reader Span
  | 0, prev => return prev
  | n + 1, prev => do
    let t ← lz.record prev
    lz.skip n t.span

/-- Where `tokens_at_while` continues for `ord`: at its block's checkpoint when that is closer
than the next undecoded record. -/
def Lazy.approach (lz : Lazy) (ord next : Nat) (prev : Span) : Reader (Span × Nat) :=
  let block := ord / checkpointEvery
  if next < block * checkpointEvery then do
    let prev ← lz.seek block
    return (prev, block * checkpointEvery)
  else pure (prev, next)

/-- The loop of `tokens_at_while`: `next` is the ordinal of the next undecoded record. -/
def Lazy.tokensAtGo (lz : Lazy) (f : Visitor σ) :
    List Nat → Option Nat → Nat → Span → σ → Reader σ
  | [], _, _, _, st => return st
  | ord :: ords, last, next, prev, st => do
    failIf (lz.ntok ≤ ord ∨ last.any (fun l => ord ≤ l))
      (bad "token ordinal out of order or range")
    let (prev, next) ← lz.approach ord next prev
    let prev ← lz.skip (ord - next) prev
    let t ← lz.record prev
    let (st, more) := f ord t st
    if more then lz.tokensAtGo f ords (some ord) (ord + 1) t.span st else return st

def Lazy.tokensAtWhile (lz : Lazy) (ords : List Nat) (f : Visitor σ) (init : σ) :
    Except StoreError σ := do
  let (st, _) ← (lz.tokensAtGo f ords none 0 zero init).run ⟨lz.toks, 0⟩
  return st

def Lazy.tokensAt (lz : Lazy) (ords : List Nat) (f : Nat → TokRec → σ → σ) (init : σ) :
    Except StoreError σ := lz.tokensAtWhile ords (fun ord t st => (f ord t st, true)) init

/-- The checkpoint block of the first token starting at or after `start`. `partition_point`
counts the checkpoints before it (they ascend by start). -/
def Lazy.blockOrdinalAt (lz : Lazy) (start : U32) : Nat :=
  (lz.cks.takeWhile (fun c => c.start < start)).length * checkpointEvery

def Lazy.tokensFromGo (lz : Lazy) (first : Nat) (f : Visitor σ) : Nat → Nat → Span → σ → Reader σ
  | 0, _, _, st => return st
  | n + 1, ord, prev, st => do
    let t ← lz.record prev
    if first ≤ ord then
      let (st, more) := f ord t st
      if more then lz.tokensFromGo first f n (ord + 1) t.span st else return st
    else lz.tokensFromGo first f n (ord + 1) t.span st

def Lazy.blockStart (lz : Lazy) (block : Nat) : Reader Span :=
  if block = 0 then pure zero else lz.seek block

def Lazy.walkFrom (lz : Lazy) (first : Nat) (f : Visitor σ) (init : σ) : Reader σ := do
  let prev ← lz.blockStart (first / checkpointEvery)
  let ord := first / checkpointEvery * checkpointEvery
  lz.tokensFromGo first f (lz.ntok - ord) ord prev init

def Lazy.tokensFromWhile (lz : Lazy) (first : Nat) (f : Visitor σ) (init : σ) :
    Except StoreError σ :=
  if lz.ntok ≤ first then return init
  else do
    let (st, _) ← (lz.walkFrom first f init).run ⟨lz.toks, 0⟩
    return st

def decode (b : List UInt8) : Except StoreError Stream := do
  let lz ← decodeLazy b
  let symbols ← lz.symbols
  let tokens ← lz.tokens (fun _ t (ts : List TokRec) => (ts ++ [t], true)) []
  return ⟨symbols, tokens⟩

end MemoryGraph.Codec
