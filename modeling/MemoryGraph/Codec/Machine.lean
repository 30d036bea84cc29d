import MemoryGraph.Codec.Lazy
import MemoryGraph.Lib.Guarded

/-! The decoder as the machine runs it: arithmetic of machine integers, indexes, ranges of slices
and reserved capacities are all checked, and a check that fails is a panic. -/

namespace MemoryGraph.Codec.Machine
open Lib

def overflow (op : String) : StoreError := .panic ("attempt to " ++ op ++ " with overflow")

def add (a b : Nat) : Except StoreError Nat := if a + b ≤ usizeMax then .ok (a + b) else .error
    (overflow "add")

def addU32 (a b : Nat) : Except StoreError Nat := if a + b < 4294967296 then .ok (a + b) else .error
    (overflow "add")

def sub (a b : Nat) : Except StoreError Nat := if b ≤ a then .ok (a - b) else .error
    (overflow "subtract")

def mul (a b : Nat) : Except StoreError Nat :=
  if a * b ≤ usizeMax then .ok (a * b) else .error (overflow "multiply")

def shl (v shift : Nat) : Except StoreError Nat :=
  if shift < 64 then .ok ((v <<< shift) % 18446744073709551616) else .error (overflow "shift left")

def neg (v : BitVec 64) : Except StoreError (BitVec 64) :=
  if v = BitVec.intMin 64 then .error (overflow "negate") else .ok (-v)

def index {α : Type} (xs : List α) (i : Nat) : Except StoreError α :=
  match xs[i]? with
  | some x => .ok x
  | none => .error (.panic "index out of bounds")

def slice (b : List UInt8) (lo hi : Nat) : Except StoreError (List UInt8) :=
  if lo ≤ hi ∧ hi ≤ b.length then .ok ((b.drop lo).take (hi - lo))
    else .error (.panic "range out of bounds")

/-- `Vec::with_capacity(n)` of records, in a decode of `input` bytes. -/
def withCapacity (input n : Nat) : Except StoreError Unit :=
  if n ≤ input then .ok () else .error (.panic "more records than bytes")

def byte : Reader UInt8 := do
  let r ← get
  match r.b[r.pos]? with
  | none => throw (bad "truncated")
  | some v => do
    let pos ← add r.pos 1
    set { r with pos }
    return v

def varintGo : Nat → Nat → Nat → Reader Nat
  | 0, _, _ => throw (.panic "no end")
  | fuel + 1, v, shift => do
    let b ← byte
    if shift > 63 ∨ (shift = 63 ∧ b > 1) then
      throw (bad "varint overflow")
    let part ← shl (b &&& 0x7f).toNat shift
    if b &&& 0x80 = 0 then
      return v ||| part
    let shift ← addU32 shift 7
    varintGo fuel (v ||| part) shift

def varint : Reader Nat := do
  let r ← get
  match r.b[r.pos]? with
  | some b =>
    if b < 0x80 then do
      let pos ← add r.pos 1
      set { r with pos }
      return b.toNat
    else varintGo 11 0 0
  | none => varintGo 11 0 0

def unzigzag (v : BitVec 64) : Except StoreError (BitVec 64) := do
  let sign ← neg (v &&& 1)
  return (v >>> 1) ^^^ sign

def rel (base : U32) : Reader U32 := do
  let n ← varint
  let delta ← unzigzag (BitVec.ofNat 64 n)
  let v : Int := base.val + delta.toInt
  if v < -9223372036854775808 ∨ 9223372036854775807 < v then
    throw (bad "span delta overflow")
  if v < 0 then
    throw (bad "span field out of range")
  match toU32 v.toNat with
  | some x => return x
  | none => throw (bad "span field out of range")

def readSpan (prev : Span) : Reader Span := do
  let start ← rel prev.start
  let stop ← rel start
  let startLine ← rel prev.startLine
  let startCol ← rel prev.startCol
  let endLine ← rel startLine
  let n ← varint
  match toU32 n with
  | some endCol => return ⟨start, stop, startLine, startCol, endLine, endCol⟩
  | none => throw (bad "span col out of range")

def parent : Reader (Option U32) := do
  let p ← varint
  if p = 0 then
    return none
  let p ← sub p 1
  match toU32 p with
  | some p => return some p
  | none => throw (bad "parent out of range")

def readCks : Nat → Ck → Reader (List Ck)
  | 0, _ => return []
  | n + 1, last => do
    let d ← varint
    if last.off + d > usizeMax then
      throw (bad "checkpoint offset overflow")
    let start ← rel last.start
    let line ← rel last.line
    let col ← rel last.col
    let ck : Ck := ⟨last.off + d, start, line, col⟩
    let cks ← readCks n ck
    return ck :: cks

def readHeader : Reader (Nat × Nat × Nat × UInt8) := do
  let fmt ← byte
  if fmt ≠ streamFormat then
    throw (bad ("unknown or old stream format byte " ++ toString fmt.toNat ++ " (expected " ++
      toString streamFormat.toNat ++ "); the v2 store's on-disk layout changed and old v2 files " ++
      "must be re-indexed"))
  let nsym ← varint
  let ntok ← varint
  let symlen ← varint
  let flags ← byte
  if flags &&& ~~~3 ≠ 0 then
    throw (bad "reserved stream flag bits set")
  return (nsym, ntok, symlen, flags)

def decodeLazy (b : List UInt8) : Except StoreError Lazy := do
  let ((nsym, ntok, symlen, flags), c) ← readHeader.run ⟨b, 0⟩
  failIf (satAdd nsym ntok > b.length) (bad "record count exceeds input")
  let symEnd := c.pos + symlen
  failIf (symEnd > b.length) (bad "symbol section exceeds input")
  let symBytes ← slice b c.pos symEnd
  let nck := (ntok - 1) / checkpointEvery
  failIf (nck > b.length) (bad "checkpoint count exceeds input")
  withCapacity b.length nck
  let (cks, c') ← (readCks nck Ck.init).run ⟨b, symEnd⟩
  let toks ← slice b c'.pos b.length
  failIf (cks.getLast?.any (fun c => toks.length ≤ c.off)) (bad "checkpoint offset out of range")
  return { nsym, ntok, rangesDense := flags &&& 1 ≠ 0, hasOwners := flags &&& 2 ≠ 0, symBytes,
           cks, toks }

def readKind : Reader SymbolKind := do
  let b ← byte
  match kinds[b.toNat]? with
  | some k => return k
  | none => throw (bad "bad symbol kind")

def readId : Reader (Option Nat) := do
  let v ← varint
  return if v = 0 then none else some (v - 1)

def readOwner (hasOwners : Bool) : Reader (Option Nat) := if hasOwners then readId else pure none

def readRange (prevFirst : U32) : Reader (Option (U32 × U32)) := do
  let n ← varint
  if n = 0 then
    return none
  let first ← rel prevFirst
  let n ← sub n 1
  match toU32 n with
  | none => throw (bad "token range length out of range")
  | some len =>
    match toU32 (first.val + len.val) with
    | none => throw (bad "token range overflow")
    | some last => return some (first, last)

def readSym (hasOwners : Bool) (i : Nat) (prev : Span) (prevFirst : U32) : Reader SymRec := do
  let name ← varint
  let kind ← readKind
  let langKind ← readId
  let owner ← readOwner hasOwners
  let parent ← parent
  if parent.any (fun p => i ≤ p.val) then
    throw (bad "parent index out of range")
  let span ← readSpan prev
  let toks ← readRange prevFirst
  return ⟨name, kind, langKind, parent, span, toks, owner⟩

def readSyms (hasOwners : Bool) : Nat → Nat → Span → U32 → Reader (List SymRec)
  | 0, _, _, _ => return []
  | n + 1, i, prev, prevFirst => do
    let sym ← readSym hasOwners i prev prevFirst
    let syms ← readSyms hasOwners n (i + 1) sym.span (nextFirst prevFirst sym.toks)
    return sym :: syms

def symbols (input : Nat) (lz : Lazy) : Except StoreError (List SymRec) := do
  withCapacity input lz.nsym
  let (syms, c) ← (readSyms lz.hasOwners lz.nsym 0 zero 0).run ⟨lz.symBytes, 0⟩
  failIf (c.pos ≠ lz.symBytes.length) (bad "trailing bytes in symbol section")
  return syms

def readClass : Reader TokenClass := do
  let b ← byte
  match classes[b.toNat]? with
  | some c => return c
  | none => throw (bad "bad token class")

def record (lz : Lazy) (prev : Span) : Reader TokRec := do
  let term ← varint
  let cls ← readClass
  let parent ← parent
  if parent.any (fun p => lz.nsym ≤ p.val) then
    throw (bad "parent index out of range")
  let span ← readSpan prev
  return ⟨term, cls, parent, span⟩

variable {σ : Type}

def checkCk (lz : Lazy) (ord : Nat) (prev : Span) : Reader Unit := do
  if 0 < ord ∧ ord % checkpointEvery = 0 then
    let i ← sub (ord / checkpointEvery) 1
    let c ← index lz.cks i
    let r ← get
    if (c.off, c.start, c.line, c.col) ≠ (r.pos, prev.start, prev.startLine, prev.startCol) then
      throw (bad "checkpoint mismatch")

def tokensGo (lz : Lazy) (f : Visitor σ) : Nat → Nat → Span → σ → Reader (σ × Bool)
  | 0, _, _, st => return (st, true)
  | n + 1, ord, prev, st => do
    checkCk lz ord prev
    let t ← record lz prev
    let (st, more) := f ord t st
    if more then tokensGo lz f n (ord + 1) t.span st else return (st, false)

def tokens (lz : Lazy) (f : Visitor σ) (init : σ) : Except StoreError σ := do
  let ((st, full), c) ← (tokensGo lz f lz.ntok 0 zero init).run ⟨lz.toks, 0⟩
  failIf (full ∧ c.pos ≠ lz.toks.length) (bad "trailing bytes")
  return st

def seek (lz : Lazy) (block : Nat) : Reader Span := do
  let i ← sub block 1
  let c ← index lz.cks i
  modify (fun r => { r with pos := c.off })
  return c.span

def skip (lz : Lazy) : Nat → Nat → Span → Reader (Span × Nat)
  | 0, next, prev => return (prev, next)
  | n + 1, next, prev => do
    let t ← record lz prev
    let next ← add next 1
    skip lz n next t.span

def approach (lz : Lazy) (ord next : Nat) (prev : Span) : Reader (Span × Nat) := do
  let block := ord / checkpointEvery
  let first ← mul block checkpointEvery
  if next < first then do
    let prev ← seek lz block
    return (prev, first)
  else pure (prev, next)

def tokensAtGo (lz : Lazy) (f : Visitor σ) : List Nat → Option Nat → Nat → Span → σ → Reader σ
  | [], _, _, _, st => return st
  | ord :: ords, last, next, prev, st => do
    failIf (lz.ntok ≤ ord ∨ last.any (fun l => ord ≤ l)) (bad "token ordinal out of order or range")
    let (prev, next) ← approach lz ord next prev
    let (prev, next) ← skip lz (ord - next) next prev
    let t ← record lz prev
    let next ← add next 1
    let (st, more) := f ord t st
    if more then tokensAtGo lz f ords (some ord) next t.span st else return st

def tokensAtWhile (lz : Lazy) (ords : List Nat) (f : Visitor σ) (init : σ) :
    Except StoreError σ := do
  let (st, _) ← (tokensAtGo lz f ords none 0 zero init).run ⟨lz.toks, 0⟩
  return st

def tokensFromGo (lz : Lazy) (first : Nat) (f : Visitor σ) : Nat → Nat → Span → σ → Reader σ
  | 0, _, _, st => return st
  | n + 1, ord, prev, st => do
    let t ← record lz prev
    if first ≤ ord then
      let (st, more) := f ord t st
      if more then do
        let ord ← add ord 1
        tokensFromGo lz first f n ord t.span st
      else return st
    else do
      let ord ← add ord 1
      tokensFromGo lz first f n ord t.span st

def blockStart (lz : Lazy) (block : Nat) : Reader Span := if block = 0 then pure zero
    else seek lz block

def walkFrom (lz : Lazy) (first : Nat) (f : Visitor σ) (init : σ) : Reader σ := do
  let prev ← blockStart lz (first / checkpointEvery)
  let ord ← mul (first / checkpointEvery) checkpointEvery
  tokensFromGo lz first f (lz.ntok - ord) ord prev init

def tokensFromWhile (lz : Lazy) (first : Nat) (f : Visitor σ) (init : σ) : Except StoreError σ :=
  if lz.ntok ≤ first then return init
  else do
    let (st, _) ← (walkFrom lz first f init).run ⟨lz.toks, 0⟩
    return st

def rangesDiffer (symbols : List SymRec) (tokens : List TokRec) : Bool :=
  (symbols.zip (computeRanges symbols tokens).1).any fun p => p.1.toks ≠ p.2

def stale : StoreError :=
  .panic "stored dense range does not match the range re-derived from the decoded tokens"

/-- The whole stream; a build with debug assertions compares ranges that are said to be dense. -/
def decode (debug : Bool) (b : List UInt8) : Except StoreError Stream := do
  let lz ← decodeLazy b
  let symbols ← symbols b.length lz
  withCapacity b.length lz.ntok
  let tokens ← tokens lz (fun _ t (ts : List TokRec) => (ts ++ [t], true)) []
  failIf (debug && lz.rangesDense && rangesDiffer symbols tokens) stale
  return ⟨symbols, tokens⟩

end MemoryGraph.Codec.Machine
