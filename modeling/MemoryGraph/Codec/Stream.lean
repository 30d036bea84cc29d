import MemoryGraph.Codec.Varint

/-! One file's symbols and tokens, and their encoding as one byte string: symbol
records with the token range under each, checkpoints, then token records. -/

namespace MemoryGraph.Codec
open Lib

structure SymRec where
  name : Nat
  kind : SymbolKind
  langKind : Option Nat
  parent : Option U32
  span : Span
  toks : Option (U32 × U32)
  owner : Option Nat
deriving DecidableEq, Repr

structure TokRec where
  term : Nat
  cls : TokenClass
  parent : Option U32
  span : Span
deriving DecidableEq, Repr

structure Stream where
  symbols : List SymRec
  tokens : List TokRec
deriving DecidableEq, Repr

def streamFormat : UInt8 := 3

def checkpointEvery : Nat := 64

def kinds : List SymbolKind :=
  [.module, .type, .function, .method, .variable, .constant, .other]

def classes : List TokenClass :=
  [.identifier, .keyword, .literal, .operator, .punctuation, .comment, .other]

def zero : Span := ⟨0, 0, 0, 0, 0, 0⟩

structure RangeAcc where
  first : Option U32
  last : Option U32
  count : Nat
deriving DecidableEq, Repr

def RangeAcc.touch (ord : U32) (a : RangeAcc) : RangeAcc where
  first := some (match a.first with | none => ord | some f => min f ord)
  last := some (match a.last with | none => ord | some l => max l ord)
  count := a.count + 1

def ascend (symbols : List SymRec) (ord : U32) : Nat → Option U32 → List RangeAcc → List RangeAcc
  | 0, _, accs => accs
  | _ + 1, none, accs => accs
  | n + 1, some i, accs =>
    match symbols[i.val]? with
    | none => accs
    | some sym => ascend symbols ord n sym.parent (accs.modify i.val (RangeAcc.touch ord))

def rangeAccs (symbols : List SymRec) : Nat → List TokRec → List RangeAcc → List RangeAcc
  | _, [], accs => accs
  | ord, t :: ts, accs =>
    rangeAccs symbols (ord + 1) ts (ascend symbols (u32 ord) symbols.length t.parent accs)

def RangeAcc.range (a : RangeAcc) : Option (U32 × U32) :=
  match a.first, a.last with
  | some f, some l => some (f, l)
  | _, _ => none

def RangeAcc.dense (a : RangeAcc) : Bool :=
  match a.range with
  | some (f, l) => a.count = l.val - f.val + 1
  | none => true

def computeRanges (symbols : List SymRec) (tokens : List TokRec) :
    List (Option (U32 × U32)) × Bool :=
  let accs := rangeAccs symbols 0 tokens (List.replicate symbols.length ⟨none, none, 0⟩)
  (accs.map RangeAcc.range, accs.all RangeAcc.dense)

def putSpan (s prev : Span) : List UInt8 :=
  putVarint (diff s.start prev.start) ++ (putVarint (diff s.stop s.start) ++
    (putVarint (diff s.startLine prev.startLine) ++ (putVarint (diff s.startCol prev.startCol) ++
      (putVarint (diff s.endLine s.startLine) ++ putVarint s.endCol.val))))

def putKind (k : SymbolKind) : UInt8 := UInt8.ofNat ((kinds.findIdx? (· = k)).getD 6)

def putClass (c : TokenClass) : UInt8 := UInt8.ofNat ((classes.findIdx? (· = c)).getD 6)

def putId : Option Nat → List UInt8
  | none => putVarint 0
  | some k => putVarint (k + 1)

def putParent : Option U32 → List UInt8
  | none => putVarint 0
  | some p => putVarint (p.val + 1)

def putRange (prevFirst : U32) : Option (U32 × U32) → List UInt8
  | none => putVarint 0
  | some (first, last) => putVarint (last.val - first.val + 1) ++ putVarint (diff first prevFirst)

def nextFirst (prevFirst : U32) : Option (U32 × U32) → U32
  | none => prevFirst
  | some (first, _) => first

def putSym (hasOwners : Bool) (prev : Span) (prevFirst : U32) (s : SymRec)
    (range : Option (U32 × U32)) : List UInt8 :=
  putVarint s.name ++ ([putKind s.kind] ++ (putId s.langKind ++
    ((if hasOwners then putId s.owner else []) ++ (putParent s.parent ++
      (putSpan s.span prev ++ putRange prevFirst range)))))

def putSyms (hasOwners : Bool) : Span → U32 → List (SymRec × Option (U32 × U32)) → List UInt8
  | _, _, [] => []
  | prev, prevFirst, (s, range) :: rest =>
    putSym hasOwners prev prevFirst s range ++
      putSyms hasOwners s.span (nextFirst prevFirst range) rest

structure Ck where
  off : Nat
  start : U32
  line : U32
  col : U32
deriving DecidableEq, Repr

def Ck.init : Ck := ⟨0, 0, 0, 0⟩

def putCk (ck last : Ck) : List UInt8 :=
  putVarint (ck.off - last.off) ++ (putVarint (diff ck.start last.start) ++
    (putVarint (diff ck.line last.line) ++ putVarint (diff ck.col last.col)))

def putTok (prev : Span) (t : TokRec) : List UInt8 :=
  putVarint t.term ++ ([putClass t.cls] ++ (putParent t.parent ++ putSpan t.span prev))

def putToks : List TokRec → Nat → Span → Ck → List UInt8 → List UInt8 → List UInt8 × List UInt8
  | [], _, _, _, cks, toks => (cks, toks)
  | t :: ts, i, prev, last, cks, toks =>
    if 0 < i ∧ i % checkpointEvery = 0 then
      let ck : Ck := ⟨toks.length, prev.start, prev.startLine, prev.startCol⟩
      putToks ts (i + 1) t.span ck (cks ++ putCk ck last) (toks ++ putTok prev t)
    else
      putToks ts (i + 1) t.span last cks (toks ++ putTok prev t)

def encode (st : Stream) : List UInt8 :=
  let (ranges, rangesDense) := computeRanges st.symbols st.tokens
  let hasOwners := st.symbols.any (fun s => s.owner.isSome)
  let syms := putSyms hasOwners zero 0 (st.symbols.zip ranges)
  let (cks, toks) := putToks st.tokens 0 zero Ck.init [] []
  [streamFormat] ++ (putVarint st.symbols.length ++ (putVarint st.tokens.length ++
    (putVarint syms.length ++ ([rangesDense.toUInt8 ||| (hasOwners.toUInt8 <<< 1)] ++
      (syms ++ (cks ++ toks))))))

end MemoryGraph.Codec
