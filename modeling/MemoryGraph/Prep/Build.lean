import MemoryGraph.Codec.Stream
import MemoryGraph.Codec.Posting
import MemoryGraph.Lib.Interleave

/-! The work on one extraction that needs no store: the span check, and the stream,
terms, postings and catalog samples laid out from it. -/

namespace MemoryGraph
open Lib Codec

def symBefore (a b : Span) : Prop := a.start < b.start ∨ (a.start = b.start ∧ b.stop ≤ a.stop)

instance : DecidableRel symBefore := fun _ _ => inferInstanceAs (Decidable (_ ∨ _))

def tokBefore (a b : Span) : Prop := a.start ≤ b.start

instance : DecidableRel tokBefore := fun _ _ => inferInstanceAs (Decidable (_ ≤ _))

def takeSym (s t : Span) : Bool := s.start ≤ t.start

def checkSpan (opened : List U32) (isSym : Bool) (sp : Span) : Except StoreError (List U32) := do
  let opened := opened.dropWhile (fun stop => stop ≤ sp.start)
  failIf (sp.stop < sp.start)
    (StoreError.invalidSpan ("start " ++ toString sp.start.val ++ " > end " ++
      toString sp.stop.val))
  match opened.head? with
  | some stop =>
    failIf (stop < sp.stop) (StoreError.invalidSpan ("bytes " ++ toString sp.start.val ++ ".." ++
      toString sp.stop.val ++ " partially overlap an enclosing symbol ending at " ++
      toString stop.val))
  | none => pure ()
  return if isSym then sp.stop :: opened else opened

def checkItem (opened : List U32) : Span ⊕ Span → Except StoreError (List U32)
  | .inl sp => checkSpan opened true sp
  | .inr sp => checkSpan opened false sp

/-- No span starts after it ends, none partially overlaps an enclosing symbol. -/
def validateSpans (ex : Extraction) : Except StoreError Unit := do
  let syms := (ex.symbols.map SymbolDecl.span).insertionSort symBefore
  let toks := (ex.tokens.map TokenDecl.span).insertionSort tokBefore
  let _ ← (interleave takeSym syms toks).foldlM checkItem []
  return ()

def internLocal (t : String) (terms : List String) : Nat × List String :=
  match terms.idxOf? t with
  | some i => (i, terms)
  | none => (terms.length, terms ++ [t])

def internOption (o : Option String) (terms : List String) : Option Nat × List String :=
  match o with
  | none => (none, terms)
  | some t => (some (internLocal t terms).1, (internLocal t terms).2)

/-- The loop state: `opened` is the stack of enclosing symbols with their ends, top first. -/
structure BuildState where
  terms : List String
  symbols : List SymRec
  tokens : List TokRec
  opened : List (U32 × U32)
deriving DecidableEq, Repr

def closeTo (pos : U32) (opened : List (U32 × U32)) : List (U32 × U32) :=
  opened.dropWhile (fun e => e.2 ≤ pos)

def pushSym (st : BuildState) (s : SymbolDecl) : BuildState :=
  let opened := closeTo s.span.start st.opened
  let (name, terms) := internLocal s.name st.terms
  let (langKind, terms) := internOption s.langKind terms
  let (owner, terms) := internOption s.owner terms
  { terms
    symbols := st.symbols ++
      [⟨name, s.kind, langKind, opened.head?.map Prod.fst, s.span, none, owner⟩]
    tokens := st.tokens
    opened := (u32 st.symbols.length, s.span.stop) :: opened }

def pushTok (st : BuildState) (t : TokenDecl) : BuildState :=
  let opened := closeTo t.span.start st.opened
  let (term, terms) := internLocal t.text st.terms
  { terms
    symbols := st.symbols
    tokens := st.tokens ++ [⟨term, t.cls, opened.head?.map Prod.fst, t.span⟩]
    opened }

def pushItem (st : BuildState) : SymbolDecl ⊕ TokenDecl → BuildState
  | .inl s => pushSym st s
  | .inr t => pushTok st t

def sortedSyms (ex : Extraction) : List SymbolDecl :=
  ex.symbols.insertionSort (fun a b => symBefore a.span b.span)

def sortedToks (ex : Extraction) : List TokenDecl :=
  ex.tokens.insertionSort (fun a b => tokBefore a.span b.span)

def buildItems (ex : Extraction) : List (SymbolDecl ⊕ TokenDecl) :=
  interleave (fun s t => takeSym s.span t.span) (sortedSyms ex) (sortedToks ex)

def buildLoop (ex : Extraction) : BuildState := (buildItems ex).foldl pushItem ⟨[], [], [], []⟩

def symCounts (syms : List SymbolDecl) : Table (String ×ₗ WithBot String) (SymbolKind × Int) :=
  syms.foldl (fun counts s => counts.alter (toLex (s.kind.asStr, s.langKind))
    (fun old => (s.kind, (old.elim 0 Prod.snd) + 1))) Table.empty

def classCounts (toks : List TokenDecl) : Table String (TokenClass × Int) :=
  toks.foldl (fun counts t => counts.alter t.cls.asStr
    (fun old => (t.cls, (old.elim 0 Prod.snd) + 1))) Table.empty

def termOrds (tokens : List TokRec) : Table Nat (List Nat) :=
  tokens.zipIdx.foldl (fun ords t => ords.alter t.1.term (fun old => old.getD [] ++ [t.2]))
    Table.empty

def sampleSym (kind : SymbolKind) (langKind : Option String) : Node :=
  { blank 0 none .symbol "" with symbolKind := some kind, langKind }

def sampleTok (cls : TokenClass) : Node := { blank 0 none .token "" with tokenClass := some cls }

def Codec.Stream.withIds (ids : List Nat) (st : Stream) : Stream where
  symbols := st.symbols.map (fun s => { s with
    name := ids.getD s.name 0
    langKind := s.langKind.map (fun k => ids.getD k 0)
    owner := s.owner.map (fun k => ids.getD k 0) })
  tokens := st.tokens.map (fun t => { t with term := ids.getD t.term 0 })

structure V2Prep where
  terms : List String
  stream : Stream
  postings : List (Nat × List UInt8)
  tallyNodes : List (Node × Int)
deriving DecidableEq, Repr

def V2Prep.build (ex : Extraction) : V2Prep where
  terms := (buildLoop ex).terms
  stream := ⟨(buildLoop ex).symbols, (buildLoop ex).tokens⟩
  postings := (termOrds (buildLoop ex).tokens).rows.map (fun r => (r.1, encodePosting r.2))
  tallyNodes :=
    (symCounts (sortedSyms ex)).rows.map (fun r => (sampleSym r.2.1 (ofLex r.1).2, r.2.2)) ++
      (classCounts (sortedToks ex)).rows.map (fun r => (sampleTok r.2.1, r.2.2))

end MemoryGraph
