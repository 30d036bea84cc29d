import MemoryGraph.Lib.Table

/-! The schema types of `graph-core`: nodes, spans and extractions, and the errors
of the store. A span field is a `u32`; ids, counts and offsets are `u64`/`usize`. -/

namespace MemoryGraph

abbrev U32 := Fin 4294967296

instance u32_ne_zero : NeZero 4294967296 := ⟨by decide⟩

def u32 (n : Nat) : U32 := Fin.ofNat _ n

def usizeMax : Nat := 18446744073709551615

def satAdd (a b : Nat) : Nat := min (a + b) usizeMax

inductive NodeKind
  | org | repo | file | symbol | token
deriving DecidableEq, Repr

inductive SymbolKind
  | module | type | function | method | variable | constant | other
deriving DecidableEq, Repr

def SymbolKind.asStr : SymbolKind → String
  | .module => "module"
  | .type => "type"
  | .function => "function"
  | .method => "method"
  | .variable => "variable"
  | .constant => "constant"
  | .other => "other"

inductive TokenClass
  | identifier | keyword | literal | operator | punctuation | comment | other
deriving DecidableEq, Repr

def TokenClass.asStr : TokenClass → String
  | identifier => "identifier"
  | keyword => "keyword"
  | literal => "literal"
  | operator => "operator"
  | punctuation => "punctuation"
  | comment => "comment"
  | other => "other"

/-- Byte offsets `start`..`stop` (the source's `end`), then the lines and columns of both ends. -/
structure Span where
  start : U32
  stop : U32
  startLine : U32
  startCol : U32
  endLine : U32
  endCol : U32
deriving DecidableEq, Repr

structure TokenDecl where
  text : String
  cls : TokenClass
  span : Span
deriving DecidableEq, Repr

structure SymbolDecl where
  name : String
  kind : SymbolKind
  langKind : Option String
  span : Span
  owner : Option String
deriving DecidableEq, Repr

structure Extraction where
  symbols : List SymbolDecl
  tokens : List TokenDecl
  hasErrors : Bool
deriving DecidableEq, Repr

structure Node where
  id : Nat
  parent : Option Nat
  kind : NodeKind
  name : String
  language : Option String
  symbolKind : Option SymbolKind
  langKind : Option String
  tokenClass : Option TokenClass
  hasErrors : Bool
  origin : Option String
  fingerprint : Option String
  encoding : Option String
  lossy : Bool
  span : Option Span
deriving DecidableEq, Repr

def blank (id : Nat) (parent : Option Nat) (kind : NodeKind) (name : String) : Node where
  id := id
  parent := parent
  kind := kind
  name := name
  language := none
  symbolKind := none
  langKind := none
  tokenClass := none
  hasErrors := false
  origin := none
  fingerprint := none
  encoding := none
  lossy := false
  span := none

/-- The store's errors. `panic` is not one of the source's: it stands for an index out
of bounds or an arithmetic overflow, where the source unwinds. -/
inductive StoreError
  | panic (what : String)
  | locked (msg : String)
  | rejected (msg : String)
  | notUtf8 (what : String)
  | strictEncoding (path encoding : String)
  | binary (what : String)
  | tooLarge (what : String)
  | invalidSpan (msg : String)
  | corrupt (msg : String)
  | storage (msg : String)
  | snapshotExpired (ageSecs maxAgeSecs : Nat)
  | protocol (msg : String)
  | alreadyApplied (index : Nat)
deriving DecidableEq, Repr

end MemoryGraph
