import MemoryGraph.Store.Dict
import MemoryGraph.Store.Catalog
import MemoryGraph.Path
import MemoryGraph.Prep.Build
import MemoryGraph.Read.Traverse
import MemoryGraph.Lib.Multimap
import MemoryGraph.Lib.Rows

/-! The tables of the store and the writes, each one transaction: an error leaves no trace. -/

namespace MemoryGraph
open Lib Codec

/-- The tables, under the source's names. A node row is the node itself. -/
structure Data where
  nextId : Nat
  terms : Dict
  nodes : Table Nat Node
  names : Table String Nat
  children : Multimap Nat Nat
  streams : Table Nat (List UInt8)
  post : Table (Nat ×ₗ Nat) (List UInt8)
  symIdx : Multimap String Nat
  symFold : Multimap String Nat
  fileKeys : Table Nat (List UInt8)
  cat : Table String Nat
  refs : Table Nat Nat
  contentFiles : Multimap Nat Nat
deriving DecidableEq

def Data.empty : Data where
  nextId := 1
  terms := Dict.empty
  nodes := Table.empty
  names := Table.empty
  children := Multimap.empty
  streams := Table.empty
  post := Table.empty
  symIdx := Multimap.empty
  symFold := Multimap.empty
  fileKeys := Table.empty
  cat := Table.empty
  refs := Table.empty
  contentFiles := Multimap.empty

def NodeKind.debug : NodeKind → String
  | .org => "Org"
  | .repo => "Repo"
  | .file => "File"
  | .symbol => "Symbol"
  | .token => "Token"

def nameKey (parent : Option Nat) (kind : NodeKind) (name : String) : String :=
  nulJoin [toString (parent.getD 0), kind.debug, name]

def contentId (file : Nat) : Nat := file

def foldSymbolName (name : String) : String := asciiLower name

def originDirectory : String := "directory"

def derivedWriterMark : Nat := 1

def fileKeyRow (n : Node) : Except StoreError (List UInt8) :=
  match n.parent with
  | none => .error (.corrupt "file without repo")
  | some parent => return encodeFileKey ⟨parent, n.language, n.name⟩

def scopeOf (org repo : String) (f : Node) : Scope :=
  ⟨org, repo, f.language.getD "unknown", f.encoding, f.lossy⟩

def symSample (dict : Dict) (file : Nat) (r : SymRec) : Except StoreError Node := do
  let langKind ← optText dict.text r.langKind
  return { blank 0 (some file) .symbol "" with symbolKind := some r.kind, langKind }

def tokSample (file : Nat) (t : TokRec) : Node :=
  { blank 0 (some file) .token "" with tokenClass := some t.cls }

def tallyStream (dict : Dict) (tally : Tally) (scope : Scope) (file : Nat) (s : Stream) (d : Int) :
    Except StoreError Tally := do
  let samples ← s.symbols.mapM (symSample dict file)
  let tally := samples.foldl (fun t n => t.node scope n d) tally
  return (s.tokens.map (tokSample file)).foldl (fun t n => t.node scope n d) tally

def tokenTerms (s : Stream) : List Nat :=
  (s.tokens.foldl (fun t r => t.insert r.term ()) Table.empty).keys

def unindexSymbol (file : Nat) (d : Data) (p : String × Nat) : Data :=
  { d with
    symIdx := d.symIdx.remove p.1 (subId tagSym file p.2)
    symFold := d.symFold.remove (foldSymbolName p.1) (subId tagSym file p.2) }

def Data.removeStream (d : Data) (file : Nat) (scope : Scope) (tally : Tally) (s : Stream) :
    Except StoreError (Data × Tally) := do
  let tally ← tallyStream d.terms tally scope file s (-1)
  let post := (tokenTerms s).foldl (fun post t => post.remove (toLex (t, file))) d.post
  let names ← s.symbols.mapM (fun r => d.terms.text r.name)
  let d := { d with streams := d.streams.remove file, post }
  return (names.zipIdx.foldl (unindexSymbol file) d, tally)

def Data.removeContent (d : Data) (file : Nat) (scope : Scope) (tally : Tally) :
    Except StoreError (Data × Tally) :=
  match d.streams.get file with
  | none => return (d, tally)
  | some raw => do
    let s ← decode raw
    let cid := contentId file
    let count := (d.refs.get cid).getD 0
    let d := { d with contentFiles := d.contentFiles.remove cid file }
    if 0 < count - 1 then return ({ d with refs := d.refs.insert cid (count - 1) }, tally)
    else Data.removeStream { d with refs := d.refs.remove cid } file scope tally s

structure FileMeta where
  origin : Option String
  fingerprint : Option String
  encoding : Option String
  lossy : Bool
deriving DecidableEq, Repr

structure IngestStats where
  fileId : Nat
  symbols : Nat
  tokens : Nat
  replaced : Bool
  unchanged : Bool
  hasErrors : Bool
  path : String
  language : String
  encoding : Option String
  lossy : Bool
  spanWarning : Option String
deriving DecidableEq, Repr

def rejectNul (what v : String) : Except StoreError Unit :=
  failIf ('\x00' ∈ v.toList) (StoreError.rejected (what ++ " must not contain NUL bytes"))

def rejectNulIn (what : String) : Option String → Except StoreError Unit
  | some v => rejectNul what v
  | none => return ()

def checkDecl (sd : SymbolDecl) : Except StoreError Unit := do
  rejectNulIn "symbol lang_kind" sd.langKind
  rejectNulIn "symbol owner" sd.owner

def checkIngest (org repo language : String) (ex : Extraction) : Except StoreError Unit := do
  failIf (org = "" ∨ repo = "") (StoreError.rejected "org and repo must not be empty")
  rejectNul "org" org
  rejectNul "repo" repo
  rejectNul "language" language
  let _ ← ex.symbols.mapM checkDecl
  return ()

def entityNode (id : Nat) (parent : Option Nat) (kind : NodeKind) (name : String)
    (language : Option String) : Node := { blank id parent kind name with language }

def Data.ensure (d : Data) (parent : Option Nat) (kind : NodeKind) (name : String)
    (language : Option String) : Except StoreError (Data × Nat × Bool) :=
  match d.names.get (nameKey parent kind name) with
  | some id => return (d, id, true)
  | none => do
    failIf (maxLocal < d.nextId) (StoreError.storage "entity id space exhausted")
    let id := d.nextId
    return ({ d with
      nextId := id + 1
      nodes := d.nodes.insert id (entityNode id parent kind name language)
      names := d.names.insert (nameKey parent kind name) id
      children := match parent with
        | some p => d.children.insert p id
        | none => d.children }, id, false)

def Data.markRepo (d : Data) (org repo : String) : Data :=
  { d with cat := d.cat.insert (nulJoin ["r", org, repo]) derivedWriterMark }

def fileNode (fileId repoId : Nat) (path language : String) (ex : Extraction) (fm : FileMeta) :
    Node :=
  { blank fileId (some repoId) .file path with
    language := some language
    hasErrors := ex.hasErrors
    origin := fm.origin
    fingerprint := fm.fingerprint
    encoding := fm.encoding
    lossy := fm.lossy }

def Data.putFile (d : Data) (fileId : Nat) (f : Node) (row : List UInt8) : Data :=
  { d with nodes := d.nodes.insert fileId f, fileKeys := d.fileKeys.insert fileId row }

def Data.replaceOld (d : Data) (existed : Bool) (org repo : String) (fileId : Nat) (tally : Tally) :
    Except StoreError (Data × Tally) :=
  if existed then
    match d.nodes.get fileId with
    | none => .error (.corrupt "dangling file")
    | some old =>
      d.removeContent fileId (scopeOf org repo old) (tally.file (scopeOf org repo old) (-1))
  else return (d, tally)

def indexSymbol (file : Nat) (d : Data) (p : String × Nat) : Data :=
  { d with
    symIdx := d.symIdx.insert p.1 (subId tagSym file p.2)
    symFold := d.symFold.insert (foldSymbolName p.1) (subId tagSym file p.2) }

def globalPostings (ids : List Nat) (postings : List (Nat × List UInt8)) :
    List (Nat × List UInt8) :=
  (postings.map (fun p => (ids.getD p.1 0, p.2))).insertionSort (fun a b => a.1 ≤ b.1)

section
variable (sha256 : List UInt8 → List UInt8)

def Data.putContent (d : Data) (file : Nat) (prep : V2Prep) : Except StoreError Data := do
  let (terms, ids) ← internAll sha256 d.terms prep.terms
  let names := prep.stream.symbols.map (fun s => prep.terms.getD s.name "")
  let d := names.zipIdx.foldl (indexSymbol file) { d with terms }
  let cid := contentId file
  return { d with
    post := (globalPostings ids prep.postings).foldl
      (fun post p => post.insert (toLex (p.1, file)) p.2) d.post
    streams := d.streams.insert file (encode (prep.stream.withIds ids))
    refs := d.refs.insert cid 1
    contentFiles := d.contentFiles.insert cid file }

def Data.ingestPrepped (d : Data) (org repo path language : String) (ex : Extraction)
    (fm : FileMeta) : Except StoreError (Data × IngestStats) := do
  checkIngest org repo language ex
  let language := asciiLower language
  let path := normalizePath path
  let (d, orgId, _) ← d.ensure none .org org none
  let (d, repoId, _) ← d.ensure (some orgId) .repo repo none
  let (d, fileId, existed) ← d.ensure (some repoId) .file path (some language)
  let d := d.markRepo org repo
  let scope : Scope := ⟨org, repo, language, fm.encoding, fm.lossy⟩
  let tally := Tally.file Table.empty scope 1
  let (d, tally) ← d.replaceOld existed org repo fileId tally
  let f := fileNode fileId repoId path language ex fm
  let row ← fileKeyRow f
  let d := d.putFile fileId f row
  let prep := V2Prep.build ex
  let d ← d.putContent sha256 fileId prep
  let tally := prep.tallyNodes.foldl (fun t n => t.node scope n.1 n.2) tally
  return ({ d with cat := tally.apply d.cat },
    { fileId, symbols := prep.stream.symbols.length, tokens := prep.stream.tokens.length
      replaced := existed, unchanged := false, hasErrors := ex.hasErrors, path, language
      encoding := fm.encoding, lossy := fm.lossy, spanWarning := none })

end

def prunes (keep : List String) (f : Node) : Bool :=
  f.name ∉ keep ∧ f.origin = some originDirectory

def Data.dropFile (d : Data) (repoId fid : Nat) (path : String) : Data :=
  { d with
    nodes := d.nodes.remove fid
    fileKeys := d.fileKeys.remove fid
    names := d.names.remove (nameKey (some repoId) .file path)
    children := d.children.remove repoId fid }

def pruneFile (org repo : String) (repoId : Nat) (keep : List String) (dryRun : Bool)
    (st : Data × Tally × List String) (fid : Nat) :
    Except StoreError (Data × Tally × List String) :=
  match st.1.nodes.get fid with
  | none => .error (.corrupt "dangling file")
  | some f =>
    if ¬ prunes keep f then return st
    else if dryRun then return (st.1, st.2.1, st.2.2 ++ [f.name])
    else do
      let scope := scopeOf org repo f
      let (d, tally) ← st.1.removeContent fid scope st.2.1
      return (d.dropFile repoId fid f.name, tally.file scope (-1), st.2.2 ++ [f.name])

def Data.repoId (d : Data) (org repo : String) : Option Nat := do
  let orgId ← d.names.get (nameKey none .org org)
  d.names.get (nameKey (some orgId) .repo repo)

def Data.pruneFiles (d : Data) (org repo : String) (keep : List String) (dryRun : Bool) :
    Except StoreError (Data × Tally × List String) :=
  match d.repoId org repo with
  | none => return (d, Table.empty, [])
  | some repoId =>
    (d.children.get repoId).foldlM (pruneFile org repo repoId keep dryRun) (d, Table.empty, [])

def Data.pruneIn (d : Data) (org repo : String) (keep : List String) (dryRun : Bool) :
    Except StoreError (Data × List String) := do
  let (d, tally, removed) ← d.pruneFiles org repo (keep.map normalizePath) dryRun
  return ({ d with cat := Tally.apply tally d.cat }, removed.insertionSort (· ≤ ·))

structure VacuumStats where
  termsRemoved : Nat
  termsKept : Nat
deriving DecidableEq, Repr

def rowSymbolTerms (raw : List UInt8) : Except StoreError (List Nat) := do
  let lz ← decodeLazy raw
  let syms ← lz.symbols
  return syms.flatMap (fun s => s.name :: (s.langKind.toList ++ s.owner.toList))

def Data.liveTerms (d : Data) : Except StoreError (List Nat) := do
  let used ← d.streams.rows.mapM (fun r => rowSymbolTerms r.2)
  return d.post.rows.map (fun r => (ofLex r.1).1) ++ used.flatten

def dropTerm (sha256 : List UInt8 → List UInt8) (terms : Dict) (dict : Table String Nat)
    (e : Nat × String) : Except StoreError (Table String Nat) := do
  let (key, found) ← dictKey sha256 { terms with dict } e.2 (some e.1)
  return if found.isSome then dict.remove key else dict

def Data.vacuumIn (sha256 : List UInt8 → List UInt8) (d : Data) :
    Except StoreError (Data × VacuumStats × Bool) := do
  let live ← d.liveTerms
  let blocks ← d.terms.rev.rows.mapM (fun r => decodeDictBlock r.2)
  let all := blocks.flatten
  let dead := all.filter (fun e => e.1 ∉ live)
  let kept := all.filter (fun e => e.1 ∈ live)
  let dict ← dead.foldlM (dropTerm sha256 d.terms) d.terms.dict
  let rev := if dead = [] then d.terms.rev
    else fillRows (clearRows d.terms.rev d.terms.rev.len) (packDictBlocks kept)
  return ({ d with terms := { d.terms with dict, rev } }, ⟨dead.length, kept.length⟩, dead = [])

def Data.fileId (d : Data) (org repo path : String) : Option Nat := do
  let repoId ← d.repoId org repo
  d.names.get (nameKey (some repoId) .file path)

def Data.checkUnchanged (d : Data) (org repo path lang fp : String) (origin : Option String) :
    Option (Data × IngestStats × Bool) := do
  let fileId ← d.fileId org repo path
  let f ← d.nodes.get fileId
  if f.fingerprint ≠ some fp then none
  else
    let dirty := f.origin ≠ origin
    some (if dirty then { d with nodes := d.nodes.insert fileId { f with origin } } else d,
      { fileId, symbols := 0, tokens := 0, replaced := false, unchanged := true,
        hasErrors := f.hasErrors, path, language := lang, encoding := f.encoding,
        lossy := f.lossy, spanWarning := none }, dirty)

end MemoryGraph
