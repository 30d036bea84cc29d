import MemoryGraph.Schema
import MemoryGraph.Lib.Fallible

/-! The catalog: counters under NUL-joined keys, adjusted by the deltas one transaction
collects, and `describe`, which reads them back. -/

namespace MemoryGraph
open Lib

/-- The fields joined by NUL, as in `format!("{a}\0{b}")`. -/
def nulJoin (fields : List String) : String :=
  String.ofList (['\x00'].intercalate (fields.map String.toList))

def nulSplit (key : String) : List String := (key.toList.splitOn '\x00').map String.ofList

def NulFree (s : String) : Prop := '\x00' ∉ s.toList

instance (s : String) : Decidable (NulFree s) := inferInstanceAs (Decidable ('\x00' ∉ s.toList))

structure Scope where
  org : String
  repo : String
  lang : String
  encoding : Option String
  lossy : Bool
deriving DecidableEq

def kindLabel (n : Node) : String :=
  let generic := (n.symbolKind.getD .other).asStr
  match n.langKind with
  | some k => if k ≠ generic then generic ++ "/" ++ k else generic
  | none => generic

abbrev Tally := Table String Int

namespace Tally

def add (t : Tally) (key : String) (d : Int) : Tally := t.alter key (fun cur => cur.getD 0 + d)

def addAll (t : Tally) (keys : List String) (d : Int) : Tally := keys.foldl (fun t k => t.add k d) t

def encodingKeys (s : Scope) : List String :=
  (match s.encoding with
    | some e => [nulJoin ["e", s.org, s.repo, e]]
    | none => []) ++
  if s.lossy then [nulJoin ["l", s.org, s.repo]] else []

def fileKeys (s : Scope) : List String := nulJoin ["f", s.org, s.repo, s.lang] :: encodingKeys s

def nodeKeys (s : Scope) (n : Node) : List String :=
  match n.kind with
  | .symbol =>
    [nulJoin ["s", s.org, s.repo, s.lang], nulJoin ["k", s.org, s.repo, s.lang, kindLabel n]]
  | .token => nulJoin ["t", s.org, s.repo, s.lang] ::
    (match n.tokenClass with
      | some c => [nulJoin ["c", s.org, s.repo, c.asStr]]
      | none => [])
  | _ => []

def file (t : Tally) (s : Scope) (d : Int) : Tally := t.addAll (fileKeys s) d

def node (t : Tally) (s : Scope) (n : Node) (d : Int) : Tally := t.addAll (nodeKeys s n) d

def applyOne (cat : Table String Nat) (e : String × Int) : Table String Nat :=
  if e.2 = 0 then cat
  else
    let new := ((cat.get e.1).getD 0 : Int) + e.2
    if 0 < new then cat.insert e.1 new.toNat else cat.remove e.1

def apply (t : Tally) (cat : Table String Nat) : Table String Nat := t.rows.foldl applyOne cat

end Tally

structure LanguageInfo where
  files : Nat
  symbols : Nat
  tokens : Nat
  symbolKinds : Table String Nat
deriving DecidableEq

def LanguageInfo.new : LanguageInfo := ⟨0, 0, 0, Table.empty⟩

structure RepoInfo where
  org : String
  repo : String
  files : Nat
  languages : Table String LanguageInfo
  tokenClasses : Table String Nat
  openBatch : Bool
  encodings : Table String Nat
  lossy : Nat
deriving DecidableEq

def RepoInfo.new (org repo : String) : RepoInfo :=
  ⟨org, repo, 0, Table.empty, Table.empty, false, Table.empty, 0⟩

abbrev Infos := Table (String ×ₗ String) RepoInfo

def RepoInfo.onLanguage (i : RepoInfo) (lang : String) (f : LanguageInfo → LanguageInfo) :
    RepoInfo :=
  { i with languages := i.languages.alter lang (fun l => f (l.getD LanguageInfo.new)) }

def badCatalogKey : StoreError := .corrupt "bad catalog key"

def describeRow (i : RepoInfo) (f : List String) (v : Nat) : Except StoreError RepoInfo :=
  match f with
  | ["r", _, _] => return i
  | ["e", _, _, e] => return { i with encodings := i.encodings.insert e v }
  | ["l", _, _] => return { i with lossy := v }
  | ["c", _, _, c] => return { i with tokenClasses := i.tokenClasses.insert c v }
  | ["f", _, _, lang] => return { i with files := i.files + v }.onLanguage lang (fun l =>
    { l with files := v })
  | ["s", _, _, lang] => return i.onLanguage lang (fun l => { l with symbols := v })
  | ["t", _, _, lang] => return i.onLanguage lang (fun l => { l with tokens := v })
  | ["k", _, _, lang, k] =>
    return i.onLanguage lang (fun l => { l with symbolKinds := l.symbolKinds.insert k v })
  | _ => .error badCatalogKey

structure Describing where
  infos : Infos
  seen : List (String × String)

def describeStep (org repo : Option String) (st : Describing) (row : String × Nat) :
    Except StoreError Describing := do
  let f := nulSplit row.1
  match f with
  | tag :: o :: r :: _ =>
    if org.any (fun x => o ≠ x) ∨ repo.any (fun x => r ≠ x) then return st
    else do
      let info ← describeRow ((st.infos.get (toLex (o, r))).getD (RepoInfo.new o r)) f row.2
      return ⟨st.infos.insert (toLex (o, r)) info, if tag = "r" then (o, r) :: st.seen else st.seen⟩
  | _ => .error badCatalogKey

def markOpenBatch (openBatch : Option (String × String)) (infos : Infos) : Infos :=
  match openBatch with
  | none => infos
  | some key =>
    match infos.get (toLex key) with
    | none => infos
    | some info => infos.insert (toLex key) { info with openBatch := true }

def describeIn (cat : Table String Nat) (openBatch : Option (String × String))
    (org repo : Option String) : Except StoreError (List RepoInfo) := do
  let st ← cat.rows.foldlM (describeStep org repo) ⟨Table.empty, []⟩
  failIf (st.infos.rows.any (fun r => ofLex r.1 ∉ st.seen))
    (StoreError.corrupt "catalog has counters for a repo without its marker row")
  return (markOpenBatch openBatch st.infos).rows.map Prod.snd

end MemoryGraph
