import MemoryGraph.Batch.Decode
import MemoryGraph.Store.Ingest

/-! Indexing one file: the pure half (checks, decoding, language, fingerprint, extraction)
and the half that commits it inside a write transaction. -/

namespace MemoryGraph
open Lib

structure Extractor where
  version : String
  extractNoted : String → Extraction × Option String

structure Registry where
  extractors : String → Option Extractor
  extensions : String → Option String
  extensionOf : String → Option String
  detectFromContent : String → String → String
  fallbackVersion : String
  tokenize : String → List TokenDecl

namespace Registry

def fallback (r : Registry) : Extractor :=
  ⟨r.fallbackVersion, fun src => (⟨[], r.tokenize src, false⟩, none)⟩

def get (r : Registry) (language : String) : Extractor :=
  (r.extractors (asciiLower language)).getD r.fallback

def extractNoted (r : Registry) (language src : String) : Extraction × Option String :=
  (r.get language).extractNoted src

def version (r : Registry) (language : String) : String := (r.get language).version

def detectLanguage (r : Registry) (path src : String) : String :=
  ((r.extensionOf path).bind r.extensions).getD (r.detectFromContent path src)

end Registry

structure BatchFile where
  path : String
  bytes : List UInt8
  language : Option String
  origin : Option String
  encoding : Option Encoding
  strictEncoding : Bool
deriving DecidableEq

structure IndexOptions where
  reindex : Bool
  encoding : Option Encoding
  strictEncoding : Bool
deriving DecidableEq

inductive Prepared
  | unchanged (src : String)
  | extracted (ex : Extraction)
  | rejected (e : StoreError)
  | remote (bytes : List UInt8)
deriving DecidableEq

structure PreparedFile where
  org : String
  repo : String
  path : String
  language : String
  fingerprint : String
  bytesLen : Nat
  origin : Option String
  work : Prepared
  encoding : Option Encoding
  lossy : Bool
  spanWarning : Option String
deriving DecidableEq

def PreparedFile.fileMeta (p : PreparedFile) : FileMeta :=
  ⟨p.origin, some p.fingerprint, p.encoding.map Encoding.name, p.lossy⟩

def maxSourceBytes : Nat := 4294967295

def quoted (path : String) : String := "`" ++ path ++ "`"

def strictRefusal (path : String) (e : Encoding) : StoreError :=
  if e = .utf8 then .notUtf8 (quoted path) else .strictEncoding path e.name

def extractChecked (r : Registry) (path lang src : String) : Prepared × Option String :=
  let ex := (r.extractNoted lang src).1
  let note := (r.extractNoted lang src).2
  match validateSpans ex with
  | .error (.invalidSpan why) =>
    match validateSpans { ex with symbols := [] } with
    | .error (.invalidSpan tokenWhy) =>
      (.rejected (.invalidSpan (quoted path ++ ": " ++ tokenWhy)), none)
    | _ => (.extracted { ex with symbols := [] },
        some ("extractor " ++ quoted (r.version lang) ++ " produced an invalid span (" ++ why ++ ")"
          ++ (note.map ("; it also noted: " ++ ·)).getD "" ++ "; stored tokens only, no symbols"))
  | _ => (.extracted ex,
      note.map (fun n => "extractor " ++ quoted (r.version lang) ++ " " ++ n ++
      "; stored tokens only, no symbols"))

structure Indexer where
  sha256 : List UInt8 → List UInt8
  codecs : Codecs
  registry : Registry

namespace Indexer
variable (x : Indexer)

/-- `fingerprint`, with format and decoder version 1. -/
def fingerprint (bytes : List UInt8) (lang : String) (e : Encoding) (lossy : Bool) : String :=
  "sha256:" ++ String.ofList ((x.sha256 bytes).flatMap hexByte) ++ "|" ++ asciiLower lang ++ "|"
    ++ x.registry.version lang ++ "|1"
    ++ if e ≠ .utf8 ∨ lossy then "|enc=" ++ e.name ++ (if lossy then "+lossy" else "") ++ "@1"
    else ""

structure Source where
  text : String
  language : String
  encoding : Encoding
  lossy : Bool
deriving DecidableEq

def readSource (f : BatchFile) (opts : IndexOptions) : Except StoreError Source :=
  if maxSourceBytes < f.bytes.length then .error (.tooLarge (quoted f.path))
  else
    let hint := f.encoding.or opts.encoding
    if x.codecs.isBinaryWithHint f.bytes hint then .error (.binary (quoted f.path))
    else
      let decoded := x.codecs.decodeSource f.bytes hint
      if (f.strictEncoding || opts.strictEncoding) && decoded.lossy then
        .error (strictRefusal f.path decoded.encoding)
      else
        let language := match f.language with
          | some l => asciiLower l
          | none => x.registry.detectLanguage (normalizePath f.path) decoded.text
        .ok ⟨decoded.text, language, decoded.encoding, decoded.lossy⟩

def blankPrepared (org repo : String) (f : BatchFile) : PreparedFile where
  org := org
  repo := repo
  path := normalizePath f.path
  language := ""
  fingerprint := ""
  bytesLen := f.bytes.length
  origin := f.origin
  work := .rejected (.rejected "")
  encoding := none
  lossy := false
  spanWarning := none

/-- `prepare_file`; `unchanged` asks for the stored fingerprint and may write to the
transaction it asks. -/
def prepareFile (org repo : String) (f : BatchFile) (opts : IndexOptions)
    (unchanged : String → String → String → Data → Data × Bool) (d : Data) : Data × PreparedFile :=
  let p := blankPrepared org repo f
  match x.readSource f opts with
  | .error e => (d, { p with work := .rejected e })
  | .ok s =>
    let fp := x.fingerprint f.bytes s.language s.encoding s.lossy
    let p := { p with
      language := s.language
      fingerprint := fp
      encoding := if s.encoding = Encoding.utf8 then none else some s.encoding
      lossy := s.lossy }
    let extract := extractChecked x.registry p.path s.language s.text
    if opts.reindex then (d, { p with work := extract.1, spanWarning := extract.2 })
    else
      match unchanged p.path s.language fp d with
      | (d, true) => (d, { p with work := .unchanged s.text })
      | (d, false) => (d, { p with work := extract.1, spanWarning := extract.2 })

def remotePreparedRejection : String :=
  "remote-prepared file cannot be committed to an embedded store"

def storeExtracted (d : Data) (org repo : String) (p : PreparedFile)
    (work : Prepared × Option String) : Except StoreError (Data × Except StoreError IngestStats) :=
  match work.1 with
  | .extracted ex => do
    let (d, stats) ← d.ingestPrepped x.sha256 org repo p.path p.language ex p.fileMeta
    return (d, .ok { stats with spanWarning := work.2 })
  | .rejected e => return (d, .error e)
  | _ => .error (.panic "unreachable")

def commitPrepared (d : Data) (org repo : String) (p : PreparedFile) (opts : IndexOptions) :
    Except StoreError (Data × Except StoreError IngestStats) :=
  if p.org ≠ org ∨ p.repo ≠ repo then
    .error (.rejected (quoted p.path ++ " was prepared for " ++ p.org ++ "/" ++ p.repo ++
      ", not " ++ org ++ "/" ++ repo))
  else
    match p.work with
    | .rejected e => return (d, .error e)
    | .remote _ => return (d, .error (.rejected remotePreparedRejection))
    | work =>
      match if opts.reindex then none
        else d.checkUnchanged org repo p.path p.language p.fingerprint p.origin with
      | some (d, stats, _) => return (d, .ok stats)
      | none =>
        match work with
        | .unchanged src =>
          x.storeExtracted d org repo p (extractChecked x.registry p.path p.language src)
        | work => x.storeExtracted d org repo p (work, p.spanWarning)

end Indexer
end MemoryGraph
