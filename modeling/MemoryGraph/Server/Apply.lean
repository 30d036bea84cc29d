import MemoryGraph.Batch.Commit
import MemoryGraph.Store.Overwrite

/-! The state machine of the replicated log: one entry is applied by at most two store
transactions. -/

namespace MemoryGraph
open Lib

namespace Store

def pruneFilesMarked (st : Store) (org repo : String) (keep : List String) (marker : RaftMarker)
    (membership : Option (List UInt8)) : Except StoreError (Store × List String) := do
  let wt ← st.stampMarker marker membership
  let (d, removed) ← wt.data.pruneIn org repo keep false
  return (wt.withData d, removed)

def vacuumMarked (sha256 : List UInt8 → List UInt8) (st : Store) (marker : RaftMarker)
    (membership : Option (List UInt8)) : Except StoreError (Store × VacuumStats) := do
  let wt ← st.stampMarker marker membership
  let (d, stats, _) ← wt.data.vacuumIn sha256
  return (wt.withData d, stats)

def fileMetaExtracted (origin : Option String) : FileMeta := ⟨origin, none, none, false⟩

def ingestFileMarked (sha256 : List UInt8 → List UInt8) (st : Store)
    (org repo path language : String) (ex : Extraction) (origin : Option String)
    (marker : RaftMarker) (membership : Option (List UInt8)) :
    Except StoreError (Store × IngestStats) := do
  validateSpans ex
  let wt ← st.stampMarker marker membership
  let (d, stats) ← wt.data.ingestPrepped sha256 org repo path language ex (fileMetaExtracted origin)
  return (wt.withData d, stats)

def markOnly (st : Store) (marker : RaftMarker) (membership : Option (List UInt8)) :
    Except StoreError (Store × Unit) := do
  let wt ← st.stampMarker marker membership
  return (wt, ())

end Store

namespace Server

structure FileBytes where
  path : String
  bytes : List UInt8
  language : Option String
  origin : Option String
  encodingHint : Option (Except String Encoding)
  strictEncoding : Bool

def FileBytes.asBatchFile (f : FileBytes) : Except StoreError BatchFile :=
  match f.encodingHint with
  | none => .ok ⟨f.path, f.bytes, f.language, f.origin, none, f.strictEncoding⟩
  | some (.ok e) => .ok ⟨f.path, f.bytes, f.language, f.origin, some e, f.strictEncoding⟩
  | some (.error why) => .error (.protocol ("FileBytes.encoding_hint: " ++ why))

inductive Command
  | indexChunk (org repo : String) (reindex : Bool) (files : List FileBytes)
  | ingestExtraction (org repo path language : String)
      (extraction : Option (Except String Extraction)) (origin : Option String)
  | prune (org repo : String) (keep : List String)
  | vacuum
  | noop

inductive Payload
  | blank
  | membership (bytes : List UInt8)
  | normal (command : Except String (Option Command))

structure Entry where
  logId : RaftMarker
  payload : Payload

inductive LogResponse
  | skipped
  | marked
  | index (results : List (Except StoreError IngestStats))
  | ingest (stats : IngestStats)
  | prune (removed : List String)
  | vacuum (stats : VacuumStats)
  | failed (e : StoreError)

structure Applied where
  committed : List Store
  result : Except StoreError LogResponse

def Applied.final (a : Applied) (st : Store) : Store := a.committed.getLastD st

def Applied.ofWrite {α : Type} (answer : α → LogResponse) : Except StoreError (Store × α) → Applied
  | .ok (st, a) => ⟨[st], .ok (answer a)⟩
  | .error e => ⟨[], .error e⟩

def isRefusal : StoreError → Bool
  | .rejected _ | .notUtf8 _ | .binary _ | .tooLarge _ | .invalidSpan _ | .protocol _ => true
  | _ => false

def chunkOptions (reindex : Bool) : IndexOptions := ⟨reindex, none, false⟩

variable (x : Indexer)

def applyCommand (st : Store) (marker : RaftMarker) : Command → Applied
  | .indexChunk org repo reindex files =>
    match files.mapM FileBytes.asBatchFile with
    | .error e => ⟨[], .error e⟩
    | .ok fs =>
      let b := x.indexPreparedMarked st org repo
        (fs.map fun f => x.prepare st org repo f (chunkOptions reindex))
        (chunkOptions reindex) marker none
      ⟨b.committed, b.result.map .index⟩
  | .ingestExtraction _ _ _ _ none _ =>
    ⟨[], .error (.protocol "IngestExtraction.extraction is missing")⟩
  | .ingestExtraction _ _ _ _ (some (.error why)) _ => ⟨[], .error (.protocol why)⟩
  | .ingestExtraction org repo path language (some (.ok ex)) origin =>
    .ofWrite .ingest (st.ingestFileMarked x.sha256 org repo path language ex origin marker none)
  | .prune org repo keep => .ofWrite .prune (st.pruneFilesMarked org repo keep marker none)
  | .vacuum => .ofWrite .vacuum (st.vacuumMarked x.sha256 marker none)
  | .noop => .ofWrite (fun _ => .marked) (st.markOnly marker none)

def applyPayload (st : Store) (marker : RaftMarker) : Payload → Applied
  | .blank => .ofWrite (fun _ => .marked) (st.markOnly marker none)
  | .membership bytes => .ofWrite (fun _ => .marked) (st.markOnly marker (some bytes))
  | .normal (.error why) => ⟨[], .error (.protocol ("undecodable log entry: " ++ why))⟩
  | .normal (.ok none) => ⟨[], .error (.protocol "empty LogCommand")⟩
  | .normal (.ok (some cmd)) => applyCommand x st marker cmd

def markRefused (st : Store) (marker : RaftMarker) : Except StoreError Store :=
  match st.markOnly marker none with
  | .ok (st, _) => .ok st
  | .error (.alreadyApplied _) => .ok st
  | .error e => .error e

def applyOne (st : Store) (e : Entry) : Applied :=
  if ∃ cur ∈ st.marker, e.logId.index ≤ cur.index then ⟨[], .ok .skipped⟩
  else
    let r := applyPayload x st e.logId e.payload
    match r.result with
    | .ok _ => r
    | .error (.alreadyApplied _) => ⟨r.committed, .ok .skipped⟩
    | .error err =>
      if isRefusal err then
        match markRefused (r.final st) e.logId with
        | .ok st' => ⟨r.committed ++ [st'], .ok (.failed err)⟩
        | .error err' => ⟨r.committed, .error err'⟩
      else ⟨r.committed, .error err⟩

end Server
end MemoryGraph
