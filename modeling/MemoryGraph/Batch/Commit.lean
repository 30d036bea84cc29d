import MemoryGraph.Batch.Prepare

/-! The chunked write loop. The states a batch commits are kept in order, so that a crash after any
of them leaves one of these. -/

namespace MemoryGraph
open Lib

structure RaftMarker where
  term : Nat
  index : Nat
  nodeId : Nat
deriving DecidableEq, Repr

/-- A store file: the tables, the rows of the open batch, and the applied marker with the
membership bytes. -/
structure Store where
  data : Data
  nextBatchId : Nat
  openBatchId : Option Nat
  openOrg : Option String
  openRepo : Option String
  marker : Option RaftMarker
  membership : Option (List UInt8)
deriving DecidableEq

namespace Store

def empty : Store := ⟨Data.empty, 0, none, none, none, none, none⟩

def markOpenBatch (st : Store) (batchId : Nat) (org repo : String) : Store :=
  { st with openBatchId := some batchId, openOrg := some org, openRepo := some repo }

def clearOpenBatch (st : Store) : Store :=
  { st with openBatchId := none, openOrg := none, openRepo := none }

def stampMarker (st : Store) (marker : RaftMarker) (membership : Option (List UInt8)) :
    Except StoreError Store := do
  failIf (∃ cur ∈ st.marker, marker.index ≤ cur.index) (StoreError.alreadyApplied marker.index)
  return { st with marker := some marker, membership := membership.or st.membership }

def withData (st : Store) (d : Data) : Store := { st with data := d }

end Store

structure Loop where
  committed : List Store
  wt : Store
  inTxn : Nat
  out : List (Except StoreError IngestStats)

structure Batch where
  committed : List Store
  result : Except StoreError (List (Except StoreError IngestStats))

def Batch.final (b : Batch) (st : Store) : Store := b.committed.getLastD st

def isStored : Except StoreError IngestStats → Bool
  | .ok s => !s.unchanged
  | .error _ => false

namespace Indexer
variable (x : Indexer)

def commitFile (org repo : String) (opts : IndexOptions) (chunkBytes batchId : Nat) (l : Loop)
    (next : Data → Data × PreparedFile) : Except StoreError Loop := do
  let (d, p) := next l.wt.data
  let (d, r) ← x.commitPrepared d org repo p opts
  let wt := l.wt.withData d
  let out := l.out ++ [r]
  if ¬ isStored r then return { l with wt, out }
  else if l.inTxn + p.bytesLen < chunkBytes then
    return { l with wt, out, inTxn := l.inTxn + p.bytesLen }
  else return ⟨l.committed ++ [wt], wt.markOpenBatch batchId org repo, 0, out⟩

def commitFiles (org repo : String) (opts : IndexOptions) (chunkBytes batchId : Nat) :
    Loop → List (Data → Data × PreparedFile) → Batch
  | l, [] => ⟨l.committed ++ [l.wt.clearOpenBatch], .ok l.out⟩
  | l, next :: rest =>
    match x.commitFile org repo opts chunkBytes batchId l next with
    | .error e => ⟨l.committed, .error e⟩
    | .ok l => commitFiles org repo opts chunkBytes batchId l rest

/-- `commit_each`: a marked batch is one transaction, refused at or below the stored marker. -/
def commitEach (st : Store) (org repo : String) (opts : IndexOptions) (chunkBytes : Nat)
    (marker : Option (RaftMarker × Option (List UInt8)))
    (files : List (Data → Data × PreparedFile)) : Batch :=
  let cap := if marker.isSome then usizeMax else chunkBytes
  match (match marker with
    | some (m, membership) => st.stampMarker m membership
    | none => .ok st) with
  | .error e => ⟨[], .error e⟩
  | .ok wt =>
    let batchId := wt.nextBatchId
    let wt := { wt with nextBatchId := batchId + 1 }
    x.commitFiles org repo opts cap batchId ⟨[], wt.markOpenBatch batchId org repo, 0, []⟩ files

def askTransaction (org repo : String) (origin : Option String) (path lang fp : String) (d : Data) :
    Data × Bool :=
  match d.checkUnchanged org repo path lang fp origin with
  | some (d, _, _) => (d, true)
  | none => (d, false)

def indexBatch (st : Store) (org repo : String) (files : List BatchFile) (opts : IndexOptions)
    (chunkBytes : Nat) : Batch :=
  x.commitEach st org repo opts chunkBytes none
    (files.map fun f => x.prepareFile org repo f opts (askTransaction org repo f.origin))

structure FingerprintSnapshot where
  org : String
  repo : String
  fps : Table String String
  taken : Bool

def FingerprintSnapshot.isFor (k : FingerprintSnapshot) (org repo : String) : Bool :=
  k.taken && k.org = org && k.repo = repo

def storedFingerprintMatches (d : Data) (org repo path fp : String) : Bool :=
  (((d.fileId org repo path).bind d.nodes.get).bind Node.fingerprint) = some fp

def prepare (st : Store) (org repo : String) (f : BatchFile) (opts : IndexOptions) : PreparedFile :=
  (x.prepareFile org repo f opts (fun path _ fp d =>
    (d, storedFingerprintMatches st.data org repo path fp)) st.data).2

/-- `prepare_with`: the check reads only the snapshot, or is `prepare`'s without one. -/
def prepareWith (st : Store) (org repo : String) (f : BatchFile) (opts : IndexOptions)
    (known : FingerprintSnapshot) : PreparedFile :=
  if known.isFor org repo then
    (x.prepareFile org repo f opts (fun path _ fp d => (d, known.fps.get path = some fp)) st.data).2
  else x.prepare st org repo f opts

def indexPrepared (st : Store) (org repo : String) (files : List PreparedFile) (opts : IndexOptions)
    (chunkBytes : Nat) : Batch :=
  x.commitEach st org repo opts chunkBytes none (files.map fun p d => (d, p))

def indexPreparedMarked (st : Store) (org repo : String) (files : List PreparedFile)
    (opts : IndexOptions) (marker : RaftMarker) (membership : Option (List UInt8)) : Batch :=
  x.commitEach st org repo opts usizeMax (some (marker, membership)) (files.map fun p d => (d, p))

end Indexer
end MemoryGraph
