import MemoryGraph.Store.Dict
import MemoryGraph.Lib.Runs

/-! The snapshot directory: pairs of a data file and its meta. A promotion renames the data file to
its final name, writes the meta and removes the other files; between any two of these the process
may stop. -/

namespace MemoryGraph.Server
open Lib

structure LogId where
  term : Nat
  node : Nat
  index : Nat
deriving DecidableEq, Repr

def LogId.key (a : LogId) : Nat ×ₗ Nat ×ₗ Nat := toLex (a.term, toLex (a.node, a.index))

def newer : Option LogId → Option LogId → Bool
  | some a, some b => decide (b.key < a.key)
  | some _, none => true
  | none, _ => false

def schemaVersion : Nat := 12

structure Sidecar where
  term : Nat
  index : Nat
  lastLogId : Option LogId
  membership : List UInt8
  snapshotId : String
  sha256 : String
  size : Nat
  extractorsHash : String
  storeFormatVersion : Nat
deriving DecidableEq, Repr

structure Stem where
  term : Nat
  index : Nat
  rebuilt : Option Nat
deriving DecidableEq, Repr

def stem : Option LogId → Stem
  | some id => ⟨id.term, id.index, none⟩
  | none => ⟨0, 0, none⟩

structure SnapshotDir where
  data : Stem → Option (List UInt8)
  side : Stem → Option Sidecar

def isOutdated (extractorsHash : String) (s : Sidecar) : Bool :=
  s.storeFormatVersion ≠ schemaVersion || s.extractorsHash ≠ extractorsHash

def sortsBefore (extractorsHash : String) (x y : Sidecar × Stem) : Bool :=
  y.1.index < x.1.index ||
    (x.1.index = y.1.index && (!isOutdated extractorsHash x.1 || isOutdated extractorsHash y.1))

namespace SnapshotDir

def pair (d : SnapshotDir) (st : Stem) : Option (Sidecar × Stem) :=
  match d.side st, d.data st with
  | some s, some bytes => if bytes.length = s.size then some (s, st) else none
  | _, _ => none

def pairs (d : SnapshotDir) (extractorsHash : String) (listing : List Stem) :
    List (Sidecar × Stem) :=
  (listing.filterMap d.pair).insertionSort (fun x y => sortsBefore extractorsHash x y)

def current (d : SnapshotDir) (extractorsHash : String) (listing : List Stem) :
    Option (Sidecar × Stem) :=
  (d.pairs extractorsHash listing).head?

def Listed (d : SnapshotDir) (listing : List Stem) : Prop := ∀ st, st ∈ listing ↔ d.side st ≠ none

end SnapshotDir

structure Promotion where
  data : List UInt8
  last : Option LogId
  membership : List UInt8
  snapshotId : String
  reuseSameIndex : Bool

inductive Promoted
  | new
  | stale
  | reused
deriving DecidableEq, Repr

inductive Phase
  | idle
  | renamed (final : Stem) (side : Sidecar)
  | pruning (keep : Stem)

structure DirState where
  dir : SnapshotDir
  extractorsHash : String
  phase : Phase

namespace DirState

def opened (extractorsHash : String) : DirState :=
  ⟨⟨fun _ => none, fun _ => none⟩, extractorsHash, .idle⟩

def verdict (s : DirState) (p : Promotion) (listing : List Stem) : Promoted :=
  match s.dir.current s.extractorsHash listing with
  | none => .new
  | some (side, _) =>
    if p.reuseSameIndex ∧ p.last ≠ none ∧ side.lastLogId = p.last ∧
      isOutdated s.extractorsHash side = false then .reused
    else if newer side.lastLogId p.last then .stale
    else .new

def finalStem (s : DirState) (last : Option LogId) (nanos : Nat) : Stem :=
  if (s.dir.data (stem last)).isSome then { stem last with rebuilt := some nanos } else stem last

inductive Action
  | promote (p : Promotion) (listing : List Stem) (nanos : Nat)
  | writeMeta
  | abort
  | removeData (st : Stem)
  | removeMeta (st : Stem)
  | finish
  -- a crash or a stop, and a start of a build with these extractors
  | restart (extractorsHash : String)

variable (sha256 : List UInt8 → List UInt8) (detectFormat : List UInt8 → Option Nat)

def fileHash (bytes : List UInt8) : String := String.ofList ((sha256 bytes).flatMap hexByte)

def sidecarOf (s : DirState) (p : Promotion) : Sidecar where
  term := (p.last.map LogId.term).getD 0
  index := (p.last.map LogId.index).getD 0
  lastLogId := p.last
  membership := p.membership
  snapshotId := p.snapshotId
  sha256 := fileHash sha256 p.data
  size := p.data.length
  extractorsHash := s.extractorsHash
  storeFormatVersion := (detectFormat p.data).getD schemaVersion

def place (s : DirState) (p : Promotion) (nanos : Nat) : DirState :=
  let final := s.finalStem p.last nanos
  { s with
    dir := { s.dir with data := Function.update s.dir.data final (some p.data) }
    phase := .renamed final (sidecarOf sha256 detectFormat s p) }

def step (s : DirState) : Action → Option DirState
  | .promote p listing nanos =>
    match s.phase with
    | .idle =>
        if s.verdict p listing = .new then some (place sha256 detectFormat s p nanos) else some s
    | _ => none
  | .writeMeta =>
    match s.phase with
    | .renamed final side => some { s with
        dir := { s.dir with side := Function.update s.dir.side final (some side) }
        phase := .pruning final }
    | _ => none
  | .abort =>
    match s.phase with
    | .renamed _ _ => some { s with phase := .idle }
    | _ => none
  | .removeData st =>
    match s.phase with
    | .pruning keep =>
      if st = keep then none
      else some { s with dir := { s.dir with data := Function.update s.dir.data st none } }
    | _ => none
  | .removeMeta st =>
    match s.phase with
    | .pruning keep =>
      if st = keep then none
      else some { s with dir := { s.dir with side := Function.update s.dir.side st none } }
    | _ => none
  | .finish =>
    match s.phase with
    | .pruning _ => some { s with phase := .idle }
    | _ => none
  | .restart h => some { s with extractorsHash := h, phase := .idle }

end DirState
end MemoryGraph.Server
