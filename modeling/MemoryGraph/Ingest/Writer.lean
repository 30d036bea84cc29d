import MemoryGraph.Lib.Counting
import MemoryGraph.Lib.Batching
import MemoryGraph.Ingest.Budget

/-! The single writer of an index run takes the outcomes in walk order, whatever the order they
arrive in, and hands the prepared files to the store batch by batch. -/

namespace MemoryGraph.Ingest
open Lib

inductive Item where
  | file (rel : String) (size : Nat)
  | skip (reason what : String) (unreadable : Bool)
deriving DecidableEq, Repr

def Item.size : Item → Nat
  | .file _ n => n
  | .skip .. => 0

inductive Outcome (F : Type) where
  | prepared (rel : String) (p : F)
  | skip (reason what : String) (unreadable : Bool)
  | failed (what why : String)
deriving DecidableEq, Repr

/-- What reading and preparing a file comes to: the file may have changed since the walk, be
unreadable or binary, its extractor may panic, and the database may fail. -/
inductive Reading (F : Type) where
  | prepared (p : F)
  | skip (reason : String) (unreadable : Bool)
  | panicked (msg : String)
  | error (why : String)
deriving DecidableEq, Repr

def work {F : Type} : Item → Reading F → Except String (Outcome F)
  | .skip reason what unreadable, _ => .ok (.skip reason what unreadable)
  | .file rel _, .prepared p => .ok (.prepared rel p)
  | .file rel _, .skip reason unreadable => .ok (.skip reason rel unreadable)
  | .file rel _, .panicked msg => .ok (.failed rel ("extractor panicked: " ++ msg))
  | .file rel _, .error why => .error ("database error while preparing `" ++ rel ++ "`: " ++ why)

def BATCH_FILES : Nat := 256
def BATCH_BYTES : Nat := 32 * 1024 * 1024

/-- An index run: what the walk finds, in walk order, what becomes of each item when it is
read, the scratch its extractor reserves (0: none), and the options. -/
structure Run (F : Type) where
  items : List Item
  reading : Nat → Reading F
  scratch : Nat → Nat
  bytesLen : F → Nat
  deterministic : Bool
  jobs : Nat
  cpus : Nat
  chunkBytes : Nat

namespace Run
variable {F : Type} (o : Run F)

def parseThreads : Nat := if 0 < o.jobs then o.jobs else max (o.cpus - 1) 1

theorem parseThreads_pos : 0 < o.parseThreads := by
  rw [parseThreads]
  split
  · assumption
  · omega

def size (seq : Nat) : Nat := (o.items[seq]?).elim 0 Item.size

def outcome (seq : Nat) : Except String (Outcome F) :=
  match o.items[seq]? with
  | some item => work item (o.reading seq)
  | none => .error ""

def slack : Nat := if o.deterministic then BATCH_BYTES else 0

def groupCap (cap diskGroupCap : Nat) : Nat :=
  max (min (min (cap / 2) (o.chunkBytes * 8)) diskGroupCap) 1

end Run

structure Collected where
  skipped : Table String (List String)
  failed : List (String × String)
  walkErrors : Bool

/-- Where the writer stands in its loop; `all_in` is remembered as it was read. -/
inductive Point where
  | receiving
  | taking (groupCap : Nat)
  | deciding
  | settling (allIn : Bool)
  | waiting
  | returned
  | failed (why : String)
deriving DecidableEq, Repr

/-- The locals of `commit_all`. `handled` and `flushed` are its history: the items taken, in
order, and the batches given to `flush_batch`. -/
structure Writer (F : Type) where
  point : Point
  buf : Table Nat (Except String (Outcome F) × Nat)
  next : Nat
  pending : List (String × F)
  pendingBytes : Nat
  held : Nat
  collected : Collected
  handled : List (Nat × Outcome F)
  flushed : List (List (String × F))

namespace Writer
variable {F : Type}

def new : Writer F :=
  { point := .receiving, buf := .empty, next := 0, pending := [], pendingBytes := 0, held := 0,
    collected := ⟨.empty, [], false⟩, handled := [], flushed := [] }

variable (o : Run F) (w : Writer F)

def overflows (oc : Except String (Outcome F)) : Bool :=
  o.deterministic && !w.pending.isEmpty &&
    match oc with
    | .ok (.prepared _ p) => w.pendingBytes + o.bytesLen p > BATCH_BYTES
    | _ => false

def reachesLimit : Bool := w.pending.length ≥ BATCH_FILES || w.pendingBytes ≥ BATCH_BYTES

def full (groupCap : Nat) : Bool :=
  if o.deterministic then w.reachesLimit else w.pendingBytes ≥ groupCap

def ready : Option (Except String (Outcome F) × Nat) := w.buf.get w.next

def batchFull : Bool :=
  if o.deterministic then w.reachesLimit || w.ready.any fun r => w.overflows o r.1
  else !w.pending.isEmpty

def handle (b : Budget) (oc : Outcome F) (size : Nat) : Writer F × Budget :=
  let w := { w with
    next := w.next + 1
    buf := w.buf.remove w.next
    handled := w.handled ++ [(w.next, oc)] }
  match oc with
  | .skip reason what unreadable =>
    ({ w with collected := { w.collected with
        walkErrors := w.collected.walkErrors || unreadable
        skipped := w.collected.skipped.alter reason fun l => l.getD [] ++ [what] } },
      b.release size)
  | .failed what why =>
    ({ w with collected := { w.collected with failed := w.collected.failed ++ [(what, why)] } },
      b.release size)
  | .prepared rel p =>
    let len := min (o.bytesLen p) size
    ({ w with held := w.held + len, pendingBytes := w.pendingBytes + o.bytesLen p
              pending := w.pending ++ [(rel, p)] },
      if size > len then b.release (size - len) else b)

def take (b : Budget) (groupCap : Nat) : Writer F × Budget :=
  match w.ready with
  | none => ({ w with point := .deciding }, b)
  | some (oc, size) =>
    if w.overflows o oc then ({ w with point := .deciding }, b)
    else match oc with
      | .error why => ({ w with point := .failed why }, b)
      | .ok oc =>
        let (w', b') := w.handle o b oc size
        ({ w' with point := if w'.full o groupCap then .deciding else .taking groupCap }, b')

def flush : Writer F :=
  { w with flushed := w.flushed ++ [w.pending], pending := [], pendingBytes := 0 }

def conclude (allIn : Bool) (err : Option String) : Writer F :=
  if w.batchFull o || (allIn && !w.pending.isEmpty) then
    match err with
    | some why => { w with point := .failed why }
    | none => { w.flush with point := .settling allIn }
  else { w with point := .settling allIn }

def giveBack (b : Budget) : Writer F × Budget :=
  if w.pending.isEmpty then ({ w with held := 0 }, b.release w.held) else (w, b)

def onward (allIn : Bool) (stop : Option String) : Point :=
  if allIn && w.pending.isEmpty && w.buf.rows.isEmpty then
    match stop with
    | some why => .failed why
    | none => .returned
  else if w.ready.isSome then .receiving
  else .waiting

def settle (b : Budget) (allIn : Bool) (stop : Option String) : Writer F × Budget :=
  let (w', b') := w.giveBack b
  ({ w' with point := w.onward allIn stop }, b')

def giveUp (b : Budget) (why : String) (err : Option String) : Writer F × Budget :=
  match err with
  | some e =>
    if w.pending.isEmpty then ({ w with held := 0, point := .failed why }, b.release w.held)
    else ({ w with point := .failed e }, b)
  | none =>
    let w := if w.pending.isEmpty then w else w.flush
    ({ w with held := 0, point := .failed why }, b.release w.held)

end Writer
end MemoryGraph.Ingest
