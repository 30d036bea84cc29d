import MemoryGraph.Lib.Runs
import MemoryGraph.Ingest.Writer

/-! The stages of an index run: walk, admission, parse threads and writer. A channel with one
sender that counts is the interval of the numbers sent and not yet taken. -/

namespace MemoryGraph.Ingest
open Lib

/-- What a parse thread does with its file: it has taken it, holds the scratch its extractor
asked for, has given it back, or has left `inflight` with the outcome to send. -/
inductive Phase where
  | started
  | holding
  | finished
  | sending
deriving DecidableEq, Repr

structure Result (F : Type) where
  seq : Nat
  oc : Except String (Outcome F)
  size : Nat

/-- The run: `found` items sent by the walk, `admitted` of them charged and queued, `started`
of those taken by parse threads. `busy` has the files the threads work on. -/
structure State (F : Type) where
  found : Nat
  walkDone : Bool
  admitted : Nat
  started : Nat
  busy : Table Nat Phase
  results : List (Result F)
  budget : Budget
  stop : Option String
  writer : Writer F

/-- The steps. The sampler moves the cap, the disk guard stops the run; `err` is the store's
answer to a flush. A wake-up of the writer that finds neither a result nor the end of the walk
repeats its pass on the same locals and is not a step. -/
inductive Action where
  | walk
  | walkEnd
  | setCap (cap : Nat)
  | stop (why : String)
  | acquire
  | start
  | reserve (seq : Nat)
  | release (seq : Nat)
  | leave (seq : Nat)
  | send (seq : Nat)
  | receive
  | begin (diskGroupCap : Nat) (err : Option String)
  | take
  | conclude (err : Option String)
  | settle
  | wake
  | disconnect

namespace Run
variable {F : Type} (o : Run F)

def result (seq : Nat) : Result F := ⟨seq, o.outcome seq, o.size seq⟩

def scratchOf (seq : Nat) : Nat :=
  match o.items[seq]? with
  | some (.file ..) => o.scratch seq
  | _ => 0

def isFile (seq : Nat) : Bool :=
  match o.items[seq]? with
  | some (.file ..) => true
  | _ => false

end Run

namespace State
variable {F : Type}

def new (cap : Nat) : State F :=
  { found := 0, walkDone := false, admitted := 0, started := 0, busy := .empty, results := [],
    budget := .new cap, stop := none, writer := .new }

variable (o : Run F) (s : State F)

def inflight : List Nat := (s.busy.rows.filter fun r => r.2 ≠ .sending ∧ o.isFile r.1).map Prod.fst

def oldest (seq : Nat) : Bool := (s.inflight o).all fun k => seq ≤ k

def allIn : Bool := s.walkDone && s.writer.next == s.found

def commit (r : Writer F × Budget) : State F := { s with writer := r.1, budget := r.2 }

def disconnected : Bool :=
  (s.stop.isSome || (s.walkDone && s.admitted == s.found && s.started == s.admitted)) &&
    s.busy.rows.isEmpty && s.results.isEmpty

def step : Action → Option (State F)
  | .walk =>
    if s.stop = none ∧ s.walkDone = false ∧
      s.found < o.items.length then some { s with found := s.found + 1 }
    else none
  | .walkEnd =>
    if s.walkDone = false ∧
      (s.found = o.items.length ∨ s.stop.isSome) then some { s with walkDone := true }
    else none
  | .setCap cap => some { s with budget := s.budget.setCap cap }
  | .stop why => if s.stop = none then some { s with stop := some why } else none
  | .acquire =>
    if s.admitted < s.found then
      (s.budget.acquire (o.size s.admitted) o.slack).map fun b =>
        { s with admitted := s.admitted + 1, budget := b }
    else none
  | .start =>
    if s.stop = none ∧ s.started < s.admitted ∧ s.busy.len < o.parseThreads then
      some { s with started := s.started + 1, busy := s.busy.insert s.started .started }
    else none
  | .reserve seq =>
    if s.busy.get seq = some .started ∧ 0 < o.scratchOf seq then
      (s.budget.acquireScratch (o.scratchOf seq) (s.oldest o seq) s.stop.isSome).map fun b =>
        { s with busy := s.busy.insert seq .holding, budget := b }
    else none
  | .release seq =>
    if s.busy.get seq = some .holding then
      some { s with
        busy := s.busy.insert seq .finished
        budget := s.budget.releaseScratch (o.scratchOf seq) }
    else none
  | .leave seq =>
    -- without scratch the extraction ends where it started
    if s.busy.get seq = some .finished ∨ (s.busy.get seq = some .started ∧ o.scratchOf seq = 0) then
      some { s with busy := s.busy.insert seq .sending }
    else none
  | .send seq =>
    if s.busy.get seq = some .sending then
      some { s with busy := s.busy.remove seq, results := s.results ++ [o.result seq] }
    else none
  | .receive =>
    match s.results with
    | [] => none
    | r :: rs =>
      if s.writer.point = .receiving ∨ s.writer.point = .waiting then
        some { s with results := rs, writer := { s.writer with
          buf := s.writer.buf.insert r.seq (r.oc, r.size), point := .receiving } }
      else none
  | .begin diskGroupCap err =>
    if s.writer.point = .receiving then
      match s.stop with
      | some why => some (s.commit (s.writer.giveUp s.budget why err))
      | none => some { s with writer := { s.writer with
          point := .taking (o.groupCap s.budget.cap diskGroupCap) } }
    else none
  | .take =>
    match s.writer.point with
    | .taking groupCap => some (s.commit (s.writer.take o s.budget groupCap))
    | _ => none
  | .conclude err =>
    if s.writer.point = .deciding then some { s with writer := s.writer.conclude o s.allIn err }
      else none
  | .settle =>
    match s.writer.point with
    | .settling allIn => some (s.commit (s.writer.settle s.budget allIn s.stop))
    | _ => none
  | .wake =>
    if s.writer.point = .waiting ∧ (s.allIn = true ∨ s.stop.isSome) then
      some { s with writer := { s.writer with point := .receiving } }
    else none
  | .disconnect =>
    if s.writer.point = .waiting ∧ s.disconnected = true ∧ s.allIn = false then
      some { s with writer := { s.writer with
        point := .failed "indexing workers stopped unexpectedly" } }
    else none

end State
end MemoryGraph.Ingest
