import Mathlib

/-! The byte budget: admission acquires before a file may be read, the writer releases after its
commit, and an extractor reserves its scratch memory from the same bytes. -/

namespace MemoryGraph.Ingest

/-- The cap, the bytes in flight and, among them, the scratch. `short` is not a field of the
source: it remembers that a release was larger than what is held, which the saturating
subtraction hides. -/
structure Budget where
  cap : Nat
  used : Nat
  scratch : Nat
  short : Bool
deriving DecidableEq, Repr

namespace Budget

def new (cap : Nat) : Budget := ⟨max cap 1, 0, 0, false⟩

def setCap (b : Budget) (cap : Nat) : Budget := { b with cap := max cap 1 }

/-- One look of the waiting loop of `acquire`: `none` is another wait. An item of any size goes
through on top of at most `slack` bytes. -/
def acquire (b : Budget) (n slack : Nat) : Option Budget :=
  if b.used > slack ∧ b.used + n > b.cap then none else some { b with used := b.used + n }

def release (b : Budget) (n : Nat) : Budget :=
  { b with used := b.used - n, short := b.short || b.used < n }

/-- One look of the waiting loop of `acquire_scratch`. Scratch goes over the cap only when no
other scratch is held and the caller's file is the oldest still being parsed, or on a cancel. -/
def acquireScratch (b : Budget) (n : Nat) (oldest cancel : Bool) : Option Budget :=
  if b.used + n > b.cap ∧ ¬(b.scratch = 0 ∧ oldest = true) ∧ cancel = false then none
  else some { b with used := b.used + n, scratch := b.scratch + n }

def releaseScratch (b : Budget) (n : Nat) : Budget :=
  { b with used := b.used - n, scratch := b.scratch - n,
           short := b.short || b.used < n || b.scratch < n }

structure Ledger (b : Budget) (held scratch : Nat) : Prop where
  used : b.used = held + scratch
  scratch : b.scratch = scratch
  exact : b.short = false

namespace Ledger
variable {b : Budget} {held scratch : Nat}

theorem new (cap : Nat) : Ledger (Budget.new cap) 0 0 := ⟨rfl, rfl, rfl⟩

theorem setCap (h : b.Ledger held scratch) (cap : Nat) : (b.setCap cap).Ledger held scratch :=
  ⟨h.used, h.scratch, h.exact⟩

theorem acquire (h : b.Ledger held scratch) {n slack : Nat} {b' : Budget}
    (ha : b.acquire n slack = some b') : b'.Ledger (held + n) scratch := by
  rw [Budget.acquire] at ha
  split at ha
  · exact nomatch ha
  cases ha
  exact ⟨by show b.used + n = _; rw [h.used]; ring, h.scratch, h.exact⟩

theorem release {n : Nat} (h : b.Ledger (held + n) scratch) :
    (b.release n).Ledger held scratch := by
  have hused := h.used
  refine ⟨?_, h.scratch, ?_⟩
  · show b.used - n = held + scratch
    omega
  · show (b.short || decide (b.used < n)) = false
    have hle : ¬b.used < n := by omega
    simp [h.exact, hle]

theorem acquireScratch (h : b.Ledger held scratch) {n : Nat} {oldest cancel : Bool} {b' : Budget}
    (ha : b.acquireScratch n oldest cancel = some b') : b'.Ledger held (scratch + n) := by
  rw [Budget.acquireScratch] at ha
  split at ha
  · exact nomatch ha
  cases ha
  exact ⟨by show b.used + n = _; rw [h.used]; ring,
    by show b.scratch + n = _; rw [h.scratch], h.exact⟩

theorem releaseScratch {n : Nat} (h : b.Ledger held (scratch + n)) :
    (b.releaseScratch n).Ledger held scratch := by
  have hused := h.used
  have hscratch := h.scratch
  refine ⟨?_, ?_, ?_⟩
  · show b.used - n = held + scratch
    omega
  · show b.scratch - n = scratch
    omega
  · show (b.short || decide (b.used < n) || decide (b.scratch < n)) = false
    have hle : ¬b.used < n := by omega
    have hle' : ¬b.scratch < n := by omega
    simp [h.exact, hle, hle']

end Ledger

theorem acquire_isSome {b : Budget} {n slack : Nat} (h : b.used ≤ slack) :
    b.acquire n slack = some { b with used := b.used + n } := by
  rw [acquire, if_neg (fun hw => absurd h (Nat.not_le.mpr hw.1))]

theorem acquireScratch_oldest {b : Budget} (h : b.scratch = 0) (n : Nat) (cancel : Bool) :
    b.acquireScratch n true cancel =
    some { b with used := b.used + n, scratch := b.scratch + n } := by
  rw [acquireScratch, if_neg (fun hw => hw.2.1 ⟨h, rfl⟩)]

end Budget
end MemoryGraph.Ingest
