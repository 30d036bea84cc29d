import MemoryGraph.Ingest.Writer

/-! What the writer's locals say about the items it has taken: the history is the walk order up to
`next`, and the pending files are the prepared ones not yet flushed. -/

namespace MemoryGraph.Ingest
open Lib Batching List
variable {groupCap : Nat} {rest scratch : Nat} {allIn : Bool}

def Outcome.file? {F : Type} : Outcome F → Option (String × F)
  | .prepared rel p => some (rel, p)
  | _ => none

namespace Run
variable {F : Type} (o : Run F)

def file? (seq : Nat) : Option (String × F) := (o.outcome seq).toOption.bind Outcome.file?

def files : List (String × F) := (List.range o.items.length).filterMap o.file?

def filesFrom (seq : Nat) : List (String × F) :=
  (List.range' seq (o.items.length - seq)).filterMap o.file?

def bytesOf (l : List (String × F)) : Nat := (l.map fun f => o.bytesLen f.2).sum

def limit (batch : List (String × F)) : Bool :=
  batch.length ≥ BATCH_FILES || o.bytesOf batch ≥ BATCH_BYTES

def tooBig (batch : List (String × F)) (f : String × F) : Bool :=
  o.bytesOf batch + o.bytesLen f.2 > BATCH_BYTES

def greedyBatches : List (List (String × F)) := batches o.limit o.tooBig [] o.files

theorem filesFrom_zero : o.filesFrom 0 = o.files := by
  rw [filesFrom, files, Nat.sub_zero, range_eq_range']

theorem filesFrom_cons {seq : Nat} (h : seq < o.items.length) :
    o.filesFrom seq = (o.file? seq).toList ++ o.filesFrom (seq + 1) := by
  obtain ⟨n, hn⟩ : ∃ n, o.items.length - seq = n + 1 := ⟨o.items.length - seq - 1, by omega⟩
  have hn' : o.items.length - (seq + 1) = n := by omega
  rw [filesFrom, filesFrom, hn, hn', range'_succ, filterMap_cons]
  cases o.file? seq with
  | none => rfl
  | some f => rfl

theorem filesFrom_length : o.filesFrom o.items.length = [] := by
  rw [filesFrom, Nat.sub_self]
  rfl

end Run

namespace Writer
variable {F : Type} (o : Run F)

def Resting (w : Writer F) : Prop := if o.deterministic then w.reachesLimit = false
    else w.pending = []

def Stands (w : Writer F) : Prop :=
  match w.point with
  | .receiving => w.Resting o
  | .taking groupCap => 0 < groupCap ∧ w.full o groupCap = false
  | .deciding => w.ready.isSome → w.batchFull o = true
  | .settling _ => w.Resting o
  | .waiting => w.Resting o ∧ w.ready = none
  | _ => True

structure Books (w : Writer F) : Prop where
  bytes : w.pendingBytes = o.bytesOf w.pending
  held : w.held ≤ w.pendingBytes ∨ (w.pending = [] ∧ ∃ allIn, w.point = .settling allIn)
  handled : w.handled.map (fun h => (h.1, Except.ok h.2)) = (List.range w.next).map fun i =>
    (i, o.outcome i)
  concat : w.flushed.flatten ++ w.pending = (List.range w.next).filterMap o.file?
  stands : w.Stands o

def Greedy (w : Writer F) : Prop :=
  w.flushed ++ resume o.limit o.tooBig w.pending (o.filesFrom w.next) = o.greedyBatches

variable {o} {w : Writer F}

theorem books_new : Books o (new : Writer F) := by
  refine ⟨rfl, Or.inl (Nat.le_refl 0), rfl, rfl, ?_⟩
  show Resting o new
  rw [Resting]
  split
  · rfl
  · rfl

theorem greedy_new : Greedy o (new : Writer F) := by
  have hlimit : o.limit ([] : List (String × F)) = false := rfl
  show [] ++ resume o.limit o.tooBig [] (o.filesFrom 0) = o.greedyBatches
  rw [resume_of_not_full hlimit, o.filesFrom_zero]
  rfl

theorem reachesLimit_eq (h : w.pendingBytes = o.bytesOf w.pending) :
    w.reachesLimit = o.limit w.pending := by
  rw [reachesLimit, Run.limit, h]

theorem Resting.pendingBytes_lt (h : w.Resting o) (hdet : o.deterministic = true) :
    w.pendingBytes < BATCH_BYTES := by
  rw [Resting, if_pos hdet, reachesLimit] at h
  simp only [Bool.or_eq_false_iff, decide_eq_false_iff_not] at h
  omega

theorem Resting.pending_eq_nil (h : w.Resting o) (hdet : o.deterministic = false) :
    w.pending = [] := by
  rwa [Resting, if_neg (by simp [hdet])] at h

theorem resting_of_pending_eq_nil (hp : w.pending = []) (hb : w.pendingBytes = 0) :
    w.Resting o := by
  rw [Resting]
  split
  · rw [reachesLimit, hp, hb]
    rfl
  · exact hp

theorem Resting.not_full (h : w.Resting o) (hb : w.pendingBytes = o.bytesOf w.pending)
    (hcap : 0 < groupCap) : w.full o groupCap = false := by
  cases hdet : o.deterministic with
  | true =>
    rw [full, if_pos hdet]
    rwa [Resting, if_pos hdet] at h
  | false =>
    have hzero : w.pendingBytes = 0 := by rw [hb, h.pending_eq_nil hdet]; rfl
    rw [full, if_neg (by simp [hdet]), hzero]
    exact decide_eq_false (Nat.not_le.mpr hcap)

theorem batchFull_of_reachesLimit (hdet : o.deterministic = true) (h : w.reachesLimit = true) :
    w.batchFull o = true := by
  rw [batchFull, if_pos hdet, h, Bool.true_or]

theorem batchFull_of_full (hb : w.pendingBytes = o.bytesOf w.pending) (hcap : 0 < groupCap)
    (h : w.full o groupCap = true) : w.batchFull o = true := by
  cases hdet : o.deterministic with
  | true =>
    rw [full, if_pos hdet] at h
    exact batchFull_of_reachesLimit hdet h
  | false =>
    rw [full, if_neg (by simp [hdet])] at h
    have hge : groupCap ≤ w.pendingBytes := of_decide_eq_true h
    rw [batchFull, if_neg (by simp [hdet]), Bool.not_eq_true', isEmpty_eq_false_iff]
    intro hnil
    have hzero : w.pendingBytes = 0 := by rw [hb, hnil]; rfl
    omega

theorem overflows_eq_true {oc : Except String (Outcome F)} (h : w.overflows o oc = true) :
    o.deterministic = true ∧ w.pending ≠ [] ∧
      ∃ rel p, oc = .ok (.prepared rel p) ∧ BATCH_BYTES < w.pendingBytes + o.bytesLen p := by
  rw [overflows.eq_def, Bool.and_eq_true, Bool.and_eq_true] at h
  obtain ⟨⟨hdet, hne⟩, hbig⟩ := h
  refine ⟨hdet, by simpa using hne, ?_⟩
  split at hbig
  next rel p => exact ⟨rel, p, rfl, of_decide_eq_true hbig⟩
  next => exact nomatch hbig

theorem batchFull_of_overflows {r : Except String (Outcome F) × Nat} (hready : w.ready = some r)
    (h : w.overflows o r.1 = true) : w.batchFull o = true := by
  rw [batchFull, if_pos (overflows_eq_true h).1, hready, Option.any_some, h, Bool.or_true]

theorem resting_of_not_batchFull (h : w.batchFull o = false) : w.Resting o := by
  cases hdet : o.deterministic with
  | true =>
    rw [batchFull, if_pos hdet, Bool.or_eq_false_iff] at h
    rw [Resting, if_pos hdet]
    exact h.1
  | false =>
    rw [batchFull, if_neg (by simp [hdet])] at h
    rw [Resting, if_neg (by simp [hdet])]
    simpa using h

theorem Books.move (h : Books o w) {p : Point} (hheld : w.held ≤ w.pendingBytes)
    (hs : Stands o { w with point := p }) : Books o { w with point := p } :=
  ⟨h.bytes, Or.inl hheld, h.handled, h.concat, hs⟩

theorem Books.held_le (h : Books o w) (hp : ∀ allIn, w.point ≠ .settling allIn) :
    w.held ≤ w.pendingBytes := by
  rcases h.held with hle | ⟨-, allIn, hpoint⟩
  · exact hle
  · exact absurd hpoint (hp allIn)

section handle
variable (b : Budget) (oc : Outcome F) (size : Nat)

@[simp] theorem handle_next : (w.handle o b oc size).1.next = w.next + 1 := by cases oc <;> rfl

@[simp] theorem handle_buf :
    (w.handle o b oc size).1.buf = w.buf.remove w.next := by cases oc <;> rfl

@[simp] theorem handle_handled :
    (w.handle o b oc size).1.handled = w.handled ++ [(w.next, oc)] := by
  cases oc <;> rfl

@[simp] theorem handle_flushed : (w.handle o b oc size).1.flushed = w.flushed := by cases oc <;> rfl

@[simp] theorem handle_pending :
    (w.handle o b oc size).1.pending = w.pending ++ oc.file?.toList := by
  cases oc with
  | prepared rel p => rfl
  | skip reason what unreadable => exact (append_nil w.pending).symm
  | failed what why => exact (append_nil w.pending).symm

@[simp] theorem handle_pendingBytes :
    (w.handle o b oc size).1.pendingBytes = w.pendingBytes + o.bytesOf oc.file?.toList := by
  cases oc with
  | prepared rel p => simp [handle, Outcome.file?, Run.bytesOf]
  | skip reason what unreadable => rfl
  | failed what why => rfl

theorem handle_held_le (h : w.held ≤ w.pendingBytes) :
    (w.handle o b oc size).1.held ≤ (w.handle o b oc size).1.pendingBytes := by
  cases oc with
  | prepared rel p =>
    show w.held + min (o.bytesLen p) size ≤ w.pendingBytes + o.bytesLen p
    omega
  | skip reason what unreadable => exact h
  | failed what why => exact h

variable {b size}

theorem handle_ledger (h : b.Ledger (rest + size + w.held) scratch) :
    (w.handle o b oc size).2.Ledger (rest + (w.handle o b oc size).1.held) scratch := by
  have hback : b.Ledger (rest + w.held + size) scratch := by rwa [Nat.add_right_comm] at h
  cases oc with
  | skip reason what unreadable => exact hback.release
  | failed what why => exact hback.release
  | prepared rel p =>
    show (if size > min (o.bytesLen p) size then b.release (size - min (o.bytesLen p) size)
      else b).Ledger (rest + (w.held + min (o.bytesLen p) size)) scratch
    split
    next hlt =>
      apply Budget.Ledger.release
      have hsum : rest + (w.held + min (o.bytesLen p) size) + (size - min (o.bytesLen p) size) =
          rest + w.held + size := by
        omega
      rwa [hsum]
    next hge =>
      have hsum : rest + (w.held + min (o.bytesLen p) size) = rest + w.held + size := by omega
      rwa [hsum]

end handle

def Arrived (o : Run F) (w : Writer F) : Prop :=
  ∀ r, w.ready = some r → r = (o.outcome w.next, o.size w.next) ∧ w.next < o.items.length

theorem take_cases (o : Run F) (w : Writer F) (b : Budget) (groupCap : Nat) :
    ((w.ready = none ∨ ∃ r, w.ready = some r ∧ w.overflows o r.1 = true) ∧
      w.take o b groupCap = ({ w with point := .deciding }, b)) ∨
    (∃ why size, w.ready = some (.error why, size) ∧
      w.take o b groupCap = ({ w with point := .failed why }, b)) ∨
    ∃ oc size, w.ready = some (.ok oc, size) ∧ w.overflows o (.ok oc) = false ∧
      w.take o b groupCap = ({ (w.handle o b oc size).1 with
        point := if (w.handle o b oc size).1.full o groupCap then .deciding else .taking groupCap },
        (w.handle o b oc size).2) := by
  rw [take]
  cases hready : w.ready with
  | none => exact Or.inl ⟨Or.inl rfl, rfl⟩
  | some r =>
    obtain ⟨oc, size⟩ := r
    cases hover : w.overflows o oc with
    | true => exact Or.inl ⟨Or.inr ⟨_, rfl, hover⟩, by simp [hover]⟩
    | false =>
      cases oc with
      | error why => exact Or.inr (Or.inl ⟨why, size, rfl, by simp [hover]⟩)
      | ok oc => exact Or.inr (Or.inr ⟨oc, size, rfl, hover, by simp [hover]⟩)

theorem Arrived.outcome_eq (h : Arrived o w) {oc : Except String (Outcome F)} {size : Nat}
    (hready : w.ready = some (oc, size)) : o.outcome w.next = oc :=
  (congrArg Prod.fst (h _ hready).1).symm

theorem Arrived.size_eq (h : Arrived o w) {oc : Except String (Outcome F)} {size : Nat}
    (hready : w.ready = some (oc, size)) : o.size w.next = size :=
  (congrArg Prod.snd (h _ hready).1).symm

theorem Arrived.file?_eq (h : Arrived o w) {oc : Outcome F} {size : Nat}
    (hready : w.ready = some (.ok oc, size)) : o.file? w.next = oc.file? := by
  rw [Run.file?, h.outcome_eq hready]
  rfl

theorem take_books (h : Books o w) (ha : Arrived o w) (hp : w.point = .taking groupCap)
    (b : Budget) : Books o (w.take o b groupCap).1 := by
  have hheld : w.held ≤ w.pendingBytes :=
    h.held_le (fun allIn he => by rw [hp] at he; exact nomatch he)
  have hstands := h.stands
  rw [Stands, hp] at hstands
  obtain ⟨hcap, hnot⟩ := hstands
  rcases take_cases o w b groupCap with ⟨hend, heq⟩ | ⟨why, size, -, heq⟩ | ⟨oc, size,
    hready, -, heq⟩
  · rw [heq]
    refine h.move hheld ?_
    show w.ready.isSome = true → w.batchFull o = true
    intro hsome
    rcases hend with hnone | ⟨r, hr, hover⟩
    · rw [hnone] at hsome
      exact nomatch hsome
    · exact batchFull_of_overflows hr hover
  · rw [heq]
    exact h.move hheld trivial
  · rw [heq]
    have hbytes : (w.handle o b oc size).1.pendingBytes =
        o.bytesOf (w.handle o b oc size).1.pending := by
      rw [handle_pendingBytes, handle_pending, h.bytes]
      simp [Run.bytesOf]
    refine ⟨hbytes, Or.inl (handle_held_le b oc size hheld), ?_, ?_, ?_⟩
    · show ((w.handle o b oc size).1.handled).map (fun h => (h.1, Except.ok h.2)) =
        (range (w.handle o b oc size).1.next).map fun i => (i, o.outcome i)
      rw [handle_handled, handle_next, map_append, range_succ, map_append, h.handled,
        map_singleton, map_singleton, ha.outcome_eq hready]
    · show (w.handle o b oc size).1.flushed.flatten ++ (w.handle o b oc size).1.pending =
        (range (w.handle o b oc size).1.next).filterMap o.file?
      rw [handle_flushed, handle_pending, handle_next, range_succ, filterMap_append, ← h.concat,
        append_assoc, ← ha.file?_eq hready]
      cases hf : o.file? w.next <;> simp [hf]
    · cases hfull : (w.handle o b oc size).1.full o groupCap with
      | true =>
        show (w.handle o b oc size).1.ready.isSome = true →
            (w.handle o b oc size).1.batchFull o = true
        intro _
        exact batchFull_of_full hbytes hcap hfull
      | false => exact ⟨hcap, hfull⟩

theorem flush_greedy (h : Greedy o w) (hb : w.pendingBytes = o.bytesOf w.pending) (ha : Arrived o w)
    (hne : w.pending ≠ []) (hclose : w.batchFull o = true ∨ w.next = o.items.length)
    (hdet : o.deterministic = true) : Greedy o w.flush := by
  have hstart : ∀ l, resume o.limit o.tooBig [] l = batches o.limit o.tooBig [] l :=
    fun l => resume_of_not_full rfl l
  have hcut : resume o.limit o.tooBig w.pending (o.filesFrom w.next) =
      w.pending :: batches o.limit o.tooBig [] (o.filesFrom w.next) := by
    cases hlim : o.limit w.pending with
    | true => exact resume_of_full hlim _
    | false =>
      rw [resume_of_not_full hlim]
      rcases hclose with hfull | hend
      · -- below both limits, so the next file is there and too big
        rw [batchFull, if_pos hdet, reachesLimit_eq hb, hlim, Bool.false_or,
          Option.any_eq_true] at hfull
        obtain ⟨⟨oc, size⟩, hready, hover⟩ := hfull
        obtain ⟨-, -, rel, p, hoc, hbig⟩ := overflows_eq_true hover
        obtain rfl : oc = .ok (.prepared rel p) := hoc
        have hfile : o.file? w.next = some (rel, p) := ha.file?_eq hready
        rw [o.filesFrom_cons (ha _ hready).2, hfile]
        have htoo : o.tooBig w.pending (rel, p) = true := decide_eq_true (hb ▸ hbig)
        exact batches_close hne htoo _
      · rw [hend, o.filesFrom_length, batches_end hne]
        rfl
  show (w.flushed ++ [w.pending]) ++ resume o.limit o.tooBig [] (o.filesFrom w.next) = _
  rw [hstart, append_assoc, singleton_append, ← hcut]
  exact h

theorem take_greedy (h : Greedy o w) (hbooks : Books o w) (ha : Arrived o w)
    (hp : w.point = .taking groupCap) (hdet : o.deterministic = true) (b : Budget) :
    Greedy o (w.take o b groupCap).1 := by
  have hstands := hbooks.stands
  rw [Stands, hp] at hstands
  rcases take_cases o w b groupCap with ⟨-, heq⟩ | ⟨why, size, -, heq⟩ | ⟨oc, size,
    hready, hover, heq⟩
  · rw [heq]
    exact h
  · rw [heq]
    exact h
  · rw [heq]
    have hlimit : o.limit w.pending = false := by
      have hfull := hstands.2
      rwa [full, if_pos hdet, reachesLimit_eq hbooks.bytes] at hfull
    have hrest := h
    rw [Greedy, resume_of_not_full hlimit, o.filesFrom_cons (ha _ hready).2,
      ha.file?_eq hready] at hrest
    show (w.handle o b oc size).1.flushed ++ resume o.limit o.tooBig
      (w.handle o b oc size).1.pending (o.filesFrom (w.handle o b oc size).1.next) = _
    rw [handle_flushed, handle_pending, handle_next, ← hrest]
    cases oc with
    | skip reason what unreadable => simp [Outcome.file?, resume_of_not_full hlimit]
    | failed what why => simp [Outcome.file?, resume_of_not_full hlimit]
    | prepared rel p =>
      have hfits : w.pending = [] ∨ o.tooBig w.pending (rel, p) = false := by
        rw [overflows, hdet, Bool.true_and, Bool.and_eq_false_iff, hbooks.bytes] at hover
        rcases hover with hnil | hsmall
        · exact Or.inl (by simpa using hnil)
        · exact Or.inr hsmall
      have hone : (Outcome.prepared rel p).file?.toList = [(rel, p)] := rfl
      rw [hone, singleton_append, batches_take hfits]

theorem flush_books (h : Books o w) : Books o { w.flush with point := .settling allIn } := by
  refine ⟨rfl, Or.inr ⟨rfl, allIn, rfl⟩, h.handled, ?_, ?_⟩
  · show (w.flushed ++ [w.pending]).flatten ++ [] = _
    rw [flatten_append, append_nil, flatten_singleton]
    exact h.concat
  · exact resting_of_pending_eq_nil rfl rfl

theorem conclude_cases (o : Run F) (w : Writer F) (allIn : Bool) (err : Option String) :
    (∃ why, err = some why ∧ w.conclude o allIn err = { w with point := .failed why }) ∨
    ((w.batchFull o = true ∨ (allIn = true ∧ w.pending ≠ [])) ∧
      w.conclude o allIn err = { w.flush with point := .settling allIn }) ∨
    (w.batchFull o = false ∧ (allIn = true → w.pending = []) ∧
      w.conclude o allIn err = { w with point := .settling allIn }) := by
  rw [conclude.eq_def]
  split
  next hflush =>
    cases err with
    | some why => exact Or.inl ⟨why, rfl, rfl⟩
    | none => exact Or.inr (Or.inl ⟨by simpa using hflush, rfl⟩)
  next hnot =>
    simp only [Bool.or_eq_true, not_or, Bool.and_eq_true, Bool.not_eq_true, not_and,
      Bool.not_eq_true', isEmpty_eq_false_iff, not_not] at hnot
    exact Or.inr (Or.inr ⟨hnot.1, hnot.2, rfl⟩)

theorem conclude_books (h : Books o w) (hp : w.point = .deciding) (allIn : Bool)
    (err : Option String) : Books o (w.conclude o allIn err) := by
  have hheld : w.held ≤ w.pendingBytes :=
    h.held_le (fun allIn he => by rw [hp] at he; exact nomatch he)
  rcases conclude_cases o w allIn err with ⟨why, -, heq⟩ | ⟨-, heq⟩ | ⟨hnot, -, heq⟩
  · rw [heq]
    exact h.move hheld trivial
  · rw [heq]
    exact flush_books h
  · rw [heq]
    exact h.move hheld (resting_of_not_batchFull hnot)

theorem pending_ne_nil_of_batchFull (hb : w.pendingBytes = o.bytesOf w.pending)
    (h : w.batchFull o = true) : w.pending ≠ [] := by
  intro hnil
  have hzero : w.pendingBytes = 0 := by rw [hb, hnil]; rfl
  have hlimit : w.reachesLimit = false := by rw [reachesLimit, hnil, hzero]; rfl
  rw [batchFull, hlimit] at h
  split at h
  · rw [Bool.false_or, Option.any_eq_true] at h
    obtain ⟨r, -, hover⟩ := h
    exact (overflows_eq_true hover).2.1 hnil
  · rw [hnil] at h
    exact nomatch h

theorem conclude_greedy (h : Greedy o w) (hbooks : Books o w) (ha : Arrived o w)
    (hall : allIn = true → w.next = o.items.length) (hdet : o.deterministic = true)
    (err : Option String) : Greedy o (w.conclude o allIn err) := by
  rcases conclude_cases o w allIn err with ⟨why, -, heq⟩ | ⟨hflush, heq⟩ | ⟨-, -, heq⟩
  · rw [heq]
    exact h
  · rw [heq]
    rcases hflush with hfull | ⟨hin, hne⟩
    · exact flush_greedy h hbooks.bytes ha (pending_ne_nil_of_batchFull hbooks.bytes hfull)
        (Or.inl hfull) hdet
    · exact flush_greedy h hbooks.bytes ha hne (Or.inr (hall hin)) hdet
  · rw [heq]
    exact h

theorem settle_of_nil (h : w.pending = []) (b : Budget) (allIn : Bool) (stop : Option String) :
    w.settle b allIn stop = ({ w with held := 0, point := w.onward allIn stop },
      b.release w.held) := by
  rw [settle, giveBack, if_pos (by simp [h])]

theorem settle_of_ne_nil (h : w.pending ≠ []) (b : Budget) (allIn : Bool) (stop : Option String) :
    w.settle b allIn stop = ({ w with point := w.onward allIn stop }, b) := by
  rw [settle, giveBack, if_neg (by simp [h])]

theorem stands_onward (h : w.Resting o) (allIn : Bool) (stop : Option String) (held : Nat) :
    Stands o { w with held := held, point := w.onward allIn stop } := by
  rw [onward.eq_def]
  split
  · cases stop with
    | some why => trivial
    | none => trivial
  split
  · exact h
  next hnot => exact ⟨h, Option.not_isSome_iff_eq_none.mp hnot⟩

theorem settle_books (h : Books o w) (hp : w.point = .settling allIn) (b : Budget)
    (stop : Option String) : Books o (w.settle b allIn stop).1 := by
  have hrest : w.Resting o := by
    have hstands := h.stands
    rwa [Stands, hp] at hstands
  by_cases hnil : w.pending = []
  · rw [settle_of_nil hnil]
    exact ⟨h.bytes, Or.inl (Nat.zero_le _), h.handled, h.concat, stands_onward hrest allIn stop 0⟩
  · rw [settle_of_ne_nil hnil]
    have hheld : w.held ≤ w.pendingBytes := by
      rcases h.held with hle | ⟨hnil', -⟩
      · exact hle
      · exact absurd hnil' hnil
    exact h.move hheld (stands_onward hrest allIn stop w.held)

theorem settle_ledger {b : Budget} (h : b.Ledger (rest + w.held) scratch)
    (allIn : Bool) (stop : Option String) :
    (w.settle b allIn stop).2.Ledger (rest + (w.settle b allIn stop).1.held) scratch := by
  by_cases hnil : w.pending = []
  · rw [settle_of_nil hnil]
    exact h.release
  · rw [settle_of_ne_nil hnil]
    exact h

theorem giveUp_cases (w : Writer F) (b : Budget) (why : String) (err : Option String) :
    (∃ e, w.giveUp b why err = ({ w with point := .failed e }, b)) ∨
    (w.pending = [] ∧ w.giveUp b why err = ({ w with held := 0, point := .failed why },
    b.release w.held)) ∨ (w.pending ≠ [] ∧
      w.giveUp b why err = ({ w.flush with held := 0, point := .failed why },
      b.release w.held)) := by
  rw [giveUp.eq_def]
  by_cases hnil : w.pending = []
  · cases err with
    | some e => exact Or.inr (Or.inl ⟨hnil, by simp [hnil]⟩)
    | none => exact Or.inr (Or.inl ⟨hnil, by simp [hnil]⟩)
  · cases err with
    | some e => exact Or.inl ⟨e, by simp [hnil]⟩
    | none => exact Or.inr (Or.inr ⟨hnil, by simp [hnil, flush]⟩)

theorem giveUp_books (h : Books o w) (hp : w.point = .receiving) (b : Budget) (why : String)
    (err : Option String) : Books o (w.giveUp b why err).1 := by
  have hheld : w.held ≤ w.pendingBytes :=
    h.held_le (fun allIn he => by rw [hp] at he; exact nomatch he)
  rcases giveUp_cases w b why err with ⟨e, heq⟩ | ⟨-, heq⟩ | ⟨-, heq⟩
  · rw [heq]
    exact h.move hheld trivial
  · rw [heq]
    exact ⟨h.bytes, Or.inl (Nat.zero_le _), h.handled, h.concat, trivial⟩
  · rw [heq]
    have hflush : Books o { w.flush with point := .settling false } := flush_books h
    exact ⟨hflush.bytes, Or.inl (Nat.zero_le _), hflush.handled, hflush.concat, trivial⟩

theorem giveUp_ledger {b : Budget} (h : b.Ledger (rest + w.held) scratch)
    (why : String) (err : Option String) :
    (w.giveUp b why err).2.Ledger (rest + (w.giveUp b why err).1.held) scratch := by
  rcases giveUp_cases w b why err with ⟨e, heq⟩ | ⟨-, heq⟩ | ⟨-, heq⟩
  · rw [heq]
    exact h
  · rw [heq]
    exact h.release
  · rw [heq]
    exact h.release

end Writer
end MemoryGraph.Ingest
