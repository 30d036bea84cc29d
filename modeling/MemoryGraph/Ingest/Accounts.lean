import MemoryGraph.Ingest.Pipeline
import MemoryGraph.Ingest.Books

/-! The accounts of a run: every file is in one place, and the bytes in use are those admitted and
not given back, plus the scratch held. -/

namespace MemoryGraph.Ingest
open Lib Table Nat
open scoped List
variable {seq : Nat}

namespace State
variable {F : Type}

def places (s : State F) : List Nat :=
  s.busy.keys ++ (s.results.map Result.seq ++ s.writer.buf.keys)

variable (o : Run F)

def bytesFrom (seq n : Nat) : Nat := ((List.range' seq n).map o.size).sum

/-- The admitted bytes not yet given back: those of the files that the writer has not taken,
and what it holds for the pending ones. -/
def admittedBytes (s : State F) : Nat :=
  bytesFrom o s.writer.next (s.admitted - s.writer.next) + s.writer.held

def scratchIn (rows : List (Nat × Phase)) : Nat :=
  (rows.map fun r => if r.2 = .holding then o.scratchOf r.1 else 0).sum

def scratchHeld (s : State F) : Nat := scratchIn o s.busy.rows

structure Inv (s : State F) : Prop where
  next_le : s.writer.next ≤ s.started
  started_le : s.started ≤ s.admitted
  admitted_le : s.admitted ≤ s.found
  found_le : s.found ≤ o.items.length
  walked : s.walkDone = true → s.stop = none → s.found = o.items.length
  places : s.places.Perm (List.range' s.writer.next (s.started - s.writer.next))
  results : ∀ r ∈ s.results, r = o.result r.seq
  buf : ∀ seq v, s.writer.buf.get seq = some v → v = (o.outcome seq, o.size seq)
  books : s.writer.Books o
  ledger : s.budget.Ledger (admittedBytes o s) (scratchHeld o s)
  ended : s.writer.point = .settling true → s.writer.pending = [] ∧ s.walkDone = true ∧
    s.writer.next = s.found
  returned : s.writer.point = .returned →
    s.writer.pending = [] ∧ s.writer.held = 0 ∧ s.writer.next = o.items.length
  greedy : o.deterministic = true → s.stop = none → s.writer.Greedy o

variable {o} {s t : State F}

theorem inv_new (cap : Nat) : Inv o (new cap : State F) where
  next_le := le_refl 0
  started_le := le_refl 0
  admitted_le := le_refl 0
  found_le := zero_le _
  walked h := nomatch h
  places := List.Perm.nil
  results _ hr := nomatch hr
  buf _ _ hv := nomatch hv
  books := Writer.books_new
  ledger := Budget.Ledger.new cap
  ended h := nomatch h
  returned h := nomatch h
  greedy _ _ := Writer.greedy_new

theorem Inv.mem_places (h : Inv o s) :
    seq ∈ s.places ↔ s.writer.next ≤ seq ∧ seq < s.started := by
  have hle := h.next_le
  rw [h.places.mem_iff, List.mem_range'_1]
  omega

theorem Inv.nodup_places (h : Inv o s) : s.places.Nodup := h.places.nodup_iff.mpr List.nodup_range'

theorem mem_places_of_busy {p : Phase} (h : s.busy.get seq = some p) : seq ∈ s.places :=
  List.mem_append_left _ (mem_keys.mpr ⟨p, h⟩)

theorem Inv.arrived (h : Inv o s) : s.writer.Arrived o := by
  intro r hr
  have hin : s.writer.next ∈ s.places :=
    List.mem_append_right _ (List.mem_append_right _ (mem_keys.mpr ⟨r, hr⟩))
  have hlt := (h.mem_places.mp hin).2
  exact ⟨h.buf _ _ hr, by have := h.started_le; have := h.admitted_le; have := h.found_le; omega⟩

theorem bytesFrom_succ (seq n : Nat) :
    bytesFrom o seq (n + 1) = bytesFrom o seq n + o.size (seq + n) := by
  rw [bytesFrom, bytesFrom, List.range'_concat, List.map_append, List.sum_append]
  simp

theorem bytesFrom_cons (seq n : Nat) :
    bytesFrom o seq (n + 1) = o.size seq + bytesFrom o (seq + 1) n := by
  rw [bytesFrom, bytesFrom, List.range'_succ, List.map_cons, List.sum_cons]

theorem scratchIn_perm {l l' : List (Nat × Phase)} (h : l.Perm l') :
    scratchIn o l = scratchIn o l' :=
  (h.map _).sum_eq

theorem scratchIn_cons (r : Nat × Phase) (l : List (Nat × Phase)) :
    scratchIn o (r :: l) = (if r.2 = .holding then o.scratchOf r.1 else 0) + scratchIn o l := by
  rw [scratchIn, scratchIn, List.map_cons, List.sum_cons]

theorem walk_inv (h : Inv o s) : After (s.step o .walk) (Inv o) := by
  refine .guard fun hg => .some ?_
  exact { h with
    admitted_le := le_succ_of_le h.admitted_le
    found_le := hg.2.2
    walked := fun hw _ => absurd hw (by simp [hg.2.1])
    ended := fun hp => absurd (h.ended hp).2.1 (by simp [hg.2.1]) }

theorem walkEnd_inv (h : Inv o s) : After (s.step o .walkEnd) (Inv o) := by
  refine .guard fun hg => .some ?_
  exact { h with
    walked := fun _ hstop => hg.2.resolve_right (by rw [show s.stop = none from hstop]; exact nofun)
    ended := fun hp => ⟨(h.ended hp).1, rfl, (h.ended hp).2.2⟩ }

theorem setCap_inv (h : Inv o s) (cap : Nat) : After (s.step o (.setCap cap)) (Inv o) :=
  .some { h with ledger := h.ledger.setCap cap }

theorem stop_inv (h : Inv o s) (why : String) : After (s.step o (.stop why)) (Inv o) := by
  refine .guard fun _ => .some ?_
  exact { h with
    walked := fun _ hstop => nomatch hstop
    greedy := fun _ hstop => nomatch hstop }

theorem acquire_inv (h : Inv o s) : After (s.step o .acquire) (Inv o) := by
  refine .guard fun hg => .map fun b hb => ?_
  have hbytes : bytesFrom o s.writer.next (s.admitted + 1 - s.writer.next) + s.writer.held =
      admittedBytes o s + o.size s.admitted := by
    obtain ⟨n, hn⟩ := Nat.exists_eq_add_of_le (h.next_le.trans h.started_le)
    have hsucc : s.admitted + 1 - s.writer.next = n + 1 := by omega
    have hsame : s.admitted - s.writer.next = n := by omega
    rw [hsucc, bytesFrom_succ, admittedBytes, hsame, ← hn]
    ring
  have hledger := h.ledger.acquire hb
  rw [← hbytes] at hledger
  exact { h with
    started_le := Nat.le_succ_of_le h.started_le
    admitted_le := hg
    ledger := hledger }

theorem Inv.busy_started (h : Inv o s) : s.busy.get s.started = none := by
  refine Option.eq_none_iff_forall_ne_some.mpr fun p hp => ?_
  exact absurd (h.mem_places.mp (mem_places_of_busy hp)).2 (lt_irrefl _)

theorem start_inv (h : Inv o s) : After (s.step o .start) (Inv o) := by
  refine .guard fun hg => .some ?_
  have hnew := h.busy_started
  have hplaces : (s.started :: s.places).Perm
      (List.range' s.writer.next (s.started + 1 - s.writer.next)) := by
    obtain ⟨n, hn⟩ := Nat.exists_eq_add_of_le h.next_le
    have hold := h.places
    have hsame : s.started - s.writer.next = n := by omega
    have hsucc : s.started + 1 - s.writer.next = n + 1 := by omega
    rw [hsame] at hold
    rw [hsucc, List.range'_concat, Nat.one_mul, ← hn]
    exact (hold.cons _).trans (List.perm_append_singleton _ _).symm
  have hscratch : scratchIn o (s.busy.insert s.started .started).rows = scratchHeld o s := by
    rw [scratchIn_perm (rows_insert_perm_of_new hnew _), scratchIn_cons, if_neg nofun, Nat.zero_add]
    rfl
  have hledger := h.ledger
  rw [← hscratch] at hledger
  exact { h with
    next_le := Nat.le_succ_of_le h.next_le
    started_le := hg.2.1
    places := ((keys_insert_perm_of_new hnew _).append_right _).trans hplaces
    ledger := hledger }

theorem phase_inv (h : Inv o s) {p p' : Phase} (hget : s.busy.get seq = some p) {b : Budget}
    (hledger : b.Ledger (admittedBytes o s) (scratchIn o (s.busy.insert seq p').rows)) :
    Inv o { s with busy := s.busy.insert seq p', budget := b } :=
  { h with
    places := ((keys_update_perm hget p').append_right _).trans h.places
    ledger := hledger }

theorem scratch_update {p : Phase} (hget : s.busy.get seq = some p) (p' : Phase) :
    ∃ rest, scratchHeld o s = (if p = .holding then o.scratchOf seq else 0) + rest ∧
      scratchIn o (s.busy.insert seq p').rows = (if p' = .holding then o.scratchOf seq else 0) +
      rest := by
  obtain ⟨rows, hold, hnew⟩ := rows_update_perm hget p'
  refine ⟨scratchIn o rows, ?_, ?_⟩
  · rw [scratchHeld, scratchIn_perm hold, scratchIn_cons]
  · rw [scratchIn_perm hnew, scratchIn_cons]

theorem reserve_inv (h : Inv o s) : After (s.step o (.reserve seq)) (Inv o) := by
  refine .guard fun hg => .map fun b hb => ?_
  obtain ⟨rest, hold, hnew⟩ := scratch_update (o := o) hg.1 .holding
  rw [if_neg nofun, zero_add] at hold
  rw [if_pos rfl, add_comm] at hnew
  apply phase_inv h hg.1
  rw [hnew, ← hold]
  exact h.ledger.acquireScratch hb

theorem release_inv (h : Inv o s) : After (s.step o (.release seq)) (Inv o) := by
  refine .guard fun hg => .some ?_
  obtain ⟨rest, hold, hnew⟩ := scratch_update (o := o) hg .finished
  rw [if_pos rfl, add_comm] at hold
  rw [if_neg nofun, zero_add] at hnew
  apply phase_inv h hg
  rw [hnew]
  have hledger := h.ledger
  rw [hold] at hledger
  exact hledger.releaseScratch

theorem leave_inv (h : Inv o s) : After (s.step o (.leave seq)) (Inv o) := by
  refine .guard fun hg => .some ?_
  obtain ⟨p, hget, hp⟩ : ∃ p, s.busy.get seq = some p ∧ p ≠ .holding := by
    rcases hg with hfin | ⟨hstart, -⟩
    · exact ⟨_, hfin, nofun⟩
    · exact ⟨_, hstart, nofun⟩
  obtain ⟨rest, hold, hnew⟩ := scratch_update (o := o) hget .sending
  rw [if_neg hp] at hold
  rw [if_neg nofun] at hnew
  apply phase_inv h hget
  rw [hnew, ← hold]
  exact h.ledger

theorem send_inv (h : Inv o s) : After (s.step o (.send seq)) (Inv o) := by
  refine .guard fun hg => .some ?_
  have hscratch : scratchIn o (s.busy.remove seq).rows = scratchHeld o s := by
    rw [scratchHeld, scratchIn_perm (rows_perm_remove hg), scratchIn_cons, if_neg nofun, zero_add]
  have hledger := h.ledger
  rw [← hscratch] at hledger
  -- the number moves from the threads to the channel
  have hmove : ((s.busy.remove seq).keys ++
      ((s.results ++ [o.result seq]).map Result.seq ++ s.writer.buf.keys)).Perm s.places := by
    calc (s.busy.remove seq).keys ++
          ((s.results ++ [o.result seq]).map Result.seq ++ s.writer.buf.keys)
        = ((s.busy.remove seq).keys ++ s.results.map Result.seq) ++ seq :: s.writer.buf.keys := by
          simp [Run.result]
      _ ~ seq :: (((s.busy.remove seq).keys ++ s.results.map Result.seq) ++ s.writer.buf.keys) :=
          List.perm_middle
      _ = (seq :: (s.busy.remove seq).keys) ++ (s.results.map Result.seq ++ s.writer.buf.keys) := by
        simp
      _ ~ s.places := (keys_perm_remove hg).symm.append_right _
  exact { h with
    places := hmove.trans h.places
    results := fun r hr => by
      rcases List.mem_append.mp hr with hr | hr
      · exact h.results r hr
      · rw [List.mem_singleton.mp hr]
        rfl
    ledger := hledger }

theorem not_settling {w : Writer F} {p : Point} (hp : w.point = p)
    (hne : ∀ allIn, p ≠ .settling allIn) (allIn : Bool) : w.point ≠ .settling allIn := by
  rw [hp]
  exact hne allIn

theorem receive_inv (h : Inv o s) : After (s.step o .receive) (Inv o) := by
  rw [step]
  split
  next => exact .none
  next r rs hres =>
    refine .guard fun hg => .some ?_
    have hseq : r = o.result r.seq := h.results r (by rw [hres]; exact (.head _))
    have hnodup := h.nodup_places
    rw [places, hres, List.map_cons] at hnodup
    have hnew : s.writer.buf.get r.seq = none := by
      apply get_eq_none_of_notMem_keys
      have hcons := (List.nodup_append.mp hnodup).2.1
      exact fun hin => (List.nodup_cons.mp hcons).1 (List.mem_append_right _ hin)
    have hmove : (s.busy.keys ++
        (rs.map Result.seq ++ (s.writer.buf.insert r.seq (r.oc, r.size)).keys)) ~ s.places := by
      rw [places, hres]
      exact (((keys_insert_perm_of_new hnew _).append_left _).trans List.perm_middle).append_left _
    have hrest : s.writer.Resting o ∧ s.writer.held ≤ s.writer.pendingBytes := by
      have hstands := h.books.stands
      rw [Writer.Stands] at hstands
      rcases hg with hp | hp
      · rw [hp] at hstands
        exact ⟨hstands, h.books.held_le (not_settling hp (by simp))⟩
      · rw [hp] at hstands
        exact ⟨hstands.1, h.books.held_le (not_settling hp (by simp))⟩
    exact { h with
      places := hmove.trans h.places
      results := fun q hq => h.results q (by rw [hres]; exact List.mem_cons_of_mem _ hq)
      buf := fun seq v hv => by
        have hv' : (if r.seq = seq then some (r.oc, r.size) else s.writer.buf.get seq) =
        some v := by
          rw [← get_insert]
          exact hv
        split at hv'
        next heq =>
          rw [← Option.some.inj hv', ← heq, hseq]
          rfl
        next => exact h.buf seq v hv'
      books := ⟨h.books.bytes, Or.inl hrest.2, h.books.handled, h.books.concat, hrest.1⟩
      ended := by simp
      returned := by simp }

theorem commit_inv (h : Inv o s) {r : Writer F × Budget} (hbuf : r.1.buf = s.writer.buf)
    (hnext : r.1.next = s.writer.next) (hbooks : r.1.Books o)
    (hledger : ∀ {rest scratch}, s.budget.Ledger (rest + s.writer.held) scratch →
      r.2.Ledger (rest + r.1.held) scratch)
    (hended : r.1.point = .settling true → r.1.pending = [] ∧ s.walkDone = true ∧
      s.writer.next = s.found)
    (hreturned : r.1.point = .returned → r.1.pending = [] ∧ r.1.held = 0 ∧
      s.writer.next = o.items.length)
    (hgreedy : o.deterministic = true → s.stop = none → r.1.Greedy o) :
    Inv o (s.commit r) := by
  have hl : r.2.Ledger (admittedBytes o (s.commit r)) (scratchHeld o s) := by
    have := hledger h.ledger
    rwa [admittedBytes, show (s.commit r).writer.next = s.writer.next from hnext]
  exact { h with
    next_le := by rw [show (s.commit r).writer.next = s.writer.next from hnext]; exact h.next_le
    places := by
      rw [places, show (s.commit r).writer.next = s.writer.next from hnext,
        show (s.commit r).writer.buf = s.writer.buf from hbuf]
      exact h.places
    buf := by rw [show (s.commit r).writer.buf = s.writer.buf from hbuf]; exact h.buf
    books := hbooks
    ledger := hl
    ended := by rw [show (s.commit r).writer.next = s.writer.next from hnext]; exact hended
    returned := by rw [show (s.commit r).writer.next = s.writer.next from hnext]; exact hreturned
    greedy := hgreedy }

theorem point_inv (h : Inv o s) {p : Point} (hheld : s.writer.held ≤ s.writer.pendingBytes)
    (hstands : Writer.Stands o { s.writer with point := p }) (hend : p ≠ .settling true)
    (hret : p ≠ .returned) : Inv o { s with writer := { s.writer with point := p } } :=
  { h with
    books := h.books.move hheld hstands
    ended := fun hp => absurd hp hend
    returned := fun hp => absurd hp hret }

theorem begin_inv (h : Inv o s) (cap : Nat) (err : Option String) :
    After (s.step o (.begin cap err)) (Inv o) := by
  refine .guard fun hp => ?_
  split
  next why hstop =>
    refine .some ?_
    obtain ⟨hbuf, hnext, e, hpoint⟩ : (s.writer.giveUp s.budget why err).1.buf = s.writer.buf ∧
        (s.writer.giveUp s.budget why err).1.next = s.writer.next ∧
        ∃ e, (s.writer.giveUp s.budget why err).1.point = .failed e := by
      rcases Writer.giveUp_cases s.writer s.budget why err with ⟨e, heq⟩ | ⟨-, heq⟩ | ⟨-, heq⟩
      · rw [heq]
        exact ⟨rfl, rfl, e, rfl⟩
      · rw [heq]
        exact ⟨rfl, rfl, why, rfl⟩
      · rw [heq]
        exact ⟨rfl, rfl, why, rfl⟩
    refine commit_inv h hbuf hnext (Writer.giveUp_books h.books hp s.budget why err)
      (fun hl => Writer.giveUp_ledger hl why err) (fun hx => ?_) (fun hx => ?_) (fun _ hx => ?_)
    · rw [hpoint] at hx
      cases hx
    · rw [hpoint] at hx
      cases hx
    · rw [hstop] at hx
      cases hx
  next =>
    refine .some ?_
    have hrest : s.writer.Resting o := by
      have hstands := h.books.stands
      rwa [Writer.Stands, hp] at hstands
    have hcap : 0 < o.groupCap s.budget.cap cap := lt_of_lt_of_le zero_lt_one (le_max_right _ _)
    exact point_inv h (h.books.held_le (not_settling hp (by simp)))
      ⟨hcap, hrest.not_full h.books.bytes hcap⟩ (by simp) (by simp)

theorem wake_inv (h : Inv o s) : After (s.step o .wake) (Inv o) := by
  refine .guard fun hg => .some ?_
  have hstands := h.books.stands
  rw [Writer.Stands, hg.1] at hstands
  exact point_inv h (h.books.held_le (not_settling hg.1 (by simp))) hstands.1 (by simp) (by simp)

theorem disconnect_inv (h : Inv o s) : After (s.step o .disconnect) (Inv o) := by
  refine .guard fun hg => .some ?_
  exact point_inv h (h.books.held_le (not_settling hg.1 nofun)) trivial nofun nofun

theorem allIn_eq_true (hin : s.allIn = true) : s.walkDone = true ∧ s.writer.next = s.found := by
  rw [allIn, Bool.and_eq_true] at hin
  exact ⟨hin.1, by simpa using hin.2⟩

theorem conclude_inv (h : Inv o s) (err : Option String) :
    After (s.step o (.conclude err)) (Inv o) := by
  refine .guard fun hp => .some ?_
  have hgreedy : o.deterministic = true → s.stop = none →
      (s.writer.conclude o s.allIn err).Greedy o := by
    intro hdet hstop
    refine Writer.conclude_greedy (h.greedy hdet hstop) h.books h.arrived (fun hin => ?_) hdet err
    rw [(allIn_eq_true hin).2]
    exact h.walked (allIn_eq_true hin).1 hstop
  have hbooks := Writer.conclude_books h.books hp s.allIn err
  rcases Writer.conclude_cases o s.writer s.allIn err with ⟨why, -, heq⟩ | ⟨-, heq⟩ | ⟨-, hnil, heq⟩
  · rw [heq] at hgreedy hbooks ⊢
    exact @commit_inv _ _ _ h (_, s.budget) rfl rfl hbooks id nofun nofun hgreedy
  · rw [heq] at hgreedy hbooks ⊢
    exact @commit_inv _ _ _ h (_, s.budget) rfl rfl hbooks id
      (fun hx => ⟨rfl, allIn_eq_true (Point.settling.inj hx)⟩) nofun hgreedy
  · rw [heq] at hgreedy hbooks ⊢
    exact @commit_inv _ _ _ h (_, s.budget) rfl rfl hbooks id
      (fun hx => ⟨hnil (Point.settling.inj hx), allIn_eq_true (Point.settling.inj hx)⟩) nofun
      hgreedy

theorem onward_returned {w : Writer F} {allIn : Bool} {stop : Option String}
    (h : w.onward allIn stop = .returned) : allIn = true ∧ stop = none := by
  rw [Writer.onward.eq_def] at h
  split at h
  next hend =>
    simp only [Bool.and_eq_true] at hend
    cases stop with
    | none => exact ⟨hend.1.1, rfl⟩
    | some why => cases h
  next =>
    split at h
    · cases h
    · cases h

theorem onward_ne_settling (w : Writer F) (allIn : Bool) (stop : Option String) :
    w.onward allIn stop ≠ .settling true := by
  rw [Writer.onward.eq_def]
  split
  · cases stop with
    | none => simp
    | some why => simp
  · split
    · simp
    · simp

theorem settle_inv (h : Inv o s) : After (s.step o .settle) (Inv o) := by
  rw [step]
  split
  next allIn hp =>
    refine .some ?_
    have hfields : (s.writer.settle s.budget allIn s.stop).1.buf = s.writer.buf ∧
        (s.writer.settle s.budget allIn s.stop).1.next = s.writer.next ∧
        (s.writer.settle s.budget allIn s.stop).1.pending = s.writer.pending ∧
        (s.writer.settle s.budget allIn s.stop).1.flushed = s.writer.flushed ∧
        (s.writer.settle s.budget allIn s.stop).1.point = s.writer.onward allIn s.stop ∧
        (s.writer.pending = [] → (s.writer.settle s.budget allIn s.stop).1.held = 0) := by
      by_cases hnil : s.writer.pending = []
      · rw [Writer.settle_of_nil hnil]
        exact ⟨rfl, rfl, rfl, rfl, rfl, fun _ => rfl⟩
      · rw [Writer.settle_of_ne_nil hnil]
        exact ⟨rfl, rfl, rfl, rfl, rfl, fun hx => absurd hx hnil⟩
    obtain ⟨hbuf, hnext, hpending, hflushed, hpoint, hheld⟩ := hfields
    refine commit_inv h hbuf hnext (Writer.settle_books h.books hp s.budget s.stop)
      (fun hl => Writer.settle_ledger hl allIn s.stop) (fun hx => ?_) (fun hx => ?_)
      (fun hdet hstop => ?_)
    · rw [hpoint] at hx
      exact absurd hx (onward_ne_settling _ _ _)
    · rw [hpoint] at hx
      obtain ⟨rfl, hstop⟩ := onward_returned hx
      obtain ⟨hnil, hdone, hall⟩ := h.ended hp
      exact ⟨hpending.trans hnil, hheld hnil, hall.trans (h.walked hdone hstop)⟩
    · rw [Writer.Greedy, hflushed, hpending, hnext]
      exact h.greedy hdet hstop
  next => exact .none

theorem take_inv (h : Inv o s) : After (s.step o .take) (Inv o) := by
  rw [step]
  split
  next groupCap hp =>
    refine .some ?_
    have hbooks := Writer.take_books h.books h.arrived hp s.budget
    have hgreedy : o.deterministic = true → s.stop = none →
        (s.writer.take o s.budget groupCap).1.Greedy o :=
      fun hdet hstop => Writer.take_greedy (h.greedy hdet hstop) h.books h.arrived hp hdet s.budget
    rcases Writer.take_cases o s.writer s.budget groupCap with
      ⟨-, heq⟩ | ⟨why, size, -, heq⟩ | ⟨oc, size, hready, -, heq⟩
    · rw [heq] at hbooks hgreedy ⊢
      exact commit_inv h rfl rfl hbooks id nofun nofun hgreedy
    · rw [heq] at hbooks hgreedy ⊢
      exact commit_inv h rfl rfl hbooks id nofun nofun hgreedy
    · rw [heq] at hbooks hgreedy ⊢
      -- the next number leaves the buffer and the interval of the open ones
      have hlt : s.writer.next < s.started := by
        have hin : s.writer.next ∈ s.places :=
          List.mem_append_right _ (List.mem_append_right _ (mem_keys.mpr ⟨_, hready⟩))
        exact (h.mem_places.mp hin).2
      obtain ⟨n, hn⟩ : ∃ n, s.started - s.writer.next = n + 1 :=
        ⟨s.started - s.writer.next - 1, by omega⟩
      obtain ⟨m, hm⟩ : ∃ m, s.admitted - s.writer.next = m + 1 :=
        ⟨s.admitted - s.writer.next - 1, by have := h.started_le; omega⟩
      have hn' : s.started - (s.writer.next + 1) = n := by omega
      have hm' : s.admitted - (s.writer.next + 1) = m := by omega
      have hplaces : (s.busy.keys ++
          (s.results.map Result.seq ++ (s.writer.buf.remove s.writer.next).keys)) ~
          List.range' (s.writer.next + 1) n := by
        have hold := h.places
        rw [hn, List.range'_succ] at hold
        refine List.Perm.cons_inv (a := s.writer.next) (List.Perm.trans ?_ hold)
        refine (List.perm_middle.symm).trans (List.Perm.append_left _ ?_)
        refine (List.perm_middle.symm).trans (List.Perm.append_left _ ?_)
        exact (keys_perm_remove hready).symm
      have hledger : (s.writer.handle o s.budget oc size).2.Ledger
          (bytesFrom o (s.writer.next + 1) m + (s.writer.handle o s.budget oc size).1.held)
          (scratchHeld o s) := by
        apply Writer.handle_ledger
        have hold := h.ledger
        rw [admittedBytes, hm, bytesFrom_cons, h.arrived.size_eq hready, add_comm size] at hold
        exact hold
      have hpoint : ∀ p, (if (s.writer.handle o s.budget oc size).1.full o
          groupCap then Point.deciding
          else .taking groupCap) = p → p ≠ .settling true ∧ p ≠ .returned := by
        rintro p rfl
        split
        · exact ⟨nofun, nofun⟩
        · exact ⟨nofun, nofun⟩
      exact { h with
        next_le := by
          show (s.writer.handle o s.budget oc size).1.next ≤ s.started
          rw [Writer.handle_next]
          exact hlt
        places := by
          show (s.busy.keys ++ (s.results.map Result.seq ++
          (s.writer.handle o s.budget oc size).1.buf.keys)) ~
            List.range' (s.writer.handle o s.budget oc size).1.next
              (s.started - (s.writer.handle o s.budget oc size).1.next)
          rw [Writer.handle_buf, Writer.handle_next, hn']
          exact hplaces
        buf := fun seq v hv => by
          have hv' : (s.writer.handle o s.budget oc size).1.buf.get seq = some v := hv
          rw [Writer.handle_buf, get_remove] at hv'
          split_ifs at hv'
          exact h.buf seq v hv'
        books := hbooks
        ledger := by
          show (s.writer.handle o s.budget oc size).2.Ledger
            (bytesFrom o (s.writer.handle o s.budget oc size).1.next
              (s.admitted - (s.writer.handle o s.budget oc size).1.next) +
              (s.writer.handle o s.budget oc size).1.held) (scratchHeld o s)
          rw [Writer.handle_next, hm']
          exact hledger
        ended := fun hx => absurd rfl (hpoint _ hx).1
        returned := fun hx => absurd rfl (hpoint _ hx).2
        greedy := hgreedy }
  next => exact .none

theorem step_inv (h : Inv o s) (a : Action) : After (s.step o a) (Inv o) := by
  cases a with
  | walk => exact walk_inv h
  | walkEnd => exact walkEnd_inv h
  | setCap cap => exact setCap_inv h cap
  | stop why => exact stop_inv h why
  | acquire => exact acquire_inv h
  | start => exact start_inv h
  | reserve seq => exact reserve_inv h
  | release seq => exact release_inv h
  | leave seq => exact leave_inv h
  | send seq => exact send_inv h
  | receive => exact receive_inv h
  | begin cap err => exact begin_inv h cap err
  | take => exact take_inv h
  | conclude err => exact conclude_inv h err
  | settle => exact settle_inv h
  | wake => exact wake_inv h
  | disconnect => exact disconnect_inv h

theorem reach_inv {ok : State F → Action → Prop} {cap : Nat} (h : Reach (step o) ok (new cap) s) :
    Inv o s :=
  h.inv (inv_new cap) fun _ t a hi _ hs => step_inv hi a t hs

end State
end MemoryGraph.Ingest
