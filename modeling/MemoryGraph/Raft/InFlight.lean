import MemoryGraph.Lib.Counting
import MemoryGraph.Lib.Runs

/-! Proposals and leadership transfers. A proposal is counted before it looks at the transfer flag;
a transfer sets the flag before it looks at the count. -/

namespace MemoryGraph.Raft
open Lib

inductive Asked
  | propose | addLearner | changeMembership | promote | remove | setNodeAddr
deriving DecidableEq, Repr

inductive Phase
  -- in `proposal`, after the count went up
  | counted
  -- refused, by the flag or by the disk guard, or cancelled: its guard is about to be dropped
  | refused
  -- `proposal` returned the guard
  | admitted
  | spawned
  | handed
  | answered
  | ended
deriving DecidableEq, Repr

structure Proposal where
  asked : Asked
  phase : Phase
  awaited : Bool
deriving DecidableEq, Repr

inductive Transfer
  | draining
  | drained
deriving DecidableEq, Repr

structure Hooks where
  withholdLeader : Bool
  holdProposal : Bool

structure RaftNode where
  transferring : Bool
  inFlight : Nat
  proposals : Table Nat Proposal
  transfers : Table Nat Transfer

namespace RaftNode

def started : RaftNode := ⟨false, 0, Table.empty, Table.empty⟩

def noLeader (c : Hooks) (n : RaftNode) : Bool := c.withholdLeader || n.transferring

def put (n : RaftNode) (p : Nat) (q : Proposal) : RaftNode :=
  { n with proposals := n.proposals.insert p q }

def advance (n : RaftNode) (p : Nat) (from_ next : Phase) : Option RaftNode :=
  match n.proposals.get p with
  | some q => if q.phase = from_ then some (n.put p { q with phase := next }) else none
  | none => none

inductive Action
  -- `fetch_add` on the count
  | enter (p : Nat) (asked : Asked)
  | check (p : Nat)
  | refuse (p : Nat)
  | abandon (p : Nat)
  | spawn (p : Nat)
  | hand (p : Nat)
  | answer (p : Nat)
  -- `fetch_sub` on the count
  | leave (p : Nat)
  -- `TransferGuard::new`
  | begin (t : Nat)
  -- `drain_in_flight` reads the count
  | load (t : Nat)
  -- the transfer ends, gives up or is cancelled: its guard clears the flag
  | clear (t : Nat)
deriving DecidableEq, Repr

def step (c : Hooks) (n : RaftNode) : Action → Option RaftNode
  | .enter p asked =>
    if n.proposals.get p =
      none then some { n.put p ⟨asked, .counted, true⟩ with inFlight := n.inFlight + 1 }
    else none
  | .check p => n.advance p .counted (if n.noLeader c then .refused else .admitted)
  | .refuse p =>
    match n.proposals.get p with
    | some ⟨.propose, .admitted, _⟩ => n.advance p .admitted .refused
    | _ => none
  | .abandon p =>
    match n.proposals.get p with
    -- the caller owns the guard until the task does
    | some ⟨asked, .admitted, true⟩ =>
      if asked = .propose ∧ c.holdProposal then some (n.put p ⟨asked, .refused, false⟩) else none
    | some ⟨asked, .spawned, true⟩ => some (n.put p ⟨asked, .spawned, false⟩)
    | some ⟨asked, .handed, true⟩ => some (n.put p ⟨asked, .handed, false⟩)
    | some ⟨asked, .answered, true⟩ => some (n.put p ⟨asked, .answered, false⟩)
    | _ => none
  | .spawn p => n.advance p .admitted .spawned
  | .hand p => n.advance p .spawned .handed
  | .answer p => n.advance p .handed .answered
  | .leave p =>
    match n.proposals.get p with
    | some ⟨asked, .refused, w⟩ =>
      some { n.put p ⟨asked, .ended, w⟩ with inFlight := n.inFlight - 1 }
    | some ⟨asked, .answered, w⟩ =>
      some { n.put p ⟨asked, .ended, w⟩ with inFlight := n.inFlight - 1 }
    | _ => none
  | .begin t =>
    if n.transfers.get t ≠ none then none
    -- a second transfer is refused
    else if n.transferring then some n
    else some { n with transferring := true, transfers := n.transfers.insert t .draining }
  | .load t =>
    if n.transfers.get t = some .draining then
      if n.inFlight = 0 then some { n with transfers := n.transfers.insert t .drained } else some n
    else none
  | .clear t =>
    if n.transfers.get t = none then none
    else some { n with transferring := false, transfers := n.transfers.remove t }

def isOpen (q : Proposal) : Bool := q.phase ≠ .ended

def isOutside (q : Proposal) : Bool := q.phase = .counted || q.phase = .refused || q.phase = .ended

structure Inv (n : RaftNode) : Prop where
  count : n.inFlight = n.proposals.countOf isOpen
  flag : ∀ t h, n.transfers.get t = some h → n.transferring = true ∧
    ∀ t' h', n.transfers.get t' = some h' → t' = t
  drained : ∀ t, n.transfers.get t = some .drained → ∀ p q, n.proposals.get p = some q →
    isOutside q = true

theorem inv_started : Inv started := ⟨rfl, fun _ _ h => (nomatch h), fun _ h => (nomatch h)⟩

theorem advance_eq_some {n n' : RaftNode} {p : Nat} {from_ next : Phase}
    (h : n.advance p from_ next = some n') :
    ∃ q, n.proposals.get p = some q ∧ q.phase = from_ ∧ n' = n.put p { q with phase := next } := by
  rw [advance] at h
  cases hq : n.proposals.get p with
  | none =>
    rw [hq] at h
    cases h
  | some q =>
    rw [hq] at h
    dsimp only at h
    split_ifs at h with hphase
    exact ⟨q, rfl, hphase, (Option.some.inj h).symm⟩

namespace Inv
variable {n : RaftNode} {p : Nat} {q q' : Proposal}

theorem moved (h : Inv n) {k : Nat}
    (hk : k + (if (n.proposals.get p).any isOpen then 1 else 0) =
      n.inFlight + if isOpen q' then 1 else 0)
    (hpast : isOutside q' = true ∨ n.transferring = false ∨
      ∃ q, n.proposals.get p = some q ∧ isOutside q = false) :
    Inv { n.put p q' with inFlight := k } where
  count := by
    have hins := n.proposals.countOf_insert isOpen p q'
    have hcount := h.count
    show k = (n.proposals.insert p q').countOf isOpen
    omega
  flag := h.flag
  drained := by
    intro t ht p₁ q₁ hq₁
    replace hq₁ : (n.proposals.insert p q').get p₁ = some q₁ := hq₁
    rw [Table.get_insert] at hq₁
    split_ifs at hq₁ with hp
    · obtain rfl := Option.some.inj hq₁
      rcases hpast with hout | hdown | ⟨q, hq, hin⟩
      · exact hout
      · rw [(h.flag t _ ht).1] at hdown
        cases hdown
      · rw [h.drained t ht p q hq] at hin
        cases hin
    · exact h.drained t ht p₁ q₁ hq₁

theorem kept (h : Inv n) (hq : n.proposals.get p = some q) (hopen : isOpen q = true)
    (hopen' : isOpen q' = true)
    (hpast : isOutside q' = true ∨ n.transferring = false ∨ isOutside q = false) :
    Inv (n.put p q') := by
  refine h.moved (k := n.inFlight) ?_ (hpast.imp_right (Or.imp_right fun hin => ⟨q, hq, hin⟩))
  rw [hq, Option.any_some, hopen, hopen']

theorem advanced (h : Inv n) {from_ next : Phase} (hfrom : from_ ≠ .ended) (hnext : next ≠ .ended)
    (hpast : ∀ q : Proposal, isOutside { q with phase := next } = true ∨ n.transferring = false ∨
      isOutside { q with phase := from_ } = false) : After (n.advance p from_ next) Inv := by
  intro n' hs
  obtain ⟨q, hq, rfl, rfl⟩ := advance_eq_some hs
  exact h.kept hq (decide_eq_true hfrom) (decide_eq_true hnext) (hpast q)

theorem left (h : Inv n) (hq : n.proposals.get p = some q) (hopen : isOpen q = true)
    (hended : q'.phase = .ended) : Inv { n.put p q' with inFlight := n.inFlight - 1 } := by
  have hins := n.proposals.countOf_insert isOpen p q'
  have hcount := h.count
  have hshut : isOpen q' = false := by rw [isOpen, hended]; rfl
  rw [hq, Option.any_some, hopen, hshut] at hins
  refine h.moved ?_ (Or.inl (by rw [isOutside, hended]; rfl))
  rw [hq, Option.any_some, hopen, hshut]
  simp only [if_true, Bool.false_eq_true, if_false] at hins ⊢
  omega

end Inv

theorem step_inv {c : Hooks} {n : RaftNode} (h : Inv n) (a : Action) : After (step c n a) Inv := by
  cases a with
  | enter p asked =>
    refine .guard fun hnew => .some (h.moved ?_ (Or.inl rfl))
    rw [hnew]
    rfl
  | check p =>
    by_cases hno : n.noLeader c = true
    · rw [step, if_pos hno]
      exact h.advanced (by decide) (by decide) fun q => Or.inl rfl
    · rw [step, if_neg hno]
      have hdown : n.transferring = false := by
        rw [noLeader, Bool.or_eq_true, not_or] at hno
        exact Bool.eq_false_of_not_eq_true hno.2
      exact h.advanced (by decide) (by decide) fun q => Or.inr (Or.inl hdown)
  | refuse p =>
    rw [step]
    split
    · exact h.advanced (by decide) (by decide) fun q => Or.inl rfl
    · exact .none
  | abandon p =>
    rw [step]
    split
    · next hq => exact .guard fun _ => .some (h.kept hq rfl rfl (Or.inl rfl))
    · next hq => exact .some (h.kept hq rfl rfl (Or.inr (Or.inr rfl)))
    · next hq => exact .some (h.kept hq rfl rfl (Or.inr (Or.inr rfl)))
    · next hq => exact .some (h.kept hq rfl rfl (Or.inr (Or.inr rfl)))
    · exact .none
  | spawn p => exact h.advanced (by decide) (by decide) fun q => Or.inr (Or.inr rfl)
  | hand p => exact h.advanced (by decide) (by decide) fun q => Or.inr (Or.inr rfl)
  | answer p => exact h.advanced (by decide) (by decide) fun q => Or.inr (Or.inr rfl)
  | leave p =>
    rw [step]
    split
    · next hq => exact .some (h.left hq rfl rfl)
    · next hq => exact .some (h.left hq rfl rfl)
    · exact .none
  | begin t =>
    rw [step]
    split_ifs with hnew hup
    · exact .none
    · exact .some h
    · -- with the flag down there was no transfer
      have hnone : ∀ t' h', n.transfers.get t' ≠ some h' := fun t' h' ht' =>
        hup (h.flag t' h' ht').1
      have honly : ∀ t' h', (n.transfers.insert t .draining).get t' = some h' → t' = t ∧
          h' = .draining := by
        intro t' h' ht'
        rw [Table.get_insert] at ht'
        split_ifs at ht' with he
        · exact ⟨he.symm, (Option.some.inj ht').symm⟩
        · exact absurd ht' (hnone t' h')
      refine .some ⟨h.count, fun t₁ h₁ ht₁ => ⟨rfl, fun t₂ h₂ ht₂ => ?_⟩, fun t₁ ht₁ => ?_⟩
      · rw [(honly t₁ h₁ ht₁).1, (honly t₂ h₂ ht₂).1]
      · cases (honly t₁ _ ht₁).2
  | load t =>
    refine .guard fun ht => ?_
    split_ifs with hzero
    · obtain ⟨hup, honly⟩ := h.flag t _ ht
      have hsame : ∀ t' h', (n.transfers.insert t .drained).get t' = some h' → t' = t := by
        intro t' h' ht'
        rw [Table.get_insert] at ht'
        split_ifs at ht' with he
        · exact he.symm
        · exact honly t' h' ht'
      refine .some ⟨h.count, fun t₁ h₁ ht₁ => ⟨hup, fun t₂ h₂ ht₂ => ?_⟩, fun t₁ _ p q hq => ?_⟩
      · rw [hsame t₁ h₁ ht₁, hsame t₂ h₂ ht₂]
      · -- a count of zero: every proposal has ended
        have hshut := Table.countOf_eq_zero (h.count.symm.trans hzero) hq
        have hended : q.phase = .ended := by simpa [isOpen] using hshut
        rw [isOutside, hended]
        rfl
    · exact .some h
  | clear t =>
    rw [step]
    split_ifs with ht
    · exact .none
    obtain ⟨h₀, ht⟩ := Option.ne_none_iff_exists'.mp ht
    have hnone : ∀ t' h', (n.transfers.remove t).get t' ≠ some h' := by
      intro t' h' ht'
      rw [Table.get_remove] at ht'
      split_ifs at ht' with he
      exact he ((h.flag t h₀ ht).2 t' h' ht').symm
    exact .some ⟨h.count, fun t' h' ht' => absurd ht' (hnone t' h'), fun t' ht' =>
      absurd ht' (hnone t' _)⟩

theorem reach_inv {c : Hooks} {n : RaftNode} (h : Reach (step c) (fun _ _ => True) started n) :
    Inv n :=
  h.inv inv_started fun _ n a hi _ hs => step_inv hi a n hs

/-- The count is that of the proposals entered and not ended; and from its reading of zero until it
clears the flag, a transfer has no proposal at Raft and none can be handed over. -/
theorem transfer_quiet (c : Hooks) (n : RaftNode) (h : Reach (step c) (fun _ _ => True) started n) :
    n.inFlight = n.proposals.rows.countP (fun r => r.2.phase ≠ .ended) ∧
      ∀ t, n.transfers.get t = some .drained →
        n.transferring = true ∧ (∀ p q, n.proposals.get p = some q → q.phase ≠ .handed) ∧
          ∀ p, step c n (.hand p) = none := by
  have hinv := reach_inv h
  refine ⟨hinv.count, fun t ht => ⟨(hinv.flag t _ ht).1, fun p q hq hhanded => ?_, fun p => ?_⟩⟩
  · have hout := hinv.drained t ht p q hq
    rw [isOutside, hhanded] at hout
    cases hout
  · cases hs : step c n (.hand p) with
    | none => rfl
    | some n' =>
      obtain ⟨q, hq, hspawned, -⟩ := advance_eq_some hs
      have hout := hinv.drained t ht p q hq
      rw [isOutside, hspawned] at hout
      cases hout

def drainedOnce : List Action :=
  [.enter 0 .propose, .check 0, .spawn 0, .begin 5, .hand 0, .abandon 0, .load 5, .enter 1 .promote,
    .answer 0, .check 1, .leave 1, .leave 0, .load 5, .enter 2 .remove]

theorem transfer_quiet_sample :
    ∃ n, run (step ⟨false, false⟩) started drainedOnce = some n ∧ n.inFlight = 1 ∧
    n.transfers.get 5 = some .drained ∧ (∀ p, step ⟨false, false⟩ n (.hand p) = none) := by
  have hrun : ∃ n, run (step ⟨false, false⟩) started drainedOnce = some n ∧
      n.transfers.get 5 = some .drained ∧ n.inFlight = 1 := ⟨_, rfl, rfl, rfl⟩
  obtain ⟨n, hn, ht, hcount⟩ := hrun
  have hreach : Reach (step ⟨false, false⟩) (fun _ _ => True) started n := by
    refine reach_run .start ?_ hn
    exact of_decide_eq_true rfl
  exact ⟨n, hn, hcount, ht, ((transfer_quiet _ n hreach).2 5 ht).2.2⟩

end RaftNode
end MemoryGraph.Raft
