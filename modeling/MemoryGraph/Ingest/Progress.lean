import MemoryGraph.Ingest.Accounts

/-! The pipeline cannot deadlock. Whoever the writer waits for can get its memory, and every step
other than a move of the cap or a stop lowers a weight. -/

namespace MemoryGraph.Ingest
open Lib List
variable {seq : Nat}

inductive Stage where
  | walk
  | sampler
  | admission
  | parse
  | scratch
  | commit
deriving DecidableEq, Repr

def Action.stage : Action → Stage
  | .walk | .walkEnd => .walk
  | .setCap _ | .stop _ => .sampler
  | .acquire => .admission
  | .start | .release _ | .leave _ | .send _ => .parse
  | .reserve _ => .scratch
  | .receive | .begin .. | .take | .conclude _ | .settle | .wake | .disconnect => .commit

def Action.works : Action → Bool
  | .setCap _ | .stop _ => false
  | .begin _ err | .conclude err => err.isNone
  | _ => true

def Phase.rank : Phase → Nat
  | .started => 14
  | .holding => 13
  | .finished => 12
  | .sending => 11

namespace Writer
variable {F : Type}

def Running (w : Writer F) : Prop := w.point ≠ .returned ∧ ∀ why, w.point ≠ .failed why

def rank (w : Writer F) (allIn : Bool) : Nat :=
  match w.point with
  | .receiving => 5
  | .taking _ => 4
  | .deciding => 3
  | .settling true => 1
  | .settling false => if w.ready.isSome || allIn then 7 else 1
  | .waiting => if allIn then 6 else 0
  | _ => 0

theorem rank_le (w : Writer F) (allIn : Bool) : w.rank allIn ≤ 7 := by
  rw [rank.eq_def]
  split <;> (try split) <;> omega

end Writer

namespace State
variable {F : Type}

def phasesIn (rows : List (Nat × Phase)) : Nat := (rows.map fun r => r.2.rank).sum

def pendingWeight (w : Writer F) : Nat := if w.pending.isEmpty then 0 else 10

/-- What is left to do: the items before each counter, the files at work, the results on their
way, the pending batch and the rest of the writer's pass. -/
def weight (o : Run F) (s : State F) : Nat :=
  20 * (o.items.length - s.found) + 20 * (o.items.length - s.admitted) +
    20 * (o.items.length - s.started) + 20 * (o.items.length - s.writer.next) +
    (if s.walkDone then 0 else 10) + phasesIn s.busy.rows + 10 * s.results.length +
    pendingWeight s.writer + s.writer.rank s.allIn

variable {o : Run F} {s t : State F}

theorem phasesIn_perm {l l' : List (Nat × Phase)} (h : l.Perm l') : phasesIn l = phasesIn l' :=
  (h.map _).sum_eq

theorem phasesIn_cons (r : Nat × Phase) (l : List (Nat × Phase)) :
    phasesIn (r :: l) = r.2.rank + phasesIn l := by
  rw [phasesIn, phasesIn, map_cons, sum_cons]

theorem phase_weight {p p' : Phase} (hget : s.busy.get seq = some p) (hlt : p'.rank < p.rank)
    (b : Budget) : weight o { s with busy := s.busy.insert seq p', budget := b } < weight o s := by
  obtain ⟨rows, hold, hnew⟩ := Table.rows_update_perm hget p'
  have hlt' : phasesIn (s.busy.insert seq p').rows < phasesIn s.busy.rows := by
    rw [phasesIn_perm hold, phasesIn_perm hnew, phasesIn_cons, phasesIn_cons]
    exact Nat.add_lt_add_right hlt _
  exact Nat.add_lt_add_right
    (Nat.add_lt_add_right (Nat.add_lt_add_right (Nat.add_lt_add_left hlt' _) _) _) _

theorem commit_weight {r : Writer F × Budget}
    (h : 20 * (o.items.length - r.1.next) + pendingWeight r.1 + r.1.rank (s.commit r).allIn <
      20 * (o.items.length - s.writer.next) + pendingWeight s.writer + s.writer.rank s.allIn) :
    weight o (s.commit r) < weight o s := by
  have hdef : weight o (s.commit r) = 20 * (o.items.length - s.found) + 20 *
      (o.items.length - s.admitted) + 20 * (o.items.length - s.started) + 20 *
      (o.items.length - r.1.next) + (if s.walkDone then 0 else 10) +
      phasesIn s.busy.rows + 10 * s.results.length + pendingWeight r.1 +
      r.1.rank (s.commit r).allIn := rfl
  rw [hdef, weight]
  omega

theorem point_weight {p : Point} {b : Budget}
    (h : Writer.rank { s.writer with point := p } s.allIn < s.writer.rank s.allIn) :
    weight o (s.commit ({ s.writer with point := p }, b)) < weight o s := Nat.add_lt_add_left h _

theorem walk_weight : After (s.step o .walk) fun t => weight o t < weight o s := by
  refine .guard fun hg => .some ?_
  have hrank := Writer.rank_le s.writer ({ s with found := s.found + 1 } : State F).allIn
  rw [weight, weight]
  simp only at hrank ⊢
  have := hg.2.2
  omega

theorem walkEnd_weight : After (s.step o .walkEnd) fun t => weight o t < weight o s := by
  refine .guard fun hg => .some ?_
  have hrank := Writer.rank_le s.writer ({ s with walkDone := true } : State F).allIn
  rw [weight, weight, hg.1]
  simp only [if_true, Bool.false_eq_true, if_false] at hrank ⊢
  omega

theorem acquire_weight (h : Inv o s) :
    After (s.step o .acquire) fun t => weight o t < weight o s := by
  refine .guard fun hg => .map fun b _ => ?_
  have hsame : ({ s with admitted := s.admitted + 1, budget := b } : State F).allIn = s.allIn := rfl
  have hfound := h.found_le
  rw [weight, weight, hsame]
  simp only
  omega

theorem start_weight (h : Inv o s) : After (s.step o .start) fun t => weight o t < weight o s := by
  refine .guard fun hg => .some ?_
  have hphases : phasesIn (s.busy.insert s.started .started).rows = 14 + phasesIn s.busy.rows := by
    rw [phasesIn_perm (Table.rows_insert_perm_of_new h.busy_started _), phasesIn_cons]
    rfl
  have hsame : ({ s with started := s.started + 1, busy := s.busy.insert s.started .started } :
      State F).allIn = s.allIn := rfl
  have hfound := h.found_le
  have hadmitted := h.admitted_le
  have hlt := hg.2.1
  rw [weight, weight, hsame]
  simp only [hphases]
  omega

theorem reserve_weight : After (s.step o (.reserve seq)) fun t => weight o t < weight o s := by
  refine .guard fun hg => .map fun b _ => ?_
  exact phase_weight hg.1 (by decide) b

theorem release_weight : After (s.step o (.release seq)) fun t => weight o t < weight o s := by
  refine .guard fun hg => .some ?_
  exact phase_weight hg (by decide) _

theorem leave_weight : After (s.step o (.leave seq)) fun t => weight o t < weight o s := by
  refine .guard fun hg => .some ?_
  rcases hg with hfin | ⟨hstart, -⟩
  · exact phase_weight hfin (by decide) s.budget
  · exact phase_weight hstart (by decide) s.budget

theorem send_weight : After (s.step o (.send seq)) fun t => weight o t < weight o s := by
  refine .guard fun hg => .some ?_
  have hphases : phasesIn s.busy.rows = 11 + phasesIn (s.busy.remove seq).rows := by
    rw [phasesIn_perm (Table.rows_perm_remove hg), phasesIn_cons]
    rfl
  have hsame : ({ s with busy := s.busy.remove seq, results := s.results ++ [o.result seq] } : State
      F).allIn = s.allIn := rfl
  rw [weight, weight, hsame]
  simp only [hphases, length_append, length_singleton]
  omega

theorem receive_weight : After (s.step o .receive) fun t => weight o t < weight o s := by
  rw [step]
  split
  next => exact .none
  next r rs hres =>
    refine .guard fun _ => .some ?_
    have hrank : Writer.rank
        { s.writer with buf := s.writer.buf.insert r.seq (r.oc, r.size), point := .receiving }
        ({ s with results := rs, writer := { s.writer with
          buf := s.writer.buf.insert r.seq (r.oc, r.size), point := .receiving } } :
          State F).allIn = 5 := rfl
    have hpending : pendingWeight { s.writer with
      buf := s.writer.buf.insert r.seq (r.oc, r.size), point := .receiving } =
      pendingWeight s.writer := rfl
    rw [weight, weight, hrank, hpending, hres, length_cons]
    simp only
    omega

theorem begin_weight (hstop : s.stop = none) (cap : Nat) (err : Option String) :
    After (s.step o (.begin cap err)) fun t => weight o t < weight o s := by
  refine .guard fun hp => ?_
  rw [hstop]
  refine .some ?_
  rw [← hstop]
  refine @point_weight _ _ s _ s.budget ?_
  rw [Writer.rank.eq_def s.writer, hp]
  exact Nat.lt_succ_self 4

theorem wake_weight (hstop : s.stop = none) :
    After (s.step o .wake) fun t => weight o t < weight o s := by
  refine .guard fun hg => .some ?_
  refine @point_weight _ _ s _ s.budget ?_
  have hin : s.allIn = true := hg.2.resolve_right (by rw [hstop]; exact nofun)
  rw [hin, Writer.rank.eq_def s.writer, hg.1]
  exact Nat.lt_succ_self 5

theorem pendingWeight_le (w : Writer F) : pendingWeight w ≤ 10 := by
  rw [pendingWeight]
  split <;> omega

theorem take_weight (h : Inv o s) : After (s.step o .take) fun t => weight o t < weight o s := by
  rw [step]
  split
  next groupCap hp =>
    refine .some ?_
    have hrank : s.writer.rank s.allIn = 4 := by rw [Writer.rank.eq_def, hp]
    rcases Writer.take_cases o s.writer s.budget groupCap with
      ⟨-, heq⟩ | ⟨why, size, -, heq⟩ | ⟨oc, size, hready, -, heq⟩
    · rw [heq]
      apply point_weight
      rw [hrank]
      exact Nat.lt_succ_self 3
    · rw [heq]
      apply point_weight
      rw [hrank]
      exact Nat.zero_lt_succ 3
    · rw [heq]
      apply commit_weight
      -- a file less is worth more than a batch that it opens
      have hlt := (h.arrived _ hready).2
      have hrank' : ∀ allIn, Writer.rank { (s.writer.handle o s.budget oc size).1 with
          point := if (s.writer.handle o s.budget oc size).1.full o groupCap then .deciding
          else .taking groupCap } allIn ≤ 4 := by
        intro allIn
        split
        · exact Nat.le_succ 3
        · exact Nat.le_refl 4
      have hpending := pendingWeight_le { (s.writer.handle o s.budget oc size).1 with
          point := if (s.writer.handle o s.budget oc size).1.full o groupCap then .deciding
          else .taking groupCap }
      have hnext : (s.writer.handle o s.budget oc size).1.next = s.writer.next + 1 :=
        Writer.handle_next _ _ _
      refine Nat.lt_of_le_of_lt (Nat.add_le_add (Nat.add_le_add_left hpending _) (hrank' _)) ?_
      show 20 * (o.items.length - (s.writer.handle o s.budget oc size).1.next) + 10 + 4 < _
      rw [hnext, hrank]
      omega
  next => exact .none

theorem conclude_weight (h : Inv o s) (err : Option String) :
    After (s.step o (.conclude err)) fun t => weight o t < weight o s := by
  refine .guard fun hp => .some ?_
  have hrank : s.writer.rank s.allIn = 3 := by rw [Writer.rank.eq_def, hp]
  have hstands := h.books.stands
  rw [Writer.Stands, hp] at hstands
  rcases Writer.conclude_cases o s.writer s.allIn err with ⟨why, -, heq⟩ | ⟨hflush,
    heq⟩ | ⟨hnot, -, heq⟩
  · rw [heq]
    refine @point_weight _ _ s _ s.budget ?_
    rw [hrank]
    exact Nat.zero_lt_succ 2
  · rw [heq]
    refine @commit_weight _ _ s (_, s.budget) ?_
    have hne : s.writer.pending ≠ [] := by
      rcases hflush with hfull | ⟨-, hne⟩
      · exact Writer.pending_ne_nil_of_batchFull h.books.bytes hfull
      · exact hne
    have hten : pendingWeight s.writer = 10 := if_neg (by simp [hne])
    rw [hten, hrank]
    refine Nat.lt_of_le_of_lt (Nat.add_le_add_left (Writer.rank_le _ _) _) ?_
    show 20 * (o.items.length - s.writer.next) + 0 + 7 < _
    omega
  · rw [heq]
    refine @point_weight _ _ s _ s.budget ?_
    rw [hrank]
    have hnone : s.writer.ready.isSome = false := by
      cases hready : s.writer.ready.isSome with
      | false => rfl
      | true => exact absurd (hstands hready) (by simp [hnot])
    cases hin : s.allIn with
    | true => exact (by decide : 1 < 3)
    | false =>
      show (if s.writer.ready.isSome || false then 7 else 1) < 3
      rw [hnone]
      decide

theorem Inv.buf_eq_nil (h : Inv o s) (hall : s.writer.next = s.found) : s.writer.buf.rows = [] := by
  refine eq_nil_iff_forall_not_mem.mpr fun r hr => ?_
  have hin : r.1 ∈ s.places :=
    mem_append_right _ (mem_append_right _ (mem_map_of_mem hr))
  have hbounds := h.mem_places.mp hin
  have hstarted := h.started_le
  have hadmitted := h.admitted_le
  omega

theorem settle_weight (h : Inv o s) :
    After (s.step o .settle) fun t => weight o t < weight o s := by
  rw [step]
  split
  next allIn hp =>
    refine .some ?_
    have hlower : ∀ held,
        Writer.rank { s.writer with held := held, point := s.writer.onward allIn s.stop } s.allIn <
        s.writer.rank s.allIn := by
      intro held
      rw [Writer.rank.eq_def s.writer, hp]
      cases allIn with
      | true =>
        obtain ⟨hnil, -, hall⟩ := h.ended hp
        rw [Writer.onward.eq_def, if_pos (by simp [hnil, h.buf_eq_nil hall])]
        cases s.stop with
        | none => exact Nat.zero_lt_one
        | some why => exact Nat.zero_lt_one
      | false =>
        rw [Writer.onward.eq_def, if_neg (by simp)]
        cases hready : s.writer.ready.isSome with
        | true => exact (by decide : 5 < 7)
        | false =>
          cases s.allIn with
          | true => exact (by decide : 6 < 7)
          | false => exact (by decide : 0 < 1)
    by_cases hnil : s.writer.pending = []
    · rw [Writer.settle_of_nil hnil]
      exact Nat.add_lt_add_left (hlower 0) _
    · rw [Writer.settle_of_ne_nil hnil]
      exact Nat.add_lt_add_left (hlower s.writer.held) _
  next => exact .none

theorem Inv.next_outside (h : Inv o s) (hp : s.writer.point = .waiting)
    (hlt : s.writer.next < s.started) : s.busy.rows ≠ [] ∨ s.results ≠ [] := by
  have hstands := h.books.stands
  rw [Writer.Stands, hp] at hstands
  have hin := h.mem_places.mpr ⟨Nat.le_refl _, hlt⟩
  rcases mem_append.mp hin with hbusy | hin
  · exact Or.inl fun hnil => by rw [Table.keys, hnil] at hbusy; exact not_mem_nil hbusy
  rcases mem_append.mp hin with hres | hbuf
  · exact Or.inr fun hnil => by rw [hnil] at hres; exact not_mem_nil hres
  · obtain ⟨v, hv⟩ := Table.mem_keys.mp hbuf
    have hnone : s.writer.buf.get s.writer.next = none := hstands.2
    rw [hnone] at hv
    cases hv

theorem not_disconnect (h : Inv o s) (hstop : s.stop = none) : s.step o .disconnect = none := by
  rw [step, if_neg]
  rintro ⟨hp, hdis, hin⟩
  simp only [disconnected, hstop, Option.isSome_none, Bool.false_or, Bool.and_eq_true, beq_iff_eq,
    List.isEmpty_iff] at hdis
  obtain ⟨⟨⟨⟨hdone, hadmitted⟩, hstarted⟩, hbusy⟩, hres⟩ := hdis
  have hne : s.writer.next ≠ s.found := by
    intro heq
    rw [allIn, hdone, heq] at hin
    simp at hin
  have hlt : s.writer.next < s.started := by
    have := h.next_le
    omega
  rcases h.next_outside hp hlt with hb | hr
  · exact hb hbusy
  · exact hr hres

theorem weight_lt (h : Inv o s) (hstop : s.stop = none) {a : Action} (ha : a.works = true) :
    After (s.step o a) fun t => weight o t < weight o s := by
  cases a with
  | walk => exact walk_weight
  | walkEnd => exact walkEnd_weight
  | setCap cap => exact nomatch ha
  | stop why => exact nomatch ha
  | acquire => exact acquire_weight h
  | start => exact start_weight h
  | reserve seq => exact reserve_weight
  | release seq => exact release_weight
  | leave seq => exact leave_weight
  | send seq => exact send_weight
  | receive => exact receive_weight
  | begin cap err => exact begin_weight hstop cap err
  | take => exact take_weight h
  | conclude err => exact conclude_weight h err
  | settle => exact settle_weight h
  | wake => exact wake_weight hstop
  | disconnect =>
    rw [not_disconnect h hstop]
    exact .none

theorem parse_enabled (h : Inv o s) (hbusy : s.busy.rows ≠ []) :
    ∃ a t, (a.stage = .parse ∨ a.stage = .scratch) ∧ a.works = true ∧ s.step o a = some t := by
  obtain ⟨⟨seq, p⟩, rest, hrows⟩ := exists_cons_of_ne_nil hbusy
  have hget : s.busy.get seq = some p := Table.get_eq_some.mpr (by rw [hrows]; exact mem_cons_self)
  cases p with
  | holding => exact ⟨.release seq, _, Or.inl rfl, rfl, if_pos hget⟩
  | finished => exact ⟨.leave seq, _, Or.inl rfl, rfl, if_pos (Or.inl hget)⟩
  | sending => exact ⟨.send seq, _, Or.inl rfl, rfl, if_pos hget⟩
  | started =>
    by_cases hnone : o.scratchOf seq = 0
    · exact ⟨.leave seq, _, Or.inl rfl, rfl, if_pos (Or.inr ⟨hget, hnone⟩)⟩
    by_cases hholds : ∃ k, s.busy.get k = some .holding
    · obtain ⟨k, hk⟩ := hholds
      exact ⟨.release k, _, Or.inl rfl, rfl, if_pos hk⟩
    -- no scratch is held and the first row is the oldest file
    have hzero : s.budget.scratch = 0 := by
      rw [h.ledger.scratch, scratchHeld, scratchIn]
      refine sum_eq_zero fun n hn => ?_
      obtain ⟨r, hr, rfl⟩ := mem_map.mp hn
      rw [if_neg]
      intro hheld
      exact hholds ⟨r.1, Table.get_eq_some.mpr (by rw [← hheld]; exact hr)⟩
    have holdest : s.oldest o seq = true := by
      rw [oldest, all_eq_true]
      intro k hk
      obtain ⟨r, hr, rfl⟩ := mem_map.mp hk
      have hmem : r ∈ s.busy.rows := (mem_filter.mp hr).1
      have hsorted := s.busy.sorted
      rw [hrows] at hmem hsorted
      rcases mem_cons.mp hmem with rfl | htail
      · exact decide_eq_true (Nat.le_refl _)
      · exact decide_eq_true (Nat.le_of_lt (rel_of_pairwise_cons hsorted htail))
    have hsome : (s.step o (.reserve seq)).isSome = true := by
      rw [step, if_pos ⟨hget, Nat.pos_of_ne_zero hnone⟩, holdest,
        Budget.acquireScratch_oldest hzero]
      rfl
    obtain ⟨t, ht⟩ := Option.isSome_iff_exists.mp hsome
    exact ⟨.reserve seq, t, Or.inr rfl, rfl, ht⟩

theorem used_le_slack (h : Inv o s) (hp : s.writer.point = .waiting) (hbusy : s.busy.rows = [])
    (hall : s.writer.next = s.admitted) : s.budget.used ≤ o.slack := by
  have hstands := h.books.stands
  rw [Writer.Stands, hp] at hstands
  have hheld := h.books.held_le (not_settling hp (by simp))
  have hused : s.budget.used = s.writer.held := by
    have hscratch : scratchHeld o s = 0 := by rw [scratchHeld, hbusy]; rfl
    rw [h.ledger.used, hscratch, admittedBytes, hall, Nat.sub_self]
    exact Nat.zero_add _
  rw [hused, Run.slack]
  split
  next hdet => exact hheld.trans (hstands.1.pendingBytes_lt hdet).le
  next hdet =>
    have hnil := hstands.1.pending_eq_nil (by simpa using hdet)
    have hzero : s.writer.pendingBytes = 0 := by rw [h.books.bytes, hnil]; rfl
    exact hheld.trans hzero.le

theorem step_enabled (h : Inv o s) (hstop : s.stop = none) (hrun : s.writer.Running) :
    (∃ a t, a.stage ∈ [.admission, .parse, .scratch, .commit] ∧ a.works = true ∧
    s.step o a = some t) ∨ (s.writer.next = s.found ∧ ∃ a t, a.stage = .walk ∧ a.works = true ∧
    s.step o a = some t) := by
  have henabled : ∀ a : Action, a.stage ∈ [.admission, .parse, .scratch, .commit] → a.works = true →
      (s.step o a).isSome = true →
      ∃ a t, a.stage ∈ [.admission, .parse, .scratch, .commit] ∧ a.works = true ∧
      s.step o a = some t := by
    intro a hstage hw hsome
    obtain ⟨t, ht⟩ := Option.isSome_iff_exists.mp hsome
    exact ⟨a, t, hstage, hw, ht⟩
  cases hp : s.writer.point with
  | receiving =>
    refine Or.inl (henabled (.begin 0 none) (by decide) rfl ?_)
    rw [step.eq_def]
    simp [hp, hstop]
  | taking groupCap =>
    refine Or.inl (henabled .take (by decide) rfl ?_)
    rw [step, hp]
    rfl
  | deciding => exact Or.inl ⟨.conclude none, _, by simp [Action.stage], rfl, if_pos hp⟩
  | settling allIn =>
    refine Or.inl (henabled .settle (by decide) rfl ?_)
    rw [step, hp]
    rfl
  | returned => exact absurd hp hrun.1
  | failed why => exact absurd hp (hrun.2 why)
  | waiting =>
    by_cases hres : s.results = []
    swap
    · obtain ⟨r, rs, hrs⟩ := exists_cons_of_ne_nil hres
      refine Or.inl (henabled .receive (by decide) rfl ?_)
      rw [step, hrs]
      simp [hp]
    by_cases hbusy : s.busy.rows = []
    swap
    · obtain ⟨a, t, hstage, hw, ha⟩ := parse_enabled h hbusy
      refine Or.inl ⟨a, t, ?_, hw, ha⟩
      rcases hstage with hst | hst <;> simp [hst]
    rcases Nat.lt_or_ge s.started s.admitted with hlt | hge
    · have hfree : s.busy.len < o.parseThreads := by
        rw [Table.len, hbusy]
        exact o.parseThreads_pos
      exact Or.inl ⟨.start, _, by decide, rfl, if_pos ⟨hstop, hlt, hfree⟩⟩
    have hnext : s.writer.next = s.started := by
      by_contra hne
      rcases h.next_outside hp (Nat.lt_of_le_of_ne h.next_le hne) with hb | hr
      · exact hb hbusy
      · exact hr hres
    have hall : s.writer.next = s.admitted := hnext.trans (Nat.le_antisymm h.started_le hge)
    rcases Nat.lt_or_ge s.admitted s.found with hlt | hge'
    · refine Or.inl (henabled .acquire (by decide) rfl ?_)
      rw [step, if_pos hlt, Budget.acquire_isSome (used_le_slack h hp hbusy hall)]
      rfl
    have hfound : s.writer.next = s.found := hall.trans (Nat.le_antisymm h.admitted_le hge')
    cases hdone : s.walkDone with
    | true =>
      have hin : s.allIn = true := by simp [allIn, hdone, hfound]
      exact Or.inl ⟨.wake, _, by decide, rfl, if_pos ⟨hp, Or.inl hin⟩⟩
    | false =>
      refine Or.inr ⟨hfound, ?_⟩
      rcases Nat.lt_or_ge s.found o.items.length with hlt | hge''
      · exact ⟨.walk, _, rfl, rfl, if_pos ⟨hstop, hdone, hlt⟩⟩
      · exact ⟨.walkEnd, _, rfl, rfl, if_pos ⟨hdone, Or.inl (Nat.le_antisymm h.found_le hge'')⟩⟩

theorem step_upstream {a : Action} (hcommit : a.stage ≠ .commit) (hsampler : a.stage ≠ .sampler) :
    After (s.step o a) fun t => t.writer = s.writer ∧ t.stop = s.stop := by
  cases a with
  | setCap | stop => exact absurd rfl hsampler
  | receive | begin | take | conclude | settle | wake | disconnect => exact absurd rfl hcommit
  | walk | walkEnd | start | release | leave | send => exact .guard fun _ => .some ⟨rfl, rfl⟩
  | acquire | reserve => exact .guard fun _ => .map fun _ _ => ⟨rfl, rfl⟩

theorem outcome_ne_error (hread : ∀ seq why, o.reading seq ≠ .error why)
    (hlt : seq < o.items.length) (why : String) : o.outcome seq ≠ .error why := by
  rw [Run.outcome, getElem?_eq_getElem hlt]
  cases o.items[seq] with
  | skip reason what unreadable => exact nofun
  | file rel size =>
    cases hr : o.reading seq with
    | error e => exact absurd hr (hread seq e)
    | prepared p => exact nofun
    | skip reason unreadable => exact nofun
    | panicked msg => exact nofun

theorem works_running (h : Inv o s) (hstop : s.stop = none)
    (hread : ∀ seq why, o.reading seq ≠ .error why) (hok : ∀ why, s.writer.point ≠ .failed why)
    {a : Action} (ha : a.works = true) :
    After (s.step o a) fun t => t.stop = none ∧ ∀ why, t.writer.point ≠ .failed why := by
  have hsampler : a.stage ≠ .sampler := by
    intro hstage
    cases a with
    | setCap | stop => exact Bool.false_ne_true ha
    | _ => cases hstage
  by_cases hcommit : a.stage = .commit
  swap
  · intro t hs
    obtain ⟨hw, hst⟩ := step_upstream hcommit hsampler t hs
    rw [hw, hst]
    exact ⟨hstop, hok⟩
  cases a with
  | walk | walkEnd | setCap | stop | acquire | start | reserve | release | leave | send =>
    cases hcommit
  | receive =>
    rw [step]
    split
    next => exact .none
    next => exact .guard fun _ => .some ⟨hstop, by simp⟩
  | begin cap err =>
    refine .guard fun _ => ?_
    rw [hstop]
    exact .some ⟨rfl, by simp⟩
  | take =>
    rw [step]
    split
    next groupCap hp =>
      refine .some ⟨hstop, ?_⟩
      rcases Writer.take_cases o s.writer s.budget groupCap with
        ⟨-, heq⟩ | ⟨why, size, hready, -⟩ | ⟨oc, size, hready, -, heq⟩
      · rw [heq]
        simp [commit]
      · exact absurd (h.arrived.outcome_eq hready)
          (outcome_ne_error hread (h.arrived _ hready).2 why)
      · rw [heq]
        intro why
        show (if (s.writer.handle o s.budget oc size).1.full o groupCap then Point.deciding
          else .taking groupCap) ≠ .failed why
        split
        · simp
        · simp
    next => exact .none
  | conclude err =>
    refine .guard fun _ => .some ⟨hstop, ?_⟩
    show ∀ why, (s.writer.conclude o s.allIn err).point ≠ .failed why
    rcases Writer.conclude_cases o s.writer s.allIn err with ⟨why, rfl, -⟩ | ⟨-, heq⟩ | ⟨-, -, heq⟩
    · cases ha
    · rw [heq]
      simp
    · rw [heq]
      simp
  | settle =>
    rw [step]
    split
    next allIn hp =>
      refine .some ⟨hstop, ?_⟩
      show ∀ why, (s.writer.onward allIn s.stop) ≠ .failed why
      intro why
      rw [Writer.onward.eq_def, hstop]
      split
      · simp
      · split
        · simp
        · simp
    next => exact .none
  | wake => exact .guard fun _ => .some ⟨hstop, by simp⟩
  | disconnect =>
    rw [not_disconnect h hstop]
    exact .none

theorem exists_returned (h : Inv o s) (hstop : s.stop = none)
    (hread : ∀ seq why, o.reading seq ≠ .error why) (hok : ∀ why, s.writer.point ≠ .failed why) :
    ∃ t, Reach (step o) (fun _ a => a.works = true) s t ∧ t.writer.point = .returned := by
  obtain ⟨t, hreach, -, hdone⟩ := exists_reach (P := fun s : State F =>
      Inv o s ∧ s.stop = none ∧ ∀ why, s.writer.point ≠ .failed why) (weight o)
    (fun u ⟨hi, hst, hf⟩ (hnot : ¬u.writer.point = .returned) => by
      have hsome : ∃ a t, a.works = true ∧ u.step o a = some t := by
        rcases step_enabled hi hst ⟨hnot, hf⟩ with ⟨a, t, -, hw, ha⟩ | ⟨-, a, t, -, hw, ha⟩
        · exact ⟨a, t, hw, ha⟩
        · exact ⟨a, t, hw, ha⟩
      obtain ⟨a, t, hw, ha⟩ := hsome
      exact ⟨a, t, hw, ha, ⟨step_inv hi a t ha, works_running hi hst hread hf hw t ha⟩,
      weight_lt hi hst hw t ha⟩)
    ⟨h, hstop, hok⟩
  exact ⟨t, hreach, hdone⟩

theorem used_of_returned (h : Inv o s) (hp : s.writer.point = .returned) : s.budget.used = 0 := by
  obtain ⟨-, hheld, hnext⟩ := h.returned hp
  have hfound := h.found_le
  have hadmitted := h.admitted_le
  have hstarted := h.started_le
  have hbusy : s.busy.rows = [] := by
    refine eq_nil_iff_forall_not_mem.mpr fun r hr => ?_
    have hbounds := h.mem_places.mp (mem_places_of_busy (Table.mem_rows_iff.mp hr))
    omega
  have hnone : s.admitted - s.writer.next = 0 := by omega
  rw [h.ledger.used, admittedBytes, scratchHeld, hbusy, hheld, hnone]
  rfl

/-- In every state of a run that was not stopped there is a step to take, of the walk only when
everything walked so far is with the writer, and the run can be brought to its normal end. The
bytes in use are those admitted and not given back plus the scratch held. -/
theorem pipeline_progress (o : Run F) (cap : Nat) {s : State F}
    (h : Reach (step o) (fun _ _ => True) (new cap) s) :
    (s.stop = none → s.writer.Running →
      (∃ a t, a.stage ∈ [.admission, .parse, .scratch, .commit] ∧ s.step o a = some t) ∨
      (s.writer.next = s.found ∧ ∃ a t, a.stage = .walk ∧ s.step o a = some t)) ∧
    (s.stop = none → s.writer.Running → (∀ seq why, o.reading seq ≠ .error why) →
      ∃ t, Reach (step o) (fun _ a => a.works = true) s t ∧ t.writer.point = .returned) ∧
    s.budget.used = admittedBytes o s + scratchHeld o s ∧ s.budget.short = false ∧
    (s.writer.point = .returned → s.budget.used = 0) := by
  have hi : Inv o s := reach_inv h
  refine ⟨fun hstop hrun => ?_, fun hstop hrun hread => exists_returned hi hstop hread hrun.2,
    hi.ledger.used, hi.ledger.exact, used_of_returned hi⟩
  rcases step_enabled hi hstop hrun with ⟨a, t, hstage, -, ha⟩ | ⟨hall, a, t, hstage, -, ha⟩
  · exact Or.inl ⟨a, t, hstage, ha⟩
  · exact Or.inr ⟨hall, a, t, hstage, ha⟩

def twoFiles : Run Nat :=
  { items := [.file "a.rs" 3, .file "b.rs" 5], reading := fun _ => .prepared 4, scratch := fun _ =>
    7, bytesLen := id, deterministic := true, jobs := 1, cpus := 1, chunkBytes := 100 }

theorem pipeline_progress_over_cap : ∃ s : State Nat,
    Reach (step twoFiles) (fun _ _ => True) (new 4) s ∧ s.budget.cap < s.budget.used ∧
      s.budget.used = admittedBytes twoFiles s + scratchHeld twoFiles s ∧
      ∃ t, Reach (step twoFiles) (fun _ a => a.works = true) s t ∧ t.writer.point = .returned := by
  obtain ⟨s, hs, hcap, hstop, hpoint⟩ : ∃ s : State Nat,
      run (step twoFiles) (new 4) [.walk, .walk, .acquire, .acquire, .start, .reserve 0] = some s ∧
      s.budget.cap < s.budget.used ∧ s.stop = none ∧ s.writer.point = .receiving :=
    ⟨_, rfl, by decide, rfl, rfl⟩
  have hreach : Reach (step twoFiles) (fun _ _ => True) (new 4) s :=
    reach_run .start (of_decide_eq_true rfl) hs
  obtain ⟨-, hend, hused, -, -⟩ := pipeline_progress twoFiles 4 hreach
  have hrun : s.writer.Running := by
    rw [Writer.Running, hpoint]
    exact ⟨nofun, nofun⟩
  exact ⟨s, hreach, hcap, hused, hend hstop hrun nofun⟩

end State
end MemoryGraph.Ingest
