import MemoryGraph.Raft.LogStore
import MemoryGraph.Lib.Runs

/-! `AppendEntries` to one peer. A transfer of entries runs as a task of its own, which a later
call with the same vote, previous id and first entry joins. -/

namespace MemoryGraph.Raft
open Lib Function
variable {upto : Option LogId} {resp : AppendResponse}

structure Vote where
  term : U64
  node : U64
  committed : Bool
deriving DecidableEq, Repr

structure AppendRequest (M : Type) where
  vote : Vote
  prevLogId : Option LogId
  leaderCommit : Option LogId
  entries : List (Entry M)
deriving DecidableEq, Repr

inductive AppendResponse
  | success
  | partialSuccess (matching : Option LogId)
  | conflict
  | higherVote (vote : Vote)
deriving DecidableEq, Repr

structure AppendKey where
  vote : Vote
  prev : Option LogId
  first : Option LogId
  last : Option LogId
deriving DecidableEq, Repr

def AppendKey.of {M : Type} (r : AppendRequest M) : AppendKey :=
  ⟨r.vote, r.prevLogId, r.entries.head?.map Entry.logId, r.entries.getLast?.map Entry.logId⟩

inductive Plan
  | join (upto : Option LogId)
  | replace
deriving DecidableEq, Repr

def plan (inflight new : AppendKey) : Plan :=
  if inflight.vote ≠ new.vote ∨ inflight.prev ≠ new.prev ∨ inflight.first ≠ new.first then .replace
  else match inflight.last, new.last with
    | some a, some b => .join (if a.index < b.index then inflight.last else none)
    | none, none => .join none
    | _, _ => .replace

def joinedResponse : AppendResponse → Option LogId → AppendResponse
  | .success, some u => .partialSuccess (some u)
  | r, _ => r

def entriesThatFitGo (cap i total : Nat) : List Nat → Nat
  | [] => i
  | s :: sizes =>
      if cap < total + s then max i 1 else entriesThatFitGo cap (i + 1) (total + s) sizes

def entriesThatFit (sizes : List Nat) (cap : Nat) : Nat := entriesThatFitGo cap 0 0 sizes

def raftRpcMaxBytes : Nat := 4194304

inductive TaskState
  | running
  | answered (resp : AppendResponse)
  | failed
deriving DecidableEq, Repr

inductive Pending (M : Type)
  | transfer (r : AppendRequest M) (upto : Option LogId)
  | unary (r : AppendRequest M) (rpc : Nat)

/-- A leader and one peer: the leader's log under each vote, the requests sent and the answers
the peer gave, by number; the connection; and what calls returned. -/
structure Link (M : Type) where
  logs : Vote → List (Entry M)
  rpcs : Nat
  sent : Table Nat (AppendRequest M)
  answers : Table Nat AppendResponse
  inflight : Option (AppendKey × Nat × TaskState)
  pending : Option (Pending M)
  returned : List (AppendRequest M × AppendResponse)

namespace Link
variable {M : Type} [DecidableEq M] (j : Serde M)

def started : Link M := ⟨fun _ => [], 0, Table.empty, Table.empty, none, none, []⟩

def send (s : Link M) (r : AppendRequest M) : Link M :=
  { s with rpcs := s.rpcs + 1, sent := s.sent.insert s.rpcs r }

inductive Action (M : Type)
  | grow (vote : Vote) (entries : List (Entry M))
  -- `append_entries`; the channel may not be had
  | call (r : AppendRequest M) (reachable : Bool)
  | deliver (rpc : Nat) (resp : AppendResponse)
  -- the task ends: with the peer's answer, or as it failed or took too long
  | finish (ok : Bool)
  | complete
  | fail
  | cancel
  | drop

def answersTo (r : AppendRequest M) : AppendResponse → Bool
  | .partialSuccess (some u) => r.entries.any fun e => u.index ≤ e.logId.index
  | _ => true

def step (s : Link M) : Action M → Option (Link M)
  | .grow vote entries =>
    if Contiguous Entry.index 0 (s.logs vote ++ entries) then
      some { s with logs := Function.update s.logs vote (s.logs vote ++ entries) }
    else none
  | .call r reachable =>
    match s.pending with
    | some _ => none
    | none =>
      if ¬ r.entries <:+: s.logs r.vote then none
      -- `PayloadTooLarge`
      else if entriesThatFit (r.entries.map fun e => (encodeEntry j e).length) raftRpcMaxBytes <
        r.entries.length then
        some s
      else if r.entries = [] then
        if reachable then some { s.send r with pending := some (.unary r s.rpcs) } else some s
      else match s.inflight.map fun t => plan t.1 (.of r) with
        | some (.join upto) => some { s with pending := some (.transfer r upto) }
        | _ =>
          if reachable then
            some { s.send r with
              inflight := some (.of r, s.rpcs, .running)
              pending := some (.transfer r none) }
          else some { s with inflight := none }
  | .deliver rpc resp =>
    match s.sent.get rpc with
    | some r =>
      if s.answers.get rpc = none ∧
        answersTo r resp then some { s with answers := s.answers.insert rpc resp }
      else none
    | none => none
  | .finish ok =>
    match s.inflight with
    | some (k, rpc, .running) =>
      if ok then (s.answers.get rpc).map fun resp =>
        { s with inflight := some (k, rpc, .answered resp) }
      else some { s with inflight := some (k, rpc, .failed) }
    | _ => none
  | .complete =>
    match s.pending with
    | some (.transfer r upto) =>
      match s.inflight with
      | some (_, _, .answered resp) =>
        some { s with
          inflight := none
          pending := none
          returned := (r, joinedResponse resp upto) :: s.returned }
      | some (_, _, .failed) => some { s with inflight := none, pending := none }
      | _ => none
    | some (.unary r rpc) =>
      (s.answers.get rpc).map fun resp =>
        { s with pending := none, returned := (r, joinedResponse resp none) :: s.returned }
    | none => none
  | .fail =>
    match s.pending with
    | some (.unary _ _) => some { s with pending := none }
    | _ => none
  | .cancel => some { s with pending := none }
  | .drop => some { s with inflight := none, pending := none }

omit [DecidableEq M] in
/-- The peer accepted an entry under a vote after a previous id: it said so of a request that
carried it. -/
def Accepted (s : Link M) (vote : Vote) (prev : Option LogId) (e : Entry M) : Prop :=
  ∃ rpc r resp, s.sent.get rpc = some r ∧ s.answers.get rpc = some resp ∧ r.vote = vote ∧
    r.prevLogId = prev ∧ e ∈ r.entries ∧
    (resp = .success ∨ ∃ u : LogId, resp = .partialSuccess (some u) ∧ e.logId.index ≤ u.index)

structure Justified (s : Link M) (r : AppendRequest M) (resp : AppendResponse) : Prop where
  success : resp = .success → ∀ e ∈ r.entries, s.Accepted r.vote r.prevLogId e
  partly : ∀ u : LogId, resp = .partialSuccess (some u) → ∀ e ∈ r.entries, e.logId.index ≤ u.index →
    s.Accepted r.vote r.prevLogId e
  -- it is the peer's answer to a request with the same vote and previous id, or a success of fewer
  -- entries
  given : ∃ rpc r' given, s.sent.get rpc = some r' ∧ s.answers.get rpc = some given ∧
    r'.vote = r.vote ∧ r'.prevLogId = r.prevLogId ∧
    (given = resp ∨ given = .success ∧ ∃ u, resp = .partialSuccess u)

end Link

theorem plan_eq_join {k k' : AppendKey} (h : plan k k' = .join upto) :
    k.vote = k'.vote ∧ k.prev = k'.prev ∧ k.first = k'.first ∧
      ∀ a b, k.last = some a → k'.last = some b →
        upto = if a.index < b.index then some a else none := by
  rw [plan] at h
  split_ifs at h with hdiff
  rw [not_or, not_or, not_not, not_not, not_not] at hdiff
  refine ⟨hdiff.1, hdiff.2.1, hdiff.2.2, fun a b ha hb => ?_⟩
  rw [ha, hb] at h
  cases h
  rfl

section
variable {M : Type}

structure Joins (r' r : AppendRequest M) (upto : Option LogId) : Prop where
  vote : r'.vote = r.vote
  prev : r'.prevLogId = r.prevLogId
  entries : upto = none ∧ r.entries <+: r'.entries ∨
    ∃ l, r'.entries.getLast? = some l ∧ upto = some l.logId ∧ r'.entries <+: r.entries

theorem Joins.refl (r : AppendRequest M) : Joins r r none :=
  ⟨rfl, rfl, Or.inl ⟨rfl, List.prefix_rfl⟩⟩

theorem joins_of_plan {r' r : AppendRequest M} {log : List (Entry M)}
    (hlog : Contiguous Entry.index 0 log) (hr' : r'.entries <:+: log) (hr : r.entries <:+: log)
    (hne' : r'.entries ≠ []) (hne : r.entries ≠ []) (h : plan (.of r') (.of r) = .join upto) :
    Joins r' r upto := by
  obtain ⟨hvote, hprev, hfirst, hlast⟩ := plan_eq_join h
  refine ⟨hvote, hprev, ?_⟩
  obtain ⟨a, l, hl⟩ := List.exists_cons_of_ne_nil hne'
  obtain ⟨b, m, hm⟩ := List.exists_cons_of_ne_nil hne
  obtain ⟨la, hla⟩ := Option.ne_none_iff_exists'.mp (mt List.getLast?_eq_none_iff.mp hne')
  obtain ⟨lb, hlb⟩ := Option.ne_none_iff_exists'.mp (mt List.getLast?_eq_none_iff.mp hne)
  have hab : a.logId = b.logId := by
    simpa only [AppendKey.of, hl, hm, List.head?_cons, Option.map_some,
      Option.some.injEq] using hfirst
  have hupto : upto = if la.logId.index < lb.logId.index then some la.logId else none :=
    hlast la.logId lb.logId (by rw [AppendKey.of, hla]; rfl) (by rw [AppendKey.of, hlb]; rfl)
  -- both begin at one place, so their lengths compare as their last ids
  obtain ⟨t, ht⟩ := hlog.of_slice hr'
  obtain ⟨u, hu⟩ := hlog.of_slice hr
  have hta : a.index = t := by
    rw [hl] at ht
    exact ht.1
  have hub : b.index = u := by
    rw [hm] at hu
    exact hu.1
  have htu : t = u := by
    rw [← hta, ← hub, Entry.index, hab]
    rfl
  have hlena := ht.getLast hla
  have hlenb := hu.getLast hlb
  have hcomp : r'.entries <+: r.entries ∨ r.entries <+: r'.entries := by
    rw [hl] at hr' ⊢
    rw [hm] at hr ⊢
    exact hlog.comparable hr' hr (congrArg (fun i => i.index.val) hab)
  by_cases hlt : la.logId.index < lb.logId.index
  · rw [if_pos hlt] at hupto
    refine Or.inr ⟨la, hla, hupto, ?_⟩
    have hlt' : la.index < lb.index := hlt
    rcases hcomp with hpre | hpre
    · exact hpre
    · have := hpre.length_le
      omega
  · rw [if_neg hlt] at hupto
    refine Or.inl ⟨hupto, ?_⟩
    have hle : lb.index ≤ la.index := not_lt.mp hlt
    rcases hcomp with hpre | hpre
    · rw [hpre.eq_of_length (by have := hpre.length_le; omega)]
    · exact hpre

end

namespace Link
variable {M : Type} {s t : Link M}

structure Grows (s t : Link M) : Prop where
  sent : ∀ k r, s.sent.get k = some r → t.sent.get k = some r
  answers : ∀ k resp, s.answers.get k = some resp → t.answers.get k = some resp

theorem Accepted.grow {vote : Vote} {prev : Option LogId} {e : Entry M} (h : s.Accepted vote prev e)
    (hg : Grows s t) : t.Accepted vote prev e := by
  obtain ⟨rpc, r, resp, hr, hresp, hrest⟩ := h
  exact ⟨rpc, r, resp, hg.sent _ _ hr, hg.answers _ _ hresp, hrest⟩

theorem Justified.grow {r : AppendRequest M} (h : s.Justified r resp) (hg : Grows s t) :
    t.Justified r resp where
  success hresp e he := (h.success hresp e he).grow hg
  partly u hresp e he hle := (h.partly u hresp e he hle).grow hg
  given := by
    obtain ⟨rpc, r', given, hr', hgiven, hrest⟩ := h.given
    exact ⟨rpc, r', given, hg.sent _ _ hr', hg.answers _ _ hgiven, hrest⟩

theorem justified_joined {r' r : AppendRequest M} (hj : Joins r' r upto) {rpc : Nat}
    (hr' : s.sent.get rpc = some r') (hresp : s.answers.get rpc = some resp)
    (habout : answersTo r' resp = true) {start : Nat}
    (hcont : Contiguous Entry.index start r.entries) :
    s.Justified r (joinedResponse resp upto) := by
  -- an entry of the call no later than one of the transfer is in the transfer
  have hmem : ∀ e ∈ r.entries, ∀ l ∈ r'.entries, e.index ≤ l.index → e ∈ r'.entries := by
    intro e he l hl hle
    rcases hj.entries with ⟨-, hpre⟩ | ⟨last, hlast, -, ⟨rest, hrest⟩⟩
    · exact hpre.subset he
    · rw [← hrest] at he hcont
      have hll : l.index ≤ last.index := by
        have := hcont.of_append.1.getLast hlast
        have := (hcont.of_append.1.bounds hl).2
        omega
      exact hcont.mem_of_le he hlast (hle.trans hll)
  have haccept : ∀ e ∈ r'.entries, (resp = .success ∨ ∃ u : LogId, resp = .partialSuccess (some u) ∧
      e.logId.index ≤ u.index) → s.Accepted r.vote r.prevLogId e := fun e he hok =>
    ⟨rpc, r', resp, hr', hresp, hj.vote, hj.prev, he, hok⟩
  refine ⟨fun hsucc e he => ?_, fun u hpart e he hle => ?_, rpc, r', resp, hr', hresp,
    hj.vote, hj.prev, ?_⟩
  · -- a success is passed on as one only when the transfer carries all of the call
    rcases hj.entries with ⟨rfl, hpre⟩ | ⟨last, hlast, rfl, -⟩
    · cases resp with
      | success => exact haccept e (hpre.subset he) (Or.inl rfl)
      | partialSuccess u => cases hsucc
      | conflict => cases hsucc
      | higherVote v => cases hsucc
    · cases resp <;> cases hsucc
  · cases resp with
    | success =>
      rcases hj.entries with ⟨rfl, -⟩ | ⟨last, hlast, rfl, -⟩
      · cases hpart
      · cases hpart
        exact haccept e (hmem e he last (List.mem_of_getLast? hlast) hle) (Or.inl rfl)
    | partialSuccess m =>
      have hm : m = some u := by
        rcases hj.entries with ⟨rfl, -⟩ | ⟨last, hlast, rfl, -⟩
        · exact AppendResponse.partialSuccess.inj hpart
        · exact AppendResponse.partialSuccess.inj hpart
      subst hm
      -- its last entry is one of the transfer's
      obtain ⟨l, hl, hul⟩ := List.any_eq_true.mp habout
      exact haccept e (hmem e he l hl (hle.trans (of_decide_eq_true hul))) (Or.inr ⟨u, rfl, hle⟩)
    | conflict => rcases hj.entries with ⟨rfl, -⟩ | ⟨last, hlast, rfl, -⟩ <;> cases hpart
    | higherVote v => rcases hj.entries with ⟨rfl, -⟩ | ⟨last, hlast, rfl, -⟩ <;> cases hpart
  · rcases hj.entries with ⟨rfl, -⟩ | ⟨last, hlast, rfl, -⟩
    · cases resp <;> exact Or.inl rfl
    · cases resp with
      | success => exact Or.inr ⟨rfl, _, rfl⟩
      | partialSuccess m => exact Or.inl rfl
      | conflict => exact Or.inl rfl
      | higherVote v => exact Or.inl rfl

def Waits (s : Link M) : Pending M → Prop
  | .transfer r upto => r.entries <:+: s.logs r.vote ∧
    ∃ k rpc st r', s.inflight = some (k, rpc, st) ∧ s.sent.get rpc = some r' ∧ Joins r' r upto
  | .unary r rpc => r.entries <:+: s.logs r.vote ∧ s.sent.get rpc = some r

theorem Waits.grow {p : Pending M} (h : s.Waits p) (hg : Grows s t) (hin : t.inflight = s.inflight)
    (hlogs : ∀ v es, es <:+: s.logs v → es <:+: t.logs v) : t.Waits p := by
  cases p with
  | transfer r upto =>
    obtain ⟨hslice, k, rpc, st, r', hst, hr', hj⟩ := h
    exact ⟨hlogs _ _ hslice, k, rpc, st, r', hin.trans hst, hg.sent _ _ hr', hj⟩
  | unary r rpc => exact ⟨hlogs _ _ h.1, hg.sent _ _ h.2⟩

structure Inv (s : Link M) : Prop where
  logs : ∀ v, Contiguous Entry.index 0 (s.logs v)
  fresh : ∀ k r, s.sent.get k = some r → k < s.rpcs
  slices : ∀ k r, s.sent.get k = some r → r.entries <:+: s.logs r.vote
  answers : ∀ k resp, s.answers.get k = some resp → ∃ r, s.sent.get k = some r ∧
    answersTo r resp = true
  inflight : ∀ k rpc st, s.inflight = some (k, rpc, st) → ∃ r, s.sent.get rpc = some r ∧ k = .of r ∧
    r.entries ≠ [] ∧ ∀ resp, st = .answered resp → s.answers.get rpc = some resp
  pending : ∀ p, s.pending = some p → s.Waits p
  returned : ∀ x ∈ s.returned, s.Justified x.1 x.2

theorem inv_started : Inv (started : Link M) :=
  ⟨fun _ => trivial, fun _ _ h => (nomatch h), fun _ _ h => (nomatch h), fun _ _ h => (nomatch h),
    fun _ _ _ h => (nomatch h), fun _ h => (nomatch h), fun _ h => (nomatch h)⟩

namespace Inv

theorem connection (h : Inv s) {inflight : Option (AppendKey × Nat × TaskState)}
    {pending : Option (Pending M)} {returned : List (AppendRequest M × AppendResponse)}
    (hin : ∀ k rpc st, inflight = some (k, rpc, st) → ∃ r, s.sent.get rpc = some r ∧ k = .of r ∧
      r.entries ≠ [] ∧ ∀ resp, st = .answered resp → s.answers.get rpc = some resp)
    (hpend : ∀ p, pending = some p → { s with inflight := inflight }.Waits p)
    (hret : ∀ x ∈ returned, s.Justified x.1 x.2) :
    Inv { s with inflight := inflight, pending := pending, returned := returned } where
  logs := h.logs
  fresh := h.fresh
  slices := h.slices
  answers := h.answers
  inflight := hin
  pending p hp := (hpend p hp).grow ⟨fun _ _ hr => hr, fun _ _ hr => hr⟩ rfl fun _ _ h => h
  returned x hx := (hret x hx).grow ⟨fun _ _ hr => hr, fun _ _ hr => hr⟩

theorem grows_send (h : Inv s) (r : AppendRequest M) : Grows s (s.send r) :=
  ⟨fun k _ hr' => (Table.get_insert_of_ne _ _ (h.fresh k _ hr').ne').trans hr', fun _ _ hr => hr⟩

theorem send (h : Inv s) {r : AppendRequest M} (hr : r.entries <:+: s.logs r.vote) :
    Inv (s.send r) := by
  have hg := h.grows_send r
  have hget : ∀ k r', (s.send r).sent.get k = some r' → s.rpcs = k ∧ r = r' ∨
      s.sent.get k = some r' := by
    intro k r' hr'
    replace hr' : (s.sent.insert s.rpcs r).get k = some r' := hr'
    rw [Table.get_insert] at hr'
    split_ifs at hr' with hk
    · exact Or.inl ⟨hk, Option.some.inj hr'⟩
    · exact Or.inr hr'
  refine ⟨h.logs, fun k r' hr' => ?_, fun k r' hr' => ?_, fun k resp hresp =>
    ?_, fun k rpc st hin => ?_, fun p hp => (h.pending p hp).grow hg rfl fun _ _ h => h, fun x hx =>
    (h.returned x hx).grow hg⟩
  · rcases hget k r' hr' with ⟨rfl, -⟩ | hold
    · exact Nat.lt_succ_self _
    · exact Nat.lt_succ_of_lt (h.fresh k r' hold)
  · rcases hget k r' hr' with ⟨-, rfl⟩ | hold
    · exact hr
    · exact h.slices k r' hold
  · obtain ⟨r', hr', habout⟩ := h.answers k resp hresp
    exact ⟨r', hg.sent _ _ hr', habout⟩
  · obtain ⟨r', hr', hrest⟩ := h.inflight k rpc st hin
    exact ⟨r', hg.sent _ _ hr', hrest⟩

theorem grow [DecidableEq M] (h : Inv s) {vote : Vote} {entries : List (Entry M)}
    (hcont : Contiguous Entry.index 0 (s.logs vote ++ entries)) :
    Inv { s with logs := update s.logs vote (s.logs vote ++ entries) } := by
  -- a slice of a log is one of the longer log
  have hmono : ∀ (v : Vote) (es : List (Entry M)), es <:+: s.logs v →
      es <:+: update s.logs vote (s.logs vote ++ entries) v := by
    intro v es hes
    by_cases hv : v = vote
    · subst hv
      rw [update_self]
      exact hes.trans ⟨[], entries, rfl⟩
    · rwa [update_of_ne hv]
  have hg : Grows s { s with logs := update s.logs vote (s.logs vote ++ entries) } :=
    ⟨fun _ _ hr => hr, fun _ _ hr => hr⟩
  refine ⟨fun v => ?_, h.fresh, fun k r hr => hmono _ _ (h.slices k r hr), h.answers, h.inflight,
    fun p hp => (h.pending p hp).grow hg rfl hmono, fun x hx => (h.returned x hx).grow hg⟩
  show Contiguous Entry.index 0 (update s.logs vote (s.logs vote ++ entries) v)
  by_cases hv : v = vote
  · subst hv
    rwa [update_self]
  · rw [update_of_ne hv]
    exact h.logs v

theorem deliver (h : Inv s) {rpc : Nat} {r : AppendRequest M}
    (hr : s.sent.get rpc = some r) (hnew : s.answers.get rpc = none)
    (habout : answersTo r resp = true) : Inv { s with answers := s.answers.insert rpc resp } := by
  have hg : Grows s { s with answers := s.answers.insert rpc resp } := by
    refine ⟨fun _ _ hr => hr, fun k resp' hresp' => ?_⟩
    refine (Table.get_insert_of_ne _ _ fun hk => ?_).trans hresp'
    rw [hk, hresp'] at hnew
    cases hnew
  refine ⟨h.logs, h.fresh, h.slices, fun k resp' hresp' => ?_, fun k rpc' st hin => ?_,
    fun p hp => (h.pending p hp).grow hg rfl fun _ _ h => h, fun x hx => (h.returned x hx).grow hg⟩
  · replace hresp' : (s.answers.insert rpc resp).get k = some resp' := hresp'
    rw [Table.get_insert] at hresp'
    split_ifs at hresp' with hk
    · cases hresp'
      exact ⟨r, hk ▸ hr, habout⟩
    · exact h.answers k resp' hresp'
  · obtain ⟨r', hr', hk, hne, hans⟩ := h.inflight k rpc' st hin
    exact ⟨r', hr', hk, hne, fun resp' hst => hg.answers _ _ (hans resp' hst)⟩

theorem ended (h : Inv s) : Inv { s with pending := none } :=
  h.connection h.inflight (fun _ hp => (nomatch hp)) h.returned

theorem dropped (h : Inv s) : Inv { s with inflight := none, pending := none } :=
  h.connection (fun _ _ _ hin => (nomatch hin)) (fun _ hp => (nomatch hp)) h.returned

end Inv

theorem call_inv [DecidableEq M] {j : Serde M} (h : Inv s) (r : AppendRequest M)
    (reachable : Bool) : After (step j s (.call r reachable)) Inv := by
  rw [step]
  split
  · exact .none
  · next hpend =>
    split
    · exact .none
    · next hslice =>
      replace hslice := not_not.mp hslice
      have hsent := h.send hslice
      have hget : (s.send r).sent.get s.rpcs = some r := Table.get_insert_self _ _ _
      split
      · exact .some h
      · split
        · split_ifs
          · refine .some (hsent.connection hsent.inflight (fun p hp => ?_) hsent.returned)
            cases hp
            exact ⟨hslice, hget⟩
          · exact .some h
        · next hempty =>
          split
          · next upto hplan =>
            refine .some (h.connection h.inflight (fun p hp => ?_) h.returned)
            cases hp
            -- the transfer's key tells what it sent
            obtain ⟨⟨k, rpc, st⟩, hin, hjoin⟩ := Option.map_eq_some_iff.mp hplan
            obtain ⟨r', hr', rfl, hne, -⟩ := h.inflight k rpc st hin
            have hvote : r'.vote = r.vote := (plan_eq_join hjoin).1
            have hslice' : r'.entries <:+: s.logs r.vote := hvote ▸ h.slices rpc r' hr'
            exact ⟨hslice, _, rpc, st, r', hin, hr',
              joins_of_plan (h.logs _) hslice' hslice hne hempty hjoin⟩
          · split_ifs
            · refine .some (hsent.connection (fun k rpc st hin => ?_) (fun p hp =>
              ?_) hsent.returned)
              · cases hin
                exact ⟨r, hget, rfl, hempty, fun resp hst => (nomatch hst)⟩
              · cases hp
                exact ⟨hslice, _, _, _, r, rfl, hget, .refl r⟩
            · refine .some (h.connection (fun _ _ _ hin => (nomatch hin)) (fun p hp =>
                ?_) h.returned)
              rw [hpend] at hp
              cases hp

theorem complete_inv [DecidableEq M] {j : Serde M} (h : Inv s) :
    After (step j s .complete) Inv := by
  rw [step]
  split
  · next r upto hp =>
    split
    · next k rpc resp hin =>
      obtain ⟨hslice, k', rpc', st', r', hin', hr', hj⟩ := h.pending _ hp
      cases hin.symm.trans hin'
      obtain ⟨-, -, -, -, hans⟩ := h.inflight _ _ _ hin
      have hresp := hans resp rfl
      obtain ⟨r'', hr'', habout⟩ := h.answers _ _ hresp
      obtain rfl := Option.mem_unique hr' hr''
      obtain ⟨start, hcont⟩ := (h.logs _).of_slice hslice
      refine .some (h.connection (fun _ _ _ hin => (nomatch hin)) (fun _ hp => (nomatch hp)) ?_)
      exact List.forall_mem_cons.mpr ⟨justified_joined hj hr' hresp habout hcont, h.returned⟩
    · exact .some h.dropped
    · exact .none
  · next r rpc hp =>
    refine .map fun resp hresp => ?_
    obtain ⟨hslice, hr⟩ := h.pending _ hp
    obtain ⟨r', hr', habout⟩ := h.answers _ _ hresp
    obtain rfl := Option.mem_unique hr hr'
    obtain ⟨start, hcont⟩ := (h.logs _).of_slice hslice
    refine h.connection h.inflight (fun _ hp => (nomatch hp)) ?_
    exact List.forall_mem_cons.mpr ⟨justified_joined (.refl r) hr hresp habout hcont, h.returned⟩
  · exact .none

theorem step_inv [DecidableEq M] {j : Serde M} (h : Inv s) (a : Action M) :
    After (step j s a) Inv := by
  cases a with
  | grow vote entries => exact .guard fun hcont => .some (h.grow hcont)
  | call r reachable => exact call_inv h r reachable
  | deliver rpc resp =>
    rw [step]
    split
    · next r hr => exact .guard fun hok => .some (h.deliver hr hok.1 hok.2)
    · exact .none
  | finish ok =>
    rw [step]
    split
    · next k rpc hin =>
      obtain ⟨r, hr, hk, hne, -⟩ := h.inflight _ _ _ hin
      -- a call that waits goes on waiting for the same task
      have hmoves : ∀ st, (∀ resp, st = .answered resp → s.answers.get rpc = some resp) →
          Inv { s with inflight := some (k, rpc, st) } := by
        intro st hans
        refine h.connection (fun k' rpc' st' hin' => ?_) (fun p hp => ?_) h.returned
        · cases hin'
          exact ⟨r, hr, hk, hne, hans⟩
        · have hw := h.pending p hp
          cases p with
          | transfer r₁ upto =>
            obtain ⟨hslice, k', rpc', st', r', hin', hr', hj⟩ := hw
            cases hin.symm.trans hin'
            exact ⟨hslice, _, _, _, r', rfl, hr', hj⟩
          | unary r₁ rpc₁ => exact hw
      split_ifs
      · exact .map fun resp hresp => hmoves _ fun resp' hst => TaskState.answered.inj hst ▸ hresp
      · exact .some (hmoves _ fun resp hst => (nomatch hst))
    · exact .none
  | complete => exact complete_inv h
  | fail =>
    rw [step]
    split
    · exact .some h.ended
    · exact .none
  | cancel => exact .some h.ended
  | drop => exact .some h.dropped

/-- A success means that the peer accepted the call's entries, a partial one those up to its id,
and every answer was given to a request with the call's vote and previous id. -/
theorem returned_justified [DecidableEq M] (j : Serde M) (s : Link M)
    (h : Reach (step j) (fun _ _ => True) started s) : ∀ x ∈ s.returned, s.Justified x.1 x.2 :=
  (h.inv inv_started fun _ t a hi _ hs => step_inv hi a t hs : Inv s).returned

def joinedOnce : List (Action (List UInt8)) :=
  [.grow ⟨2, 1, true⟩ [sampleEntry 0 (.normal [5])],
    .call ⟨⟨2, 1, true⟩, none, none, [sampleEntry 0 (.normal [5])]⟩ true, .cancel,
    .grow ⟨2, 1, true⟩ [sampleEntry 1 .blank],
    .call ⟨⟨2, 1, true⟩, none, none, [sampleEntry 0 (.normal [5]), sampleEntry 1 .blank]⟩ true,
    .deliver 0 .success, .finish true, .complete]

theorem returned_justified_joined : ∃ s, run (step plain) started joinedOnce = some s ∧ s.rpcs = 1 ∧
    s.returned = [(⟨⟨2, 1, true⟩, none, none, [sampleEntry 0 (.normal [5]), sampleEntry 1 .blank]⟩,
      .partialSuccess (some ⟨2, 1, 0⟩))] ∧
    s.Accepted ⟨2, 1, true⟩ none (sampleEntry 0 (.normal [5])) := by
  have hrun : ∃ s, run (step plain) started joinedOnce = some s ∧ s.rpcs = 1 ∧
      s.returned = [(⟨⟨2, 1, true⟩, none, none,
        [sampleEntry 0 (.normal [5]), sampleEntry 1 .blank]⟩,
        .partialSuccess (some ⟨2, 1, 0⟩))] := ⟨_, rfl, rfl, rfl⟩
  obtain ⟨s, hs, hrpcs, hret⟩ := hrun
  have hreach : Reach (step plain) (fun _ _ => True) started s := by
    refine reach_run .start ?_ hs
    exact of_decide_eq_true rfl
  have hjust := returned_justified plain s hreach _ (hret ▸ List.mem_cons_self)
  exact ⟨s, hs, hrpcs, hret, hjust.partly ⟨2, 1, 0⟩ rfl _ List.mem_cons_self (le_refl _)⟩

end Link
end MemoryGraph.Raft
