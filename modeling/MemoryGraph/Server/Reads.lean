import MemoryGraph.Server.Handles
import MemoryGraph.Lib.Runs

/-! Reads and the freshness they report. A read of the store takes its `ReadMeta` first; a read
through a handle takes the view and then, in a second look at the table, the meta kept with it. -/

namespace MemoryGraph.Server
open Lib

structure ReadMeta where
  appliedIndex : Nat
  leaderCommittedIndex : Option Nat
  stalePossible : Bool
deriving DecidableEq, Repr

structure Metrics where
  lastApplied : Option Nat
  currentLeader : Option Nat
  isLeader : Bool
  voters : Nat
  millisSinceQuorumAck : Option Nat
  transferring : Bool
  lastLeaderContact : Option (Nat × Option Nat)
deriving DecidableEq, Repr

structure NodeSettings where
  nodeId : Nat
  withholdLeader : Bool
  heartbeatMs : Nat
  electionMinMs : Nat

def freshnessLease (c : NodeSettings) : Nat := c.electionMinMs - c.heartbeatMs * 2

def leaderWithinLease (voters : Nat) (millisSinceQuorumAck : Option Nat) (lease : Nat) : Bool :=
  voters ≤ 1 || millisSinceQuorumAck.any (fun ms => ms < lease)

def followerStale (known recent : Bool) (applied : Nat) (leaderCommit : Option Nat) : Bool :=
  !known || !recent || leaderCommit.any (fun c => applied < c)

def Metrics.applied (m : Metrics) : Nat := m.lastApplied.getD 0

def readMeta (c : NodeSettings) (m : Metrics) : ReadMeta :=
  let known := !c.withholdLeader && m.currentLeader.isSome
  if known && m.isLeader && m.currentLeader = some c.nodeId then
    { appliedIndex := m.applied
      leaderCommittedIndex := some m.applied
      stalePossible := !leaderWithinLease m.voters m.millisSinceQuorumAck (freshnessLease c) ||
      m.transferring }
  else
    { appliedIndex := m.applied
      leaderCommittedIndex := m.lastLeaderContact.bind Prod.snd
      stalePossible := followerStale known (m.lastLeaderContact.any fun l => l.1 < freshnessLease c)
        m.applied (m.lastLeaderContact.bind Prod.snd) }

@[simp] theorem readMeta_appliedIndex (c : NodeSettings) (m : Metrics) :
    (readMeta c m).appliedIndex = m.applied := by
  rw [readMeta]
  split_ifs <;> rfl

structure ReadAnswer where
  reported : ReadMeta
  index : Nat
  through : Option View
deriving DecidableEq, Repr

inductive ReadRequest
  -- `Local` or `Linearizable`: the meta is taken
  | measured (reported : ReadMeta)
  -- `check_owner` passed
  | checked (id : Nat)
  -- `get` returned the view
  | viewed (id : Nat) (snap : View)
  | handled (snap : View) (reported : ReadMeta)
  -- in `open_snapshot`: the meta is taken
  | opening (conn : Nat) (owner : Option String) (reported : ReadMeta)
  -- in `open_owned`: the caps were checked once
  | capped (conn : Nat) (owner : Option String) (reported : ReadMeta)
  -- in `open_owned`: the view is taken
  | frozen (conn : Nat) (owner : Option String) (snap : View)
  | answered (a : ReadAnswer)
deriving DecidableEq, Repr

structure Frozen where
  index : Nat
  recorded : Option ReadMeta
deriving DecidableEq, Repr

structure Reads where
  metrics : Metrics
  store : Nat
  openings : Nat
  now : Nat
  snapshots : SnapshotTable
  views : Nat
  frozen : Table Nat Frozen
  requests : Table Nat ReadRequest

namespace Reads

def started : Reads :=
  ⟨⟨none, none, false, 0, none, false, none⟩, 0, 0, 0, .empty, 0, Table.empty, Table.empty⟩

def recordedMeta (s : Reads) (id : Nat) : Option ReadMeta :=
  (s.snapshots.opened.get id).bind fun h => (s.frozen.get h.snap.id).bind Frozen.recorded

def put (s : Reads) (r : Nat) (q : ReadRequest) : Reads :=
  { s with requests := s.requests.insert r q }

def done (s : Reads) (r : Nat) : Reads := { s with requests := s.requests.remove r }

inductive Action
  | tick (ms : Nat)
  -- entries up to `index` are applied
  | apply (index : Nat)
  | replace (index : Nat)
  | report (m : Metrics)
  | measure (r : Nat) (linearizable : Bool)
  | readStore (r : Nat)
  | checkOwner (r id : Nat) (owner : Option String)
  | get (r : Nat)
  | takeMeta (r : Nat)
  | readView (r : Nat)
  | beginOpen (r conn : Nat) (owner : Option String) (linearizable : Bool)
  | checkCaps (r : Nat)
  | freeze (r : Nat)
  | endOpen (r id : Nat)
  | close (r : Nat)
  | fail (r : Nat)
  | dropConn (conn : Nat)
  | reap
  | clear
deriving DecidableEq, Repr

def step (c : NodeSettings) (l : Limits) (s : Reads) : Action → Option Reads
  | .tick ms => some { s with now := s.now + ms }
  | .apply index => if s.store ≤ index then some { s with store := index } else none
  | .replace index =>
    if s.store ≤ index then some { s with store := index, openings := s.openings + 1 } else none
  -- the node's applied index never runs ahead of its store
  | .report m => if m.applied ≤ s.store then some { s with metrics := m } else none
  | .measure r linearizable =>
    if s.requests.get r = none then
      let reported := readMeta c s.metrics
      some (s.put r (.measured { reported with
        stalePossible := reported.stalePossible && !linearizable }))
    else none
  | .readStore r =>
    match s.requests.get r with
    | some (.measured reported) => some (s.put r (.answered ⟨reported, s.store, none⟩))
    | _ => none
  | .checkOwner r id owner =>
    if s.requests.get r = none then
      match s.snapshots.checkOwner l id owner with
      | .ok _ => some (s.put r (.checked id))
      | .error _ => some s
    else none
  | .get r =>
    match s.requests.get r with
    | some (.checked id) =>
      match s.snapshots.get l s.now id with
      | (t, .ok v) => some { s.put r (.viewed id v) with snapshots := t }
      | (t, .error _) => some { s.done r with snapshots := t }
    | _ => none
  | .takeMeta r =>
    match s.requests.get r with
    | some (.viewed id v) =>
      some (s.put r (.handled v ((s.recordedMeta id).getD (readMeta c s.metrics))))
    | _ => none
  | .readView r =>
    match s.requests.get r with
    | some (.handled v reported) =>
      match s.frozen.get v.id with
      | some f => some (s.put r (.answered ⟨reported, f.index, some v⟩))
      | none => none
    | _ => none
  | .beginOpen r conn owner linearizable =>
    if s.requests.get r = none then
      let reported := readMeta c s.metrics
      some (s.put r (.opening conn owner { reported with
        stalePossible := reported.stalePossible && !linearizable }))
    else none
  | .checkCaps r =>
    match s.requests.get r with
    | some (.opening conn owner reported) =>
      match s.snapshots.checkCaps l conn with
      | .ok _ => some (s.put r (.capped conn owner reported))
      | .error _ => some (s.done r)
    | _ => none
  | .freeze r =>
    match s.requests.get r with
    | some (.capped conn owner reported) =>
      some { s.put r (.frozen conn owner ⟨s.openings, s.views⟩) with
        views := s.views + 1
        frozen := s.frozen.insert s.views ⟨s.store, some reported⟩ }
    | _ => none
  | .endOpen r id =>
    match s.requests.get r with
    | some (.frozen conn owner v) =>
      match s.snapshots.checkCaps l conn with
      | .ok _ =>
        if id = 0 ∨ s.snapshots.opened.get id ≠ none then none
        else some { s.done r with snapshots := s.snapshots.insert id ⟨conn, s.now, v, owner⟩ }
      | .error _ => some (s.done r)
    | _ => none
  | .close r =>
    match s.requests.get r with
    | some (.checked id) => some { s.done r with snapshots := s.snapshots.close id }
    | _ => none
  -- an error of the store, or a cancelled call
  | .fail r =>
    match s.requests.get r with
    | some (.answered _) => none
    | some _ => some (s.done r)
    | none => none
  | .dropConn conn => some { s with snapshots := (s.snapshots.dropConn conn).1 }
  | .reap => some { s with snapshots := (s.snapshots.reap l s.now).1 }
  | .clear => some { s with snapshots := s.snapshots.clear.1 }

/-- Every answer reflects what its meta says, and one read through a view carries the meta
recorded with it. -/
def Honest (s : Reads) : Prop :=
  ∀ r a, s.requests.get r = some (.answered a) → a.reported.appliedIndex ≤ a.index ∧
    ∀ v, a.through = some v → ∃ f, s.frozen.get v.id = some f ∧ f.index = a.index ∧
    f.recorded = some a.reported

def found (s : Reads) : Action → Bool
  | .takeMeta r =>
    match s.requests.get r with
    | some (.viewed id v) => (s.snapshots.opened.get id).map Handle.snap = some v
    | _ => true
  | _ => true

def Records (s : Reads) (v : View) (reported : ReadMeta) : Prop :=
  ∃ f, s.frozen.get v.id = some f ∧ f.recorded = some reported ∧ reported.appliedIndex ≤ f.index

def Sound (s : Reads) : ReadRequest → Prop
  | .measured reported | .opening _ _ reported | .capped _ _ reported =>
  reported.appliedIndex ≤ s.store
  | .checked _ => True
  | .viewed _ v | .frozen _ _ v => ∃ reported, s.Records v reported
  | .handled v reported => s.Records v reported
  | .answered a => a.reported.appliedIndex ≤ a.index ∧
    ∀ v, a.through = some v → ∃ f, s.frozen.get v.id = some f ∧ f.index = a.index ∧
      f.recorded = some a.reported

structure Grows (s t : Reads) : Prop where
  store : s.store ≤ t.store
  frozen : ∀ k f, s.frozen.get k = some f → t.frozen.get k = some f

variable {s t : Reads}

theorem Records.grow {v : View} {reported : ReadMeta} (h : s.Records v reported) (hg : Grows s t) :
    t.Records v reported := by
  obtain ⟨f, hf, hrec⟩ := h
  exact ⟨f, hg.frozen _ f hf, hrec⟩

theorem Sound.grow {q : ReadRequest} (h : s.Sound q) (hg : Grows s t) : t.Sound q := by
  cases q with
  | measured reported => exact le_trans h hg.store
  | opening conn owner reported => exact le_trans h hg.store
  | capped conn owner reported => exact le_trans h hg.store
  | checked id => trivial
  | viewed id v => exact h.imp fun _ hv => hv.grow hg
  | frozen conn owner v => exact h.imp fun _ hv => hv.grow hg
  | handled v reported => exact Records.grow h hg
  | answered a =>
    refine ⟨h.1, fun v hv => ?_⟩
    obtain ⟨f, hf, hrest⟩ := h.2 v hv
    exact ⟨f, hg.frozen _ f hf, hrest⟩

structure Inv (s : Reads) : Prop where
  reported : s.metrics.applied ≤ s.store
  views : ∀ k f, s.frozen.get k = some f → k < s.views
  handles : ∀ id h, s.snapshots.opened.get id = some h → ∃ reported, s.Records h.snap reported
  requests : ∀ r q, s.requests.get r = some q → s.Sound q

theorem inv_started : Inv started :=
  ⟨le_refl _, fun _ _ h => (nomatch h), fun _ _ h => (nomatch h), fun _ _ h => (nomatch h)⟩

namespace Inv

theorem next (h : Inv s) (hstore : s.store ≤ t.store) (hreported : t.metrics.applied ≤ t.store)
    (hfrozen : t.frozen = s.frozen) (hviews : t.views = s.views)
    (hsub : t.snapshots.Sub s.snapshots)
    (hreq : ∀ r q, t.requests.get r = some q → s.requests.get r = some q ∨ t.Sound q) : Inv t := by
  have hg : Grows s t := ⟨hstore, fun k f hf => hfrozen ▸ hf⟩
  refine ⟨hreported, ?_, fun id x hx => ?_, fun r q hq => ?_⟩
  · rw [hfrozen, hviews]
    exact h.views
  · obtain ⟨reported, hrec⟩ := h.handles id x (hsub id x hx)
    exact ⟨reported, hrec.grow hg⟩
  · rcases hreq r q hq with hold | hnew
    · exact (h.requests r q hold).grow hg
    · exact hnew

theorem put (h : Inv s) {r : Nat} {q : ReadRequest} (hq : s.Sound q) : Inv (s.put r q) := by
  refine h.next (le_refl s.store) h.reported rfl rfl (SnapshotTable.Sub.refl _) fun r' q' hq' => ?_
  replace hq' : (s.requests.insert r q).get r' = some q' := hq'
  rw [Table.get_insert] at hq'
  split_ifs at hq' with hr
  · cases hq'
    exact Or.inr hq
  · exact Or.inl hq'

theorem done (h : Inv s) (r : Nat) : Inv (s.done r) := by
  refine h.next (le_refl s.store) h.reported rfl rfl (SnapshotTable.Sub.refl _) fun r' q' hq' =>
    Or.inl ?_
  replace hq' : (s.requests.remove r).get r' = some q' := hq'
  rw [Table.get_remove] at hq'
  split_ifs at hq' with hr
  exact hq'

theorem sub (h : Inv s) {u : SnapshotTable} (hu : u.Sub s.snapshots) :
    Inv { s with snapshots := u } :=
  h.next (le_refl s.store) h.reported rfl rfl hu fun _ _ hq => Or.inl hq

theorem applied_le (h : Inv s) (c : NodeSettings) (stale : Bool) :
    { readMeta c s.metrics with stalePossible := stale }.appliedIndex ≤ s.store := by
  show (readMeta c s.metrics).appliedIndex ≤ s.store
  rw [readMeta_appliedIndex]
  exact h.reported

theorem freeze (h : Inv s) {r conn : Nat} {owner : Option String} {reported : ReadMeta}
    (hq : reported.appliedIndex ≤ s.store) :
    Inv { s.put r (.frozen conn owner ⟨s.openings, s.views⟩) with
      views := s.views + 1
      frozen := s.frozen.insert s.views ⟨s.store, some reported⟩ } := by
  have hg : Grows s { s.put r (.frozen conn owner ⟨s.openings, s.views⟩) with
      views := s.views + 1
      frozen := s.frozen.insert s.views ⟨s.store, some reported⟩ } := by
    refine ⟨le_refl _, fun k f hf => ?_⟩
    -- the number is new
    exact (Table.get_insert_of_ne _ _ (h.views k f hf).ne').trans hf
  refine ⟨h.reported, fun k f hf => ?_, fun id x hx => ?_, fun r' q' hq' => ?_⟩
  · replace hf : (s.frozen.insert s.views _).get k = some f := hf
    rw [Table.get_insert] at hf
    split_ifs at hf with hk
    · exact hk ▸ Nat.lt_succ_self _
    · exact Nat.lt_succ_of_lt (h.views k f hf)
  · obtain ⟨old, hrec⟩ := h.handles id x hx
    exact ⟨old, hrec.grow hg⟩
  · replace hq' : (s.requests.insert r _).get r' = some q' := hq'
    rw [Table.get_insert] at hq'
    split_ifs at hq' with hr
    · cases hq'
      exact ⟨reported, _, Table.get_insert_self _ _ _, rfl, hq⟩
    · exact (h.requests r' q' hq').grow hg

theorem endOpen (h : Inv s) {id : Nat} {x : Handle} (hx : ∃ reported, s.Records x.snap reported) :
    Inv { s with snapshots := s.snapshots.insert id x } where
  reported := h.reported
  views := h.views
  handles id' x' hx' := by
    replace hx' : (s.snapshots.opened.insert id x).get id' = some x' := hx'
    rw [Table.get_insert] at hx'
    split_ifs at hx' with he
    · cases hx'
      exact hx
    · exact h.handles id' x' hx'
  requests := h.requests

end Inv

theorem Inv.log (h : Inv s) (hstore : s.store ≤ t.store) (hreported : t.metrics.applied ≤ t.store)
    (hfrozen : t.frozen = s.frozen) (hviews : t.views = s.views) (hsnap : t.snapshots = s.snapshots)
    (hreq : t.requests = s.requests) : Inv t :=
  h.next hstore hreported hfrozen hviews (hsnap ▸ SnapshotTable.Sub.refl _) fun _ _ hq =>
    Or.inl (hreq ▸ hq)

theorem step_inv {c : NodeSettings} {l : Limits} {a : Action} (h : Inv s) (hok : s.found a = true) :
    After (step c l s a) Inv := by
  cases a with
  | tick ms => exact .some (h.log (le_refl s.store) h.reported rfl rfl rfl rfl)
  | apply index => exact .guard fun hle => .some (h.log hle (h.reported.trans hle) rfl rfl rfl rfl)
  | replace index =>
    exact .guard fun hle => .some (h.log hle (h.reported.trans hle) rfl rfl rfl rfl)
  | report m => exact .guard fun hle => .some (h.log (le_refl s.store) hle rfl rfl rfl rfl)
  | measure r linearizable => exact .guard fun _ => .some (h.put (h.applied_le c _))
  | readStore r =>
    rw [step]
    split
    · next reported hq => exact .some (h.put ⟨h.requests r _ hq, fun v hv => (nomatch hv)⟩)
    · exact .none
  | checkOwner r id owner =>
    refine .guard fun _ => ?_
    split
    · exact .some (h.put trivial)
    · exact .some h
  | get r =>
    rw [step]
    split
    · next id hq =>
      split
      · next u v hget =>
        obtain ⟨i, x, hx, rfl⟩ := SnapshotTable.get_ok hget
        have hsub := SnapshotTable.get_sub hget
        have hview : s.Sound (.viewed id x.snap) := h.handles i x (hsub i x hx)
        exact .some ((h.put hview).sub hsub)
      · next u e hget => exact .some ((h.done r).sub (SnapshotTable.get_sub hget))
    · exact .none
  | takeMeta r =>
    rw [step]
    split
    · next id v hq =>
      -- the handle is open, so its own meta is reported
      rw [found, hq] at hok
      obtain ⟨x, hx, rfl⟩ := Option.map_eq_some_iff.mp (of_decide_eq_true hok)
      obtain ⟨reported, f, hf, hrec, hle⟩ := h.handles id x hx
      have hmeta : s.recordedMeta id = some reported := by
        rw [recordedMeta, hx]
        show (s.frozen.get x.snap.id).bind Frozen.recorded = _
        rw [hf]
        exact hrec
      rw [hmeta]
      exact .some (h.put ⟨f, hf, hrec, hle⟩)
    · exact .none
  | readView r =>
    rw [step]
    split
    · next v reported hq =>
      split
      · next f hf =>
        obtain ⟨f', hf', hrec, hle⟩ := h.requests r _ hq
        obtain rfl := Option.mem_unique hf hf'
        refine .some (h.put ⟨hle, fun v' hv' => ?_⟩)
        cases hv'
        exact ⟨f, hf, rfl, hrec⟩
      · exact .none
    · exact .none
  | beginOpen r conn owner linearizable => exact .guard fun _ => .some (h.put (h.applied_le c _))
  | checkCaps r =>
    rw [step]
    split
    · next conn owner reported hq =>
      have hle : reported.appliedIndex ≤ s.store := h.requests r _ hq
      split
      · exact .some (h.put hle)
      · exact .some (h.done r)
    · exact .none
  | freeze r =>
    rw [step]
    split
    · next conn owner reported hq => exact .some (h.freeze (h.requests r _ hq))
    · exact .none
  | endOpen r id =>
    rw [step]
    split
    · next conn owner v hq =>
      split
      · split_ifs
        · exact .none
        · exact .some ((h.done r).endOpen (h.requests r _ hq))
      · exact .some (h.done r)
    · exact .none
  | close r =>
    rw [step]
    split
    · next id hq => exact .some ((h.done r).sub (SnapshotTable.remove_sub s.snapshots id))
    · exact .none
  | fail r =>
    rw [step]
    split
    · exact .none
    · exact .some (h.done r)
    · exact .none
  | dropConn conn => exact .some (h.sub (SnapshotTable.dropConn_sub _ _))
  | reap => exact .some (h.sub (SnapshotTable.reap_sub _ _ _))
  | clear => exact .some (h.sub fun _ _ hx => (nomatch hx))

/-- As long as every handle is still open when its meta is taken, every answer of every
interleaving reflects what it reports. -/
theorem reach_honest (c : NodeSettings) (l : Limits) (s : Reads)
    (h : Reach (step c l) (fun s a => s.found a = true) started s) : Honest s := by
  have hinv : Inv s := h.inv inv_started fun _ t _ hi hok hs => step_inv hi hok t hs
  exact fun r a ha => hinv.requests r _ ha

def soleLeader (applied : Nat) : Metrics := ⟨some applied, some 1, true, 1, none, false, none⟩

def readThrough : List Action :=
  [.apply 5, .report (soleLeader 5), .beginOpen 1 7 none false, .checkCaps 1, .freeze 1,
    .endOpen 1 9, .apply 10, .report (soleLeader 10), .checkOwner 2 9 none, .get 2]

theorem reach_honest_open : ∃ s,
    run (step ⟨1, false, 50, 1000⟩ (.new 900000)) started
      (readThrough ++ [.takeMeta 2, .readView 2]) = some s ∧
      s.requests.get 2 = some (.answered ⟨⟨5, some 5, false⟩, 5, some ⟨0, 0⟩⟩) ∧ Honest s := by
  have hrun : ∃ s, run (step ⟨1, false, 50, 1000⟩ (.new 900000)) started
      (readThrough ++ [.takeMeta 2, .readView 2]) = some s ∧
      s.requests.get 2 = some (.answered ⟨⟨5, some 5, false⟩, 5, some ⟨0, 0⟩⟩) := ⟨_, rfl, rfl⟩
  obtain ⟨s, hs, hans⟩ := hrun
  refine ⟨s, hs, hans, reach_honest _ _ s (reach_run .start ?_ hs)⟩
  exact of_decide_eq_true rfl

/-- The handle is closed before the meta is taken: the answer holds entries up to 5 and
reports 10. -/
theorem closed_before_meta : ∃ s, run (step ⟨1, false, 50, 1000⟩ (.new 900000)) started
    (readThrough ++ [.checkOwner 3 9 none, .close 3, .takeMeta 2, .readView 2]) = some s ∧
      s.requests.get 2 = some (.answered ⟨⟨10, some 10, false⟩, 5, some ⟨0, 0⟩⟩) ∧ ¬ Honest s := by
  refine ⟨_, rfl, rfl, fun h => ?_⟩
  have hle := (h 2 ⟨⟨10, some 10, false⟩, 5, some ⟨0, 0⟩⟩ rfl).1
  exact absurd hle (by decide)

end Reads
end MemoryGraph.Server
