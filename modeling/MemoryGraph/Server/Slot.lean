import MemoryGraph.Server.Handles
import MemoryGraph.Lib.Runs

/-! The store slot: the open store behind a reader-writer lock, the snapshot handles, and the
requests under way. One step is what one thread does between two points at which others can run. -/

namespace MemoryGraph.Server
open Lib
variable {s : Slot}

inductive Request
  -- its handle passed `check_owner`
  | checked (id : Nat)
  | reading (snap : View)
  -- in `open_owned`, with the store's read lock: the caps were checked once
  | opening (store conn : Nat) (owner : Option String)
  -- in `with_store`, with the store's read lock
  | onStore
deriving DecidableEq, Repr

inductive Swap
  | replace
  | reopenAfterIoError
deriving DecidableEq, Repr

inductive Writer
  | locked (w : Swap)
  -- in `drain`, with the views `clear` returned
  | draining (w : Swap) (dropped : List View)
  | closed
deriving DecidableEq, Repr

/-- `store` is the number of the opening that is open now, `openings` and `views` the
next free numbers. -/
structure Slot where
  store : Option Nat
  openings : Nat
  views : Nat
  now : Nat
  snapshots : SnapshotTable
  requests : Table Nat Request
  writer : Option Writer

namespace Slot

def opened : Slot := ⟨some 0, 1, 0, 0, .empty, Table.empty, none⟩

def put (s : Slot) (r : Nat) (q : Request) : Slot := { s with requests := s.requests.insert r q }

def done (s : Slot) (r : Nat) : Slot := { s with requests := s.requests.remove r }

def locks : Request → Bool
  | .opening .. | .onStore => true
  | .checked _ | .reading _ => false

def unread (s : Slot) : Bool := s.requests.rows.all (fun q => !locks q.2)

def strongCount (s : Slot) (v : View) : Nat := s.requests.rows.countP (fun q => q.2 = .reading v)

inductive Action
  | tick (ms : Nat)
  | beginRead (r : Nat)
  | endRead (r : Nat)
  | beginOpen (r conn : Nat) (owner : Option String)
  | endOpen (r id : Nat)
  | checkOwner (r id : Nat) (owner : Option String)
  | get (r : Nat)
  | release (r : Nat)
  | close (r : Nat)
  | dropConn (conn : Nat)
  | reap
  | lock (w : Swap)
  | clear
  | giveUp
  | closeStore
  | reopen (ok : Bool)
deriving DecidableEq, Repr

def step (l : Limits) (s : Slot) : Action → Option Slot
  | .tick ms => some { s with now := s.now + ms }
  | .beginRead r =>
    if s.requests.get r = none ∧ s.writer = none ∧
      s.store ≠ none then some (s.put r .onStore) else none
  | .endRead r => if s.requests.get r = some .onStore then some (s.done r) else none
  | .beginOpen r conn owner =>
    match s.requests.get r, s.writer, s.store with
    | none, none, some g =>
      match s.snapshots.checkCaps l conn with
      | .ok _ => some (s.put r (.opening g conn owner))
      | .error _ => some s
    | _, _, _ => none
  | .endOpen r id =>
    match s.requests.get r with
    | some (.opening g conn owner) =>
      match s.snapshots.checkCaps l conn with
      | .ok _ =>
        if id = 0 ∨ s.snapshots.opened.get id ≠ none then none
        else some { s.done r with
          snapshots := s.snapshots.insert id ⟨conn, s.now, ⟨g, s.views⟩, owner⟩
          views := s.views + 1 }
      | .error _ => some (s.done r)
    | _ => none
  | .checkOwner r id owner =>
    if s.requests.get r = none then
      match s.snapshots.checkOwner l id owner with
      | .ok _ => some (s.put r (.checked id))
      | .error _ => some s
    else none
  | .get r =>
    match s.requests.get r with
    | some (.checked id) =>
      match s.snapshots.get l s.now id with
      | (t, .ok v) => some { s.put r (.reading v) with snapshots := t }
      | (t, .error _) => some { s.done r with snapshots := t }
    | _ => none
  | .release r =>
    match s.requests.get r with
    | some (.reading _) => some (s.done r)
    | _ => none
  | .close r =>
    match s.requests.get r with
    | some (.checked id) => some { s.done r with snapshots := s.snapshots.close id }
    | _ => none
  | .dropConn conn => some { s with snapshots := (s.snapshots.dropConn conn).1 }
  | .reap => some { s with snapshots := (s.snapshots.reap l s.now).1 }
  | .lock w =>
    if s.writer = none ∧ s.unread then some { s with writer := some (.locked w) } else none
  | .clear =>
    match s.writer with
    | some (.locked w) =>
      some { s with
        snapshots := s.snapshots.clear.1
        writer := some (.draining w s.snapshots.clear.2) }
    | _ => none
  | .giveUp =>
    match s.writer with
    | some (.draining _ dropped) =>
      if dropped.all (fun v => s.strongCount v = 0) then none else some { s with writer := none }
    | _ => none
  | .closeStore =>
    match s.writer with
    | some (.draining w dropped) =>
      if dropped.all (fun v => s.strongCount v = 0) then
        -- `replace` answers `Locked` when there is no store to take
        if w = .replace ∧ s.store = none then some { s with writer := none }
        else some { s with store := none, writer := some .closed }
      else none
    | _ => none
  | .reopen ok =>
    match s.writer with
    | some .closed =>
      some { s with
        store := if ok then some s.openings else none
        openings := s.openings + 1
        writer := none }
    | _ => none

structure Served (s : Slot) : Prop where
  reading : ∀ r v, s.requests.get r = some (.reading v) → s.store = some v.store
  handles : ∀ id h, s.snapshots.opened.get id = some h → s.store = some h.snap.store

def removes (l : Limits) (s : Slot) (a : Action) (id : Nat) (h : Handle) : Bool :=
  match a with
  | .get r => s.requests.get r = some (.checked id) ∧ SnapshotTable.expired l s.now h = true
  | .close r => s.requests.get r = some (.checked id)
  | .dropConn conn => s.snapshots.perConn.get conn ≠ none ∧ h.conn = conn
  | .reap => SnapshotTable.expired l s.now h
  | _ => false

/-- The action takes no handle out of the table while a request reads its view, other than
for a swap that waits for that request. -/
def Unread (l : Limits) (s : Slot) (a : Action) : Prop :=
  a ≠ .giveUp ∧ ∀ p ∈ s.snapshots.opened.rows, removes l s a p.1 p.2 = true →
    s.strongCount p.2.snap = 0

instance (l : Limits) (s : Slot) (a : Action) : Decidable (Unread l s a) :=
  inferInstanceAs (Decidable (_ ∧ _))

theorem strongCount_eq_zero {v : View} :
    s.strongCount v = 0 ↔ ∀ r, s.requests.get r ≠ some (.reading v) := by
  rw [strongCount, List.countP_eq_zero]
  constructor
  · intro h r hr
    exact h _ (Table.get_eq_some.mp hr) (by simp)
  · intro h q hq hv
    obtain ⟨r, q⟩ := q
    obtain rfl : q = .reading v := by simpa using hv
    exact h r (Table.get_eq_some.mpr hq)

theorem unread_iff : s.unread = true ↔ ∀ r q, s.requests.get r = some q → locks q = false := by
  simp only [unread, List.all_eq_true, Bool.not_eq_true', Prod.forall, Table.get_eq_some]

/-- What carries `Served` through a run: a view somebody reads is still in the table, or
the swap that took it out is waiting for it. -/
structure Inv (s : Slot) : Prop where
  handles : ∀ id h, s.snapshots.opened.get id = some h → s.store = some h.snap.store
  opening : ∀ r g c o, s.requests.get r = some (.opening g c o) → s.store = some g
  reading : ∀ r v, s.requests.get r = some (.reading v) → s.store = some v.store ∧
    ((∃ id h, s.snapshots.opened.get id = some h ∧ h.snap = v) ∨
      ∃ w ds, s.writer = some (.draining w ds) ∧ v ∈ ds)
  unread : s.writer ≠ none → ∀ r q, s.requests.get r = some q → locks q = false
  cleared : ∀ w, s.writer = some w → (∀ k, w ≠ .locked k) → ∀ id, s.snapshots.opened.get id = none

theorem inv_opened : Inv opened where
  handles id h hid := by simp [opened, SnapshotTable.empty] at hid
  opening r g c o hr := by simp [opened] at hr
  reading r v hr := by simp [opened] at hr
  unread h := absurd rfl h
  cleared w hw := by simp [opened] at hw

theorem Inv.served (h : Inv s) : Served s := ⟨fun r v hr => (h.reading r v hr).1, h.handles⟩

def Begun (s t : Slot) : Request → Prop
  | .checked _ => True
  | .reading v => ∃ id h, t.snapshots.opened.get id = some h ∧ h.snap = v
  | .opening g _ _ => s.writer = none ∧ s.store = some g
  | .onStore => s.writer = none

theorem Inv.of_sub {s t : Slot} (h : Inv s) (hstore : t.store = s.store)
    (hwriter : t.writer = s.writer) (hsub : t.snapshots.Sub s.snapshots)
    (hkeep : ∀ p ∈ s.snapshots.opened.rows, t.snapshots.opened.get p.1 = some p.2 ∨
      s.strongCount p.2.snap = 0)
    (hreq : ∀ r q, t.requests.get r = some q → s.requests.get r = some q ∨ Begun s t q) :
    Inv t where
  handles id x hx := hstore ▸ h.handles id x (hsub id x hx)
  opening r g c o hr := by
    rw [hstore]
    rcases hreq r _ hr with hold | hnew
    · exact h.opening r g c o hold
    · exact hnew.2
  reading r v hr := by
    rw [hstore, hwriter]
    rcases hreq r _ hr with hold | ⟨id, x, hx, rfl⟩
    · obtain ⟨hs, ⟨id, x, hx, rfl⟩ | hw⟩ := h.reading r v hold
      · -- the handle stays, for the request reads its view
        rcases hkeep (id, x) (Table.get_eq_some.mp hx) with hstay | hzero
        · exact ⟨hs, .inl ⟨id, x, hstay, rfl⟩⟩
        · exact absurd hold (strongCount_eq_zero.mp hzero r)
      · exact ⟨hs, .inr hw⟩
    · exact ⟨h.handles id x (hsub id x hx), .inl ⟨id, x, hx, rfl⟩⟩
  unread hw r q hr := by
    rw [hwriter] at hw
    rcases hreq r q hr with hold | hnew
    · exact h.unread hw r q hold
    · cases q with
      | checked id => rfl
      | reading v => rfl
      | opening g c o => exact absurd hnew.1 hw
      | onStore => exact absurd hnew hw
  cleared w hw hk id := by
    rw [hwriter] at hw
    have hnone := h.cleared w hw hk id
    cases hid : t.snapshots.opened.get id with
    | none => rfl
    | some x => rw [hsub id x hid] at hnone; cases hnone

theorem Inv.of_same {s t : Slot} (h : Inv s) (hstore : t.store = s.store)
    (hwriter : t.writer = s.writer) (hsame : t.snapshots = s.snapshots)
    (hreq : ∀ r q, t.requests.get r = some q → s.requests.get r = some q ∨ Begun s t q) : Inv t :=
  h.of_sub hstore hwriter (hsame ▸ .refl _) (fun _ hp =>
    .inl (hsame ▸ Table.get_eq_some.mpr hp)) hreq

theorem Unread.keep {l : Limits} {a : Action} (hok : Unread l s a) {u : SnapshotTable}
    (hstay : ∀ id h, s.snapshots.opened.get id = some h → removes l s a id h = false →
      u.opened.get id = some h) :
    ∀ p ∈ s.snapshots.opened.rows, u.opened.get p.1 = some p.2 ∨ s.strongCount p.2.snap = 0 := by
  intro p hp
  cases hrem : removes l s a p.1 p.2 with
  | false => exact .inl (hstay p.1 p.2 (Table.get_eq_some.mpr hp) hrem)
  | true => exact .inr (hok.2 p hp hrem)

theorem requests_put {r : Nat} {q : Request} {P : Request → Prop} (hq : P q) :
    ∀ r' q', (s.put r q).requests.get r' = some q' → s.requests.get r' = some q' ∨ P q' := by
  intro r' q' h
  rw [put, Table.get_insert] at h
  split_ifs at h
  · cases h
    exact .inr hq
  · exact .inl h

theorem requests_done {r : Nat} {P : Request → Prop} :
    ∀ r' q', (s.done r).requests.get r' = some q' → s.requests.get r' = some q' ∨ P q' := by
  intro r' q' h
  rw [done, Table.get_remove] at h
  split_ifs at h
  exact .inl h

theorem Inv.endOpen (h : Inv s) {r id g conn : Nat} {owner : Option String}
    (hr : s.requests.get r = some (.opening g conn owner)) (hid : s.snapshots.opened.get id = none)
    {x : Handle} (hx : x.snap.store = g) {n : Nat} :
    Inv { s.done r with snapshots := s.snapshots.insert id x, views := n } := by
  -- a request in `open_owned` has the read lock
  have hw : s.writer = none := by
    by_contra hne
    exact absurd (h.unread hne r _ hr) (by simp [locks])
  have hold : ∀ r' q, (s.done r).requests.get r' = some q → s.requests.get r' = some q :=
    fun r' q hq =>
    (requests_done (P := fun _ => False) r' q hq).resolve_right (fun hf => hf)
  constructor
  · intro id' y hy
    simp only [SnapshotTable.insert, Table.get_insert] at hy
    split_ifs at hy
    · cases hy
      exact hx ▸ h.opening r g conn owner hr
    · exact h.handles id' y hy
  · intro r' g' c o hr'
    exact h.opening r' g' c o (hold r' _ hr')
  · intro r' v hr'
    obtain ⟨hs, ⟨id', y, hy, hv⟩ | ⟨w, ds, hd, _⟩⟩ := h.reading r' v (hold r' _ hr')
    · refine ⟨hs, .inl ⟨id', y, ?_, hv⟩⟩
      have hne : id ≠ id' := fun e => by rw [e, hy] at hid; cases hid
      simpa only [SnapshotTable.insert, Table.get_insert, if_neg hne] using hy
    · rw [hw] at hd
      cases hd
  · intro hne
    exact absurd hw hne
  · intro w hw'
    rw [show ({ s.done r with snapshots := s.snapshots.insert id x, views := n } : Slot).writer =
      s.writer from rfl, hw] at hw'
    cases hw'

theorem Inv.clear (h : Inv s) {w : Swap} (hw : s.writer = some (.locked w)) :
    Inv { s with
      snapshots := s.snapshots.clear.1
      writer := some (.draining w s.snapshots.clear.2) } where
  handles id x hx := by simp [SnapshotTable.clear, SnapshotTable.empty] at hx
  opening := h.opening
  reading r v hr := by
    obtain ⟨hs, ⟨id, x, hx, rfl⟩ | ⟨w', ds, hd, _⟩⟩ := h.reading r v hr
    · exact ⟨hs, .inr ⟨w, _, rfl, List.mem_map.mpr ⟨(id, x), Table.get_eq_some.mp hx, rfl⟩⟩⟩
    · rw [hw] at hd
      cases hd
  unread _ := h.unread (by simp [hw])
  cleared _ _ _ id := rfl

theorem Inv.drained (h : Inv s) {w : Swap} {ds : List View} (hw : s.writer = some (.draining w ds))
    (hall : ds.all (fun v => s.strongCount v = 0) = true) (r : Nat) (v : View) :
    s.requests.get r ≠ some (.reading v) := by
  intro hr
  rw [List.all_eq_true] at hall
  obtain ⟨_, ⟨id, x, hx, _⟩ | ⟨w', ds', hd, hv⟩⟩ := h.reading r v hr
  · rw [h.cleared _ hw (by simp) id] at hx
    cases hx
  · rw [hw] at hd
    cases hd
    exact strongCount_eq_zero.mp (by simpa using hall v hv) r hr

theorem Inv.of_idle {s t : Slot} (h : Inv s) (hw : s.writer ≠ none)
    (htable : ∀ id, t.snapshots.opened.get id = none) (hreq : t.requests = s.requests)
    (hidle : ∀ r v, s.requests.get r ≠ some (.reading v)) : Inv t where
  handles id x hx := by rw [htable id] at hx; cases hx
  opening r g c o hr := by
    rw [hreq] at hr
    exact absurd (h.unread hw r _ hr) (by simp [locks])
  reading r v hr := by
    rw [hreq] at hr
    exact absurd hr (hidle r v)
  unread _ r q hr := h.unread hw r q (hreq ▸ hr)
  cleared _ _ _ := htable

theorem step_inv {l : Limits} {s t : Slot} {a : Action} (h : Inv s) (hok : Unread l s a)
    (hs : step l s a = some t) : Inv t := by
  cases a with
  | tick ms =>
    cases hs
    exact h.of_same rfl rfl rfl (fun _ _ => .inl)
  | beginRead r =>
    simp only [step] at hs
    split_ifs at hs with hc
    cases hs
    exact h.of_same rfl rfl rfl (requests_put hc.2.1)
  | endRead r =>
    simp only [step] at hs
    split_ifs at hs
    cases hs
    exact h.of_same rfl rfl rfl requests_done
  | beginOpen r conn owner =>
    simp only [step] at hs
    split at hs
    · rename_i g hr hw hg
      split at hs
      · cases hs
        exact h.of_same rfl rfl rfl (requests_put ⟨hw, hg⟩)
      · cases hs
        exact h
    · cases hs
  | endOpen r id =>
    simp only [step] at hs
    split at hs
    · rename_i g conn owner hr
      split at hs
      · split_ifs at hs with hid
        cases hs
        exact h.endOpen hr (by simpa using (not_or.mp hid).2) rfl
      · cases hs
        exact h.of_same rfl rfl rfl requests_done
    · cases hs
  | checkOwner r id owner =>
    simp only [step] at hs
    split_ifs at hs
    split at hs
    · cases hs
      exact h.of_same rfl rfl rfl (requests_put trivial)
    · cases hs
      exact h
  | get r =>
    have hstay : ∀ {i : Nat} {u : SnapshotTable} {x : Except StoreError View},
        s.requests.get r = some (.checked i) → s.snapshots.get l s.now i = (u, x) →
        ∀ id y, s.snapshots.opened.get id = some y → removes l s (.get r) id y = false →
        u.opened.get id = some y :=
      fun hr hget id y hy hnot =>
        SnapshotTable.get_keeps hget hy fun ⟨he, hexp⟩ => of_decide_eq_false hnot ⟨he ▸ hr, hexp⟩
    simp only [step] at hs
    split at hs
    · rename_i id hr
      split at hs
      · rename_i u v hget
        cases hs
        exact h.of_sub rfl rfl (SnapshotTable.get_sub hget) (hok.keep (hstay hr hget))
          (requests_put (SnapshotTable.get_ok hget))
      · rename_i u e hget
        cases hs
        exact h.of_sub rfl rfl (SnapshotTable.get_sub hget) (hok.keep (hstay hr hget)) requests_done
    · cases hs
  | release r =>
    simp only [step] at hs
    split at hs
    · cases hs
      exact h.of_same rfl rfl rfl requests_done
    · cases hs
  | close r =>
    simp only [step] at hs
    split at hs
    · rename_i id hr
      cases hs
      exact h.of_sub rfl rfl (s.snapshots.remove_sub id) (hok.keep fun id' y hy hnot =>
        SnapshotTable.remove_keeps hy fun he => of_decide_eq_false hnot (he ▸ hr)) requests_done
    · cases hs
  | dropConn conn =>
    cases hs
    exact h.of_sub rfl rfl (s.snapshots.dropConn_sub conn)
      (hok.keep fun id y hy hnot => SnapshotTable.dropConn_keeps hy (of_decide_eq_false hnot))
      (fun _ _ => .inl)
  | reap =>
    cases hs
    exact h.of_sub rfl rfl (s.snapshots.reap_sub l s.now)
      (hok.keep fun id y hy hnot => SnapshotTable.reap_keeps hy hnot) (fun _ _ => .inl)
  | lock w =>
    simp only [step] at hs
    split_ifs at hs with hc
    cases hs
    refine ⟨h.handles, h.opening, ?_, fun _ => unread_iff.mp hc.2, ?_⟩
    · intro r v hr
      obtain ⟨hv, hin | ⟨w', ds, hd, _⟩⟩ := h.reading r v hr
      · exact ⟨hv, .inl hin⟩
      · rw [hc.1] at hd
        cases hd
    · intro w' hw' hk
      cases hw'
      exact absurd rfl (hk w)
  | clear =>
    simp only [step] at hs
    split at hs
    · rename_i w hw
      cases hs
      exact h.clear hw
    · cases hs
  | giveUp => exact absurd rfl hok.1
  | closeStore =>
    simp only [step] at hs
    split at hs
    · rename_i w ds hw
      split_ifs at hs with hall
      · cases hs
        exact h.of_idle (by simp [hw]) (h.cleared _ hw (by simp)) rfl (h.drained hw hall)
      · cases hs
        exact h.of_idle (by simp [hw]) (h.cleared _ hw (by simp)) rfl (h.drained hw hall)
    · cases hs
  | reopen ok =>
    simp only [step] at hs
    split at hs
    · rename_i hw
      cases hs
      refine h.of_idle (by simp [hw]) (h.cleared _ hw (by simp)) rfl ?_
      intro r v hr
      obtain ⟨_, ⟨id, x, hx, _⟩ | ⟨w', ds, hd, _⟩⟩ := h.reading r v hr
      · rw [h.cleared _ hw (by simp) id] at hx
        cases hx
      · rw [hw] at hd
        cases hd
    · cases hs

/-- In every run in which no handle leaves the table while a request reads its view, save for a
swap that waits for that request, every view read or offered is of the store that is open. -/
theorem reach_served (l : Limits) (s : Slot) (h : Reach (step l) (Unread l) opened s) : Served s :=
  (h.inv inv_opened fun _ _ _ => step_inv).served

def waitedSwap : List Action :=
  [.beginOpen 1 5 none, .endOpen 1 9, .checkOwner 2 9 none, .get 2, .lock .replace, .clear,
    .release 2, .closeStore, .reopen true]

theorem reach_served_waited : ∃ s, run (step (.new 900000)) opened waitedSwap = some s ∧
    s.store = some 1 ∧ Served s := by
  cases hrun : run (step (.new 900000)) opened waitedSwap with
  | none => exact absurd hrun (by decide)
  | some s =>
    refine ⟨s, rfl, ?_, reach_served (.new 900000) s (reach_run .start ?_ hrun)⟩
    · have : (run (step (.new 900000)) opened waitedSwap).bind Slot.store = some 1 := by decide
      rwa [hrun] at this
    · decide

/-- The client closes handle 9 while its own request 2 still reads through it: `clear`
no longer finds the view, and the swap closes the store at once. -/
def closedWhileRead : List Action :=
  [.beginOpen 1 5 none, .endOpen 1 9, .checkOwner 2 9 none, .get 2, .checkOwner 3 9 none, .close 3,
    .lock .replace, .clear, .closeStore]

theorem swap_under_reader : ∃ s, run (step (.new 900000)) opened closedWhileRead = some s ∧
    s.writer = some .closed ∧ s.requests.get 2 = some (.reading ⟨0, 0⟩) ∧ ¬ Served s := by
  have hread : (run (step (.new 900000)) opened closedWhileRead).map
      (fun s => (s.writer, s.requests.get 2, s.store)) =
      some (some .closed, some (.reading ⟨0, 0⟩), none) := by
    decide
  obtain ⟨s, hs, he⟩ := Option.map_eq_some_iff.mp hread
  obtain ⟨hw, hr, hn⟩ : s.writer = some .closed ∧ s.requests.get 2 = some (.reading ⟨0, 0⟩) ∧
    s.store = none := by
    simpa using he
  refine ⟨s, hs, hw, hr, ?_⟩
  intro hserved
  rw [hserved.reading 2 _ hr] at hn
  cases hn

end Slot
end MemoryGraph.Server
