import MemoryGraph.Server.Handles
import MemoryGraph.Lib.Counting
import MemoryGraph.Lib.Runs

/-! The snapshot handles along every interleaving. A call to open one waits before it looks at the
table; it then holds the lock twice, to check the caps and to check them again and insert. -/

namespace MemoryGraph.Server
open Lib List Table
variable {t : SnapshotTable} {l : Limits}

/-- An open under way, and whether it passed its first check. Calls are numbered as made. -/
structure OpenCall where
  number : Nat
  conn : Nat
  checked : Bool
deriving DecidableEq, Repr

structure HandleSys where
  table : SnapshotTable
  calls : Nat
  inFlight : List OpenCall
  opener : Nat → Nat

inductive HandleOp
  | openCall (conn : Nat)
  | openCheck (call : Nat)
  | openFail (call : Nat)
  | openEnd (call : Nat) (draws : List Nat) (created : Nat) (snap : View) (owner : Option String)
  | get (now id : Nat)
  | close (id : Nat)
  | dropConn (conn : Nat)
  | reap (now : Nat)
  | clear
deriving DecidableEq, Repr

namespace HandleSys

def init : HandleSys := ⟨SnapshotTable.empty, 0, [], fun _ => 0⟩

def check (l : Limits) (s : HandleSys) (c : OpenCall) : HandleSys :=
  { s with
    inFlight := match s.table.checkCaps l c.conn with
      | .error _ => s.inFlight.erase c
      | .ok _ => { c with checked := true } :: s.inFlight.erase c }

def finish (l : Limits) (s : HandleSys) (c : OpenCall) (draws : List Nat) (created : Nat)
    (snap : View) (owner : Option String) : Option HandleSys :=
  match s.table.checkCaps l c.conn with
  | .error _ => some { s with inFlight := s.inFlight.erase c }
  | .ok _ => (draws.find? fun id => id ≠ 0 ∧ s.table.opened.get id = none).map fun id =>
    { s with
      table := s.table.insert id ⟨c.conn, created, snap, owner⟩
      inFlight := s.inFlight.erase c
      opener := fun i => if i = id then c.number else s.opener i }

def step (l : Limits) (s : HandleSys) : HandleOp → Option HandleSys
  | .openCall conn => some
    { s with calls := s.calls + 1, inFlight := ⟨s.calls, conn, false⟩ :: s.inFlight }
  | .openCheck call => (s.inFlight.find? fun c =>
    c.number = call ∧ c.checked = false).map (s.check l)
  | .openFail call => some { s with inFlight := s.inFlight.filter fun c => c.number ≠ call }
  | .openEnd call draws created snap owner =>
    (s.inFlight.find? fun c => c.number = call ∧ c.checked).bind fun c =>
      s.finish l c draws created snap owner
  | .get now id => some { s with table := (s.table.get l now id).1 }
  | .close id => some { s with table := s.table.close id }
  | .dropConn conn => some { s with table := (s.table.dropConn conn).1 }
  | .reap now => some { s with table := (s.table.reap l now).1 }
  | .clear => some { s with table := s.table.clear.1 }

end HandleSys

namespace SnapshotTable

def count (t : SnapshotTable) (conn : Nat) : Nat := t.opened.countOf fun h => h.conn = conn

structure Sound (l : Limits) (t : SnapshotTable) : Prop where
  counts : t.perConn.Counts t.count
  perConn : ∀ conn, t.count conn ≤ l.perConnCap
  global : t.opened.len ≤ l.globalCap

theorem held_eq (h : t.Sound l) (conn : Nat) : t.held conn = t.count conn :=
  h.counts.getD conn

theorem sound_empty (l : Limits) : empty.Sound l where
  counts := fun _ => rfl
  perConn := fun _ => Nat.zero_le _
  global := Nat.zero_le _

theorem Sound.of_sublist {t u : SnapshotTable} (h : t.Sound l)
    (hrows : u.opened.rows.Sublist t.opened.rows) (hcounts : u.perConn.Counts u.count) :
    u.Sound l where
  counts := hcounts
  perConn := fun conn => (hrows.countP_le).trans (h.perConn conn)
  global := hrows.length_le.trans h.global

theorem count_remove {id : Nat} {h : Handle} (hid : t.opened.get id = some h) (conn : Nat) :
    t.count conn = (t.remove id).count conn + if h.conn = conn then 1 else 0 := by
  rw [count, count, remove_opened, countOf, (rows_perm_remove hid).countP_eq, countP_cons, countOf]
  simp

theorem Sound.remove (h : t.Sound l) (id : Nat) : (t.remove id).Sound l := by
  cases hid : t.opened.get id with
  | none =>
    have hsame : t.remove id = t := by
      rw [SnapshotTable.remove, hid]
    rw [hsame]
    exact h
  | some x =>
    refine h.of_sublist ?_ ?_
    · rw [remove_opened]
      exact filter_sublist
    · have hx := count_remove hid x.conn
      rw [if_pos rfl] at hx
      have hget := h.counts x.conn
      rw [if_neg (by omega)] at hget
      have hperConn : (t.remove id).perConn = if t.count x.conn - 1 = 0 then t.perConn.remove x.conn
          else t.perConn.insert x.conn (t.count x.conn - 1) := by
        rw [SnapshotTable.remove, hid]
        dsimp only
        rw [hget]
      intro conn
      have hcount := count_remove hid conn
      have hconn := h.counts conn
      rw [hperConn]
      by_cases heq : x.conn = conn
      · rw [if_pos heq] at hcount
        subst heq
        split_ifs <;> simp <;> omega
      · rw [if_neg heq, Nat.add_zero] at hcount
        rw [← hcount, ← hconn]
        split_ifs
        · rw [get_remove, if_neg heq]
        · rw [get_insert, if_neg heq]

theorem Sound.foldl_remove (ids : List Nat) (h : t.Sound l) :
    (ids.foldl SnapshotTable.remove t).Sound l := by
  induction ids generalizing t with
  | nil => exact h
  | cons id ids ih => exact ih (h.remove id)

theorem Sound.get (h : t.Sound l) (now id : Nat) : (t.get l now id).1.Sound l := by
  unfold SnapshotTable.get
  cases t.opened.get id with
  | none => exact h
  | some x =>
    dsimp only
    split_ifs
    · exact h.remove id
    · exact h

theorem rows_dropConn (h : t.perConn.Counts t.count) (conn : Nat) :
    (t.dropConn conn).1.opened.rows = t.opened.rows.filter fun r => r.2.conn ≠ conn := by
  unfold dropConn
  cases hconn : t.perConn.get conn with
  | none =>
    have hzero : t.count conn = 0 := by
      by_contra hne
      have := h conn
      rw [hconn, if_neg hne] at this
      exact absurd this nofun
    refine (filter_eq_self.mpr fun r hr => ?_).symm
    have := countOf_eq_zero hzero (mem_rows_iff.mp hr)
    simpa using this
  | some n =>
    dsimp only
    have hget : ∀ k, (t.opened.removeAll
        ((t.opened.rows.filter fun r => r.2.conn = conn).map Prod.fst)).get k =
        if k ∉ (t.opened.rows.filter fun r => r.2.conn = conn).map Prod.fst then t.opened.get k
          else none := by
      intro k
      rw [get_removeAll, ite_not]
    rw [rows_eq_filter hget]
    refine filter_congr fun r hr => ?_
    rw [decide_eq_decide, mem_map, not_exists]
    constructor
    · intro hnone heq
      exact hnone r ⟨mem_filter.mpr ⟨hr, by simpa using heq⟩, rfl⟩
    · rintro hne r' ⟨hr', hkey⟩
      obtain ⟨hr', hconn'⟩ := mem_filter.mp hr'
      have hrow := mem_rows_iff.mp hr
      have hrow' := mem_rows_iff.mp hr'
      rw [hkey, hrow, Option.some.injEq] at hrow'
      exact hne (hrow' ▸ of_decide_eq_true hconn')

theorem Sound.dropConn (h : t.Sound l) (conn : Nat) : (t.dropConn conn).1.Sound l := by
  have hrows := rows_dropConn h.counts conn
  have hcount : ∀ c, (t.dropConn conn).1.count c = if c = conn then 0 else t.count c := by
    intro c
    rw [count, countOf, hrows, countP_filter, count, countOf]
    split_ifs with hc
    · rw [countP_eq_zero]
      rintro r - hr
      simp [hc] at hr
    · refine countP_congr fun r _ => ?_
      simp only [Bool.and_eq_true, decide_eq_true_eq]
      omega
  refine h.of_sublist (hrows ▸ filter_sublist) fun c => ?_
  rw [hcount]
  have hc := h.counts c
  have hget : (t.dropConn conn).1.perConn.get c = if c = conn then none else t.perConn.get c := by
    unfold SnapshotTable.dropConn
    cases hconn : t.perConn.get conn with
    | none =>
      dsimp only
      split_ifs with heq
      · rw [heq, hconn]
      · rfl
    | some n =>
      dsimp only
      rw [get_remove]
      split_ifs <;> first | rfl | omega
  rw [hget]
  by_cases heq : c = conn
  · rw [if_pos heq, if_pos heq]
    rfl
  · rw [if_neg heq, if_neg heq, hc]

theorem checkCaps_ok {conn : Nat} (h : t.checkCaps l conn = .ok ()) :
    t.held conn < l.perConnCap ∧ t.opened.len < l.globalCap := by
  obtain ⟨_, hconn, h⟩ := bind_eq_ok.mp h
  exact ⟨Nat.lt_of_not_le (failIf_eq_ok.mp hconn), Nat.lt_of_not_le (failIf_eq_ok.mp h)⟩

theorem Sound.insert (h : t.Sound l) {id : Nat} (hfree : t.opened.get id = none)
    {x : Handle} (hcaps : t.checkCaps l x.conn = .ok ()) : (t.insert id x).Sound l := by
  obtain ⟨hheld, hlen⟩ := checkCaps_ok hcaps
  rw [held_eq h] at hheld
  have hperm := rows_insert_perm_of_new hfree x
  have hcount : ∀ c, (t.insert id x).count c = t.count c + if c = x.conn then 1 else 0 := by
    intro c
    rw [count, countOf, SnapshotTable.insert, hperm.countP_eq, countP_cons, count, countOf]
    simp [eq_comm]
  constructor
  · exact (h.counts.bump x.conn).congr hcount
  · intro c
    rw [hcount]
    have := h.perConn c
    split_ifs with hc
    · subst hc
      omega
    · omega
  · have : (t.insert id x).opened.len = t.opened.len + 1 := hperm.length_eq
    omega

end SnapshotTable

namespace HandleSys
variable {l : Limits} {s s' : HandleSys} {op : HandleOp}

theorem step_cases (op : HandleOp) : After (s.step l op) fun s' =>
    (s'.table.Sub s.table ∧ s'.opener = s.opener ∧ s.calls ≤ s'.calls ∧
      ∀ c ∈ s'.inFlight, c.number = s.calls ∨
        ∃ c' ∈ s.inFlight, c'.number = c.number ∧ c'.conn = c.conn) ∨
    ∃ c ∈ s.inFlight, ∃ id x, x.conn = c.conn ∧ s.table.checkCaps l c.conn = .ok () ∧
      s.table.opened.get id = none ∧
      s' = { s with
        table := s.table.insert id x
        inFlight := s.inFlight.erase c
        opener := fun i => if i = id then c.number else s.opener i } := by
  have hsame : ∀ c ∈ s.inFlight, c.number = s.calls ∨
      ∃ c' ∈ s.inFlight, c'.number = c.number ∧ c'.conn = c.conn :=
      fun c hc => .inr ⟨c, hc, rfl, rfl⟩
  cases op with
  | openCall conn =>
    refine .some (.inl ⟨.refl _, rfl, Nat.le_succ _, fun c hc => ?_⟩)
    rcases mem_cons.mp hc with rfl | hc
    · exact .inl rfl
    · exact hsame c hc
  | openCheck call =>
    refine .map fun c hc => .inl ⟨.refl _, rfl, Nat.le_refl _, fun c' hc' => ?_⟩
    dsimp only [check] at hc'
    split at hc'
    · exact hsame c' (mem_of_mem_erase hc')
    · rcases mem_cons.mp hc' with rfl | hc'
      · exact .inr ⟨c, mem_of_find?_eq_some hc, rfl, rfl⟩
      · exact hsame c' (mem_of_mem_erase hc')
  | openFail call =>
    exact .some (.inl ⟨.refl _, rfl, Nat.le_refl _, fun c hc => hsame c (mem_filter.mp hc).1⟩)
  | openEnd call draws created snap owner =>
    refine .bind fun c hc => ?_
    have hmem := mem_of_find?_eq_some hc
    unfold finish
    split
    · exact .some (.inl ⟨.refl _, rfl, Nat.le_refl _, fun c' hc' =>
      hsame c' (mem_of_mem_erase hc')⟩)
    · next hcaps =>
      refine .map fun id hid => ?_
      have hfree := find?_some hid
      exact .inr ⟨c, hmem, id, _, rfl, hcaps, (of_decide_eq_true hfree).2, rfl⟩
  | get now id =>
    exact .some (.inl ⟨SnapshotTable.get_sub rfl, rfl, Nat.le_refl _, hsame⟩)
  | close id =>
    exact .some (.inl ⟨SnapshotTable.remove_sub _ id, rfl, Nat.le_refl _, hsame⟩)
  | dropConn conn =>
    exact .some (.inl ⟨SnapshotTable.dropConn_sub _ conn, rfl, Nat.le_refl _, hsame⟩)
  | reap now =>
    exact .some (.inl ⟨SnapshotTable.reap_sub l _ now, rfl, Nat.le_refl _, hsame⟩)
  | clear =>
    exact .some (.inl ⟨fun _ _ hx => absurd hx nofun, rfl, Nat.le_refl _, hsame⟩)

theorem sound_step (hs : s.table.Sound l) (op : HandleOp) :
    After (s.step l op) fun s' => s'.table.Sound l := by
  cases op with
  | openCall conn => exact .some hs
  | openCheck call => exact .map fun _ _ => hs
  | openFail call => exact .some hs
  | openEnd call draws created snap owner =>
    refine .bind fun c hc => ?_
    unfold finish
    split
    · exact .some hs
    · next hcaps =>
      refine .map fun id hid => ?_
      have hfree := find?_some hid
      exact hs.insert (of_decide_eq_true hfree).2 hcaps
  | get now id => exact .some (hs.get now id)
  | close id => exact .some (hs.remove id)
  | dropConn conn => exact .some (hs.dropConn conn)
  | reap now => exact .some (hs.foldl_remove _)
  | clear => exact .some (SnapshotTable.sound_empty l)

/-- Nothing of the connection, open or under way, is from before call `n`. -/
structure Since (conn n : Nat) (s : HandleSys) : Prop where
  handles : ∀ id x, s.table.opened.get id = some x → x.conn = conn → n ≤ s.opener id
  inFlight : ∀ c ∈ s.inFlight, c.conn = conn → n ≤ c.number
  begun : n ≤ s.calls

theorem since_step {conn n : Nat} (hs : s.Since conn n) (h : s.step l op = some s') :
    s'.Since conn n := by
  rcases step_cases op s' h with ⟨hsub, hopener, hcalls, hflight⟩ | ⟨c, hc, id, x, hconn, -, -, rfl⟩
  · constructor
    · intro id x hx
      rw [hopener]
      exact hs.handles id x (hsub id x hx)
    · intro c hc hconn
      rcases hflight c hc with hnew | ⟨c', hold, hnumber, hconn'⟩
      · exact hnew ▸ hs.begun
      · exact hnumber ▸ hs.inFlight c' hold (hconn'.trans hconn)
    · exact hs.begun.trans hcalls
  · constructor
    · intro i y hy hyconn
      rw [SnapshotTable.insert, get_insert] at hy
      dsimp only
      by_cases hi : id = i
      · rw [if_pos hi, Option.some.injEq] at hy
        rw [if_pos hi.symm]
        exact hs.inFlight c hc (hconn ▸ hy ▸ hyconn)
      · rw [if_neg hi] at hy
        rw [if_neg (Ne.symm hi)]
        exact hs.handles i y hy hyconn
    · exact fun c' hc' => hs.inFlight c' (mem_of_mem_erase hc')
    · exact hs.begun

theorem since_dropConn {conn : Nat} (hs : s.table.Sound l) (hidle : ∀ c ∈ s.inFlight, c.conn ≠ conn)
    (h : s.step l (.dropConn conn) = some s') : s'.Since conn s.calls := by
  cases h
  constructor
  · intro id x hx hconn
    have hrow := get_eq_some.mp hx
    rw [SnapshotTable.rows_dropConn hs.counts] at hrow
    exact absurd hconn (by simpa using (mem_filter.mp hrow).2)
  · exact fun c hc hconn => absurd hconn (hidle c hc)
  · exact Nat.le_refl _

/-- The counts are the handles held and within the caps. After a drop with no open of the
connection under way, the connection has only handles of later opens. -/
theorem handles_along (l : Limits) (ops : List HandleOp) (s : HandleSys)
    (h : run (step l) init ops = some s) :
    (∀ conn, s.table.held conn = s.table.count conn ∧ s.table.count conn ≤ l.perConnCap) ∧
      s.table.opened.len ≤ l.globalCap ∧
      ∀ before later conn s₁, ops = before ++ .dropConn conn :: later →
        run (step l) init before = some s₁ → (∀ c ∈ s₁.inFlight, c.conn ≠ conn) →
        ∀ id x, s.table.opened.get id = some x → x.conn = conn → s₁.calls ≤ s.opener id := by
  have hinit : init.table.Sound l := SnapshotTable.sound_empty l
  have hsound := run_inv (fun hs h => sound_step hs _ _ h) hinit h
  refine ⟨fun conn => ⟨SnapshotTable.held_eq hsound conn, hsound.perConn conn⟩, hsound.global, ?_⟩
  rintro before later conn s₁ rfl hbefore hidle
  rw [run_append, hbefore, Option.bind_some] at h
  obtain ⟨s₂, hdrop, h⟩ := Option.bind_eq_some_iff.mp h
  have hsince := since_dropConn (run_inv (fun hs h => sound_step hs _ _ h) hinit hbefore) hidle
    hdrop
  exact (run_inv since_step hsince h).handles

theorem handles_along_drop :
    ∃ s₁ s, run (step ⟨10, 1, 2⟩) init
        [.openCall 7, .openCheck 0, .openEnd 0 [0, 5] 0 ⟨0, 0⟩ none, .openCall 8] = some s₁ ∧
      run (step ⟨10, 1, 2⟩) init [.openCall 7, .openCheck 0, .openEnd 0 [0, 5] 0 ⟨0, 0⟩ none,
        .openCall 8, .dropConn 7, .openCall 7, .openCheck 2, .openEnd 2 [6] 0 ⟨0, 1⟩ none] =
        some s ∧
      s.table.opened.get 6 = some ⟨7, 0, ⟨0, 1⟩, none⟩ ∧ s.table.held 7 = s.table.count 7 ∧
      s.table.opened.len ≤ 2 ∧ s₁.calls ≤ s.opener 6 := by
  refine ⟨_, _, rfl, rfl, rfl, ?_⟩
  obtain ⟨hcounts, hlen, hlater⟩ := handles_along ⟨10, 1, 2⟩ [.openCall 7, .openCheck 0,
    .openEnd 0 [0, 5] 0 ⟨0, 0⟩ none, .openCall 8, .dropConn 7, .openCall 7, .openCheck 2,
    .openEnd 2 [6] 0 ⟨0, 1⟩ none] _ rfl
  exact ⟨(hcounts 7).1, hlen, hlater
    [.openCall 7, .openCheck 0, .openEnd 0 [0, 5] 0 ⟨0, 0⟩ none, .openCall 8]
    [.openCall 7, .openCheck 2, .openEnd 2 [6] 0 ⟨0, 1⟩ none] 7 _ rfl rfl (by decide) 6 _ rfl rfl⟩

/-- An open is under way, its connection is dropped, and the open ends: its handle is there
afterwards. -/
theorem dropped_handle_appears :
    ∃ s₁ s, run (step ⟨10, 1, 2⟩) init [.openCall 7, .openCheck 0] = some s₁ ∧
      run (step ⟨10, 1, 2⟩) init
        [.openCall 7, .openCheck 0, .dropConn 7, .openEnd 0 [5] 0 ⟨0, 0⟩ none] = some s ∧
      s.table.opened.get 5 = some ⟨7, 0, ⟨0, 0⟩, none⟩ ∧ s.opener 5 < s₁.calls :=
  ⟨_, _, rfl, rfl, rfl, by decide⟩

end HandleSys
end MemoryGraph.Server
