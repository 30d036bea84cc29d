import MemoryGraph.Schema
import MemoryGraph.Lib.Table
import MemoryGraph.Lib.Fallible

/-! The table of open snapshot handles. A view is shared between the table and the
requests that read it; times are in milliseconds. -/

namespace MemoryGraph.Server
open Lib

structure View where
  store : Nat
  id : Nat
deriving DecidableEq, Repr

structure Handle where
  conn : Nat
  created : Nat
  snap : View
  owner : Option String
deriving DecidableEq, Repr

inductive Status
  | store (e : StoreError)
  | resourceExhausted (msg : String)
deriving DecidableEq, Repr

structure Limits where
  maxAge : Nat
  perConnCap : Nat
  globalCap : Nat

def Limits.new (maxAge : Nat) : Limits := ⟨maxAge, 64, 1024⟩

structure SnapshotTable where
  opened : Table Nat Handle
  perConn : Table Nat Nat

namespace SnapshotTable

def empty : SnapshotTable := ⟨Table.empty, Table.empty⟩

def remove (t : SnapshotTable) (id : Nat) : SnapshotTable :=
  match t.opened.get id with
  | none => t
  | some h =>
    ⟨t.opened.remove id,
      match t.perConn.get h.conn with
      | none => t.perConn
      | some n => if n - 1 = 0 then t.perConn.remove h.conn else t.perConn.insert h.conn (n - 1)⟩

def held (t : SnapshotTable) (conn : Nat) : Nat := (t.perConn.get conn).getD 0

def checkCaps (l : Limits) (t : SnapshotTable) (conn : Nat) : Except Status Unit := do
  failIf (l.perConnCap ≤ t.held conn) (Status.store (.rejected
    ("this connection already holds " ++ toString (t.held conn) ++
      " snapshot handles (the limit is " ++ toString l.perConnCap ++
      "); close one with CloseSnapshot")))
  failIf (l.globalCap ≤ t.opened.len) (Status.resourceExhausted
    ("the server already holds " ++ toString t.opened.len ++
      " snapshot handles (the server-wide limit is " ++ toString l.globalCap ++ "); retry later"))

def insert (t : SnapshotTable) (id : Nat) (h : Handle) : SnapshotTable :=
  ⟨t.opened.insert id h, t.perConn.alter h.conn (fun n => n.getD 0 + 1)⟩

def expired (l : Limits) (now : Nat) (h : Handle) : Bool := l.maxAge ≤ now - h.created

def get (l : Limits) (t : SnapshotTable) (now id : Nat) : SnapshotTable × Except StoreError View :=
  match t.opened.get id with
  | none => (t, .error (.snapshotExpired 0 (l.maxAge / 1000)))
  | some h =>
    if expired l now h then
      (t.remove id, .error (.snapshotExpired ((now - h.created) / 1000) (l.maxAge / 1000)))
    else (t, .ok h.snap)

def checkOwner (l : Limits) (t : SnapshotTable) (id : Nat) (owner : Option String) :
    Except StoreError Unit :=
  match t.opened.get id with
  | some h =>
    if h.owner = none ∨ h.owner = owner then .ok ()
      else .error (.snapshotExpired 0 (l.maxAge / 1000))
  | none => .error (.snapshotExpired 0 (l.maxAge / 1000))

def close (t : SnapshotTable) (id : Nat) : SnapshotTable := t.remove id

def dropConn (t : SnapshotTable) (conn : Nat) : SnapshotTable × Nat :=
  match t.perConn.get conn with
  | none => (t, 0)
  | some _ =>
    let kept := t.opened.removeAll ((t.opened.rows.filter (fun r => r.2.conn = conn)).map Prod.fst)
    (⟨kept, t.perConn.remove conn⟩, t.opened.len - kept.len)

def reap (l : Limits) (t : SnapshotTable) (now : Nat) : SnapshotTable × Nat :=
  let expired := (t.opened.rows.filter (fun r => expired l now r.2)).map Prod.fst
  (expired.foldl remove t, expired.length)

def clear (t : SnapshotTable) : SnapshotTable × List View :=
  (empty, t.opened.rows.map (fun r => r.2.snap))

def Sub (u t : SnapshotTable) : Prop := ∀ id h, u.opened.get id = some h → t.opened.get id = some h

theorem Sub.refl (t : SnapshotTable) : t.Sub t := fun _ _ h => h

theorem Sub.trans {u t v : SnapshotTable} (h : u.Sub t) (h' : t.Sub v) : u.Sub v :=
  fun id x hx => h' id x (h id x hx)

theorem remove_opened (t : SnapshotTable) (id : Nat) :
    (t.remove id).opened = t.opened.remove id := by
  unfold remove
  cases hid : t.opened.get id with
  | none =>
    apply Table.ext
    intro k
    rw [Table.get_remove]
    split_ifs with hk
    · subst hk
      exact hid
    · rfl
  | some h => rfl

theorem remove_sub (t : SnapshotTable) (id : Nat) : (t.remove id).Sub t := by
  intro k h hk
  rw [remove_opened, Table.get_remove] at hk
  split_ifs at hk
  exact hk

theorem get_sub {l : Limits} {t u : SnapshotTable} {now id : Nat} {x : Except StoreError View}
    (h : t.get l now id = (u, x)) : u.Sub t := by
  obtain rfl : (t.get l now id).1 = u := by rw [h]
  unfold get
  cases t.opened.get id with
  | none => exact Sub.refl t
  | some h =>
    dsimp only
    split_ifs
    · exact remove_sub t id
    · exact Sub.refl t

theorem get_ok {l : Limits} {t u : SnapshotTable} {now id : Nat} {v : View}
    (h : t.get l now id = (u, .ok v)) : ∃ i x, u.opened.get i = some x ∧ x.snap = v := by
  unfold get at h
  cases hid : t.opened.get id with
  | none => simp [hid] at h
  | some x =>
    simp only [hid] at h
    split_ifs at h
    · simp at h
    · obtain ⟨rfl, hv⟩ : t = u ∧ x.snap = v := by simpa using h
      exact ⟨id, x, hid, hv⟩

theorem dropConn_sub (t : SnapshotTable) (conn : Nat) : (t.dropConn conn).1.Sub t := by
  unfold dropConn
  cases t.perConn.get conn with
  | none => exact Sub.refl t
  | some n =>
    intro k h hk
    rw [Table.get_removeAll] at hk
    split_ifs at hk
    exact hk

theorem reap_sub (l : Limits) (t : SnapshotTable) (now : Nat) : (t.reap l now).1.Sub t := by
  have hfold : ∀ (ids : List Nat) (u : SnapshotTable), (ids.foldl remove u).Sub u := by
    intro ids
    induction ids with
    | nil => exact Sub.refl
    | cons id ids ih => exact fun u => (ih (u.remove id)).trans (remove_sub u id)
  exact hfold _ t

section
variable {l : Limits} {t u : SnapshotTable} {k now id conn : Nat} {h : Handle}

theorem remove_keeps (hk : t.opened.get k = some h) (hne : k ≠ id) :
    (t.remove id).opened.get k = some h := by
  rw [remove_opened, Table.get_remove, if_neg (Ne.symm hne)]
  exact hk

theorem get_keeps {x : Except StoreError View} (hget : t.get l now id = (u, x))
    (hk : t.opened.get k = some h) (hstay : ¬(k = id ∧ expired l now h = true)) :
    u.opened.get k = some h := by
  obtain rfl : (t.get l now id).1 = u := by rw [hget]
  unfold get
  cases hid : t.opened.get id with
  | none => exact hk
  | some y =>
    dsimp only
    split_ifs with hexp
    · refine remove_keeps hk fun he => hstay ⟨he, ?_⟩
      rw [he, hid] at hk
      rwa [← Option.some.inj hk]
    · exact hk

theorem dropConn_keeps (hk : t.opened.get k = some h)
    (hstay : ¬(t.perConn.get conn ≠ none ∧ h.conn = conn)) :
    (t.dropConn conn).1.opened.get k = some h := by
  unfold dropConn
  cases hconn : t.perConn.get conn with
  | none => exact hk
  | some n =>
    dsimp only
    rw [Table.get_removeAll, if_neg]
    · exact hk
    · intro hmem
      obtain ⟨⟨k', y⟩, hrow, rfl⟩ := List.mem_map.mp hmem
      obtain ⟨hrow, hy⟩ := List.mem_filter.mp hrow
      obtain rfl := Option.mem_unique hk (Table.get_eq_some.mpr hrow)
      exact hstay ⟨by simp [hconn], of_decide_eq_true hy⟩

theorem reap_keeps (hk : t.opened.get k = some h) (hstay : expired l now h = false) :
    (t.reap l now).1.opened.get k = some h := by
  have hfold : ∀ (ids : List Nat) (u : SnapshotTable), u.opened.get k = some h → k ∉ ids →
      (ids.foldl remove u).opened.get k = some h := by
    intro ids
    induction ids with
    | nil => exact fun u hu _ => hu
    | cons id ids ih =>
      intro u hu hmem
      rw [List.mem_cons, not_or] at hmem
      exact ih _ (remove_keeps hu hmem.1) hmem.2
  refine hfold _ t hk fun hmem => ?_
  obtain ⟨⟨k', y⟩, hrow, rfl⟩ := List.mem_map.mp hmem
  obtain ⟨hrow, hy⟩ := List.mem_filter.mp hrow
  obtain rfl := Option.mem_unique hk (Table.get_eq_some.mpr hrow)
  rw [hstay] at hy
  cases hy

end

end SnapshotTable
end MemoryGraph.Server
