import MemoryGraph.Lib.Runs

/-! The counted database: writes bump one counter before they begin and another when they are over,
and a read that sees both equal around its start is given their value as its generation. -/

namespace MemoryGraph.Names
open Lib

/-- How far a counted write has got; `raw` is a helper that works on the plain database. -/
inductive Writing (σ : Type)
  -- `started` is bumped
  | counted (raw : Bool)
  | live (raw : Bool) (draft : σ)
  -- all that is left is to bump `done`
  | over
  | finished
deriving DecidableEq, Repr

inductive Reading (σ : Type)
  -- `done` is read
  | loaded (done : Nat)
  | opened (done : Nat) (snap : σ)
  | failed
  -- the read transaction is in use, with its generation if it is known
  | ready (snap : σ) (generation : Option Nat)
deriving DecidableEq, Repr

structure GenDb (σ : Type) where
  committed : σ
  started : Nat
  done : Nat
  writes : List (Writing σ)
  reads : List (Reading σ)
deriving DecidableEq, Repr

inductive DbAction (σ : Type)
  | startWrite (raw : Bool)
  | beginWrite (w : Nat)
  | beginFails (w : Nat)
  | stage (w : Nat) (draft : σ)
  | commit (w : Nat)
  | abort (w : Nat)
  | rawReturns (w : Nat)
  | countDone (w : Nat)
  | loadDone
  | beginRead (r : Nat)
  | beginReadFails (r : Nat)
  | loadStarted (r : Nat)
deriving DecidableEq, Repr

section
variable {σ : Type}

def Writing.isLive : Writing σ → Bool
  | live _ _ => true
  | _ => false

def Writing.isFinished : Writing σ → Bool
  | finished => true
  | _ => false

def Writing.after (raw : Bool) : Writing σ := if raw then .counted true else .over

namespace GenDb

def new (committed : σ) : GenDb σ := ⟨committed, 0, 0, [], []⟩

def setWrite (db : GenDb σ) (w : Nat) (x : Writing σ) : GenDb σ :=
  { db with writes := db.writes.set w x }

def setRead (db : GenDb σ) (r : Nat) (x : Reading σ) : GenDb σ :=
  { db with reads := db.reads.set r x }

def step (db : GenDb σ) : DbAction σ → Option (GenDb σ)
  | .startWrite raw =>
  some { db with started := db.started + 1, writes := db.writes ++ [.counted raw] }
  | .beginWrite w =>
    match db.writes[w]? with
    | some (.counted raw) =>
      -- redb serialises its write transactions
      if db.writes.any Writing.isLive then none else some (db.setWrite w (.live raw db.committed))
    | _ => none
  | .beginFails w =>
    match db.writes[w]? with
    | some (.counted raw) => some (db.setWrite w (.after raw))
    | _ => none
  | .stage w draft =>
    match db.writes[w]? with
    | some (.live raw _) => some (db.setWrite w (.live raw draft))
    | _ => none
  | .commit w =>
    match db.writes[w]? with
    | some (.live raw draft) => some { db.setWrite w (.after raw) with committed := draft }
    | _ => none
  | .abort w =>
    match db.writes[w]? with
    | some (.live raw _) => some (db.setWrite w (.after raw))
    | _ => none
  | .rawReturns w =>
    match db.writes[w]? with
    | some (.counted true) => some (db.setWrite w .over)
    | _ => none
  | .countDone w =>
    match db.writes[w]? with
    | some .over => some { db.setWrite w .finished with done := db.done + 1 }
    | _ => none
  | .loadDone => some { db with reads := db.reads ++ [.loaded db.done] }
  | .beginRead r =>
    match db.reads[r]? with
    | some (.loaded done) => some (db.setRead r (.opened done db.committed))
    | _ => none
  | .beginReadFails r =>
    match db.reads[r]? with
    | some (.loaded _) => some (db.setRead r .failed)
    | _ => none
  | .loadStarted r =>
    match db.reads[r]? with
    | some (.opened done snap) =>
      some (db.setRead r (.ready snap (if db.started = done then some done else none)))
    | _ => none

inductive ReadMoves (db : GenDb σ) : Reading σ → Reading σ → Prop
  | opened (done : Nat) : ReadMoves db (.loaded done) (.opened done db.committed)
  | failed (done : Nat) : ReadMoves db (.loaded done) .failed
  | ready (done : Nat) (snap : σ) :
    ReadMoves db (.opened done snap) (.ready snap (if db.started = done then some done else none))

inductive Moves (db : GenDb σ) : GenDb σ → Prop
  | start (raw : Bool) :
  Moves db { db with started := db.started + 1, writes := db.writes ++ [.counted raw] }
  | write {w : Nat} {x : Writing σ} (y : Writing σ) (committed : σ) (hx : db.writes[w]? = some x)
      (hunfinished : x.isFinished = false) :
    Moves db { db.setWrite w y with committed, done := db.done + y.isFinished.toNat }
  | load : Moves db { db with reads := db.reads ++ [.loaded db.done] }
  | read {r : Nat} {x y : Reading σ} (hx : db.reads[r]? = some x) (hxy : ReadMoves db x y) :
    Moves db (db.setRead r y)

theorem isFinished_after (raw : Bool) : (Writing.after raw : Writing σ).isFinished = false := by
  cases raw <;> rfl

theorem Moves.after {db : GenDb σ} {w : Nat} {x : Writing σ} (raw : Bool) (committed : σ)
    (hx : db.writes[w]? = some x) (hunfinished : x.isFinished = false) :
    Moves db { db.setWrite w (.after raw) with committed } := by
  have h := Moves.write (Writing.after raw) committed hx hunfinished
  rw [isFinished_after] at h
  exact h

theorem step_moves {db : GenDb σ} (a : DbAction σ) : After (db.step a) (Moves db) := by
  cases a with
  | startWrite raw => exact .some (.start raw)
  | beginWrite w =>
    rw [step]
    split
    next raw hx =>
      split
      next => exact .none
      next => exact .some (.write (.live raw db.committed) db.committed hx rfl)
    next => exact .none
  | beginFails w =>
    rw [step]
    split
    next raw hx => exact .some (.after raw db.committed hx rfl)
    next => exact .none
  | stage w draft =>
    rw [step]
    split
    next raw _ hx => exact .some (.write (.live raw draft) db.committed hx rfl)
    next => exact .none
  | commit w =>
    rw [step]
    split
    next raw draft hx => exact .some (.after raw draft hx rfl)
    next => exact .none
  | abort w =>
    rw [step]
    split
    next raw _ hx => exact .some (.after raw db.committed hx rfl)
    next => exact .none
  | rawReturns w =>
    rw [step]
    split
    next hx => exact .some (.write .over db.committed hx rfl)
    next => exact .none
  | countDone w =>
    rw [step]
    split
    next hx => exact .some (.write .finished db.committed hx rfl)
    next => exact .none
  | loadDone => exact .some .load
  | beginRead r =>
    rw [step]
    split
    next done hx => exact .some (.read hx (.opened done))
    next => exact .none
  | beginReadFails r =>
    rw [step]
    split
    next done hx => exact .some (.read hx (.failed done))
    next => exact .none
  | loadStarted r =>
    rw [step]
    split
    next done snap hx => exact .some (.read hx (.ready done snap))
    next => exact .none

/-- A read whose counter is still the last one started holds the committed state. -/
def Current (db : GenDb σ) (done : Nat) (snap : σ) : Prop :=
  done ≤ db.done ∧ (done = db.started → snap = db.committed)

def Known (db : GenDb σ) : Reading σ → Prop
  | .loaded done => done ≤ db.done
  | .opened done snap => db.Current done snap
  | .failed => True
  | .ready snap generation => ∀ g ∈ generation, db.Current g snap

structure Inv (db : GenDb σ) : Prop where
  started : db.started = db.writes.length
  done : db.done = db.writes.countP Writing.isFinished
  known : ∀ x ∈ db.reads, db.Known x
  same : ∀ a b g, .ready a (some g) ∈ db.reads → .ready b (some g) ∈ db.reads → a = b

theorem inv_new (committed : σ) : (new committed).Inv := by
  refine ⟨rfl, rfl, ?_, ?_⟩
  · intro x hx
    exact absurd hx List.not_mem_nil
  · intro a b g ha
    exact absurd ha List.not_mem_nil

theorem Inv.done_lt {db : GenDb σ} (h : db.Inv) {w : Nat} {x : Writing σ}
    (hx : db.writes[w]? = some x) (hunfinished : x.isFinished = false) : db.done < db.started := by
  rw [h.done, h.started, List.countP_lt_length_iff]
  exact ⟨x, List.mem_of_getElem? hx, hunfinished⟩

theorem Inv.done_le {db : GenDb σ} (h : db.Inv) : db.done ≤ db.started := by
  rw [h.done, h.started]
  exact List.countP_le_length

theorem Known.mono {db db' : GenDb σ} (hdone : db.done ≤ db'.done) (hahead : db.done < db'.started)
    {x : Reading σ} (h : db.Known x) : db'.Known x := by
  have hcurrent : ∀ {d : Nat} {snap : σ}, db.Current d snap → db'.Current d snap := by
    rintro d snap ⟨hle, -⟩
    refine ⟨hle.trans hdone, ?_⟩
    intro heq
    omega
  cases x with
  | loaded d => exact Nat.le_trans h hdone
  | opened d snap => exact hcurrent h
  | failed => trivial
  | ready snap generation => exact fun g hg => hcurrent (h g hg)

theorem ReadMoves.known {db : GenDb σ} {x y : Reading σ} (h : ReadMoves db x y) (hx : db.Known x) :
    db.Known y := by
  cases h with
  | opened d => exact ⟨hx, fun _ => rfl⟩
  | failed d => trivial
  | ready d snap =>
    intro g hg
    obtain ⟨-, heq⟩ := Option.ite_none_right_eq_some.mp hg
    cases heq
    exact hx

theorem ReadMoves.generation {db : GenDb σ} {x : Reading σ} {snap : σ} {g : Nat}
    (h : ReadMoves db x (.ready snap (some g))) : g = db.started := by
  generalize hy : Reading.ready snap (some g) = y at h
  cases h with
  | opened d => exact nomatch hy
  | failed d => exact nomatch hy
  | ready d snap' =>
    have hg := (Reading.ready.inj hy).2.symm
    obtain ⟨hd, heq⟩ := Option.ite_none_right_eq_some.mp hg
    rw [hd, Option.some.inj heq]

theorem Moves.inv {db db' : GenDb σ} (h : Moves db db') (hi : db.Inv) : db'.Inv := by
  cases h with
  | start raw =>
    refine ⟨?_, ?_, ?_, hi.same⟩
    · show db.started + 1 = (db.writes ++ [Writing.counted raw]).length
      rw [List.length_append, hi.started, List.length_singleton]
    · show db.done = (db.writes ++ [Writing.counted raw]).countP Writing.isFinished
      rw [List.countP_append, hi.done]
      rfl
    · intro x hx
      refine Known.mono ?_ ?_ (hi.known x hx)
      · exact le_refl db.done
      · exact Nat.lt_succ_of_le hi.done_le
  | @write w x y committed hx hunfinished =>
    have hw : w < db.writes.length := (List.getElem?_eq_some_iff.mp hx).1
    have hget : db.writes[w] = x := (List.getElem?_eq_some_iff.mp hx).2
    refine ⟨?_, ?_, ?_, hi.same⟩
    · show db.started = (db.writes.set w y).length
      rw [List.length_set, hi.started]
    · show db.done + y.isFinished.toNat = (db.writes.set w y).countP Writing.isFinished
      rw [List.countP_set hw, hget, hunfinished, hi.done]
      cases y.isFinished <;> rfl
    · intro z hz
      refine Known.mono ?_ ?_ (hi.known z hz)
      · exact Nat.le_add_right _ _
      · exact hi.done_lt hx hunfinished
  | load =>
    refine ⟨hi.started, hi.done, ?_, ?_⟩
    · intro x hx
      rcases List.mem_append.mp hx with hx | hx
      · exact hi.known x hx
      · obtain rfl := List.mem_singleton.mp hx
        exact le_refl db.done
    · intro a b g ha hb
      have hold : ∀ c : σ, .ready c (some g) ∈ db.reads ++ [.loaded db.done] →
          .ready c (some g) ∈ db.reads := by
        intro c hc
        exact (List.mem_append.mp hc).resolve_right (by simp)
      exact hi.same a b g (hold a ha) (hold b hb)
  | @read r x y hx hxy =>
    have hknown : db.Known y := hxy.known (hi.known x (List.mem_of_getElem? hx))
    have hall : ∀ z ∈ db.reads.set r y, db.Known z := by
      intro z hz
      rcases List.mem_or_eq_of_mem_set hz with hz | rfl
      · exact hi.known z hz
      · exact hknown
    refine ⟨hi.started, hi.done, hall, ?_⟩
    -- of two reads with one generation, the later one was given it while it was the last one
    -- started, so both hold the committed state
    intro a b g ha hb
    have hcommitted : g = db.started → a = b := by
      intro hg
      rw [(hall _ ha g rfl).2 hg, (hall _ hb g rfl).2 hg]
    rcases List.mem_or_eq_of_mem_set ha with ha | ha
    · rcases List.mem_or_eq_of_mem_set hb with hb | hb
      · exact hi.same a b g ha hb
      · exact hcommitted (hb ▸ hxy).generation
    · exact hcommitted (ha ▸ hxy).generation

theorem Moves.ready {db db' : GenDb σ} (h : Moves db db') {r : Nat} {snap : σ}
    {generation : Option Nat} (hr : db.reads[r]? = some (.ready snap generation)) :
    db'.reads[r]? = some (.ready snap generation) := by
  cases h with
  | start raw => exact hr
  | write y committed hx hunfinished => exact hr
  | load => exact List.getElem?_append_left (List.getElem?_eq_some_iff.mp hr).1 ▸ hr
  | @read q x y hx hxy =>
    show (db.reads.set q y)[r]? = _
    rw [List.getElem?_set, if_neg ?_, hr]
    rintro rfl
    obtain rfl := Option.mem_unique hx hr
    exact nomatch hxy

end GenDb
end
end MemoryGraph.Names
