import MemoryGraph.Names.Cache
import MemoryGraph.Names.GenDb
import MemoryGraph.Pattern

/-! The two name caches of an open store, shared by all its reads, between steps of any writes. -/

namespace MemoryGraph.Names
open Lib List
variable {x : SymbolQuery} {q : Nat} {c : NameCache}

structure NameCaches where
  fold : Option NameCache
  exact : Option NameCache
  buildingFold : Bool
  buildingExact : Bool
  maxBytes : Nat
deriving DecidableEq, Repr

namespace NameCaches

def defaultMaxBytes : Nat := 268435456

def default : NameCaches := ⟨none, none, false, false, defaultMaxBytes⟩

def slot (n : NameCaches) (exactCase : Bool) : Option NameCache :=
  if exactCase then n.exact else n.fold

def setSlot (n : NameCaches) (exactCase : Bool) (c : Option NameCache) : NameCaches :=
  if exactCase then { n with exact := c } else { n with fold := c }

def building (n : NameCaches) (exactCase : Bool) : Bool := if exactCase then n.buildingExact
    else n.buildingFold

def setBuilding (n : NameCaches) (exactCase b : Bool) : NameCaches :=
  if exactCase then { n with buildingExact := b } else { n with buildingFold := b }

def trim (n : NameCaches) (exactCase : Bool) (bound : Nat) : NameCaches :=
  if (n.slot exactCase).any (fun c => bound < c.bytes) then n.setSlot exactCase none else n

def get (n : NameCaches) (exactCase : Bool) (generation : Nat) : Option NameCache :=
  (n.slot exactCase).filter (fun c => c.generation = generation)

/-- A finished build is kept unless the slot already holds one as new. -/
def put (n : NameCaches) (exactCase : Bool) (b : NameCacheBuilder) : NameCaches :=
  match b.cache with
  | none => n
  | some c =>
    if (n.slot exactCase).all (fun old => old.generation < c.generation) then n.setSlot exactCase
      (some c) else n

end NameCaches

inductive Answer
  | found (ids : List Nat)
  | failed
  | panicked
deriving DecidableEq, Repr

inductive Phase
  | asked
  -- `get` returned this cache
  | hit (cache : NameCache)
  | missed
  -- in `builder`: the bound is read, and caching is on
  | bounded (generation maxBytes : Nat)
  -- the rows of the walk still to come, the ids so far, and the build if there is one
  | walking (todo : List Row) (ids : List Nat) (build : Option NameCacheBuilder)
  | dropping (answer : Answer)
  | ended (answer : Answer)
deriving DecidableEq, Repr

/-- An infix or suffix query on one read transaction; the pattern is folded unless the case is
exact. -/
structure SymbolQuery where
  read : Nat
  exactCase : Bool
  pattern : SymbolPattern
  needle : List Char
  phase : Phase
deriving DecidableEq, Repr

structure State (σ : Type) where
  db : GenDb σ
  caches : NameCaches
  queries : List SymbolQuery
deriving DecidableEq, Repr

inductive Action (σ : Type)
  | db (a : DbAction σ)
  | setMaxBytes (n : Nat)
  | trim (exactCase : Bool) (bound : Nat)
  | ask (read : Nat) (exactCase : Bool) (pattern : SymbolPattern)
  | get (q : Nat)
  | loadBound (q : Nat)
  | acquire (q : Nat)
  | walk (q : Nat)
  | walkFails (q : Nat)
  | put (q : Nat)
  | drop (q : Nat)
  | collect (q : Nat)
deriving DecidableEq, Repr

namespace State
section
variable {σ : Type}

def new (committed : σ) : State σ := ⟨.new committed, .default, []⟩

def setQuery (s : State σ) (q : Nat) (x : SymbolQuery) (phase : Phase) : State σ :=
  { s with queries := s.queries.set q { x with phase } }

end

variable {σ : Type} (index : Bool → σ → List Row)

def rows (s : State σ) (x : SymbolQuery) : List Row :=
  match s.db.reads[x.read]? with
  | some (.ready snap _) => index x.exactCase snap
  | _ => []

def generation (s : State σ) (x : SymbolQuery) : Option Nat :=
  match s.db.reads[x.read]? with
  | some (.ready _ g) => if x.needle.isEmpty then none else g
  | _ => none

def collected (c : NameCache) (x : SymbolQuery) : Answer :=
  match c.collect x.needle x.pattern.matchesName [] with
  | none => .panicked
  | some ids => .found ids

def offered (x : SymbolQuery) (row : Row) (ids : List Nat) : List Nat :=
  if x.pattern.matchesName row.name then ids ++ row.ids else ids

def queryStep (s : State σ) (q : Nat) (x : SymbolQuery) : Action σ → Option (State σ)
  | .get _ =>
    match x.phase with
    | .asked =>
      match (s.generation x).bind (s.caches.get x.exactCase) with
      | some c => some (s.setQuery q x (.hit c))
      | none => some (s.setQuery q x .missed)
    | _ => none
  | .loadBound _ =>
    match x.phase with
    | .missed =>
      match s.generation x with
      | none => some (s.setQuery q x (.walking (s.rows index x) [] none))
      | some g =>
        if s.caches.maxBytes = 0 then some (s.setQuery q x (.walking (s.rows index x) [] none))
        else some (s.setQuery q x (.bounded g s.caches.maxBytes))
    | _ => none
  | .acquire _ =>
    match x.phase with
    | .bounded g maxBytes =>
      -- another build of this mode is under way
      if s.caches.building x.exactCase then
        some (s.setQuery q x (.walking (s.rows index x) [] none))
      else some { s.setQuery q x (.walking (s.rows index x) [] (some (.new g maxBytes))) with
        caches := s.caches.setBuilding x.exactCase true }
    | _ => none
  | .walk _ =>
    match x.phase with
    | .walking (row :: todo) ids build =>
      some (s.setQuery q x (.walking todo (offered x row ids) (build.map (·.pushRow row))))
    | _ => none
  | .walkFails _ =>
    match x.phase with
    | .walking _ _ none => some (s.setQuery q x (.ended .failed))
    | .walking _ _ (some _) => some (s.setQuery q x (.dropping .failed))
    | _ => none
  | .put _ =>
    match x.phase with
    | .walking [] ids none => some (s.setQuery q x (.ended (.found ids)))
    | .walking [] ids (some b) =>
      some { s.setQuery q x (.dropping (.found ids)) with caches := s.caches.put x.exactCase b }
    | _ => none
  | .drop _ =>
    match x.phase with
    | .dropping answer =>
      some { s.setQuery q x (.ended answer) with caches := s.caches.setBuilding x.exactCase false }
    | _ => none
  | .collect _ =>
    match x.phase with
    | .hit c => some (s.setQuery q x (.ended (collected c x)))
    | _ => none
  | _ => none

def ask (s : State σ) (read : Nat) (exactCase : Bool) (pattern : SymbolPattern) :
    Option (State σ) :=
  let pattern := if exactCase then pattern else pattern.folded
  match s.db.reads[read]?, pattern.needle with
  | some (.ready _ _), some needle =>
    some { s with queries := s.queries ++ [⟨read, exactCase, pattern, needle, .asked⟩] }
  | _, _ => none

def step (s : State σ) (a : Action σ) : Option (State σ) :=
  match a with
  | .db a => (s.db.step a).map fun db => { s with db }
  | .setMaxBytes n => some { s with caches := { s.caches with maxBytes := n } }
  | .trim exactCase bound => some { s with caches := s.caches.trim exactCase bound }
  | .ask read exactCase pattern => s.ask read exactCase pattern
  | .get q | .loadBound q | .acquire q | .walk q | .walkFails q | .put q | .drop q | .collect q =>
    (s.queries[q]?).bind fun x => s.queryStep index q x a

end State

section
variable {σ : Type} (index : Bool → σ → List Row)

def Honest (db : GenDb σ) (exactCase : Bool) (c : NameCache) : Prop :=
  ∃ (r : Nat) (snap : σ), db.reads[r]? = some (.ready snap (some c.generation)) ∧
    c.Holds (index exactCase snap)

def Answer.Sound (x : SymbolQuery) (walked : List Row) : Answer → Prop
  | found ids => ids = accepted x.pattern.matchesName walked
  | failed => True
  | panicked => False

/-- What a query has, against the rows of its own read transaction and its generation. -/
def Phase.Sound (x : SymbolQuery) (all : List Row) (generation : Option Nat) : Phase → Prop
  | asked => True
  | hit c => c.Holds all ∧ x.needle ≠ []
  | missed => True
  | bounded g _ => generation = some g
  | walking todo ids build =>
      ∃ walked, all = walked ++ todo ∧ ids = accepted x.pattern.matchesName walked ∧
      ∀ b ∈ build, ∃ g, generation = some g ∧ b.After g b.maxBytes walked
  | dropping answer => answer.Sound x all
  | ended answer => answer.Sound x all

structure SymbolQuery.Sound (db : GenDb σ) (x : SymbolQuery) : Prop where
  needle : x.pattern.needle = some x.needle
  phase : ∃ snap generation, db.reads[x.read]? = some (.ready snap generation) ∧
    x.phase.Sound x (index x.exactCase snap) generation

structure State.Inv (s : State σ) : Prop where
  db : s.db.Inv
  slots : ∀ exactCase, ∀ c ∈ s.caches.slot exactCase, Honest index s.db exactCase c
  queries : ∀ x ∈ s.queries, x.Sound index s.db
end

namespace NameCaches
variable (n : NameCaches) (e e' : Bool)

@[simp] theorem slot_setSlot (c : Option NameCache) :
    (n.setSlot e c).slot e' = if e = e' then c else n.slot e' := by
  cases e <;> cases e' <;> rfl

@[simp] theorem slot_setBuilding (b : Bool) : (n.setBuilding e b).slot e' = n.slot e' := by
  cases e <;> cases e' <;> rfl

theorem mem_slot_trim {bound : Nat} (h : c ∈ (n.trim e bound).slot e') : c ∈ n.slot e' := by
  rw [trim] at h
  split at h
  · rw [slot_setSlot] at h
    split at h
    · exact nomatch h
    · exact h
  · exact h

theorem mem_slot_put {b : NameCacheBuilder} (h : c ∈ (n.put e b).slot e') :
    c ∈ n.slot e' ∨ e = e' ∧ b.cache = some c := by
  rw [put] at h
  split at h
  · exact .inl h
  next c' hc =>
    split at h
    · rw [slot_setSlot] at h
      split at h
      next he => exact .inr ⟨he, hc.trans h⟩
      next => exact .inl h
    · exact .inl h

end NameCaches

theorem accepted_snoc (accepts : List Char → Bool) (rows : List Row) (row : Row) :
    accepted accepts (rows ++ [row]) =
      if accepts row.name then accepted accepts rows ++ row.ids else accepted accepts rows := by
  rw [accepted_append]
  cases h : accepts row.name <;> simp [accepted, h]

section
variable {σ : Type} {index : Bool → σ → List Row}

theorem Honest.mono {db db' : GenDb σ} (hm : GenDb.Moves db db') {e : Bool}
    (h : Honest index db e c) : Honest index db' e c := by
  obtain ⟨r, snap, hr, hc⟩ := h
  exact ⟨r, snap, hm.ready hr, hc⟩

theorem SymbolQuery.Sound.mono {db db' : GenDb σ} (hm : GenDb.Moves db db')
    (h : x.Sound index db) : x.Sound index db' := by
  obtain ⟨snap, generation, hr, hp⟩ := h.phase
  exact ⟨h.needle, snap, generation, hm.ready hr, hp⟩

theorem Honest.holds {db : GenDb σ} (hi : db.Inv) {e : Bool} (h : Honest index db e c) {r : Nat}
    {snap : σ} (hr : db.reads[r]? = some (.ready snap (some c.generation))) :
    c.Holds (index e snap) := by
  obtain ⟨r', snap', hr', hc⟩ := h
  obtain rfl := hi.same snap snap' c.generation (mem_of_getElem? hr) (mem_of_getElem? hr')
  exact hc

namespace State
variable {s s' : State σ}

theorem inv_new (committed : σ) : (new committed).Inv index := by
  refine ⟨GenDb.inv_new committed, ?_, ?_⟩
  · intro e c hc
    cases e <;> exact nomatch hc
  · intro x hx
    exact absurd hx not_mem_nil

theorem rows_eq {snap : σ} {g : Option Nat} (h : s.db.reads[x.read]? = some (.ready snap g)) :
    s.rows index x = index x.exactCase snap := by
  rw [rows, h]

theorem generation_eq_some {snap : σ} {g : Option Nat} {n : Nat}
    (h : s.db.reads[x.read]? = some (.ready snap g)) (hn : s.generation x = some n) :
    g = some n ∧ x.needle ≠ [] := by
  rw [generation, h] at hn
  obtain ⟨hne, hg⟩ := Option.ite_none_left_eq_some.mp hn
  exact ⟨hg, fun he => hne (isEmpty_iff.mpr he)⟩

theorem Inv.move (hi : s.Inv index) (hq : s.queries[q]? = some x) {phase : Phase}
    {caches : NameCaches} (hslots : ∀ e, ∀ c ∈ caches.slot e, Honest index s.db e c)
    (hphase : ∀ snap generation, s.db.reads[x.read]? = some (.ready snap generation) →
      x.phase.Sound x (index x.exactCase snap) generation → phase.Sound x
      (index x.exactCase snap) generation) :
    ({ s.setQuery q x phase with caches } : State σ).Inv index := by
  refine ⟨hi.db, hslots, ?_⟩
  intro y hy
  rcases mem_or_eq_of_mem_set hy with hy | rfl
  · exact hi.queries y hy
  · have hx := hi.queries x (mem_of_getElem? hq)
    obtain ⟨snap, generation, hr, hp⟩ := hx.phase
    refine ⟨hx.needle, snap, generation, hr, ?_⟩
    have hnew := hphase snap generation hr hp
    -- soundness of a phase reads only the pattern and the needle of its query
    cases phase with
    | dropping answer => cases answer <;> exact hnew
    | ended answer => cases answer <;> exact hnew
    | _ => exact hnew

theorem Inv.get (hi : s.Inv index) (hq : s.queries[q]? = some x) :
    After (s.queryStep index q x (.get q)) (Inv index) := by
  rw [queryStep]
  split
  next =>
    split
    next c hc =>
      refine .some (hi.move hq hi.slots ?_)
      intro snap generation hr _
      obtain ⟨g, hg, hget⟩ := Option.bind_eq_some_iff.mp hc
      obtain ⟨hslot, hgen⟩ := Option.filter_eq_some_iff.mp hget
      obtain ⟨rfl, hne⟩ := generation_eq_some hr hg
      obtain rfl := of_decide_eq_true hgen
      exact ⟨(hi.slots x.exactCase c hslot).holds hi.db hr, hne⟩
    next => exact .some (hi.move hq hi.slots fun _ _ _ _ => trivial)
  next => exact .none

theorem sound_start {all : List Row} {generation : Option Nat} {build : Option NameCacheBuilder}
    (h : ∀ b ∈ build, ∃ g, generation = some g ∧ b.After g b.maxBytes []) :
    (Phase.walking all [] build).Sound x all generation := ⟨[], rfl, rfl, h⟩

theorem Inv.loadBound (hi : s.Inv index) (hq : s.queries[q]? = some x) :
    After (s.queryStep index q x (.loadBound q)) (Inv index) := by
  have hwalk : (s.setQuery q x (.walking (s.rows index x) [] none)).Inv index := by
    refine hi.move hq hi.slots ?_
    intro snap generation hr _
    rw [rows_eq hr]
    exact sound_start nofun
  rw [queryStep]
  split
  next =>
    split
    next => exact .some hwalk
    next g hg =>
      split
      next => exact .some hwalk
      next =>
        refine .some (hi.move hq hi.slots ?_)
        intro snap generation hr _
        exact (generation_eq_some hr hg).1
  next => exact .none

theorem Inv.acquire (hi : s.Inv index) (hq : s.queries[q]? = some x) :
    After (s.queryStep index q x (.acquire q)) (Inv index) := by
  rw [queryStep]
  split
  next g maxBytes hphase =>
    split
    next =>
      refine .some (hi.move hq hi.slots ?_)
      intro snap generation hr _
      rw [rows_eq hr]
      exact sound_start nofun
    next =>
      refine .some (hi.move hq ?_ ?_)
      · intro e c hc
        rw [NameCaches.slot_setBuilding] at hc
        exact hi.slots e c hc
      · intro snap generation hr hp
        rw [hphase] at hp
        rw [rows_eq hr]
        apply sound_start
        intro b hb
        cases hb
        exact ⟨g, hp, NameCacheBuilder.after_new g maxBytes⟩
  next => exact .none

theorem Inv.walk (hi : s.Inv index) (hq : s.queries[q]? = some x) :
    After (s.queryStep index q x (.walk q)) (Inv index) := by
  rw [queryStep]
  split
  next row todo ids build hphase =>
    refine .some (hi.move hq hi.slots ?_)
    intro snap generation _ hp
    rw [hphase] at hp
    obtain ⟨walked, hall, rfl, hbuild⟩ := hp
    refine ⟨walked ++ [row], ?_, (accepted_snoc _ walked row).symm, ?_⟩
    · rw [hall, append_assoc, singleton_append]
    · intro b hb
      obtain ⟨b', hb', rfl⟩ := Option.map_eq_some_iff.mp hb
      obtain ⟨g, hg, hafter⟩ := hbuild b' hb'
      have hrow := hafter.pushRow row
      rw [← hrow.1] at hrow
      exact ⟨g, hg, hrow⟩
  next => exact .none

theorem Inv.walkFails (hi : s.Inv index) (hq : s.queries[q]? = some x) :
    After (s.queryStep index q x (.walkFails q)) (Inv index) := by
  rw [queryStep]
  split
  next => exact .some (hi.move hq hi.slots fun _ _ _ _ => trivial)
  next => exact .some (hi.move hq hi.slots fun _ _ _ _ => trivial)
  next => exact .none

theorem sound_walked {all : List Row} {generation : Option Nat} {ids : List Nat}
    {build : Option NameCacheBuilder} (h : (Phase.walking [] ids build).Sound x all generation) :
    ids = accepted x.pattern.matchesName all ∧
      ∀ b ∈ build, ∃ g, generation = some g ∧ b.After g b.maxBytes all := by
  obtain ⟨walked, hall, hids, hbuild⟩ := h
  rw [append_nil] at hall
  exact hall ▸ ⟨hids, hbuild⟩

theorem Inv.put (hi : s.Inv index) (hq : s.queries[q]? = some x) :
    After (s.queryStep index q x (.put q)) (Inv index) := by
  rw [queryStep]
  split
  next ids hphase =>
    refine .some (hi.move hq hi.slots ?_)
    intro snap generation _ hp
    rw [hphase] at hp
    exact (sound_walked hp).1
  next ids b hphase =>
    refine .some (hi.move hq ?_ ?_)
    · intro e c hc
      rcases NameCaches.mem_slot_put _ _ _ hc with hold | ⟨rfl, hnew⟩
      · exact hi.slots e c hold
      -- the build was over the rows of a read with its generation
      · obtain ⟨snap, generation, hr, hp⟩ := (hi.queries x (mem_of_getElem? hq)).phase
        rw [hphase] at hp
        obtain ⟨g, rfl, -, hafter⟩ := (sound_walked hp).2 b rfl
        rw [hnew] at hafter
        obtain ⟨hholds, rfl⟩ := hafter
        exact ⟨x.read, snap, hr, hholds⟩
    · intro snap generation _ hp
      rw [hphase] at hp
      exact (sound_walked hp).1
  next => exact .none

theorem Inv.drop (hi : s.Inv index) (hq : s.queries[q]? = some x) :
    After (s.queryStep index q x (.drop q)) (Inv index) := by
  rw [queryStep]
  split
  next answer hphase =>
    refine .some (hi.move hq ?_ ?_)
    · intro e c hc
      rw [NameCaches.slot_setBuilding] at hc
      exact hi.slots e c hc
    · intro snap generation _ hp
      rw [hphase] at hp
      exact hp
  next => exact .none

theorem Inv.collect (hi : s.Inv index) (hq : s.queries[q]? = some x) :
    After (s.queryStep index q x (.collect q)) (Inv index) := by
  rw [queryStep]
  split
  next c hphase =>
    refine .some (hi.move hq hi.slots ?_)
    intro snap generation _ hp
    rw [hphase] at hp
    obtain ⟨hholds, hne⟩ := hp
    have hneedle := (hi.queries x (mem_of_getElem? hq)).needle
    have hcollect := hholds.collect hne (fun name => SymbolPattern.infix_of_matchesName hneedle) []
    rw [collected, hcollect]
    exact nil_append _
  next => exact .none

theorem Inv.ask (hi : s.Inv index) (read : Nat) (exactCase : Bool) (pattern : SymbolPattern) :
    After (s.ask read exactCase pattern) (Inv index) := by
  rw [State.ask]
  split
  next snap generation needle hread hneedle =>
    refine .some ⟨hi.db, hi.slots, ?_⟩
    intro x hx
    rcases mem_append.mp hx with hx | hx
    · exact hi.queries x hx
    · obtain rfl := mem_singleton.mp hx
      exact ⟨hneedle, snap, generation, hread, trivial⟩
  next => exact .none

theorem Inv.step (hi : s.Inv index) (a : Action σ) : After (s.step index a) (Inv index) := by
  cases a with
  | db a =>
    refine .map fun db hdb => ?_
    have hm := GenDb.step_moves a db hdb
    exact ⟨hm.inv hi.db, fun e c hc => (hi.slots e c hc).mono hm, fun x hx =>
      (hi.queries x hx).mono hm⟩
  | setMaxBytes n =>
    exact .some ⟨hi.db, fun e c hc => hi.slots e c (by cases e <;> exact hc), hi.queries⟩
  | trim e bound =>
    exact .some ⟨hi.db, fun e' c hc =>
      hi.slots e' c (NameCaches.mem_slot_trim _ _ _ hc), hi.queries⟩
  | ask read exactCase pattern => exact hi.ask read exactCase pattern
  | get q => exact .bind fun x hq => hi.get hq
  | loadBound q => exact .bind fun x hq => hi.loadBound hq
  | acquire q => exact .bind fun x hq => hi.acquire hq
  | walk q => exact .bind fun x hq => hi.walk hq
  | walkFails q => exact .bind fun x hq => hi.walkFails hq
  | put q => exact .bind fun x hq => hi.put hq
  | drop q => exact .bind fun x hq => hi.drop hq
  | collect q => exact .bind fun x hq => hi.collect hq

theorem inv_of_reach {committed : σ} (h : Reach (step index) (fun _ _ => True) (new committed) s) :
    s.Inv index :=
  h.inv (inv_new committed) fun _ t a hi _ hs => hi.step a t hs

/-- Reads with one generation see one state, a cache that a query was given holds the rows of the
query's own read transaction, and what a query collects is what a walk of them collects. -/
theorem caches_agree {committed : σ} (h : Reach (step index) (fun _ _ => True) (new committed) s) :
    (∀ (r r' : Nat) (a b : σ) (g : Nat), s.db.reads[r]? = some (.ready a (some g)) →
      s.db.reads[r']? = some (.ready b (some g)) → a = b) ∧
      ∀ x ∈ s.queries, ∃ snap generation, s.db.reads[x.read]? = some (.ready snap generation) ∧
        (∀ c, x.phase = .hit c → c.Holds (index x.exactCase snap)) ∧
        ∀ answer, x.phase = .ended answer →
          answer = .failed ∨
            answer = .found (accepted x.pattern.matchesName (index x.exactCase snap)) := by
  have hi := inv_of_reach h
  constructor
  · intro r r' a b g ha hb
    exact hi.db.same a b g (List.mem_of_getElem? ha) (List.mem_of_getElem? hb)
  · intro x hx
    obtain ⟨snap, generation, hr, hp⟩ := (hi.queries x hx).phase
    refine ⟨snap, generation, hr, ?_, ?_⟩
    · intro c hc
      rw [hc] at hp
      exact hp.1
    · intro answer hanswer
      rw [hanswer] at hp
      cases answer with
      | found ids => exact .inr (congrArg Answer.found hp)
      | failed => exact .inl rfl
      | panicked => exact hp.elim

def sharedRun : List (Action (List Row)) :=
  [.db (.startWrite false), .db (.beginWrite 0), .db (.stage 0 [⟨['a', 'b'], [3]⟩]),
    .db (.commit 0), .db (.countDone 0), .db .loadDone, .db (.beginRead 0), .db (.loadStarted 0),
    .ask 0 true (.Infix "ab"), .get 0, .loadBound 0, .acquire 0, .walk 0, .put 0, .drop 0,
    .db .loadDone, .db (.beginRead 1), .db (.loadStarted 1), .db (.startWrite false),
    .ask 1 true (.Suffix "b"), .get 1]

theorem caches_agree_shared :
    ∃ s, run (step fun _ rows => rows) (new []) sharedRun = some s ∧
      ∃ x ∈ s.queries, ∃ c, x.phase = .hit c ∧ c.Holds [⟨['a', 'b'], [3]⟩] := by
  obtain ⟨s, hs, x, hx, c, hphase, hread⟩ : ∃ s, run (step fun _ rows => rows) (new []) sharedRun =
      some s ∧ ∃ x ∈ s.queries, ∃ c, x.phase = .hit c ∧
        s.db.reads[x.read]? = some (.ready [⟨['a', 'b'], [3]⟩] (some 1)) :=
    ⟨_, rfl, _, List.mem_cons_of_mem _ List.mem_cons_self, _, rfl, rfl⟩
  have hreach : Reach (step fun _ rows => rows) (fun _ _ => True) (new []) s :=
    reach_run .start (of_decide_eq_true rfl) hs
  obtain ⟨snap, generation, hr, hhit, -⟩ := (caches_agree hreach).2 x hx
  obtain ⟨rfl, -⟩ := Reading.ready.inj (Option.some.inj (hr.symm.trans hread))
  exact ⟨s, hs, x, hx, c, hphase, hhit c hphase⟩

end State
end
end MemoryGraph.Names
