import Mathlib

/-! Replaying writes. Each write fills one slot and may enlarge a base that only grows; what it
puts in the slot depends on the base alone. -/

namespace Lib
variable {S A K V B : Type*}

inductive Run (step : S → A → S → Prop) : S → List A → S → Prop
  | nil (s : S) : Run step s [] s
  | cons {s t u : S} {a : A} {l : List A} : step s a t → Run step t l u → Run step s (a :: l) u

/-- The laws of such writes: `writes b a v` says that the base `b` has what `a` needs, and that
`a` then fills its slot with `v`. -/
structure Overwriting (S A K V B : Type*) [Preorder B] where
  step : S → A → S → Prop
  key : A → K
  slot : S → K → V
  base : S → B
  writes : B → A → V → Prop
  filled : ∀ {s a s'}, step s a s' → writes (base s') a (slot s' (key a))
  frame : ∀ {s a s' k}, step s a s' → k ≠ key a → slot s' k = slot s k
  grows : ∀ {s a s'}, step s a s' → base s ≤ base s'
  mono : ∀ {b b' a v}, b ≤ b' → writes b a v → writes b' a v
  unique : ∀ {s a v v'}, writes (base s) a v → writes (base s) a v' → v = v'
  settled : ∀ {s a v}, writes (base s) a v → ∃ s', step s a s' ∧ base s' = base s
  ext : ∀ {s s'}, base s = base s' → slot s = slot s' → s = s'

namespace Overwriting
variable [Preorder B] (o : Overwriting S A K V B)

def Holds (s : S) (a : A) : Prop := o.writes (o.base s) a (o.slot s (o.key a))

def HoldsLast (s : S) : List A → Prop
  | [] => True
  | a :: l => (o.key a ∉ l.map o.key → o.Holds s a) ∧ HoldsLast s l

def Ready (s : S) (l : List A) : Prop := ∀ a ∈ l, ∃ v, o.writes (o.base s) a v

variable {o} {s t : S} {l : List A}

theorem base_le_of_run (h : Run o.step s l t) : o.base s ≤ o.base t := by
  induction h with
  | nil => exact le_refl _
  | cons hs _ ih => exact (o.grows hs).trans ih

theorem slot_of_run (h : Run o.step s l t) {k : K} (hk : k ∉ l.map o.key) :
    o.slot t k = o.slot s k := by
  induction h with
  | nil => rfl
  | cons hs _ ih =>
    rw [List.map_cons, List.mem_cons, not_or] at hk
    rw [ih hk.2, o.frame hs hk.1]

theorem ready_of_run (h : Run o.step s l t) : o.Ready t l := by
  induction h with
  | nil => exact fun a ha => absurd ha List.not_mem_nil
  | cons hs hr ih =>
    intro a ha
    rcases List.mem_cons.mp ha with rfl | ha
    · exact ⟨_, o.mono (base_le_of_run hr) (o.filled hs)⟩
    · exact ih a ha

theorem holdsLast_of_run (h : Run o.step s l t) : o.HoldsLast t l := by
  induction h with
  | nil => trivial
  | cons hs hr ih =>
    refine ⟨fun hk => ?_, ih⟩
    have hslot := slot_of_run hr hk
    rw [Holds, hslot]
    exact o.mono (base_le_of_run hr) (o.filled hs)

theorem run_to (hready : o.Ready t l) (hlast : o.HoldsLast t l) (hbase : o.base s = o.base t)
    (hoff : ∀ k, k ∉ l.map o.key → o.slot s k = o.slot t k) : Run o.step s l t := by
  induction l generalizing s with
  | nil =>
    have hst : s = t := o.ext hbase (funext fun k => hoff k List.not_mem_nil)
    exact hst ▸ .nil s
  | cons a l ih =>
    obtain ⟨v, hv⟩ := hready a (.head _)
    obtain ⟨s', hstep, hb⟩ := o.settled (hbase ▸ hv)
    have hb' : o.base s' = o.base t := hb.trans hbase
    refine .cons hstep (ih (fun b hb => hready b (List.mem_cons_of_mem a hb)) hlast.2 hb'
      fun k hk => ?_)
    by_cases hka : k = o.key a
    · -- no later write fills the slot, so `t` holds what this write put there
      subst hka
      have hfilled := o.filled hstep
      rw [hb'] at hfilled
      exact o.unique hfilled (hlast.1 hk)
    · rw [o.frame hstep hka]
      refine hoff k fun hmem => ?_
      rcases List.mem_cons.mp hmem with h | h
      · exact hka h
      · exact hk h

theorem replay (h : Run o.step s l t) : Run o.step t l t :=
  run_to (ready_of_run h) (holdsLast_of_run h) rfl fun _ _ => rfl

end Overwriting
end Lib
