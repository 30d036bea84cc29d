import Mathlib

/-! Runs of a labelled transition system given as a partial step function, with a condition on the
steps. -/

namespace Lib

/-- Every state that the partial step leads to has `P`. -/
def After {S : Type} (x : Option S) (P : S → Prop) : Prop := ∀ t, x = some t → P t

namespace After
variable {S B : Type} {P : S → Prop}

protected theorem some {t : S} (h : P t) : After (some t) P := by
  intro _ hs
  exact Option.some.inj hs ▸ h

protected theorem none : After none P := fun _ hs => nomatch hs

theorem guard {c : Prop} [Decidable c] {x : Option S} (h : c → After x P) :
    After (if c then x else none) P := by
  intro t hs
  obtain ⟨hc, hs⟩ := Option.ite_none_right_eq_some.mp hs
  exact h hc t hs

protected theorem map {f : B → S} {x : Option B} (h : ∀ b, x = .some b → P (f b)) :
    After (x.map f) P := by
  intro t hs
  obtain ⟨b, hb, rfl⟩ := Option.map_eq_some_iff.mp hs
  exact h b hb

protected theorem bind {f : B → Option S} {x : Option B} (h : ∀ b, x = .some b → After (f b) P) :
    After (x.bind f) P := by
  intro t hs
  obtain ⟨b, hb, hs⟩ := Option.bind_eq_some_iff.mp hs
  exact h b hb t hs

end After

variable {S A : Type} (step : S → A → Option S) (ok : S → A → Prop)

/-- The states reached from `s₀` by steps that meet `ok`. -/
inductive Reach (s₀ : S) : S → Prop
  | start : Reach s₀ s₀
  | next {s t : S} {a : A} : Reach s₀ s → ok s a → step s a = some t → Reach s₀ t

variable {step ok}

theorem Reach.inv {P : S → Prop} {s₀ s : S} (h : Reach step ok s₀ s) (h₀ : P s₀)
    (hstep : ∀ s t a, P s → ok s a → step s a = some t → P t) : P s := by
  induction h with
  | start => exact h₀
  | next _ hok hs ih => exact hstep _ _ _ ih hok hs

theorem Reach.mono {ok' : S → A → Prop} (hok : ∀ {s a}, ok s a → ok' s a) {s₀ s : S}
    (h : Reach step ok s₀ s) : Reach step ok' s₀ s :=
  h.inv .start fun _ _ _ hs ha => hs.next (hok ha)

theorem Reach.trans {s₀ s t : S} (h : Reach step ok s₀ s) (h' : Reach step ok s t) :
    Reach step ok s₀ t := by
  induction h' with
  | start => exact h
  | next _ hok hs ih => exact ih.next hok hs

theorem exists_reach {P done : S → Prop} (weight : S → Nat)
    (hstep : ∀ s, P s → ¬done s → ∃ a t, ok s a ∧ step s a = some t ∧ P t ∧ weight t < weight s)
    {s : S} (hs : P s) : ∃ t, Reach step ok s t ∧ P t ∧ done t := by
  induction hn : weight s using Nat.strong_induction_on generalizing s with
  | _ n ih =>
    by_cases hdone : done s
    · exact ⟨s, .start, hs, hdone⟩
    obtain ⟨a, t, hok, ht, hP, hlt⟩ := hstep s hs hdone
    obtain ⟨u, hu, hPu, hend⟩ := ih (weight t) (hn ▸ hlt) hP rfl
    exact ⟨u, (Reach.start.next hok ht).trans hu, hPu, hend⟩

variable (step ok)

def run (s : S) : List A → Option S
  | [] => some s
  | a :: as => (step s a).bind (fun t => run t as)

def Allowed (s : S) : List A → Prop
  | [] => True
  | a :: as => ok s a ∧ ∀ t, step s a = some t → Allowed t as

instance decidableAllowed [∀ s a, Decidable (ok s a)] :
    (s : S) → (as : List A) → Decidable (Allowed step ok s as)
  | _, [] => inferInstanceAs (Decidable True)
  | s, a :: as =>
    match h : step s a with
    | none => decidable_of_iff (ok s a) (by simp [Allowed, h])
    | some t =>
      have := decidableAllowed t as
      decidable_of_iff (ok s a ∧ Allowed step ok t as) (by simp [Allowed, h])

variable {step ok}

theorem reach_run {s₀ s t : S} {as : List A} (h : Reach step ok s₀ s) (hok : Allowed step ok s as)
    (hrun : run step s as = some t) : Reach step ok s₀ t := by
  induction as generalizing s with
  | nil =>
    obtain rfl : s = t := by simpa [run] using hrun
    exact h
  | cons a as ih =>
    obtain ⟨u, hu, hrest⟩ := Option.bind_eq_some_iff.mp hrun
    exact ih (h.next hok.1 hu) (hok.2 u hu) hrest

theorem run_append (s : S) (as bs : List A) :
    run step s (as ++ bs) = (run step s as).bind fun t => run step t bs := by
  induction as generalizing s with
  | nil => rfl
  | cons a as ih =>
    rw [List.cons_append, run, run, Option.bind_assoc]
    exact congrArg _ (funext fun t => ih t)

theorem run_inv {P : S → Prop} (hstep : ∀ {s t : S} {a : A}, P s → step s a = some t → P t)
    {s t : S} {as : List A} (hs : P s) (h : run step s as = some t) : P t := by
  induction as generalizing s with
  | nil =>
    cases h
    exact hs
  | cons a as ih =>
    obtain ⟨u, hu, h⟩ := Option.bind_eq_some_iff.mp h
    exact ih (hstep hs hu) h

end Lib
