import Mathlib

/-! Programs over a state whose operations may fail or be cut short by a crash: a failure can be
caught, a crash cannot. Their rules of pre- and postconditions. -/

namespace Lib
variable {W E α β : Type} {R : β → W → Prop}

inductive Stop (E : Type)
  | crash
  | fail (e : E)

abbrev Prog (W E α : Type) := EStateM (Stop E) W α

namespace Prog

def fail (e : E) : Prog W E α := throw (.fail e)

/-- Runs `x` and hands its failure on as a value; a crash goes through. -/
def attempt (x : Prog W E α) : Prog W E (Except E α) := fun w =>
  match x w with
  | .ok a w' => .ok (.ok a) w'
  | .error (.fail e) w' => .ok (.error e) w'
  | .error .crash w' => .error .crash w'

def final (x : Prog W E α) (w : W) : W :=
  match x w with
  | .ok _ w' => w'
  | .error _ w' => w'

/-- From a state in `P`, `x` ends in `Q` when it returns, in `F` when it fails and in `C`
when it crashes. -/
def Triple (P : W → Prop) (x : Prog W E α) (Q : α → W → Prop) (F C : W → Prop) : Prop :=
  ∀ w, P w → match x w with
    | .ok a w' => Q a w'
    | .error (.fail _) w' => F w'
    | .error .crash w' => C w'

variable {P : W → Prop} {Q : α → W → Prop} {F C : W → Prop}

theorem triple_mono {x : Prog W E α} {Q' : α → W → Prop} (h : Triple P x Q F C)
    (hQ : ∀ a w, Q a w → Q' a w) : Triple P x Q' F C := by
  intro w hw
  have hx := h w hw
  cases hrun : x w with
  | ok a w' =>
    rw [hrun] at hx
    exact hQ a w' hx
  | error e w' =>
    rw [hrun] at hx
    cases e with
    | crash => exact hx
    | fail e => exact hx

theorem triple_given {S : Prop} {x : Prog W E α} (h : S → Triple P x Q F C) :
    Triple (fun w => S ∧ P w) x Q F C :=
  fun w hw => h hw.1 w hw.2

theorem triple_pure {a : α} (h : ∀ w, P w → Q a w) : Triple P (pure a : Prog W E α) Q F C := h

theorem triple_fail {e : E} (h : ∀ w, P w → F w) : Triple P (fail e : Prog W E α) Q F C := h

theorem triple_bind {x : Prog W E α} {f : α → Prog W E β} (hx : Triple P x Q F C)
    (hf : ∀ a, Triple (Q a) (f a) R F C) : Triple P (x >>= f) R F C := by
  intro w hw
  have h := hx w hw
  change match EStateM.bind x f w with
    | .ok a w' => R a w'
    | .error (.fail _) w' => F w'
    | .error .crash w' => C w'
  unfold EStateM.bind
  cases hrun : x w with
  | ok a w' =>
    rw [hrun] at h
    exact hf a w' h
  | error e w' =>
    rw [hrun] at h
    cases e with
    | crash => exact h
    | fail e => exact h

theorem triple_try {x : Prog W E α} {k : Except E α → Prog W E β} {G : W → Prop}
    (hx : Triple P x Q F C) (hok : ∀ a, Triple (Q a) (k (.ok a)) R G C)
    (herr : ∀ e, Triple F (k (.error e)) R G C) : Triple P (attempt x >>= k) R G C := by
  refine triple_bind (Q := fun r w => match r with | .ok a => Q a w | .error _ => F w) (fun w hw =>
    ?_) fun r => ?_
  · have h := hx w hw
    unfold attempt
    cases hrun : x w with
    | ok a w' =>
      rw [hrun] at h
      exact h
    | error e w' =>
      rw [hrun] at h
      cases e with
      | crash => exact h
      | fail e => exact h
  · cases r with
    | ok a => exact hok a
    | error e => exact herr e

theorem triple_ignore {x : Prog W E α} {k : Except E α → Prog W E β} {G : W → Prop}
    (hx : Triple P x (fun _ => F) F C) (h : ∀ r, Triple F (k r) R G C) :
    Triple P (attempt x >>= k) R G C :=
  triple_try hx (fun a => h (.ok a)) (fun e => h (.error e))

end Prog
end Lib
