import MemoryGraph.Lib.ByteReader

/-! What every value satisfies that a reader yields, from any buffer and position. -/

namespace Lib
variable {ε α β : Type} {p : ReadM ε α}

/-- A run of `p` that succeeds yields a value with `P`. -/
def Yields (p : ReadM ε α) (P : α → Prop) : Prop := ∀ c x c', p.run c = .ok (x, c') → P x

namespace Yields
variable {P Q : α → Prop} {R : β → Prop}

theorem pure {x : α} (h : P x) : Yields (ε := ε) (Pure.pure x) P := by
  intro c y c' hrun
  cases hrun
  exact h

theorem throw (e : ε) : Yields (MonadExcept.throw e : ReadM ε α) P := fun _ _ _ h => nomatch h

theorem any (p : ReadM ε α) : Yields p fun _ => True := fun _ _ _ _ => trivial

theorem bind {f : α → ReadM ε β} (hp : Yields p P) (hf : ∀ x, P x → Yields (f x) R) :
    Yields (p >>= f) R := by
  intro c y c' hrun
  rw [StateT.run_bind] at hrun
  obtain ⟨⟨x, c₁⟩, hx, hy⟩ := bind_eq_ok.mp hrun
  exact hf x (hp c x c₁ hx) c₁ y c' hy

theorem after {f : α → ReadM ε β} (hf : ∀ x, Yields (f x) R) : Yields (p >>= f) R :=
  (any p).bind fun x _ => hf x

theorem check {c : Prop} [Decidable c] {e : ε} {f : Unit → ReadM ε β} (hf : ¬c → Yields (f ()) R) :
    Yields (failIf c e >>= f) R := by
  rw [failIf]
  split
  next => exact (throw e).bind (P := fun _ => False) fun _ hf => hf.elim
  next h => exact (pure (P := fun _ => True) trivial).bind fun _ _ => hf h

theorem ite {c : Prop} [Decidable c] {p q : ReadM ε α} (hp : c → Yields p P)
    (hq : ¬c → Yields q P) : Yields (if c then p else q) P := by
  split
  next h => exact hp h
  next h => exact hq h

theorem mono (h : Yields p Q) (hQP : ∀ x, Q x → P x) : Yields p P :=
  fun c x c' hrun => hQP x (h c x c' hrun)

theorem readSection {len : Nat} {exceeds : Nat → ε} {trailing : ε} (h : Yields p P) :
    Yields (readSection len exceeds trailing p) P := by
  intro c x c' hrun
  rw [StateT.run, Lib.readSection] at hrun
  split at hrun
  · cases hrun
  split at hrun
  · cases hrun
  next y c₁ hy =>
    split at hrun
    · cases hrun
    · obtain ⟨rfl, -⟩ := Prod.mk.inj (Except.ok.inj hrun)
      exact h c y c₁ hy

end Yields
end Lib
