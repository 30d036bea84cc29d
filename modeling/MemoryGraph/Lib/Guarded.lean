import MemoryGraph.Lib.ByteReader

/-! A computation with checks in its steps against the same one without them: no check fails, so
the two agree, and it fails only as it may. -/

namespace Lib
variable {ε α β : Type} {E : ε → Prop} {x y : Except ε α} {e : ε} {a : α}

/-- `x` agrees with `y`, fails only as `E`, and otherwise ends with a `P`. -/
def Passes (E : ε → Prop) (x y : Except ε α) (P : α → Prop) : Prop :=
  y = x ∧ match x with
    | .ok a => P a
    | .error e => E e

namespace Passes
variable {P : α → Prop} {Q : β → Prop}

theorem ok (h : P a) : Passes E (.ok a) (.ok a) P := ⟨rfl, h⟩

theorem error (h : E e) : Passes E (.error e : Except ε α) (.error e) P := ⟨rfl, h⟩

theorem bind {f g : α → Except ε β} (h : Passes E x y P)
    (hf : ∀ a, x = .ok a → P a → Passes E (f a) (g a) Q) : Passes E (x >>= f) (y >>= g) Q := by
  obtain ⟨rfl, hx⟩ := h
  cases y with
  | ok a => exact hf a rfl hx
  | error e => exact ⟨rfl, hx⟩

theorem checked {x : Except ε α} (hx : x = .ok a) {f : α → Except ε β} {y : Except ε β}
    (h : Passes E (f a) y Q) : Passes E (x >>= f) y Q := by
  subst hx
  exact h

theorem check {c : Prop} [Decidable c] (he : E e) {f g : Unit → Except ε β}
    (hf : ¬c → Passes E (f ()) (g ()) Q) : Passes E (failIf c e >>= f) (failIf c e >>= g) Q := by
  rw [failIf]
  split
  next => exact ⟨rfl, he⟩
  next h => exact hf h

theorem mono {P' : α → Prop} (h : Passes E x y P) (hP : ∀ a, P a → P' a) : Passes E x y P' := by
  obtain ⟨rfl, hx⟩ := h
  refine ⟨rfl, ?_⟩
  cases y with
  | ok a => exact hP a hx
  | error e => exact hx

theorem error_of (h : Passes E x y P) (he : x = .error e) : E e := by
  subst he
  exact h.2

theorem ok_of (h : Passes E x y P) (ha : x = .ok a) : P a := by
  subst ha
  exact h.2

end Passes

variable {I : Cursor → Prop}

def ReadPasses (I : Cursor → Prop) (E : ε → Prop) (p q : ReadM ε α) (P : α → Prop) : Prop :=
  ∀ c, I c → Passes E (p.run c) (q.run c) fun r => I r.2 ∧ P r.1

namespace ReadPasses
variable {P : α → Prop} {Q : β → Prop}

theorem pure (h : P a) : ReadPasses I E (Pure.pure a) (Pure.pure a) P := fun _ hc => .ok ⟨hc, h⟩

theorem throw (h : E e) :
    ReadPasses I E (MonadExcept.throw e : ReadM ε α) (MonadExcept.throw e) P :=
  fun _ _ => .error h

theorem throw_bind (h : E e) {f g : α → ReadM ε β} :
    ReadPasses I E (MonadExcept.throw e >>= f) (MonadExcept.throw e >>= g) Q := fun _ _ => .error h

theorem bind {p q : ReadM ε α} {f g : α → ReadM ε β} (h : ReadPasses I E p q P)
    (hf : ∀ a, P a → ReadPasses I E (f a) (g a) Q) : ReadPasses I E (p >>= f) (q >>= g) Q := by
  intro c hc
  rw [StateT.run_bind, StateT.run_bind]
  exact (h c hc).bind fun r _ hr => hf r.1 hr.2 r.2 hr.1

theorem bind_map {γ : Type} {p : ReadM ε α} {q : ReadM ε γ} {k : γ → α} {f : α → ReadM ε β}
    {g : γ → ReadM ε β} (h : ReadPasses I E p (k <$> q) P)
    (hf : ∀ x, P (k x) → ReadPasses I E (f (k x)) (g x) Q) :
    ReadPasses I E (p >>= f) (q >>= g) Q := by
  intro c hc
  obtain ⟨heq, hp⟩ := h c hc
  rw [StateT.run_map] at heq
  rw [StateT.run_bind, StateT.run_bind]
  cases hq : q.run c with
  | error e =>
    rw [hq] at heq
    rw [← heq] at hp ⊢
    exact .error hp
  | ok r =>
    rw [hq] at heq
    rw [← heq] at hp ⊢
    exact hf r.1 hp.2 r.2 hp.1

theorem checked {x : Except ε α} (hx : x = .ok a) {f : α → ReadM ε β} {q : ReadM ε β}
    (h : ReadPasses I E (f a) q Q) : ReadPasses I E ((liftM x : ReadM ε α) >>= f) q Q := by
  subst hx
  exact h

theorem check {c : Prop} [Decidable c] (he : E e) {f g : Unit → ReadM ε β}
    (hf : ¬c → ReadPasses I E (f ()) (g ()) Q) :
    ReadPasses I E (failIf c e >>= f) (failIf c e >>= g) Q := by
  rw [failIf]
  split
  next => exact throw_bind he
  next h => exact hf h

theorem ite {c : Prop} [Decidable c] {p p' q q' : ReadM ε α} (h : c → ReadPasses I E p q P)
    (h' : ¬c → ReadPasses I E p' q' P) :
    ReadPasses I E (if c then p else p') (if c then q else q') P := by
  split
  next hc => exact h hc
  next hc => exact h' hc

theorem get : ReadPasses I E (MonadState.get : ReadM ε Cursor) MonadState.get I :=
  fun _ hc => .ok ⟨hc, hc⟩

theorem modify {g : Cursor → Cursor} (hg : ∀ c, I c → I (g c)) :
    ReadPasses I E (MonadState.modifyGet fun c => ((), g c) : ReadM ε Unit)
      (MonadState.modifyGet fun c => ((), g c)) fun _ => True := fun c hc => .ok ⟨hg c hc, trivial⟩

end ReadPasses
end Lib
