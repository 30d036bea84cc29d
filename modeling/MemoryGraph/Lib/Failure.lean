import MemoryGraph.Lib.ByteReader
import MemoryGraph.Lib.Search

/-! How a computation can fail: every error it ends with is of the kind `P`. One rule for each
way computations and readers are put together. -/

namespace Lib
variable {ε α β : Type} {P : ε → Prop} {e : ε}

def FailsAs (P : ε → Prop) (x : Except ε α) : Prop := ∀ e, x = .error e → P e

namespace FailsAs

theorem ok (a : α) : FailsAs P (.ok a : Except ε α) := fun _ h => by cases h

theorem error (h : P e) : FailsAs P (.error e : Except ε α) := fun _ h' => Except.error.inj h' ▸ h

theorem bind {x : Except ε α} {f : α → Except ε β} (hx : FailsAs P x) (hf : ∀ a, FailsAs P (f a)) :
    FailsAs P (x >>= f) := by
  intro e h
  rcases bind_eq_error.mp h with h | ⟨a, -, h⟩
  · exact hx e h
  · exact hf a e h

theorem ite {c : Prop} [Decidable c] {x y : Except ε α} (hx : FailsAs P x) (hy : FailsAs P y) :
    FailsAs P (if c then x else y) := by
  split_ifs
  · exact hx
  · exact hy

theorem mono {Q : ε → Prop} {x : Except ε α} (hx : FailsAs P x) (h : ∀ e, P e → Q e) :
    FailsAs Q x :=
  fun e he => h e (hx e he)

theorem failIf {c : Prop} [Decidable c] (h : P e) : FailsAs P (Lib.failIf c e : Except ε Unit) :=
  ite (error h) (ok ())

theorem mapM {f : α → Except ε β} {l : List α} (hf : ∀ a, FailsAs P (f a)) :
    FailsAs P (l.mapM f) := by
  induction l with
  | nil => exact ok []
  | cons a l ih =>
    rw [List.mapM_cons]
    exact bind (hf a) fun _ => bind ih fun _ => ok _

theorem foldlM {f : β → α → Except ε β} {l : List α} {b : β} (hf : ∀ b a, FailsAs P (f b a)) :
    FailsAs P (l.foldlM f b) := fun _ h => foldlM_error (fun b a => hf b a) h

theorem partitionPoint {probe : Nat → Except ε Bool} (h : ∀ i, FailsAs P (probe i))
    (fuel lo hi : Nat) : FailsAs P (Lib.partitionPoint probe fuel lo hi) := by
  induction fuel generalizing lo hi with
  | zero => exact ok lo
  | succ fuel ih => exact ite (bind (h _) fun _ => ite (ih _ _) (ih _ _)) (ok lo)

end FailsAs

def ReadFailsAs (P : ε → Prop) (p : ReadM ε α) : Prop := ∀ c, FailsAs P (p.run c)

namespace ReadFailsAs

theorem pure (a : α) : ReadFailsAs P (Pure.pure a : ReadM ε α) := fun _ => .ok _

theorem throw (h : P e) : ReadFailsAs P (MonadExcept.throw e : ReadM ε α) := fun _ => .error h

theorem throw_bind {f : α → ReadM ε β} (h : P e) : ReadFailsAs P (MonadExcept.throw e >>= f) :=
  fun _ => .error h

theorem get : ReadFailsAs P (MonadState.get : ReadM ε Cursor) := fun _ => .ok _

theorem bind {p : ReadM ε α} {f : α → ReadM ε β} (hp : ReadFailsAs P p)
    (hf : ∀ a, ReadFailsAs P (f a)) : ReadFailsAs P (p >>= f) := by
  intro c
  rw [StateT.run_bind]
  exact (hp c).bind fun r => hf r.1 r.2

theorem ite {d : Prop} [Decidable d] {p q : ReadM ε α} (hp : ReadFailsAs P p)
    (hq : ReadFailsAs P q) : ReadFailsAs P (if d then p else q) := by
  split_ifs
  · exact hp
  · exact hq

theorem takeBytes (len : Nat) (h : P e) : ReadFailsAs P (Lib.takeBytes len e) := fun _ =>
  FailsAs.ite (.error h) (.ok _)

end ReadFailsAs
end Lib
