import Mathlib

/-! Scans by position: computations that are shown to end with a value, and the intervals that a
scan may leave, nested, apart or crossing. -/

namespace Lib
variable {α β : Type} {f : α → Option β}

/-- The computation ends, with a value of which `P` holds. -/
def Ends (x : Option α) (P : α → Prop) : Prop := ∃ a, x = some a ∧ P a

namespace Ends
variable {x : Option α} {P Q : α → Prop} {R : β → Prop}

theorem pure {a : α} (h : P a) : Ends (some a) P := ⟨a, rfl, h⟩

theorem bind (h : Ends x P) (hf : ∀ a, P a → Ends (f a) R) : Ends (x >>= f) R := by
  obtain ⟨a, rfl, ha⟩ := h
  exact hf a ha

theorem mono (h : Ends x P) (hPQ : ∀ a, P a → Q a) : Ends x Q := by
  obtain ⟨a, ha, h⟩ := h
  exact ⟨a, ha, hPQ a h⟩

theorem getElem? {l : List α} {i : Nat} (h : i < l.length) : Ends l[i]? fun a => l[i]? = some a :=
  ⟨l[i], List.getElem?_eq_getElem h, List.getElem?_eq_getElem h⟩

theorem forall₂ {S : α → β → Prop} {l : List α} (h : ∀ a ∈ l, Ends (f a) (S a)) :
    Ends (l.mapM f) (List.Forall₂ S l) := by
  induction l with
  | nil => exact pure .nil
  | cons a l ih =>
    obtain ⟨ha, hl⟩ := List.forall_mem_cons.mp h
    rw [List.mapM_cons]
    apply ha.bind
    intro b hb
    apply (ih hl).bind
    intro bs hbs
    exact pure (.cons hb hbs)

theorem mapM {S : α → β → Prop} {l : List α} (h : ∀ a ∈ l, Ends (f a) (S a)) :
    Ends (l.mapM f) fun r => ∀ b ∈ r, ∃ a ∈ l, S a b := by
  refine (forall₂ h).mono fun r hr b hb => ?_
  obtain ⟨i, hi, rfl⟩ := List.mem_iff_getElem.mp hb
  have hi' : i < l.length := hr.length_eq.symm ▸ hi
  exact ⟨l[i], List.getElem_mem hi', hr.get hi' hi⟩

end Ends

structure Piece (α : Type) where
  what : α
  first : Nat
  last : Nat
deriving DecidableEq, Repr

def Piece.Nests (a b : Piece α) : Prop :=
  (a.first ≤ b.first ∧ b.last ≤ a.last) ∨ (b.first ≤ a.first ∧ a.last ≤ b.last) ∨ a.last < b.first ∨
    b.last < a.first

instance : Std.Symm (Piece.Nests (α := α)) := ⟨fun a b h => by
  unfold Piece.Nests at h ⊢
  tauto⟩

theorem Piece.crossing {a b : Piece α} (h : ¬a.Nests b) :
    (a.first < b.first ∧ b.first ≤ a.last ∧ a.last < b.last) ∨
      (b.first < a.first ∧ a.first ≤ b.last ∧ b.last < a.last) := by
  unfold Piece.Nests at h
  omega

end Lib
