import MemoryGraph.Lib.Fallible

/-! Readers over a byte buffer, and what it means for a reader to undo a writer: wherever the
written bytes stand, it yields the value and stops right behind them. -/

namespace Lib

structure Cursor where
  b : List UInt8
  pos : Nat
deriving DecidableEq, Repr

abbrev ReadM (ε : Type) := StateT Cursor (Except ε)

/-- `p` reads `x` from the bytes `enc`, whatever stands before and after them. -/
def Reads {ε α : Type} (p : ReadM ε α) (enc : List UInt8) (x : α) : Prop :=
  ∀ pre post : List UInt8, p.run ⟨pre ++ (enc ++ post), pre.length⟩ =
    .ok (x, ⟨pre ++ (enc ++ post), pre.length + enc.length⟩)

namespace Reads
variable {ε α β : Type}

theorem pure (x : α) : Reads (ε := ε) (Pure.pure x) [] x := fun _ _ => rfl

theorem bind {p : ReadM ε α} {f : α → ReadM ε β} {e e' : List UInt8} {x : α} {y : β}
    (hp : Reads p e x) (hf : Reads (f x) e' y) : Reads (p >>= f) (e ++ e') y := by
  intro pre post
  have h1 := hp pre (e' ++ post)
  have h2 := hf (pre ++ e) post
  rw [List.append_assoc, List.length_append] at h2
  rw [List.append_assoc, StateT.run_bind, h1]
  change (f x).run _ = _
  rw [h2, List.length_append, Nat.add_assoc]

theorem bind_nil {p : ReadM ε α} {f : α → ReadM ε β} {e : List UInt8} {x : α} {y : β}
    (hp : Reads p e x) (hf : Reads (f x) [] y) : Reads (p >>= f) e y := by
  simpa only [List.append_nil] using hp.bind hf

theorem congr {p : ReadM ε α} {e e' : List UInt8} {x y : α} (h : Reads p e x) (he : e = e')
    (hx : x = y) : Reads p e' y := he ▸ hx ▸ h

theorem run_at {p : ReadM ε α} {e b : List UInt8} {x : α} (h : Reads p e x) (pre post : List UInt8)
    (hb : b = pre ++ (e ++ post)) :
    p.run ⟨b, pre.length⟩ = .ok (x, ⟨b, pre.length + e.length⟩) := by
  rw [hb]
  exact h pre post

theorem run_self {p : ReadM ε α} {e : List UInt8} {x : α} (h : Reads p e x) :
    p.run ⟨e, 0⟩ = .ok (x, ⟨e, e.length⟩) := by
  simpa using h [] []

theorem guard {c : Prop} [Decidable c] {e : ε} (h : ¬ c) : Reads (ε := ε) (failIf c e) [] () := by
  rw [failIf_of_not h]
  exact pure ()

end Reads

variable {ε α : Type}

def takeBytes (len : Nat) (e : ε) : ReadM ε (List UInt8) := fun c =>
  if c.b.length < c.pos + len then .error e
  else .ok ((c.b.drop c.pos).take len, { c with pos := c.pos + len })

theorem reads_takeBytes (bs : List UInt8) (e : ε) : Reads (takeBytes bs.length e) bs bs := by
  intro pre post
  have h : ¬ (pre ++ (bs ++ post)).length < pre.length + bs.length := by
    simp only [List.length_append]
    omega
  simp only [takeBytes, StateT.run, if_neg h, List.drop_left, List.take_left]

/-- Run `p` on a section of `len` bytes: it must fit the buffer (`exceeds` of its end if not),
and `p` must end where it ends. -/
def readSection (len : Nat) (exceeds : Nat → ε) (trailing : ε) (p : ReadM ε α) :
    ReadM ε α := fun c =>
  if c.b.length < c.pos + len then .error (exceeds (c.pos + len))
  else match p c with
    | .error e => .error e
    | .ok (x, c') => if c'.pos ≠ c.pos + len then .error trailing else .ok (x, c')

theorem reads_readSection {p : ReadM ε α} {bs : List UInt8} {x : α} (h : Reads p bs x)
    (exceeds : Nat → ε) (trailing : ε) : Reads (readSection bs.length exceeds trailing p) bs x := by
  intro pre post
  have hlen : ¬ (pre ++ (bs ++ post)).length < pre.length + bs.length := by
    simp only [List.length_append]
    omega
  have hp : p ⟨pre ++ (bs ++ post), pre.length⟩ = _ := h pre post
  simp only [readSection, StateT.run, if_neg hlen, hp, ne_eq, not_true_eq_false, if_false]

/-- `p` moves the position and keeps the buffer. -/
def Keeps (p : ReadM ε α) : Prop := ∀ c x c', p.run c = .ok (x, c') → c'.b = c.b

namespace Keeps
variable {β : Type}

theorem pure (x : α) : Keeps (Pure.pure x : ReadM ε α) := by
  intro c y c' h
  cases h
  rfl

theorem throw (e : ε) : Keeps (MonadExcept.throw e : ReadM ε α) := fun _ _ _ h => by cases h

theorem bind {p : ReadM ε α} {f : α → ReadM ε β} (hp : Keeps p) (hf : ∀ x, Keeps (f x)) :
    Keeps (p >>= f) := by
  intro c y c' h
  rw [StateT.run_bind] at h
  obtain ⟨⟨x, c₁⟩, h1, h2⟩ := bind_eq_ok.mp h
  exact (hf x c₁ y c' h2).trans (hp c x c₁ h1)

theorem ite {c : Prop} [Decidable c] {p q : ReadM ε α} (hp : Keeps p) (hq : Keeps q) :
    Keeps (if c then p else q) := by
  split_ifs
  · exact hp
  · exact hq

end Keeps
end Lib
