import Mathlib

/-! Decimal numerals: what the integer parsers of the standard library read and what its
formatter writes. -/

namespace Lib.Decimal
open List Nat
variable {cs : List Char}

def digits (cs : List Char) : Option Nat :=
  if cs ≠ [] ∧ cs.all Char.isDigit then some (Nat.ofDigitChars 10 cs 0) else none

/-- `parse` of an unsigned integer up to `max`: a plus sign is let through. -/
def unsigned (max : Nat) : List Char → Option Nat
  | '+' :: cs => (digits cs).filter (· ≤ max)
  | cs => (digits cs).filter (· ≤ max)

/-- `parse::<i64>`: either sign is let through. -/
def signed : List Char → Option Int
  | '+' :: cs => ((digits cs).filter (· < 2 ^ 63)).map Int.ofNat
  | '-' :: cs => ((digits cs).filter (· ≤ 2 ^ 63)).map fun n => -Int.ofNat n
  | cs => ((digits cs).filter (· < 2 ^ 63)).map Int.ofNat

def padded (w n : Nat) : List Char := List.replicate (w - (Nat.toDigits 10 n).length) '0' ++
    Nat.toDigits 10 n

example : padded 4 70 = ['0', '0', '7', '0'] ∧ padded 2 123 = ['1', '2', '3'] := by decide +kernel

theorem isDigit_padded {w n : Nat} {c : Char} (hc : c ∈ padded w n) : c.isDigit = true := by
  rcases mem_append.mp hc with hc | hc
  · rw [eq_of_mem_replicate hc]
    decide
  · exact isDigit_of_mem_toDigits (by decide) (by decide) hc

theorem digits_padded (w n : Nat) : digits (padded w n) = some n := by
  have hne : padded w n ≠ [] := by
    rw [padded, ne_eq, append_eq_nil_iff]
    exact fun h => toDigits_ne_nil h.2
  have hall : (padded w n).all Char.isDigit = true := all_eq_true.mpr fun c => isDigit_padded
  rw [digits, if_pos ⟨hne, hall⟩, padded, ofDigitChars_append, ofDigitChars_replicate_zero,
    mul_zero, ofDigitChars_toDigits (by decide) (by decide)]

theorem length_padded {w n : Nat} (hw : 0 < w) (h : n < 10 ^ w) : (padded w n).length = w := by
  have hle := (length_toDigits_le_iff (b := 10) (by decide) hw).mpr h
  rw [padded, length_append, length_replicate]
  omega

theorem padded_two {n : Nat} (h : n < 100) : ∃ a b : Char, padded 2 n = [a, b] := by
  have hlen := @length_padded 2 n (by decide) h
  match hp : padded 2 n with
  | [a, b] => exact ⟨a, b, rfl⟩
  | [] | [_] | _ :: _ :: _ :: _ => simp [hp] at hlen

theorem signed_of_isDigit (h : ∀ c ∈ cs, c.isDigit = true) :
    signed cs = ((digits cs).filter (· < 2 ^ 63)).map Int.ofNat := by
  unfold signed
  split
  · exact absurd (h '+' mem_cons_self) (by decide)
  · exact absurd (h '-' mem_cons_self) (by decide)
  · rfl

theorem signed_padded {w n : Nat} (h : n < 2 ^ 63) : signed (padded w n) = some (n : Int) := by
  rw [signed_of_isDigit fun c => isDigit_padded, digits_padded,
    Option.filter_some_pos (by simpa using h)]
  rfl

theorem isDigit_of_digits {n : Nat} (h : digits cs = some n) :
    cs ≠ [] ∧ (∀ c ∈ cs, c.isDigit = true) ∧ Nat.ofDigitChars 10 cs 0 = n := by
  by_cases hcs : cs ≠ [] ∧ cs.all Char.isDigit = true
  · rw [digits, if_pos hcs] at h
    exact ⟨hcs.1, all_eq_true.mp hcs.2, Option.some.inj h⟩
  · rw [digits, if_neg hcs] at h
    exact absurd h nofun

theorem digits_of_isDigit (hne : cs ≠ []) (h : ∀ c ∈ cs, c.isDigit = true) :
    digits cs = some (Nat.ofDigitChars 10 cs 0) := if_pos ⟨hne, all_eq_true.mpr h⟩

theorem value_append (a b : List Char) : Nat.ofDigitChars 10 (a ++ b) 0 =
    Nat.ofDigitChars 10 a 0 * 10 ^ b.length + Nat.ofDigitChars 10 b 0 := by
  rw [ofDigitChars_append, ofDigitChars_eq_ofDigitChars_zero, mul_comm]

theorem digit_lt {c : Char} (h : c.isDigit = true) :
    c.toNat - '0'.toNat < 10 ∧ '0'.toNat ≤ c.toNat := by
  rw [Char.isDigit, Bool.and_eq_true, decide_eq_true_eq, decide_eq_true_eq] at h
  have hlo : 48 ≤ c.toNat := h.1
  have hhi : c.toNat ≤ 57 := h.2
  have hzero : '0'.toNat = 48 := rfl
  omega

theorem value_lt (h : ∀ c ∈ cs, c.isDigit = true) : Nat.ofDigitChars 10 cs 0 < 10 ^ cs.length := by
  induction cs with
  | nil => decide
  | cons c cs ih =>
    have hc := (digit_lt (h c mem_cons_self)).1
    have hcs := ih fun x hx => h x (mem_cons_of_mem c hx)
    rw [ofDigitChars_cons, ofDigitChars_eq_ofDigitChars_zero, length_cons, pow_succ]
    have hmul : 10 ^ cs.length * (10 * 0 + (c.toNat - '0'.toNat)) ≤ 10 ^ cs.length * 9 :=
      mul_le_mul_left _ (by omega)
    omega

theorem value_inj {cs cs' : List Char} (h : ∀ c ∈ cs, c.isDigit = true)
    (h' : ∀ c ∈ cs', c.isDigit = true) (hlen : cs.length = cs'.length)
    (hvalue : Nat.ofDigitChars 10 cs 0 = Nat.ofDigitChars 10 cs' 0) : cs = cs' := by
  induction cs generalizing cs' with
  | nil => exact (length_eq_zero_iff.mp hlen.symm).symm
  | cons c cs ih =>
    obtain _ | ⟨c', cs'⟩ := cs'
    · exact absurd hlen (Nat.succ_ne_zero _)
    · rw [length_cons, length_cons, Nat.add_right_cancel_iff] at hlen
      rw [Nat.ofDigitChars_cons, Nat.ofDigitChars_cons, Nat.ofDigitChars_eq_ofDigitChars_zero,
        @Nat.ofDigitChars_eq_ofDigitChars_zero cs', hlen] at hvalue
      have hv := value_lt fun x hx => h x (mem_cons_of_mem c hx)
      have hv' := value_lt fun x hx => h' x (mem_cons_of_mem c' hx)
      rw [hlen] at hv
      have hpos : 0 < 10 ^ cs'.length := Nat.pow_pos (by decide)
      -- the leading digits are the quotients by the power of the rest
      have hlead := congrArg (· / 10 ^ cs'.length) hvalue
      simp only [Nat.mul_add_div hpos, Nat.div_eq_of_lt hv, Nat.div_eq_of_lt hv'] at hlead
      have hc : c.toNat = c'.toNat := by
        have := (digit_lt (h c mem_cons_self)).2
        have := (digit_lt (h' c' mem_cons_self)).2
        omega
      rw [hc, Nat.add_left_cancel_iff] at hvalue
      rw [Char.toNat_inj.mp hc, ih (fun x hx => h x (mem_cons_of_mem c hx))
        (fun x hx => h' x (mem_cons_of_mem c' hx)) hlen hvalue]

theorem eq_padded {n : Nat} (h : digits cs = some n) :
    cs = padded cs.length n ∧ n < 10 ^ cs.length := by
  obtain ⟨hne, hdigit, rfl⟩ := isDigit_of_digits h
  have hlt := value_lt hdigit
  have hlen := length_padded (length_pos_iff.mpr hne) hlt
  refine ⟨value_inj hdigit (fun c => isDigit_padded) hlen.symm ?_, hlt⟩
  have hpadded := digits_padded cs.length (ofDigitChars 10 cs 0)
  exact (isDigit_of_digits hpadded).2.2.symm

theorem value_take (h : ∀ c ∈ cs, c.isDigit = true) (k : Nat) :
    Nat.ofDigitChars 10 (cs.take k) 0 = Nat.ofDigitChars 10 cs 0 / 10 ^ (cs.length - k) := by
  have hlt := value_lt fun x (hx : x ∈ cs.drop k) => h x (mem_of_mem_drop hx)
  rw [length_drop] at hlt
  conv_rhs => rw [← take_append_drop k cs, value_append, length_drop]
  rw [take_append_drop, Nat.add_comm, Nat.add_mul_div_right _ _ (Nat.pow_pos (by decide)),
    Nat.div_eq_of_lt hlt, Nat.zero_add]

end Lib.Decimal
