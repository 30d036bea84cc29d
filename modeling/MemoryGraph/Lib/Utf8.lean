import Mathlib

/-! Text as its characters, addressed by byte offsets of its UTF-8 form: a slice is there only
between character boundaries. -/

namespace Lib.Utf8
open List
variable {s : List Char} {n : Nat} {p : Char → Bool}

def byteLen (s : List Char) : Nat := (s.map Char.utf8Size).sum

def bytes (s : List Char) : List UInt8 := s.flatMap String.utf8EncodeChar

/-- `n` is a character boundary of `s`. -/
def Cut (s : List Char) (n : Nat) : Prop := ∃ a b, s = a ++ b ∧ byteLen a = n

def sliceFrom : List Char → Nat → Option (List Char)
  | s, 0 => some s
  | [], _ + 1 => none
  | c :: s, n + 1 => if c.utf8Size ≤ n + 1 then sliceFrom s (n + 1 - c.utf8Size) else none

def sliceTo : List Char → Nat → Option (List Char)
  | _, 0 => some []
  | [], _ + 1 => none
  | c :: s, n + 1 =>
      if c.utf8Size ≤ n + 1 then (sliceTo s (n + 1 - c.utf8Size)).map (c :: ·) else none

def slice (s : List Char) (a b : Nat) : Option (List Char) :=
  if a ≤ b then (sliceFrom s a).bind fun t => sliceTo t (b - a) else none

def findChar (p : Char → Bool) : List Char → Option Nat
  | [] => none
  | c :: s => if p c then some 0 else (findChar p s).map (c.utf8Size + ·)

def findStr (needle : List Char) : List Char → Option Nat
  | [] => if needle.isEmpty then some 0 else none
  | c :: s => if needle.isPrefixOf (c :: s) then some 0 else (findStr needle s).map (c.utf8Size + ·)

@[simp] theorem byteLen_nil : byteLen [] = 0 := rfl

@[simp] theorem byteLen_cons (c : Char) (s : List Char) :
    byteLen (c :: s) = c.utf8Size + byteLen s := by
  rw [byteLen, byteLen, map_cons, sum_cons]

@[simp] theorem byteLen_append (a b : List Char) : byteLen (a ++ b) = byteLen a + byteLen b := by
  rw [byteLen, byteLen, byteLen, map_append, sum_append]

theorem length_le_byteLen (s : List Char) : s.length ≤ byteLen s := by
  induction s with
  | nil => exact Nat.le_refl 0
  | cons c s ih =>
    have hpos := c.utf8Size_pos
    rw [byteLen_cons, length_cons]
    omega

theorem byteLen_pos (h : s ≠ []) : 0 < byteLen s :=
  Nat.lt_of_lt_of_le (length_pos_iff.mpr h) (length_le_byteLen s)

theorem eq_nil_of_byteLen_eq_zero (h : byteLen s = 0) : s = [] := by
  by_contra hne
  exact absurd h (byteLen_pos hne).ne'

@[simp] theorem length_bytes (s : List Char) : (bytes s).length = byteLen s := by
  induction s with
  | nil => rfl
  | cons c s ih =>
    rw [bytes, flatMap_cons, length_append, String.length_utf8EncodeChar, byteLen_cons, ← ih]
    rfl

theorem append_inj_of_byteLen {a b a' b' : List Char} (h : a ++ b = a' ++ b')
    (hlen : byteLen a = byteLen a') : a = a' ∧ b = b' := by
  induction a generalizing a' with
  | nil =>
    obtain rfl := eq_nil_of_byteLen_eq_zero hlen.symm
    exact ⟨rfl, h⟩
  | cons c a ih =>
    cases a' with
    | nil => exact nomatch eq_nil_of_byteLen_eq_zero hlen
    | cons c' a' =>
      rw [cons_append, cons_append, cons.injEq] at h
      obtain ⟨rfl, h⟩ := h
      rw [byteLen_cons, byteLen_cons] at hlen
      obtain ⟨rfl, hb⟩ := ih h (Nat.add_left_cancel hlen)
      exact ⟨rfl, hb⟩

theorem byteLen_cons_eq_succ (c : Char) (a : List Char) :
    ∃ n, byteLen (c :: a) = n + 1 ∧ c.utf8Size ≤ n + 1 ∧ n + 1 - c.utf8Size = byteLen a := by
  have hpos := c.utf8Size_pos
  refine ⟨byteLen (c :: a) - 1, ?_, ?_, ?_⟩ <;> rw [byteLen_cons] <;> omega

theorem sliceFrom_append (a b : List Char) : sliceFrom (a ++ b) (byteLen a) = some b := by
  induction a with
  | nil => exact sliceFrom.eq_1 b
  | cons c a ih =>
    obtain ⟨n, hn, hle, hrest⟩ := byteLen_cons_eq_succ c a
    rw [hn, cons_append, sliceFrom, if_pos hle, hrest]
    exact ih

theorem sliceTo_append (a b : List Char) : sliceTo (a ++ b) (byteLen a) = some a := by
  induction a with
  | nil => exact sliceTo.eq_1 b
  | cons c a ih =>
    obtain ⟨n, hn, hle, hrest⟩ := byteLen_cons_eq_succ c a
    rw [hn, cons_append, sliceTo, if_pos hle, hrest, ih]
    rfl

theorem slice_append (a b c : List Char) :
    slice (a ++ (b ++ c)) (byteLen a) (byteLen (a ++ b)) = some b := by
  have hsub : byteLen (a ++ b) - byteLen a = byteLen b := by rw [byteLen_append]; omega
  rw [slice, if_pos (by rw [byteLen_append]; omega), sliceFrom_append, Option.bind_some, hsub,
    sliceTo_append]

theorem Cut.zero (s : List Char) : Cut s 0 := ⟨[], s, rfl, rfl⟩

theorem Cut.full (s : List Char) : Cut s (byteLen s) := ⟨s, [], (append_nil s).symm, rfl⟩

theorem Cut.le (h : Cut s n) : n ≤ byteLen s := by
  obtain ⟨a, b, rfl, rfl⟩ := h
  rw [byteLen_append]
  omega

theorem Cut.shift (h : Cut s n) (pre : List Char) : Cut (pre ++ s) (byteLen pre + n) := by
  obtain ⟨a, b, rfl, rfl⟩ := h
  exact ⟨pre ++ a, b, (append_assoc pre a b).symm, byteLen_append pre a⟩

theorem Cut.cons (h : Cut s n) (c : Char) : Cut (c :: s) (c.utf8Size + n) := by
  have hs := h.shift [c]
  rwa [byteLen_cons, byteLen_nil, Nat.add_zero] at hs

theorem Cut.extend (h : Cut s n) (rest : List Char) : Cut (s ++ rest) n := by
  obtain ⟨a, b, rfl, rfl⟩ := h
  exact ⟨a, b ++ rest, append_assoc a b rest, rfl⟩

theorem sliceTo_of_cut (h : Cut s n) :
    ∃ a b, s = a ++ b ∧ byteLen a = n ∧ sliceTo s n = some a ∧ sliceFrom s n = some b := by
  obtain ⟨a, b, rfl, rfl⟩ := h
  exact ⟨a, b, rfl, rfl, sliceTo_append a b, sliceFrom_append a b⟩

theorem findChar_eq_some (h : findChar p s = some n) :
    ∃ a c b, s = a ++ c :: b ∧ byteLen a = n ∧ p c = true ∧ ∀ x ∈ a, p x = false := by
  induction s generalizing n with
  | nil => exact nomatch h
  | cons c s ih =>
    rw [findChar] at h
    split at h
    next hc =>
      cases h
      exact ⟨[], c, s, rfl, rfl, hc, nofun⟩
    next hc =>
      obtain ⟨m, hm, rfl⟩ := Option.map_eq_some_iff.mp h
      obtain ⟨a, d, b, rfl, rfl, hd, ha⟩ := ih hm
      refine ⟨c :: a, d, b, rfl, byteLen_cons c a, hd, ?_⟩
      intro x hx
      rcases mem_cons.mp hx with rfl | hx
      · exact Bool.eq_false_iff.mpr hc
      · exact ha x hx

theorem findChar_eq_none (h : findChar p s = none) : ∀ x ∈ s, p x = false := by
  induction s with
  | nil => exact nofun
  | cons c s ih =>
    rw [findChar] at h
    split at h
    next => exact nomatch h
    next hc =>
      intro x hx
      rcases mem_cons.mp hx with rfl | hx
      · exact Bool.eq_false_iff.mpr hc
      · exact ih (Option.map_eq_none_iff.mp h) x hx

theorem findChar_le {c : Char} (hc : p c = true) (a b : List Char) :
    ∃ n, findChar p (a ++ c :: b) = some n ∧ n ≤ byteLen a := by
  induction a with
  | nil => exact ⟨0, if_pos hc, le_rfl⟩
  | cons x a ih =>
    obtain ⟨n, hn, hle⟩ := ih
    rw [cons_append, findChar]
    split
    next => exact ⟨0, rfl, Nat.zero_le _⟩
    next =>
      refine ⟨x.utf8Size + n, by rw [hn, Option.map_some], ?_⟩
      rw [byteLen_cons]
      omega

theorem findStr_eq_some {needle s : List Char} (h : findStr needle s = some n) :
    ∃ a b, s = a ++ (needle ++ b) ∧ byteLen a = n := by
  induction s generalizing n with
  | nil =>
    rw [findStr] at h
    split at h
    next he =>
      cases h
      exact ⟨[], [], by simpa using he.symm, rfl⟩
    next => exact nomatch h
  | cons c s ih =>
    rw [findStr] at h
    split at h
    next hp =>
      cases h
      obtain ⟨b, hb⟩ := isPrefixOf_iff_prefix.mp hp
      exact ⟨[], b, hb.symm, rfl⟩
    next =>
      obtain ⟨m, hm, rfl⟩ := Option.map_eq_some_iff.mp h
      obtain ⟨a, b, rfl, rfl⟩ := ih hm
      exact ⟨c :: a, b, rfl, byteLen_cons c a⟩

theorem findStr_le (needle a b : List Char) :
    ∃ n, findStr needle (a ++ (needle ++ b)) = some n ∧ n ≤ byteLen a := by
  induction a with
  | nil =>
    have hpre : needle.isPrefixOf (needle ++ b) :=
      isPrefixOf_iff_prefix.mpr (prefix_append needle b)
    refine ⟨0, ?_, Nat.zero_le _⟩
    rw [nil_append]
    cases hs : needle ++ b with
    | nil =>
      obtain ⟨rfl, -⟩ := append_eq_nil_iff.mp hs
      rfl
    | cons c s => rw [findStr, if_pos (hs ▸ hpre)]
  | cons c a ih =>
    obtain ⟨n, hn, hle⟩ := ih
    rw [cons_append, findStr]
    split
    next => exact ⟨0, rfl, Nat.zero_le _⟩
    next => exact ⟨c.utf8Size + n, by rw [hn, Option.map_some], by rw [byteLen_cons]; omega⟩

theorem cut_findChar (p : Char → Bool) (s : List Char) :
    Cut s ((findChar p s).getD (byteLen s)) := by
  cases h : findChar p s with
  | none => exact Cut.full s
  | some n =>
    obtain ⟨a, c, b, rfl, rfl, -, -⟩ := findChar_eq_some h
    exact ⟨a, c :: b, rfl, rfl⟩

theorem Cut.between {m n : Nat} (hm : Cut s m) (hn : Cut s n) (h : m ≤ n) :
    ∃ a t b, s = a ++ (t ++ b) ∧ byteLen a = m ∧ byteLen (a ++ t) = n ∧ slice s m n = some t := by
  obtain ⟨a, r, rfl, rfl⟩ := hm
  obtain ⟨a', r', hsplit, rfl⟩ := hn
  obtain ⟨t, rfl, rfl⟩ | ⟨t, rfl, rfl⟩ := append_eq_append_iff.mp hsplit
  · exact ⟨a, t, r', rfl, rfl, rfl, slice_append a t r'⟩
  · -- the second boundary is the first
    have ht : t = [] := by
      apply eq_nil_of_byteLen_eq_zero
      rw [byteLen_append] at h
      omega
    subst ht
    have hslice := slice_append a' [] r
    rw [append_nil] at hslice ⊢
    exact ⟨a', [], r, rfl, rfl, by rw [append_nil], hslice⟩

theorem utf8EncodeChar_ge {c : Char} (h : c.utf8Size ≠ 1) :
    ∀ x ∈ String.utf8EncodeChar c, 128 ≤ x.toNat := by
  have hv : ¬c.val.toNat ≤ 127 := by
    intro hle
    exact h (Char.utf8Size_eq_one_iff.mpr (UInt32.le_iff_toNat_le.mpr hle))
  intro x hx
  rw [String.utf8EncodeChar.eq_def] at hx
  simp only [if_neg hv] at hx
  split at hx
  · simp only [mem_cons, not_mem_nil, or_false] at hx
    rcases hx with rfl | rfl <;> rw [UInt8.toNat_ofNat'] <;> omega
  split at hx
  · simp only [mem_cons, not_mem_nil, or_false] at hx
    rcases hx with rfl | rfl | rfl <;> rw [UInt8.toNat_ofNat'] <;> omega
  · simp only [mem_cons, not_mem_nil, or_false] at hx
    rcases hx with rfl | rfl | rfl | rfl <;> rw [UInt8.toNat_ofNat'] <;> omega

theorem cut_of_byte {p : Nat} {q : UInt8} (h : (bytes s)[p]? = some q) (hq : q.toNat < 128) :
    Cut s p ∧ Cut s (p + 1) := by
  induction s generalizing p with
  | nil => simp [bytes] at h
  | cons c s ih =>
    have hlen := String.length_utf8EncodeChar c
    rw [bytes, flatMap_cons] at h
    by_cases hlt : p < (String.utf8EncodeChar c).length
    · rw [getElem?_append_left hlt] at h
      have hone : c.utf8Size = 1 := by
        by_contra hne
        exact absurd hq (Nat.not_lt.mpr (utf8EncodeChar_ge hne q (mem_of_getElem? h)))
      obtain rfl : p = 0 := by omega
      have hcut : Cut (c :: s) (c.utf8Size + 0) := (Cut.zero s).cons c
      rw [hone] at hcut
      exact ⟨Cut.zero _, hcut⟩
    · rw [getElem?_append_right (Nat.not_lt.mp hlt), hlen] at h
      obtain ⟨h₀, h₁⟩ := ih h
      have h₀' := h₀.cons c
      have h₁' := h₁.cons c
      have heq : c.utf8Size + (p - c.utf8Size) = p := by omega
      have heq' : c.utf8Size + (p - c.utf8Size + 1) = p + 1 := by omega
      rw [heq] at h₀'
      rw [heq'] at h₁'
      exact ⟨h₀', h₁'⟩

theorem bytes_cons_ascii {c : Char} (h : c.utf8Size = 1) (s : List Char) :
    bytes (c :: s) = c.val.toUInt8 :: bytes s := by
  rw [bytes, flatMap_cons, String.utf8EncodeChar_eq_singleton h]
  rfl

def Ascii (s : List Char) : Prop := ∀ c ∈ s, c.utf8Size = 1

theorem ascii_of_isDigit (h : ∀ c ∈ s, c.isDigit = true) : Ascii s := by
  intro c hc
  have hd := h c hc
  rw [Char.isDigit, Bool.and_eq_true, decide_eq_true_eq, decide_eq_true_eq] at hd
  exact Char.utf8Size_eq_one_iff.mpr (UInt32.le_trans hd.2 (by decide))

theorem bytes_ascii (h : Ascii s) : bytes s = s.map fun c => c.val.toUInt8 := by
  induction s with
  | nil => rfl
  | cons c s ih =>
    rw [bytes_cons_ascii (h c mem_cons_self), ih fun x hx => h x (mem_cons_of_mem c hx), map_cons]

theorem byteLen_ascii (h : Ascii s) : byteLen s = s.length := by
  rw [← length_bytes, bytes_ascii h, length_map]

theorem slice_ascii {a b c : List Char} (ha : Ascii a) (hb : Ascii b) {lo hi : Nat}
    (hlo : a.length = lo) (hhi : a.length + b.length = hi) :
    slice (a ++ (b ++ c)) lo hi = some b := by
  have hab : byteLen (a ++ b) = hi := by
    rw [byteLen_append, byteLen_ascii ha, byteLen_ascii hb, hhi]
  rw [← hab, ← hlo, ← byteLen_ascii ha]
  exact slice_append a b c

end Lib.Utf8
