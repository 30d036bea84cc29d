import MemoryGraph.Schema
import MemoryGraph.Lib.ByteReader

/-! Varints of the stream codec: LEB128 for `u64` values, zigzag for signed deltas,
and the reader's primitives. -/

namespace MemoryGraph.Codec
open Lib

def bad (what : String) : StoreError := .corrupt ("stream: " ++ what)

def putVarintGo : Nat → Nat → List UInt8
  | 0, v => [UInt8.ofNat v]
  | fuel + 1, v =>
    if 0x80 ≤ v then (UInt8.ofNat v ||| 0x80) :: putVarintGo fuel (v >>> 7) else [UInt8.ofNat v]

def putVarint (v : Nat) : List UInt8 := putVarintGo 9 v

def zigzag (d : BitVec 64) : BitVec 64 := (d <<< 1) ^^^ d.sshiftRight 63

def unzigzag (v : BitVec 64) : BitVec 64 := (v >>> 1) ^^^ -(v &&& 1)

def diff (cur base : U32) : Nat := (zigzag (BitVec.ofInt 64 ((cur.val : Int) - base.val))).toNat

abbrev Reader := ReadM StoreError

def byte : Reader UInt8 := fun c =>
  match c.b[c.pos]? with
  | some v => .ok (v, { c with pos := c.pos + 1 })
  | none => .error (bad "truncated")

def varintGo : Nat → Nat → Nat → Reader Nat
  | 0, _, _ => throw (bad "varint overflow")
  | fuel + 1, v, shift => do
    let b ← byte
    if shift > 63 ∨ (shift = 63 ∧ b > 1) then
      throw (bad "varint overflow")
    let v := v ||| ((b &&& 0x7f).toNat <<< shift)
    if b &&& 0x80 = 0 then
      return v
    varintGo fuel v (shift + 7)

def varint : Reader Nat := fun c =>
  match c.b[c.pos]? with
  | some b => if b < 0x80 then .ok (b.toNat, { c with pos := c.pos + 1 }) else varintGo 11 0 0 c
  | none => varintGo 11 0 0 c

def toU32 (v : Nat) : Option U32 := if h : v < 4294967296 then some ⟨v, h⟩ else none

/-- `base + zigzag delta`, which must be a `u32`. -/
def rel (base : U32) : Reader U32 := do
  let n ← varint
  let v : Int := base.val + (unzigzag (BitVec.ofNat 64 n)).toInt
  if v < -9223372036854775808 ∨ 9223372036854775807 < v then
    throw (bad "span delta overflow")
  if v < 0 then
    throw (bad "span field out of range")
  match toU32 v.toNat with
  | some x => return x
  | none => throw (bad "span field out of range")

theorem sshiftRight_sign (d : BitVec 64) :
    d.sshiftRight 63 = if d.toNat < 2 ^ 63 then 0#64 else BitVec.allOnes 64 := by
  apply BitVec.eq_of_toInt_eq
  rw [BitVec.toInt_sshiftRight, Int.shiftRight_eq_div_pow, BitVec.toInt_eq_toNat_cond]
  have := d.isLt
  split_ifs with h1 h2
  · simp
    omega
  · omega
  · omega
  · simp
    omega

theorem toNat_and_one (v : BitVec 64) : (v &&& 1).toNat = v.toNat % 2 := by
  simp [BitVec.toNat_and, Nat.and_one_is_mod]

theorem unzigzag_zigzag (d : BitVec 64) : unzigzag (zigzag d) = d := by
  have hd := d.isLt
  unfold unzigzag zigzag
  rw [sshiftRight_sign]
  split_ifs with h
  · have h0 : (d <<< 1) &&& 1 = 0#64 := by
      apply BitVec.eq_of_toNat_eq
      rw [toNat_and_one]
      simp [BitVec.toNat_shiftLeft, Nat.shiftLeft_eq]
    rw [BitVec.xor_zero, h0]
    apply BitVec.eq_of_toNat_eq
    simp [BitVec.toNat_shiftLeft, Nat.shiftLeft_eq, Nat.shiftRight_eq_div_pow]
    omega
  · have h0 : ~~~(d <<< 1) &&& 1 = 1#64 := by
      apply BitVec.eq_of_toNat_eq
      rw [toNat_and_one]
      simp [BitVec.toNat_shiftLeft, Nat.shiftLeft_eq]
      omega
    rw [BitVec.xor_allOnes, h0, show -1#64 = BitVec.allOnes 64 from rfl, BitVec.xor_allOnes]
    apply BitVec.eq_of_toNat_eq
    simp [BitVec.toNat_shiftLeft, Nat.shiftLeft_eq, Nat.shiftRight_eq_div_pow]
    omega

theorem diff_lt (cur base : U32) : diff cur base < 2 ^ 64 := BitVec.isLt _

theorem unzigzag_diff (cur base : U32) :
    (unzigzag (BitVec.ofNat 64 (diff cur base))).toInt = (cur.val : Int) - base.val := by
  rw [diff, BitVec.ofNat_toNat, BitVec.setWidth_eq, unzigzag_zigzag, BitVec.toInt_ofInt]
  have h1 := cur.isLt
  have h2 := base.isLt
  rw [Int.bmod_def]
  omega

theorem reads_byte (v : UInt8) : Reads byte [v] v := by
  intro pre post
  simp [byte, StateT.run]

theorem cont_byte (v : Nat) :
    ((UInt8.ofNat v ||| 0x80) &&& 0x7f).toNat = v % 128 ∧ (UInt8.ofNat v ||| 0x80) &&& 0x80 ≠ 0 ∧
      ¬ (UInt8.ofNat v ||| 0x80) < 0x80 := by
  have key : ∀ i : Fin 256, ((UInt8.ofNat i ||| 0x80) &&& 0x7f).toNat = i % 128 ∧
      (UInt8.ofNat i ||| 0x80) &&& 0x80 ≠ 0 ∧ ¬ (UInt8.ofNat i ||| 0x80) < 0x80 := by decide +kernel
  have h := key ⟨v % 256, Nat.mod_lt _ (by decide)⟩
  have e : UInt8.ofNat (v % 256) = UInt8.ofNat v := by
    apply UInt8.toNat_inj.mp
    simp
  simp only [e] at h
  exact ⟨by omega, h.2⟩

theorem last_byte {v : Nat} (hv : v < 128) :
    (UInt8.ofNat v &&& 0x7f).toNat = v ∧ UInt8.ofNat v &&& 0x80 = 0 ∧ UInt8.ofNat v < 0x80 ∧
      (UInt8.ofNat v).toNat = v := by
  have key : ∀ i : Fin 128, (UInt8.ofNat i &&& 0x7f).toNat = i ∧ UInt8.ofNat i &&& 0x80 = 0 ∧
      UInt8.ofNat i < 0x80 ∧ (UInt8.ofNat i).toNat = i := by decide +kernel
  exact key ⟨v, hv⟩

theorem or_shiftLeft {acc shift : Nat} (x : Nat) (h : acc < 2 ^ shift) :
    acc ||| (x <<< shift) = acc + x * 2 ^ shift := by
  rw [Nat.or_comm, ← Nat.shiftLeft_add_eq_or_of_lt h, Nat.shiftLeft_eq, Nat.add_comm]

theorem reads_varintGo_last (fuel : Nat) {acc v shift : Nat} (hv : v < 128) (hacc : acc < 2 ^ shift)
    (hs : shift ≤ 63) (hone : shift = 63 → v ≤ 1) :
    Reads (varintGo (fuel + 1) acc shift) [UInt8.ofNat v] (acc + v * 2 ^ shift) := by
  obtain ⟨h1, h2, -, h4⟩ := last_byte hv
  have hb : ¬ (shift > 63 ∨ (shift = 63 ∧ UInt8.ofNat v > 1)) := by
    rintro (h | ⟨h, hgt⟩)
    · omega
    · have := UInt8.lt_iff_toNat_lt.mp hgt
      rw [h4] at this
      have := hone h
      simp_all
      omega
  refine (reads_byte (UInt8.ofNat v)).bind_nil ?_
  simp only [if_neg hb, if_pos h2, h1, or_shiftLeft _ hacc]
  exact Reads.pure _

theorem reads_varintGo (f : Nat) : ∀ (fuel acc v shift : Nat), f < fuel → v < 2 ^ (7 * (f + 1)) →
    acc < 2 ^ shift → shift % 7 = 0 → shift ≤ 63 → v * 2 ^ shift < 2 ^ 64 →
    Reads (varintGo fuel acc shift) (putVarintGo f v) (acc + v * 2 ^ shift) := by
  -- by induction on the writer's fuel; `acc` holds the low `shift` bits read so far
  have hone : ∀ {v shift : Nat}, v * 2 ^ shift < 2 ^ 64 → shift = 63 → v ≤ 1 := by
    rintro v shift h rfl
    omega
  induction f with
  | zero =>
    intro fuel acc v shift hf hv hacc _ hs htot
    obtain ⟨fuel, rfl⟩ := Nat.exists_eq_add_one_of_ne_zero (by omega : fuel ≠ 0)
    exact reads_varintGo_last fuel (by simpa using hv) hacc hs (hone htot)
  | succ f ih =>
    intro fuel acc v shift hf hv hacc h7 hs htot
    obtain ⟨fuel, rfl⟩ := Nat.exists_eq_add_one_of_ne_zero (by omega : fuel ≠ 0)
    rw [putVarintGo]
    split_ifs with hbig
    · obtain ⟨h1, h2, -⟩ := cont_byte v
      have hs' : shift + 7 ≤ 63 := by
        by_contra hc
        have h64 : 2 ^ 57 ≤ 2 ^ shift := Nat.pow_le_pow_right (by decide) (by omega)
        have := Nat.mul_le_mul hbig h64
        omega
      have hacc' : acc + v % 128 * 2 ^ shift < 2 ^ (shift + 7) := by
        have := Nat.mul_le_mul_right (2 ^ shift) (by omega : v % 128 ≤ 127)
        rw [Nat.pow_add]
        omega
      have hv' : v >>> 7 < 2 ^ (7 * (f + 1)) := by
        rw [Nat.shiftRight_eq_div_pow, Nat.div_lt_iff_lt_mul (by decide), ← Nat.pow_add]
        exact lt_of_lt_of_le hv (Nat.pow_le_pow_right (by decide) (by omega))
      have hsum : v >>> 7 * 2 ^ (shift + 7) + v % 128 * 2 ^ shift = v * 2 ^ shift := by
        rw [Nat.shiftRight_eq_div_pow, Nat.pow_add, Nat.mul_comm (2 ^ shift), ← Nat.mul_assoc,
          ← Nat.add_mul]
        congr 1
        omega
      have hrec := ih fuel (acc + v % 128 * 2 ^ shift) (v >>> 7) (shift + 7) (by omega) hv' hacc'
        (by omega) hs' (by omega)
      refine ((reads_byte (UInt8.ofNat v ||| 0x80)).bind (f := fun b => _)
        (y := acc + v * 2 ^ shift) ?_).congr rfl rfl
      have hb : ¬ (shift > 63 ∨ (shift = 63 ∧ (UInt8.ofNat v ||| 0x80) > 1)) := by omega
      simp only [if_neg hb, if_neg h2, h1, or_shiftLeft _ hacc]
      exact hrec.congr rfl (by omega)
    · exact reads_varintGo_last fuel (by omega) hacc hs (hone htot)

theorem reads_varint {v : Nat} (hv : v < 2 ^ 64) : Reads varint (putVarint v) v := by
  intro pre post
  have hgo := reads_varintGo 9 11 0 v 0 (by decide) (lt_of_lt_of_le hv (by decide)) (by decide) rfl
    (by decide) (by simpa using hv) pre post
  rw [pow_zero, Nat.mul_one, Nat.zero_add] at hgo
  by_cases hsmall : v < 128
  · have hp : putVarint v = [UInt8.ofNat v] := by simp [putVarint, putVarintGo, hsmall]
    obtain ⟨-, -, h3, h4⟩ := last_byte hsmall
    simp [hp, varint, StateT.run, h3, h4]
  · obtain ⟨-, -, h3⟩ := cont_byte v
    have hp : putVarint v = (UInt8.ofNat v ||| 0x80) :: putVarintGo 8 (v >>> 7) := by
      simp [putVarint, putVarintGo, Nat.not_lt.mp hsmall]
    rw [show putVarintGo 9 v = putVarint v from rfl] at hgo
    have hget : (pre ++ (putVarint v ++ post))[pre.length]? = some (UInt8.ofNat v ||| 0x80) := by
      simp [hp]
    simp only [varint, StateT.run, hget, if_neg h3]
    exact hgo

theorem reads_rel (cur base : U32) : Reads (rel base) (putVarint (diff cur base)) cur := by
  refine (reads_varint (diff_lt cur base)).bind_nil ?_
  have h1 := cur.isLt
  have e : (base.val : Int) + (unzigzag (BitVec.ofNat 64 (diff cur base))).toInt =
      (cur.val : Int) := by
    rw [unzigzag_diff]
    omega
  simp only [e]
  rw [if_neg (by omega), if_neg (by omega), Int.toNat_natCast]
  simp only [toU32, h1, dif_pos]
  exact Reads.pure _

theorem length_putVarintGo (f v : Nat) :
    1 ≤ (putVarintGo f v).length ∧ (putVarintGo f v).length ≤ f + 1 := by
  induction f generalizing v with
  | zero => simp [putVarintGo]
  | succ f ih =>
    rw [putVarintGo]
    split_ifs
    · have := ih (v >>> 7)
      simp only [List.length_cons]
      omega
    · simp

theorem length_putVarint (v : Nat) : 1 ≤ (putVarint v).length ∧ (putVarint v).length ≤ 10 :=
  length_putVarintGo 9 v

end MemoryGraph.Codec
