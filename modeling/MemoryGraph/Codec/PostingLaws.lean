import MemoryGraph.Codec.Posting
import MemoryGraph.Lib.Yields

/-! Postings both ways: what is encoded is read back, and what is read from any bytes ascends
and has the length that the count says. -/

namespace MemoryGraph.Codec
open Lib

structure UsizeSlice where
  elems : List Nat
  len : elems.length ≤ usizeMax
  bound : ∀ o ∈ elems, o ≤ usizeMax

theorem yields_readGaps (n prev : Nat) : Yields (readGaps n prev) fun os => os.length = n := by
  induction n generalizing prev with
  | zero => exact Yields.pure rfl
  | succ n ih =>
    refine Yields.after fun gap => Yields.check fun _ => (ih (prev + gap)).bind ?_
    intro os hos
    exact Yields.pure (congrArg (· + 1) hos)

theorem yields_readBlock (remaining : Nat) :
    Yields (readBlock remaining) fun block => 0 < block.length ∧ block.length ≤ remaining := by
  refine Yields.after fun blockLen => Yields.check fun hlen => Yields.after fun blockBytes => ?_
  refine Yields.readSection ((yields_readGaps blockLen 0).mono ?_)
  rintro os rfl
  omega

theorem yields_readBlocks {fuel remaining : Nat} (h : remaining ≤ fuel) :
    Yields (readBlocks fuel remaining) fun os => os.length = remaining := by
  induction fuel generalizing remaining with
  | zero => exact Yields.pure (Nat.le_zero.mp h).symm
  | succ fuel ih =>
    rw [readBlocks]
    refine Yields.ite (fun hzero => Yields.pure hzero.symm) fun _ => ?_
    refine (yields_readBlock remaining).bind fun block hblock => ?_
    have hrest : remaining - block.length ≤ fuel := by omega
    refine (ih hrest).bind fun os hos => Yields.pure ?_
    rw [List.length_append, hos]
    omega

theorem postingOrdinals_ascend {b : List UInt8} {ords : List Nat}
    (h : postingOrdinals b = .ok ords) :
    ords.Pairwise (· < ·) ∧ postingCount b = .ok ords.length := by
  rw [postingOrdinals] at h
  obtain ⟨⟨n, c⟩, hcount, h⟩ := bind_eq_ok.mp h
  obtain ⟨-, -, h⟩ := bind_eq_ok.mp h
  obtain ⟨⟨os, c'⟩, hblocks, h⟩ := bind_eq_ok.mp h
  obtain ⟨-, -, h⟩ := bind_eq_ok.mp h
  obtain ⟨_, hasc, h⟩ := bind_eq_ok.mp h
  obtain rfl := Except.ok.inj h
  constructor
  · exact List.isChain_iff_pairwise.mp (not_not.mp (failIf_eq_ok.mp hasc))
  · rw [postingCount, hcount, ok_bind, yields_readBlocks le_rfl c os c' hblocks]
    rfl

theorem posting_laws :
    (∀ l : UsizeSlice, l.elems.Pairwise (· < ·) → postingOrdinals (encodePosting l.elems) =
      .ok l.elems ∧ postingCount (encodePosting l.elems) = .ok l.elems.length) ∧
    ∀ b ords, postingOrdinals b = .ok ords → ords.Pairwise (· < ·) ∧
      postingCount b = .ok ords.length := by
  refine ⟨?_, fun b ords => postingOrdinals_ascend⟩
  intro l hasc
  have hlen : l.elems.length < 2 ^ 64 := lt_of_le_of_lt l.len (by decide)
  exact ⟨postingOrdinals_encode hlen hasc l.bound, postingCount_encode hlen⟩

theorem posting_laws_extreme :
    postingOrdinals (encodePosting [0, 7, usizeMax]) = .ok [0, 7, usizeMax] ∧
      postingCount (encodePosting [0, 7, usizeMax]) = .ok 3 :=
  posting_laws.1 ⟨[0, 7, usizeMax], by decide, by decide⟩ (by decide)

end MemoryGraph.Codec
