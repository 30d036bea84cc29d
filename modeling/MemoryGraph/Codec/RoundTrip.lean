import MemoryGraph.Codec.Layout

/-! An encoded stream decodes to itself, with the token range of every symbol filled
in, and its density flag says whether all those ranges are exact. -/

namespace MemoryGraph.Codec
open Lib List

/-- What the store encodes: parents that exist and precede their children, ids that leave
room for the added one. The counts are those of a `Vec` that fits in memory: a declared
token takes 56 bytes, a symbol record 88. -/
structure Stream.Storable (st : Stream) : Prop where
  fits : ∀ s ∈ st.symbols, s.Fits
  parents : EarlierParents st.symbols
  terms : ∀ t ∈ st.tokens, t.term < 2 ^ 64
  tokParents : ∀ t ∈ st.tokens, ∀ p ∈ t.parent, p.val < st.symbols.length
  ntok : 56 * st.tokens.length < 2 ^ 63
  nsym : st.symbols.length < 2 ^ 57

structure Stream.Wf (st : Stream) : Prop where
  fits : ∀ s ∈ st.symbols, s.Fits
  parents : EarlierParents st.symbols
  terms : ∀ t ∈ st.tokens, t.term < 2 ^ 64
  tokParents : ∀ t ∈ st.tokens, ∀ p ∈ t.parent, p.val < st.symbols.length
  ntok : st.tokens.length < 2 ^ 32
  nsym : st.symbols.length < 2 ^ 57

theorem Stream.Wf.storable {st : Stream} (h : st.Wf) : st.Storable :=
  ⟨h.fits, h.parents, h.terms, h.tokParents, by have := h.ntok; omega, h.nsym⟩

instance (st : Stream) : Decidable st.Wf :=
  decidable_of_iff ((∀ s ∈ st.symbols, s.Fits) ∧ EarlierParents st.symbols ∧
      (∀ t ∈ st.tokens, t.term < 2 ^ 64) ∧
      (∀ t ∈ st.tokens, t.parent.all (fun p => p.val < st.symbols.length) = true) ∧
      st.tokens.length < 2 ^ 32 ∧ st.symbols.length < 2 ^ 57)
    ⟨fun ⟨h1, h2, h3, h4, h5, h6⟩ => ⟨h1, h2, h3, fun t ht p hp =>
        of_decide_eq_true ((Option.all_eq_true _ _).mp (h4 t ht) p hp), h5, h6⟩,
      fun ⟨h1, h2, h3, h4, h5, h6⟩ => ⟨h1, h2, h3, fun t ht => (Option.all_eq_true _ _).mpr
        fun p hp => decide_eq_true (h4 t ht p hp), h5, h6⟩⟩

def Stream.ranges (st : Stream) : List (Option (U32 × U32)) :=
  (computeRanges st.symbols st.tokens).1

def Stream.hasOwners (st : Stream) : Bool := st.symbols.any (fun s => s.owner.isSome)

def Stream.ranged (st : Stream) : List SymRec :=
  (st.symbols.zip st.ranges).map (fun p => { p.1 with toks := p.2 })

def lazyOf (st : Stream) : Lazy where
  nsym := st.symbols.length
  ntok := st.tokens.length
  rangesDense := (computeRanges st.symbols st.tokens).2
  hasOwners := st.hasOwners
  symBytes := putSyms st.hasOwners zero 0 (st.symbols.zip st.ranges)
  cks := cksOf st.tokens
  toks := tokBytes zero st.tokens

theorem length_putSyms (hasOwners : Bool) (prev : Span) (prevFirst : U32)
    (srs : List (SymRec × Option (U32 × U32))) :
    srs.length ≤ (putSyms hasOwners prev prevFirst srs).length ∧
      (putSyms hasOwners prev prevFirst srs).length ≤ 121 * srs.length := by
  induction srs generalizing prev prevFirst with
  | nil => simp [putSyms]
  | cons sr srs ih =>
    have h1 := length_putSym hasOwners prev prevFirst sr.1 sr.2
    have h2 := ih sr.1.span (nextFirst prevFirst sr.2)
    simp only [putSyms, length_append, length_cons]
    omega

theorem length_zip_ranges (st : Stream) :
    (st.symbols.zip st.ranges).length = st.symbols.length := by
  rw [length_zip, Stream.ranges, length_computeRanges, Nat.min_self]

def flagByte (st : Stream) : UInt8 :=
  (lazyOf st).rangesDense.toUInt8 ||| (st.hasOwners.toUInt8 <<< 1)

def headerBytes (st : Stream) : List UInt8 :=
  [streamFormat] ++ (putVarint st.symbols.length ++ (putVarint st.tokens.length ++
    (putVarint (lazyOf st).symBytes.length ++ [flagByte st])))

theorem encode_eq (st : Stream) : encode st = headerBytes st ++ ((lazyOf st).symBytes ++
    (ckBytes Ck.init (cksOf st.tokens) ++ tokBytes zero st.tokens)) := by
  simp only [encode, putToks_init, headerBytes, flagByte, lazyOf, Stream.ranges, Stream.hasOwners,
    append_assoc]

theorem flagByte_bits (st : Stream) : flagByte st &&& ~~~3 = 0 ∧
    decide (flagByte st &&& 1 ≠ 0) = (lazyOf st).rangesDense ∧
    decide (flagByte st &&& 2 ≠ 0) = st.hasOwners := by
  rw [flagByte]
  cases (lazyOf st).rangesDense <;> cases st.hasOwners <;> decide

section
variable {st : Stream} (h : st.Storable)
include h

theorem symBytes_lt : (lazyOf st).symBytes.length < 2 ^ 64 := by
  have h1 := (length_putSyms st.hasOwners zero 0 (st.symbols.zip st.ranges)).2
  have h2 := h.nsym
  rw [length_zip_ranges] at h1
  exact lt_of_le_of_lt h1 (by omega)

theorem reads_header : Reads readHeader (headerBytes st)
    (st.symbols.length, st.tokens.length, (lazyOf st).symBytes.length, flagByte st) := by
  have hnsym := h.nsym
  have hntok := h.ntok
  refine (reads_byte _).bind ?_
  simp only [ne_eq, not_true_eq_false, if_false]
  refine (reads_varint (by omega)).bind ((reads_varint (by omega)).bind
    ((reads_varint (symBytes_lt h)).bind ((reads_byte _).bind_nil ?_)))
  simp only [(flagByte_bits st).1, not_true_eq_false, if_false]
  exact Reads.pure _

theorem decodeLazy_encode : decodeLazy (encode st) = .ok (lazyOf st) := by
  have hnsym := h.nsym
  have hntok := h.ntok
  have hsym := (length_putSyms st.hasOwners zero 0 (st.symbols.zip st.ranges)).1
  rw [length_zip_ranges] at hsym
  have htok := length_tokBytes zero st.tokens
  have hlen : (encode st).length = (headerBytes st).length + ((lazyOf st).symBytes.length +
      ((ckBytes Ck.init (cksOf st.tokens)).length + (tokBytes zero st.tokens).length)) := by
    simp only [encode_eq, length_append]
  have hmax : ∀ ck ∈ cksOf st.tokens, ck.off < (tokBytes zero st.tokens).length := by
    intro ck hck
    obtain ⟨i, hi, rfl⟩ := mem_cksOf hck
    exact tokOff_lt hi
  have h1 : readHeader.run ⟨encode st, 0⟩ = .ok ((st.symbols.length, st.tokens.length,
      (lazyOf st).symBytes.length, flagByte st), ⟨encode st, 0 + (headerBytes st).length⟩) :=
    (reads_header h).run_at [] _ (encode_eq st)
  have h2 : (readCks ((st.tokens.length - 1) / checkpointEvery) Ck.init).run
      ⟨encode st, 0 + (headerBytes st).length + (lazyOf st).symBytes.length⟩ =
      .ok (cksOf st.tokens, ⟨encode st, (headerBytes st ++ (lazyOf st).symBytes).length +
        (ckBytes Ck.init (cksOf st.tokens)).length⟩) := by
    have hread := reads_cks (cksOf st.tokens) Ck.init (cksOf_sorted _) (fun ck hck => by
      have h81 := hmax ck hck
      rw [usizeMax]
      omega)
    rw [length_cksOf] at hread
    rw [Nat.zero_add, ← length_append]
    exact hread.run_at _ _ (by rw [encode_eq, append_assoc])
  have hlast : ¬ (cksOf st.tokens).getLast?.any
      (fun c => decide ((tokBytes zero st.tokens).length ≤ c.off)) = true := by
    cases hg : (cksOf st.tokens).getLast? with
    | none => simp
    | some c => simpa using hmax c (mem_of_getLast? hg)
  have hsections : (encode st).drop ((headerBytes st ++ (lazyOf st).symBytes).length +
      (ckBytes Ck.init (cksOf st.tokens)).length) = tokBytes zero st.tokens := by
    rw [encode_eq, ← length_append, ← append_assoc, ← append_assoc, drop_left]
  have hsyms : ((encode st).drop (0 + (headerBytes st).length)).take (lazyOf st).symBytes.length =
      (lazyOf st).symBytes := by
    rw [encode_eq, Nat.zero_add, drop_left, take_left]
  have hsat : ¬ satAdd st.symbols.length st.tokens.length > (encode st).length := by
    have hge : st.symbols.length ≤ (lazyOf st).symBytes.length := hsym
    rw [satAdd, hlen]
    omega
  have hck : ¬ (st.tokens.length - 1) / checkpointEvery > (encode st).length := by
    rw [checkpointEvery, hlen]
    omega
  have hend : ¬ 0 + (headerBytes st).length + (lazyOf st).symBytes.length > (encode st).length := by
    omega
  obtain ⟨-, hd, ho⟩ := flagByte_bits st
  simp only [decodeLazy, h1, ok_bind, failIf_of_not hsat, failIf_of_not hend, failIf_of_not hck,
    pure_eq_ok, h2, hsections, failIf_of_not hlast, hsyms, hd, ho]
  rfl

omit h in
theorem reads_syms (hasOwners : Bool) (srs : List (SymRec × Option (U32 × U32))) :
    ∀ (i : Nat) (prev : Span) (prevFirst : U32),
      (∀ sr ∈ srs, sr.1.Fits ∧ (∀ p ∈ sr.2, p.1 ≤ p.2) ∧ (hasOwners = false → sr.1.owner = none)) →
      (∀ (j : Nat) sr, srs[j]? = some sr → ∀ p ∈ sr.1.parent, p.val < i + j) →
      Reads (readSyms hasOwners srs.length i prev prevFirst) (putSyms hasOwners prev prevFirst srs)
        (srs.map (fun p => { p.1 with toks := p.2 })) := by
  induction srs with
  | nil => exact fun _ _ _ _ _ => Reads.pure _
  | cons sr srs ih =>
    intro i prev prevFirst hall hpar
    obtain ⟨hfit, hrange, hown⟩ := hall sr mem_cons_self
    have hrec := ih (i + 1) sr.1.span (nextFirst prevFirst sr.2)
      (fun sr' hsr' => hall sr' (.tail _ hsr'))
      (fun j sr' hj p hp => by have := hpar (j + 1) sr' hj p hp; omega)
    refine (reads_sym prev prevFirst hfit (hpar 0 sr rfl) hrange hown).bind ?_
    exact hrec.bind_nil (Reads.pure _)

theorem symbols_lazyOf : (lazyOf st).symbols = .ok st.ranged := by
  have hread := reads_syms st.hasOwners (st.symbols.zip st.ranges) 0 zero 0 (fun sr hsr => by
    obtain ⟨hs, hr⟩ := of_mem_zip (show (sr.1, sr.2) ∈ _ from hsr)
    refine ⟨h.fits _ hs, computeRanges_le _ _ _ hr, fun ho => ?_⟩
    have hnone := any_eq_false.mp ho _ hs
    simpa using hnone) (fun j sr hj p hp => by
    have hs : st.symbols[j]? = some sr.1 := (getElem?_zip_eq_some.mp hj).1
    rw [Nat.zero_add]
    exact h.parents j _ hs p hp)
  rw [length_zip_ranges] at hread
  have hrun := hread.run_self
  have hpos : ¬ (putSyms st.hasOwners zero 0 (st.symbols.zip st.ranges)).length ≠
      (lazyOf st).symBytes.length := not_not.mpr rfl
  rw [Lazy.symbols]
  change ((readSyms st.hasOwners st.symbols.length 0 zero 0).run
    ⟨putSyms st.hasOwners zero 0 (st.symbols.zip st.ranges), 0⟩ >>= _) = _
  rw [hrun, ok_bind]
  dsimp only
  rw [failIf_of_not hpos]
  rfl

end

end MemoryGraph.Codec
