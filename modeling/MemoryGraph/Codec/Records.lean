import MemoryGraph.Codec.Lazy

/-! Every record reader undoes its writer, from any previous record on. -/

namespace MemoryGraph.Codec
open Lib

theorem toU32_val (x : U32) : toU32 x.val = some x := by
  simp [toU32, x.isLt]

theorem reads_span (s prev : Span) : Reads (readSpan prev) (putSpan s prev) s := by
  refine (reads_rel _ _).bind ((reads_rel _ _).bind ((reads_rel _ _).bind
    ((reads_rel _ _).bind ((reads_rel _ _).bind ?_))))
  refine (reads_varint (s.endCol.isLt.trans (by decide))).bind_nil ?_
  simp only [toU32_val]
  exact Reads.pure _

theorem reads_parent (p : Option U32) : Reads parent (putParent p) p := by
  cases p with
  | none => exact (reads_varint (by decide)).bind_nil (Reads.pure _)
  | some p =>
    refine (reads_varint (v := p.val + 1) (by have := p.isLt; omega)).bind_nil ?_
    simp only [Nat.add_one_ne_zero, if_false, Nat.add_sub_cancel, toU32_val]
    exact Reads.pure _

theorem reads_id {o : Option Nat} (h : ∀ k ∈ o, k < 2 ^ 64 - 1) : Reads readId (putId o) o := by
  cases o with
  | none => exact (reads_varint (by decide)).bind_nil (Reads.pure _)
  | some k =>
    have hk := h k rfl
    exact (reads_varint (v := k + 1) (by omega)).bind_nil (Reads.pure _)

theorem reads_kind (k : SymbolKind) : Reads readKind [putKind k] k := by
  refine (reads_byte _).bind_nil ?_
  cases k <;> exact Reads.pure _

theorem reads_class (c : TokenClass) : Reads readClass [putClass c] c := by
  refine (reads_byte _).bind_nil ?_
  cases c <;> exact Reads.pure _

theorem reads_range (prevFirst : U32) {r : Option (U32 × U32)} (h : ∀ p ∈ r, p.1 ≤ p.2) :
    Reads (readRange prevFirst) (putRange prevFirst r) r := by
  cases r with
  | none => exact (reads_varint (by decide)).bind_nil (Reads.pure _)
  | some p =>
    obtain ⟨first, last⟩ := p
    have hle : first.val ≤ last.val := h _ rfl
    have hlast := last.isLt
    refine (reads_varint (v := last.val - first.val + 1) (by omega)).bind ?_
    simp only [Nat.add_one_ne_zero, if_false, Nat.add_sub_cancel]
    refine (reads_rel _ _).bind_nil ?_
    have hlen : toU32 (last.val - first.val) = some ⟨last.val - first.val, by omega⟩ := by
      simp [toU32, show last.val - first.val < 4294967296 by omega]
    have hsum : toU32 (first.val + (last.val - first.val)) = some last := by
      rw [Nat.add_sub_cancel' hle, toU32_val]
    simp only [hlen, hsum]
    exact Reads.pure _

/-- What a symbol record can hold: ids below `u64::MAX` where one is added to them. -/
structure SymRec.Fits (s : SymRec) : Prop where
  name : s.name < 2 ^ 64
  langKind : ∀ k ∈ s.langKind, k < 2 ^ 64 - 1
  owner : ∀ k ∈ s.owner, k < 2 ^ 64 - 1

instance (s : SymRec) : Decidable s.Fits :=
  decidable_of_iff (s.name < 2 ^ 64 ∧ (∀ k ∈ s.langKind, k < 2 ^ 64 - 1) ∧ ∀ k ∈ s.owner,
    k < 2 ^ 64 - 1) ⟨fun h => ⟨h.1, h.2.1, h.2.2⟩, fun h => ⟨h.name, h.langKind, h.owner⟩⟩

theorem reads_sym {hasOwners : Bool} {i : Nat} (prev : Span) (prevFirst : U32) {s : SymRec}
    {r : Option (U32 × U32)} (hs : s.Fits) (hp : ∀ p ∈ s.parent, p.val < i)
    (hr : ∀ p ∈ r, p.1 ≤ p.2) (ho : hasOwners = false → s.owner = none) :
    Reads (readSym hasOwners i prev prevFirst) (putSym hasOwners prev prevFirst s r)
      { s with toks := r } := by
  refine (reads_varint hs.name).bind ((reads_kind _).bind ((reads_id hs.langKind).bind ?_))
  have howner : Reads (readOwner hasOwners) (if hasOwners then putId s.owner else []) s.owner := by
    cases hasOwners with
    | true => exact reads_id hs.owner
    | false =>
      rw [ho rfl]
      exact Reads.pure _
  have hpar : ¬ s.parent.any (fun p => decide (i ≤ p.val)) = true := by
    cases hsp : s.parent with
    | none => simp
    | some p => simpa using hp p hsp
  refine howner.bind ((reads_parent _).bind ?_)
  simp only [if_neg hpar]
  exact (reads_span _ _).bind ((reads_range _ hr).bind_nil (Reads.pure _))

theorem reads_record {lz : Lazy} (prev : Span) {t : TokRec} (ht : t.term < 2 ^ 64)
    (hp : ∀ p ∈ t.parent, p.val < lz.nsym) : Reads (lz.record prev) (putTok prev t) t := by
  have hpar : ¬ t.parent.any (fun p => decide (lz.nsym ≤ p.val)) = true := by
    cases htp : t.parent with
    | none => simp
    | some p => simpa using hp p htp
  refine (reads_varint ht).bind ((reads_class _).bind ((reads_parent _).bind ?_))
  simp only [if_neg hpar]
  exact (reads_span _ _).bind_nil (Reads.pure _)

/-- A record depends on the previous one through three fields of its span only: those a
checkpoint keeps. -/
structure Span.Agree (a b : Span) : Prop where
  start : a.start = b.start
  line : a.startLine = b.startLine
  col : a.startCol = b.startCol

theorem readSpan_congr {a b : Span} (h : Span.Agree a b) : readSpan a = readSpan b := by
  simp only [readSpan, h.start, h.line, h.col]

theorem record_congr (lz : Lazy) {a b : Span} (h : Span.Agree a b) : lz.record a = lz.record b := by
  simp only [Lazy.record, readSpan_congr h]

theorem length_putSpan (s prev : Span) :
    6 ≤ (putSpan s prev).length ∧ (putSpan s prev).length ≤ 60 := by
  have h := length_putVarint
  have h1 := h (diff s.start prev.start)
  have h2 := h (diff s.stop s.start)
  have h3 := h (diff s.startLine prev.startLine)
  have h4 := h (diff s.startCol prev.startCol)
  have h5 := h (diff s.endLine s.startLine)
  have h6 := h s.endCol.val
  simp only [putSpan, List.length_append]
  omega

theorem length_putParent (p : Option U32) : (putParent p).length ≤ 10 := by
  cases p <;> exact (length_putVarint _).2

theorem length_putId (o : Option Nat) : (putId o).length ≤ 10 := by
  cases o <;> exact (length_putVarint _).2

theorem length_putRange (prevFirst : U32) (r : Option (U32 × U32)) :
    (putRange prevFirst r).length ≤ 20 := by
  cases r with
  | none => exact (length_putVarint 0).2.trans (by decide)
  | some p =>
    have h1 := (length_putVarint (p.2.val - p.1.val + 1)).2
    have h2 := (length_putVarint (diff p.1 prevFirst)).2
    simp only [putRange, List.length_append]
    omega

theorem length_putSym (hasOwners : Bool) (prev : Span) (prevFirst : U32) (s : SymRec)
    (r : Option (U32 × U32)) :
    1 ≤ (putSym hasOwners prev prevFirst s r).length ∧
      (putSym hasOwners prev prevFirst s r).length ≤ 121 := by
  have h1 := length_putVarint s.name
  have h2 := length_putId s.langKind
  have h3 : (if hasOwners then putId s.owner else []).length ≤ 10 := by
    split
    · exact length_putId _
    · simp
  have h4 := length_putParent s.parent
  have h5 := length_putSpan s.span prev
  have h6 := length_putRange prevFirst r
  simp only [putSym, List.length_append, List.length_cons, List.length_nil]
  omega

theorem length_putTok (prev : Span) (t : TokRec) :
    1 ≤ (putTok prev t).length ∧ (putTok prev t).length ≤ 81 := by
  have h1 := length_putVarint t.term
  have h2 := length_putParent t.parent
  have h3 := length_putSpan t.span prev
  simp only [putTok, List.length_append, List.length_cons, List.length_nil]
  omega

end MemoryGraph.Codec
