import MemoryGraph.Store.DictSpec
import MemoryGraph.Store.Ingest
import MemoryGraph.Prep.Traversals

/-! What the content tables hold. The streams themselves are a ghost map `σ` from file ids, the
dictionary a ghost list of entries. -/

namespace MemoryGraph
open Lib Codec List
variable {st : Stream} {es : List (Nat × String)}

def Codec.Stream.ordsOf (st : Stream) (t : Nat) : List Nat :=
  (st.tokens.zipIdx.filter (fun p => p.1.term = t)).map Prod.snd

def postRow (st : Stream) (t : Nat) : Option (List UInt8) :=
  if st.ordsOf t = [] then none else some (encodePosting (st.ordsOf t))

def Codec.SymRec.ids (r : SymRec) : List Nat := r.name :: (r.langKind.toList ++ r.owner.toList)

def Codec.Stream.termIds (st : Stream) : List Nat :=
  st.symbols.flatMap SymRec.ids ++ st.tokens.map TokRec.term

def textAt (es : List (Nat × String)) (id : Nat) : String := (findEntry es id).getD ""

def symPairs (es : List (Nat × String)) (file : Nat) (st : Stream) : List (String × Nat) :=
  st.symbols.zipIdx.map (fun p => (textAt es p.1.name, subId tagSym file p.2))

def foldPairs (es : List (Nat × String)) (file : Nat) (st : Stream) : List (String × Nat) :=
  (symPairs es file st).map (fun p => (foldSymbolName p.1, p.2))

/-- A stream some ingest of an extraction `ok` allows has stored. -/
structure Stored (ok : Extraction → Prop) (es : List (Nat × String)) (file : Nat) (st : Stream) :
    Prop where
  file : file ≤ maxLocal
  storable : st.Storable
  known : ∀ id ∈ st.termIds, ∃ t, (id, t) ∈ es
  kinds : ∀ r ∈ st.symbols, ∀ k ∈ r.langKind, ∃ t, (k, t) ∈ es ∧ NulFree t
  built : ∃ ex ids, ok ex ∧ st = (V2Prep.build ex).stream.withIds ids

section
variable (sha256 : List UInt8 → List UInt8) (ok : Extraction → Prop)

structure ContentRows (terms : Dict) (streams : Table Nat (List UInt8))
    (post : Table (Nat ×ₗ Nat) (List UInt8)) (refs : Table Nat Nat)
    (contentFiles : Multimap Nat Nat) (σ : Nat → Option Stream) (es : List (Nat × String)) :
    Prop where
  dict : terms.Inv sha256 es
  streams : ∀ f, streams.get f = (σ f).map encode
  stored : ∀ f st, σ f = some st → Stored ok es f st
  post : ∀ t f, post.get (toLex (t, f)) = (σ f).bind (fun st => postRow st t)
  refs : ∀ f, refs.get f = (σ f).map (fun _ => 1)
  contentFiles : ∀ c f, (c, f) ∈ contentFiles.pairs ↔ c = f ∧ (σ f).isSome

abbrev Content (d : Data) : (Nat → Option Stream) → List (Nat × String) → Prop :=
  ContentRows sha256 ok d.terms d.streams d.post d.refs d.contentFiles

end

structure SymbolRows (symIdx symFold : Multimap String Nat) (σ : Nat → Option Stream)
    (es : List (Nat × String)) : Prop where
  names : ∀ p, p ∈ symIdx.pairs ↔ ∃ f st, σ f = some st ∧ p ∈ symPairs es f st
  folded : ∀ p, p ∈ symFold.pairs ↔ ∃ f st, σ f = some st ∧ p ∈ foldPairs es f st

abbrev Symbols (d : Data) : (Nat → Option Stream) → List (Nat × String) → Prop :=
  SymbolRows d.symIdx d.symFold

section
variable {sha256 : List UInt8 → List UInt8} {ok : Extraction → Prop}

theorem content_empty : Content sha256 ok Data.empty (fun _ => none) [] where
  dict := dictInv_empty
  streams f := rfl
  stored f st h := by cases h
  post t f := rfl
  refs f := rfl
  contentFiles c f := by simp [Data.empty]

theorem symbols_empty : Symbols Data.empty (fun _ => none) [] where
  names p := by simp [Data.empty]
  folded p := by simp [Data.empty]

theorem textAt_of_mem {d : Dict} (h : d.Inv sha256 es) {id : Nat} {t : String}
    (hmem : (id, t) ∈ es) : textAt es id = t := by
  rw [textAt, (findEntry_eq_some h.rev.sorted).mpr hmem]
  rfl

theorem text_eq_textAt {d : Dict} (h : d.Inv sha256 es) {id : Nat}
    (hid : ∃ t, (id, t) ∈ es) : d.text id = .ok (textAt es id) := by
  obtain ⟨t, ht⟩ := hid
  rw [textAt_of_mem h ht]
  exact h.text_eq.mpr ht

theorem mem_termIds_sym {r : SymRec} (hr : r ∈ st.symbols) {id : Nat} (hid : id ∈ r.ids) :
    id ∈ st.termIds :=
  mem_append_left _ (mem_flatMap.mpr ⟨r, hr, hid⟩)

theorem mem_ids_langKind {r : SymRec} {k : Nat} (hk : k ∈ r.langKind) : k ∈ r.ids :=
  mem_cons_of_mem _ (mem_append_left _ (Option.mem_toList.mpr hk))

theorem mem_termIds_tok {r : TokRec} (hr : r ∈ st.tokens) : r.term ∈ st.termIds :=
  mem_append_right _ (mem_map_of_mem hr)

theorem mem_symPairs {file : Nat} {p : String × Nat} :
    p ∈ symPairs es file st ↔
      ∃ i r, st.symbols[i]? = some r ∧ p = (textAt es r.name, subId tagSym file i) := by
  simp only [symPairs, mem_map, Prod.exists, mk_mem_zipIdx_iff_getElem?]
  exact ⟨fun ⟨r, i, hi, e⟩ => ⟨i, r, hi, e.symm⟩, fun ⟨i, r, hi, e⟩ => ⟨r, i, hi, e.symm⟩⟩

theorem mem_foldPairs {file : Nat} {p : String × Nat} :
    p ∈ foldPairs es file st ↔ ∃ q ∈ symPairs es file st, p = (foldSymbolName q.1, q.2) := by
  rw [foldPairs, mem_map]
  exact exists_congr fun q => and_congr_right fun _ => eq_comm

theorem mem_ordsOf {t ord : Nat} :
    ord ∈ st.ordsOf t ↔ ∃ r, st.tokens[ord]? = some r ∧ r.term = t := by
  simp [Stream.ordsOf, mk_mem_zipIdx_iff_getElem?]

theorem ordsOf_sorted (st : Stream) (t : Nat) : (st.ordsOf t).Pairwise (· < ·) := by
  rw [Stream.ordsOf, pairwise_map]
  refine List.Pairwise.filter _ ?_
  rw [← pairwise_map (f := Prod.snd) (R := (· < ·)), zipIdx_map_snd]
  exact pairwise_lt_range'

theorem postRow_eq_none {t : Nat} : postRow st t = none ↔ ∀ r ∈ st.tokens, r.term ≠ t := by
  have hnil : st.ordsOf t = [] ↔ ∀ r ∈ st.tokens, r.term ≠ t := by
    rw [eq_nil_iff_forall_not_mem]
    constructor
    · intro h r hr e
      obtain ⟨ord, hord⟩ := mem_iff_getElem?.mp hr
      exact h ord (mem_ordsOf.mpr ⟨r, hord, e⟩)
    · intro h ord hord
      obtain ⟨r, hr, e⟩ := mem_ordsOf.mp hord
      exact h r (mem_of_getElem? hr) e
  rw [postRow, ← hnil]
  split_ifs with hn <;> simp [hn]

end
end MemoryGraph
