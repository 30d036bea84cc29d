import MemoryGraph.Read.Reader
import MemoryGraph.Store.Content

/-! The nodes of a stored stream: with the dictionary's entries at hand, every record of a
stored stream has a node, and the readers compute it. -/

namespace MemoryGraph
open Lib Codec

def symNodeOf (es : List (Nat × String)) (file i : Nat) (r : SymRec) : Node :=
  { blank (subId tagSym file i) (some (parentId file r.parent)) .symbol (textAt es r.name) with
    symbolKind := some r.kind, langKind := r.langKind.map (textAt es), span := some r.span }

def tokNodeOf (es : List (Nat × String)) (file i : Nat) (r : TokRec) : Node :=
  { blank (subId tagTok file i) (some (parentId file r.parent)) .token (textAt es r.term) with
    tokenClass := some r.cls, span := some r.span }

def itemNodeOf (es : List (Nat × String)) (file : Nat) : Item → Node
  | .inl p => symNodeOf es file p.2 p.1
  | .inr p => tokNodeOf es file p.2 p.1

section
variable {sha256 : List UInt8 → List UInt8} {terms : Dict} {es : List (Nat × String)}
  (hd : terms.Inv sha256 es)
include hd

theorem symRecNode_eq (file i : Nat) {r : SymRec} (h : ∀ id ∈ r.ids, ∃ t, (id, t) ∈ es) :
    symRecNode terms.text file i r = .ok (symNodeOf es file i r) := by
  have hkind : optText terms.text r.langKind = .ok (r.langKind.map (textAt es)) := by
    cases hk : r.langKind with
    | none => rfl
    | some k =>
      rw [optText, text_eq_textAt hd (h k (mem_ids_langKind hk))]
      rfl
  rw [symRecNode, text_eq_textAt hd (h _ (.head _)), ok_bind, hkind]
  rfl

theorem tokNode_eq (file i : Nat) {r : TokRec} (h : ∃ t, (r.term, t) ∈ es) :
    tokNode terms.text file i r = .ok (tokNodeOf es file i r) := by
  rw [tokNode, text_eq_textAt hd h]
  rfl

end

theorem getElem?_ranged_ids {st : Stream} {i : Nat} {r : SymRec} (h : st.ranged[i]? = some r) :
    ∃ s ∈ st.symbols, r.ids = s.ids := by
  have hi : i < st.symbols.length := by
    rw [← length_ranged]
    exact lt_of_getElem? h
  obtain ⟨toks, hr, -⟩ := exists_ranged (List.getElem?_eq_getElem hi)
  obtain rfl := Option.mem_unique h hr
  exact ⟨_, List.getElem_mem hi, rfl⟩

section
variable {sha256 : List UInt8 → List UInt8} {ok : Extraction → Prop} {d : Data}
  {σ : Nat → Option Stream} {es : List (Nat × String)} (h : Content sha256 ok d σ es)
include h

theorem stream_eq (f : Nat) : d.stream f = .ok ((σ f).map Stream.readBack) := by
  rw [Data.stream, h.streams f]
  cases hs : σ f with
  | none => rfl
  | some st =>
    dsimp only [Option.map_some]
    rw [decode_encode (h.stored f st hs).storable]
    rfl

variable {f : Nat} {st : Stream} (hs : σ f = some st)
include hs

theorem itemNode_eq {it : Item} (hit : InStream st.readBack it) :
    itemNode d.terms.text f it = .ok (itemNodeOf es f it) := by
  have hst := h.stored f st hs
  rcases it with ⟨r, i⟩ | ⟨r, i⟩
  · obtain ⟨s, hmem, hids⟩ := getElem?_ranged_ids hit
    refine symRecNode_eq h.dict f i fun id hid => hst.known id (mem_termIds_sym hmem ?_)
    rwa [← hids]
  · exact tokNode_eq h.dict f i (hst.known _ (mem_termIds_tok (List.mem_of_getElem? hit)))

theorem symNode_eq {i : Nat} {r : SymRec} (hr : st.ranged[i]? = some r) :
    symNode d.terms.text f i st.ranged = .ok (symNodeOf es f i r) := by
  rw [symNode, hr]
  exact itemNode_eq h hs (show InStream st.readBack (.inl (r, i)) from hr)

theorem mapM_itemNode {its : List Item} (hits : ∀ it ∈ its, InStream st.readBack it) :
    its.mapM (itemNode d.terms.text f) = .ok (its.map (itemNodeOf es f)) :=
  mapM_ok fun it hit => itemNode_eq h hs (hits it hit)

end
end MemoryGraph
