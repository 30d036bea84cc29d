import MemoryGraph.Read.Nodes
import MemoryGraph.Store.Files

/-! Nodes by id: what `get` answers for the id of an entity, a symbol or a token, and that
no other id has an answer. -/

namespace MemoryGraph
open Lib Codec
variable {it : Item} {st : Stream}

structure Codec.Stream.Narrow (st : Stream) : Prop where
  wf : st.Wf
  laid : st.Laid
  nsym : st.symbols.length < 4294967296

def itemId (file : Nat) : Item → Nat
  | .inl p => subId tagSym file p.2
  | .inr p => subId tagTok file p.2

@[simp] theorem itemNodeOf_id (es : List (Nat × String)) (file : Nat) (it : Item) :
    (itemNodeOf es file it).id = itemId file it := by
  rcases it with p | p <;> rfl

@[simp] theorem itemNodeOf_parent (es : List (Nat × String)) (file : Nat) (it : Item) :
    (itemNodeOf es file it).parent = some (parentId file (itemParent it)) := by
  rcases it with p | p <;> rfl

theorem splitId_local {id : Nat} (h : id ≤ maxLocal) : (splitId id).1 = 0 := by
  rw [splitId, Nat.shiftRight_eq_div_pow]
  exact Nat.div_eq_of_lt (h.trans_lt (by decide))

theorem subId_splitId (id : Nat) : subId (splitId id).1 (splitId id).2.1 (splitId id).2.2 = id := by
  have hm : ∀ x, x &&& maxLocal = x % 2 ^ 30 := fun x => Nat.and_two_pow_sub_one_eq_mod x 30
  have hl : ∀ x, x &&& 0xffffffff = x % 2 ^ 32 := fun x => Nat.and_two_pow_sub_one_eq_mod x 32
  have hf : (splitId id).2.1 ≤ maxLocal := Nat.and_le_right
  have hi : (splitId id).2.2 < 4294967296 := Nat.lt_succ_of_le Nat.and_le_right
  rw [subId_eq hf hi]
  simp only [splitId, hm, hl, Nat.shiftRight_eq_div_pow]
  omega

section
variable {d : Stream} (hn : d.symbols.length < 4294967296 ∧ d.tokens.length < 4294967296)
include hn

theorem inStream_lt (hit : InStream d it) :
    (∃ p, it = .inl p ∧ p.2 < d.symbols.length ∧ p.2 < 4294967296) ∨
      ∃ p, it = .inr p ∧ p.2 < d.tokens.length ∧ p.2 < 4294967296 := by
  rcases it with p | p
  · have hlt := lt_of_getElem? hit
    exact Or.inl ⟨p, rfl, hlt, hlt.trans hn.1⟩
  · have hlt := lt_of_getElem? hit
    exact Or.inr ⟨p, rfl, hlt, hlt.trans hn.2⟩

theorem splitId_itemId {file : Nat} (hf : file ≤ maxLocal) (hit : InStream d it) :
    splitId (itemId file it) = (it.elim (fun _ => tagSym) (fun _ => tagTok), file,
      it.elim Prod.snd Prod.snd) := by
  rcases inStream_lt hn hit with ⟨p, rfl, -, hlt⟩ | ⟨p, rfl, -, hlt⟩
  · exact splitId_subId hf hlt
  · exact splitId_subId hf hlt

end

theorem item_eq_of_splitId {d : Stream} {it it' : Item} (hit : InStream d it)
    (hit' : InStream d it')
    (htag : it.elim (fun _ => tagSym) (fun _ => tagTok) =
      it'.elim (fun _ => tagSym) (fun _ => tagTok))
    (hi : it.elim Prod.snd Prod.snd = it'.elim Prod.snd Prod.snd) :
    it = it' := by
  rcases it with ⟨r, i⟩ | ⟨r, i⟩ <;> rcases it' with ⟨r', i'⟩ | ⟨r', i'⟩
  · obtain rfl : i = i' := hi
    obtain rfl := Option.some.inj (Eq.trans (Eq.symm hit) hit')
    rfl
  · cases htag
  · cases htag
  · obtain rfl : i = i' := hi
    obtain rfl := Option.some.inj (Eq.trans (Eq.symm hit) hit')
    rfl

section
variable {sha256 : List UInt8 → List UInt8} {ok : Extraction → Prop} {d : Data}
  {σ : Nat → Option Stream} {es : List (Nat × String)} (h : Content sha256 ok d σ es)
include h

theorem withBytes_eq {α : Type} (f : Nat) (g : List UInt8 → Except StoreError α) :
    d.withBytes f g = match σ f with
      | some st => some <$> g (encode st)
      | none => .ok none := by
  rw [Data.withBytes, h.streams f]
  cases σ f <;> rfl

theorem withLazy_eq {α : Type} (f : Nat) (g : Lazy → Except StoreError α) :
    d.withLazy f g = match σ f with
      | some st => some <$> g (lazyOf st)
      | none => .ok none := by
  rw [Data.withLazy, withBytes_eq h]
  cases hs : σ f with
  | none => rfl
  | some st =>
    dsimp only
    rw [decodeLazy_encode (h.stored f st hs).storable, ok_bind]

variable (hn : ∀ g st, σ g = some st → st.Narrow)
include hn

omit h in
theorem narrow_lt {f : Nat} (hs : σ f = some st) :
    st.readBack.symbols.length < 4294967296 ∧ st.readBack.tokens.length < 4294967296 :=
  ⟨(length_ranged st).trans_lt (hn f st hs).nsym, (hn f st hs).wf.ntok⟩

theorem get_item {f : Nat} (hs : σ f = some st) (hit : InStream st.readBack it) :
    d.get (itemId f it) = .ok (some (itemNodeOf es f it)) := by
  have hst := h.stored f st hs
  have hsplit := splitId_itemId (narrow_lt hn hs) hst.file hit
  have hnode := itemNode_eq h hs hit
  rcases it with ⟨r, i⟩ | ⟨r, i⟩
  · have hlt : i < (lazyOf st).nsym := by
      have := lt_of_getElem? hit
      exact this.trans_eq (length_ranged st)
    have hsplit : splitId (itemId f (.inl (r, i))) = (tagSym, f, i) := hsplit
    rw [Data.get, hsplit]
    dsimp only
    rw [if_neg (by decide), withLazy_eq h, hs]
    dsimp only
    rw [if_pos ⟨rfl, hlt⟩, symbols_lazyOf hst.storable, ok_bind, symNode_eq h hs hit]
    rfl
  · have hlt : i < (lazyOf st).ntok := lt_of_getElem? hit
    have hsplit : splitId (itemId f (.inr (r, i))) = (tagTok, f, i) := hsplit
    rw [Data.get, hsplit]
    dsimp only
    rw [if_neg (by decide), withLazy_eq h, hs]
    dsimp only
    rw [if_neg (fun e => absurd e.1 (by decide)), if_pos ⟨rfl, hlt⟩, Lazy.tokensAt,
      tokensAtWhile_lazyOf hst.storable _ (List.pairwise_singleton _ _) (fun ord ho =>
      List.mem_singleton.mp ho ▸ hlt), pick_cons (show st.tokens[i]? = some r from hit)]
    change ((some <$> some <$> tokNode d.terms.text f i r : Except StoreError _) >>= fun found =>
      pure found.join) = _
    rw [show tokNode d.terms.text f i r = .ok (tokNodeOf es f i r) from hnode]
    rfl

theorem get_cases (id : Nat) : ∃ found, d.get id = .ok found ∧ ∀ n, found = some n →
    (splitId id).1 = 0 ∧ d.nodes.get id = some n ∨
      ∃ f st it, σ f = some st ∧ InStream st.readBack it ∧ id = itemId f it ∧
        n = itemNodeOf es f it := by
  have hid := subId_splitId id
  rcases hsplit : splitId id with ⟨tag, f, i⟩
  rw [hsplit] at hid
  have hitem : ∀ {st : Stream} {it : Item}, σ f = some st → InStream st.readBack it →
      id = itemId f it → ∃ found, d.get id = .ok found ∧ ∀ n, found = some n → tag = 0 ∧
        d.nodes.get id = some n ∨ ∃ f st it, σ f = some st ∧ InStream st.readBack it ∧
        id = itemId f it ∧ n = itemNodeOf es f it := by
    intro st it hs hit he
    refine ⟨some (itemNodeOf es f it), ?_, fun n e =>
      Or.inr ⟨f, st, it, hs, hit, he, (Option.some.inj e).symm⟩⟩
    rw [he]
    exact get_item h hn hs hit
  by_cases htag : tag = 0
  · refine ⟨d.nodes.get id, ?_, fun n hn => Or.inl ⟨htag, hn⟩⟩
    rw [Data.get, hsplit]
    exact if_pos htag
  cases hs : σ f with
  | none =>
    refine ⟨none, ?_, fun n hn => by cases hn⟩
    rw [Data.get, hsplit]
    dsimp only
    rw [if_neg htag, withLazy_eq h, hs]
    rfl
  | some st =>
    by_cases hsym : tag = tagSym ∧ i < (lazyOf st).nsym
    · obtain ⟨rfl, hlt⟩ := hsym
      have hlt : i < st.ranged.length := hlt.trans_eq (length_ranged st).symm
      exact @hitem st (.inl (st.ranged[i], i)) hs (List.getElem?_eq_getElem hlt) hid.symm
    by_cases htok : tag = tagTok ∧ i < (lazyOf st).ntok
    · obtain ⟨rfl, hlt⟩ := htok
      have hlt : i < st.tokens.length := hlt
      exact @hitem st (.inr (st.tokens[i], i)) hs (List.getElem?_eq_getElem hlt) hid.symm
    refine ⟨none, ?_, fun n hn => by cases hn⟩
    rw [Data.get, hsplit]
    dsimp only
    rw [if_neg htag, withLazy_eq h, hs]
    dsimp only
    rw [if_neg hsym, if_neg htok]
    rfl

end

def Data.HasNode (d : Data) (n : Node) : Prop := d.get n.id = .ok (some n)

section
variable {sha256 : List UInt8 → List UInt8} {ok : Extraction → Prop} {d : Data}
  {σ : Nat → Option Stream} {es : List (Nat × String)} (h : Inv sha256 ok d σ es)
  (hn : ∀ g st, σ g = some st → st.Narrow)
include h

theorem get_entity {id : Nat} {n : Node} (hn : d.nodes.get id = some n) :
    d.get id = .ok (some n) := by
  have hlt := (h.entities.ids id n hn).2.2
  have hmax := h.entities.next.2
  rw [Data.get]
  dsimp only
  rw [if_pos (splitId_local (by omega)), hn]
  rfl

theorem hasNode_entity {id : Nat} {n : Node} (hn : d.nodes.get id = some n) : d.HasNode n := by
  rw [Data.HasNode, (h.entities.ids id n hn).1]
  exact get_entity h hn

include hn

theorem hasNode_item {f : Nat} (hs : σ f = some st) (hit : InStream st.readBack it) :
    d.HasNode (itemNodeOf es f it) := by
  rw [Data.HasNode, itemNodeOf_id]
  exact get_item h.content hn hs hit

theorem hasNode_iff (n : Node) : d.HasNode n ↔ d.nodes.get n.id = some n ∨
    ∃ f st it, σ f = some st ∧ InStream st.readBack it ∧ n = itemNodeOf es f it := by
  constructor
  · intro hget
    obtain ⟨found, hfound, hcases⟩ := get_cases h.content hn n.id
    rcases hcases n (Except.ok.inj (hfound.symm.trans hget)) with ⟨-, hrow⟩ | ⟨f, st, it,
      hs, hit, -, he⟩
    · exact Or.inl hrow
    · exact Or.inr ⟨f, st, it, hs, hit, he⟩
  · rintro (hrow | ⟨f, st, it, hs, hit, rfl⟩)
    · exact hasNode_entity h hrow
    · exact hasNode_item h hn hs hit

end

inductive Place
  | entity (id : Nat)
  | symbol (file i : Nat)
  | token (file i : Nat)
deriving DecidableEq

def Place.id : Place → Nat
  | entity id => id
  | symbol file i => subId tagSym file i
  | token file i => subId tagTok file i

def Place.ofId (id : Nat) : Place :=
  let (tag, file, i) := splitId id
  if tag = 0 then .entity id else if tag = tagSym then .symbol file i else .token file i

def Place.Stored (d : Data) : Place → Prop
  | entity id => ∃ n, d.nodes.get id = some n
  | symbol file i => ∃ s, d.stream file = .ok (some s) ∧ i < s.symbols.length
  | token file i => ∃ s, d.stream file = .ok (some s) ∧ i < s.tokens.length

section
variable {sha256 : List UInt8 → List UInt8} {ok : Extraction → Prop} {d : Data}
  {σ : Nat → Option Stream} {es : List (Nat × String)} (h : Inv sha256 ok d σ es)
  (hn : ∀ g st, σ g = some st → st.Narrow)
include h hn

theorem Place.ofId_id {p : Place} (hp : p.Stored d) : Place.ofId p.id = p := by
  have hstream : ∀ {f : Nat} {s : Stream}, d.stream f = .ok (some s) → f ≤ maxLocal ∧
      s.symbols.length < 4294967296 ∧ s.tokens.length < 4294967296 := by
    intro f s hs
    rw [stream_eq h.content] at hs
    obtain ⟨st, hst, rfl⟩ := Option.map_eq_some_iff.mp (Except.ok.inj hs)
    exact ⟨(h.content.stored f st hst).file, narrow_lt hn hst⟩
  cases p with
  | entity id =>
    obtain ⟨n, hrow⟩ := hp
    have hlt := (h.entities.ids id n hrow).2.2
    have hmax := h.entities.next.2
    exact if_pos (splitId_local (show id ≤ maxLocal by omega))
  | symbol f i =>
    obtain ⟨s, hs, hi⟩ := hp
    have hsplit := @splitId_subId tagSym f i (hstream hs).1 (hi.trans (hstream hs).2.1)
    rw [Place.id, Place.ofId, hsplit]
    rfl
  | token f i =>
    obtain ⟨s, hs, hi⟩ := hp
    have hsplit := @splitId_subId tagTok f i (hstream hs).1 (hi.trans (hstream hs).2.2)
    rw [Place.id, Place.ofId, hsplit]
    rfl

theorem Place.eq_of_id_eq {p q : Place} (hp : p.Stored d) (hq : q.Stored d) (e : p.id = q.id) :
    p = q := by
  rw [← Place.ofId_id h hn hp, e, Place.ofId_id h hn hq]

end
end MemoryGraph
