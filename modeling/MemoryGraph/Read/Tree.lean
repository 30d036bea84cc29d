import MemoryGraph.Read.Lookup
import MemoryGraph.Store.Progress

/-! Children, descendants and ancestors all describe the tree that the nodes' parents give. -/

namespace MemoryGraph
open Lib Codec List
variable {st : Stream} {f : Nat} {p : Nat} {i : Nat}

def Childless (d : Data) (σ : Nat → Option Stream) (p : Nat) : Prop :=
  ((splitId p).1 = 0 → d.nodes.get p = none) ∧ ((splitId p).1 = tagSym →
    ∀ st, σ (splitId p).2.1 = some st → st.symbols.length ≤ (splitId p).2.2)

theorem nodup_childItems (s : Stream) (par : Option U32) : (childItems s par).Nodup := by
  have hzip : ∀ {α : Type} (l : List α) (q : α × Nat → Bool), (l.zipIdx.filter q).Nodup :=
    fun l q =>
    ((zipIdx_pairwise_snd l).imp fun {a b} hlt => fun he =>
      absurd hlt (by rw [he]; exact lt_irrefl _)).filter q
  rw [childItems, (perm_interleave _ _ _).nodup_iff, nodup_append]
  refine ⟨(hzip _ _).map Sum.inl_injective, (hzip _ _).map Sum.inr_injective, ?_⟩
  intro a ha b hb he
  obtain ⟨x, -, rfl⟩ := mem_map.mp ha
  obtain ⟨y, -, rfl⟩ := mem_map.mp hb
  cases he

section
variable {sha256 : List UInt8 → List UInt8} {ok : Extraction → Prop} {d : Data}
  {σ : Nat → Option Stream} {es : List (Nat × String)} (h : Inv sha256 ok d σ es)
  (hn : ∀ g st, σ g = some st → st.Narrow)
include h hn

theorem itemParent_cases (hs : σ f = some st) {it : Item} (hit : InStream st.readBack it) :
    itemParent it = none ∨ ∃ q, itemParent it = some q ∧ q.val < st.symbols.length ∧
      splitId (parentId f (itemParent it)) = (tagSym, f, q.val) := by
  have hst := hn f st hs
  cases hp : itemParent it with
  | none => exact Or.inl rfl
  | some q =>
    have hq : q.val < st.ranged.length := by
      rcases it with ⟨r, i⟩ | ⟨r, i⟩
      · have hd := (decoded_readBack hst.wf hst.laid hst.nsym.le).laid.parents i r hit q hp
        have hi : i < st.ranged.length := lt_of_getElem? hit
        omega
      · exact (decoded_readBack hst.wf hst.laid hst.nsym.le).laid.tokParents r
          (mem_of_getElem? hit) q hp
    rw [length_ranged] at hq
    exact Or.inr ⟨q, rfl, hq, splitId_subId (h.content.stored f st hs).file q.isLt⟩

omit hn in
theorem splitId_entity {id : Nat} {n : Node} (hrow : d.nodes.get id = some n) :
    (splitId id).1 = 0 := by
  have hlt := (h.entities.ids id n hrow).2.2
  have hmax := h.entities.next.2
  exact splitId_local (by omega)

theorem parentId_entity (hs : σ f = some st) {it : Item} (hit : InStream st.readBack it)
    (htag : (splitId (parentId f (itemParent it))).1 = 0) : itemParent it = none := by
  rcases itemParent_cases h hn hs hit with hnone | ⟨q, -, -, hsplit⟩
  · exact hnone
  · rw [hsplit] at htag
    cases htag

theorem parentId_symbol (hs : σ f = some st) {it : Item} (hit : InStream st.readBack it)
    {g i : Nat} (hsplit : splitId (parentId f (itemParent it)) = (tagSym, g, i)) :
    f = g ∧ ∃ q, itemParent it = some q ∧ q.val = i ∧ i < st.symbols.length := by
  rcases itemParent_cases h hn hs hit with hnone | ⟨q, hq, hlt, he⟩
  · rw [hnone] at hsplit
    have htag := splitId_local (h.content.stored f st hs).file
    rw [show parentId f none = f from rfl] at hsplit
    rw [hsplit] at htag
    cases htag
  · have hfields := he.symm.trans hsplit
    rw [Prod.mk.injEq, Prod.mk.injEq] at hfields
    exact ⟨hfields.2.1, q, hq, hfields.2.2, hfields.2.2 ▸ hlt⟩

omit hn in
theorem mapM_childItems (hs : σ f = some st) (par : Option U32) :
    (childItems st.readBack par).mapM (itemNode d.terms.text f) =
      .ok ((childItems st.readBack par).map (itemNodeOf es f)) :=
  mapM_itemNode h.content hs fun _ hit => (mem_childItems.mp hit).1

theorem childrenOfFile_eq (hs : σ f = some st) :
    d.childrenOfFile f = .ok ((childItems st.readBack none).map (itemNodeOf es f)) := by
  have hst := hn f st hs
  rw [Data.childrenOfFile, withBytes_eq h.content, hs]
  dsimp only
  rw [childrenRangedFile_eq hst.wf hst.laid hst.nsym.le, mapM_childItems h hs]
  rfl

theorem childrenOfSymbol_eq (hs : σ f = some st) (hi : i < st.symbols.length) :
    d.childrenOfSymbol f i =
      .ok ((childItems st.readBack (some (u32 i))).map (itemNodeOf es f)) := by
  have hst := hn f st hs
  rw [Data.childrenOfSymbol, withBytes_eq h.content, hs]
  dsimp only
  rw [childrenRanged_eq hst.wf hst.laid hst.nsym.le _ _ hi, mapM_childItems h hs]
  rfl

theorem childrenOfSymbol_none {f i : Nat} (hi : ∀ st, σ f = some st → st.symbols.length ≤ i)
    (hlt : i < 4294967296) : d.childrenOfSymbol f i = .ok [] := by
  rw [Data.childrenOfSymbol, withBytes_eq h.content, withBytes_eq h.content]
  cases hs : σ f with
  | none => rfl
  | some st =>
    have hst := hn f st hs
    have hsto := (h.content.stored f st hs).storable
    have hlen : st.ranged.length ≤ i := (length_ranged st).trans_le (hi st hs)
    have hranged : childrenRanged d.terms.text f i (encode st) = .ok none := by
      rw [childrenRanged, decodeLazy_encode hsto, ok_bind, rangesDense_of_laid hst.wf hst.laid,
        if_neg (by simp), symbols_lazyOf hsto, ok_bind, getElem?_eq_none hlen]
      rfl
    have hfall : childrenFallback d.terms.text f i (encode st) = .ok [] := by
      have hkids : (streamTree st.readBack).kids[i]? = none := by
        rw [streamTree, foldl_push_kids _ _ hlt,
          getElem?_eq_none (by rw [length_replicate]; exact hlen)]
        rfl
      rw [childrenFallback, decode_encode hsto, ok_bind]
      rw [show (⟨st.ranged, st.tokens⟩ : Stream) = st.readBack from rfl, hkids]
      rfl
    dsimp only
    rw [hranged]
    dsimp only [map_ok, ok_bind, Option.join]
    rw [hfall]
    rfl

omit hn in
theorem kids_spec (id : Nat) : ∃ cs, d.kids id = .ok cs ∧
    List.Forall₂ (fun k c => d.nodes.get k = some c) (d.children.get id) cs := by
  have hrow : ∀ k ∈ d.children.get id, ∃ c, d.need k = .ok c := by
    intro k hk
    obtain ⟨c, hc, -⟩ := (h.entities.children id k).mp (Multimap.mem_get.mp hk)
    exact ⟨c, by rw [Data.need, hc]⟩
  obtain ⟨cs, hcs⟩ := exists_mapM_ok.mpr hrow
  refine ⟨cs, hcs, (mapM_eq_ok.mp hcs).imp fun k c hkc => ?_⟩
  rw [Data.need] at hkc
  cases hget : d.nodes.get k with
  | none => rw [hget] at hkc; cases hkc
  | some m => rw [hget] at hkc; rw [Except.ok.inj hkc]

omit hn in
theorem id_cases (p : Nat) :
    (∃ m, d.nodes.get p = some m ∧ m.kind ≠ .file) ∨
    (∃ m st, d.nodes.get p = some m ∧ m.kind = .file ∧ σ p = some st) ∨
    (∃ f st i, σ f = some st ∧ i < st.symbols.length ∧ p = subId tagSym f i) ∨ Childless d σ p := by
  have hid := subId_splitId p
  rcases hsplit : splitId p with ⟨tag, f, i⟩
  rw [hsplit] at hid
  cases hrow : d.nodes.get p with
  | some m =>
    by_cases hk : m.kind = .file
    · obtain ⟨st, hs⟩ := Option.isSome_iff_exists.mp ((h.files.streams p).mpr ⟨m, hrow, hk⟩)
      exact Or.inr (Or.inl ⟨m, st, rfl, hk, hs⟩)
    · exact Or.inl ⟨m, rfl, hk⟩
  | none =>
    by_cases hsym : tag = tagSym ∧ ∃ st, σ f = some st ∧ i < st.symbols.length
    · obtain ⟨rfl, st, hs, hi⟩ := hsym
      exact Or.inr (Or.inr (Or.inl ⟨f, st, i, hs, hi, hid.symm⟩))
    · refine Or.inr (Or.inr (Or.inr ⟨fun _ => hrow, fun htag st hs => ?_⟩))
      rw [hsplit] at htag hs ⊢
      exact Nat.le_of_not_lt fun hi => hsym ⟨htag, st, hs, hi⟩

omit hn in
theorem childrenOf_row {m : Node} (hrow : d.nodes.get p = some m) :
    d.childrenOf p = if m.kind = .file then d.childrenOfFile p else d.kids p := by
  rw [Data.childrenOf]
  dsimp only
  rw [if_pos (splitId_entity h hrow), hrow]

theorem splitId_symbol (hs : σ f = some st) (hi : i < st.symbols.length) :
    splitId (subId tagSym f i) = (tagSym, f, i) :=
  splitId_subId (h.content.stored f st hs).file (hi.trans (hn f st hs).nsym)

theorem childrenOf_symbol (hs : σ f = some st) (hi : i < st.symbols.length) :
    d.childrenOf (subId tagSym f i) =
      .ok ((childItems st.readBack (some (u32 i))).map (itemNodeOf es f)) := by
  rw [Data.childrenOf, splitId_symbol h hn hs hi]
  exact childrenOfSymbol_eq h hn hs hi

theorem childrenOf_childless (hp : Childless d σ p) : d.childrenOf p = .ok [] := by
  have hlt : (splitId p).2.2 < 4294967296 := Nat.lt_succ_of_le Nat.and_le_right
  rw [Data.childrenOf]
  dsimp only
  split_ifs with htag hsym
  · rw [hp.1 htag]
    rfl
  · rfl
  · exact childrenOfSymbol_none h hn (hp.2 (not_not.mp hsym)) hlt

theorem child_cases {n : Node} (hnode : d.HasNode n) (hp : n.parent = some p) :
    (d.nodes.get n.id = some n ∧ ∃ m, d.nodes.get p = some m ∧ m.kind ≠ .file) ∨
      ∃ f st it, σ f = some st ∧ InStream st.readBack it ∧ n = itemNodeOf es f it ∧
        parentId f (itemParent it) = p := by
  rcases (hasNode_iff h hn n).mp hnode with hrow | ⟨f, st, it, hs, hit, rfl⟩
  · have hshape := h.entities.shaped _ _ hrow
    obtain ⟨m, hm⟩ := hshape.parent_row hp
    refine Or.inl ⟨hrow, m, hm, ?_⟩
    rcases hshape.kind_of_parent hp hm with ⟨hk, -⟩ | ⟨hk, -⟩
    · rw [hk]
      decide
    · rw [hk]
      decide
  · rw [itemNodeOf_parent] at hp
    exact Or.inr ⟨f, st, it, hs, hit, rfl, Option.some.inj hp⟩

theorem mem_items_file (hs : σ f = some st) {m : Node} (hrow : d.nodes.get f = some m)
    (hk : m.kind = .file) (n : Node) :
    n ∈ (childItems st.readBack none).map (itemNodeOf es f) ↔ d.HasNode n ∧ n.parent = some f := by
  constructor
  · intro hmem
    obtain ⟨it, hit, rfl⟩ := mem_map.mp hmem
    obtain ⟨hin, hpar⟩ := mem_childItems.mp hit
    rw [itemNodeOf_parent, hpar]
    exact ⟨hasNode_item h hn hs hin, rfl⟩
  · rintro ⟨hnode, hp⟩
    rcases child_cases h hn hnode hp with ⟨-, m', hm', hk'⟩ | ⟨g, st', it, hs', hit, rfl, hpar⟩
    · obtain rfl := Option.mem_unique hrow hm'
      exact absurd hk hk'
    · have hnone := parentId_entity h hn hs' hit (hpar ▸ splitId_entity h hrow)
      rw [hnone] at hpar
      obtain rfl : g = f := hpar
      obtain rfl := Option.mem_unique hs hs'
      exact mem_map_of_mem (mem_childItems.mpr ⟨hit, hnone⟩)

theorem mem_items_symbol (hs : σ f = some st) (hi : i < st.symbols.length) (n : Node) :
    n ∈ (childItems st.readBack (some (u32 i))).map (itemNodeOf es f) ↔
      d.HasNode n ∧ n.parent = some (subId tagSym f i) := by
  have hu : (u32 i).val = i := Nat.mod_eq_of_lt (hi.trans (hn f st hs).nsym)
  constructor
  · intro hmem
    obtain ⟨it, hit, rfl⟩ := mem_map.mp hmem
    obtain ⟨hin, hpar⟩ := mem_childItems.mp hit
    rw [itemNodeOf_parent, hpar]
    refine ⟨hasNode_item h hn hs hin, ?_⟩
    rw [parentId, Option.elim_some, hu]
  · rintro ⟨hnode, hp⟩
    rcases child_cases h hn hnode hp with ⟨-, m, hm, -⟩ | ⟨g, st', it, hs', hit, rfl, hpar⟩
    · have htag := splitId_entity h hm
      rw [splitId_symbol h hn hs hi] at htag
      cases htag
    · obtain ⟨rfl, q, hq, hqi, -⟩ := parentId_symbol h hn hs' hit (hpar ▸ splitId_symbol h hn hs hi)
      obtain rfl := Option.mem_unique hs hs'
      obtain rfl : q = u32 i := Fin.ext (hqi.trans hu.symm)
      exact mem_map_of_mem (mem_childItems.mpr ⟨hit, hq⟩)

theorem mem_kids {m : Node} (hrow : d.nodes.get p = some m) (hk : m.kind ≠ .file) {cs : List Node}
    (hcs : List.Forall₂ (fun k c => d.nodes.get k = some c) (d.children.get p) cs) (n : Node) :
    n ∈ cs ↔ d.HasNode n ∧ n.parent = some p := by
  constructor
  · intro hmem
    obtain ⟨k, hk, hget⟩ := exists_of_forall₂ hcs.flip hmem
    obtain ⟨c, hc, hp⟩ := (h.entities.children p k).mp (Multimap.mem_get.mp hk)
    obtain rfl := Option.mem_unique hget hc
    exact ⟨hasNode_entity h hget, hp⟩
  · rintro ⟨hnode, hp⟩
    rcases child_cases h hn hnode hp with ⟨hget, -⟩ | ⟨g, st, it, hs, hit, rfl, hpar⟩
    · have hmem := Multimap.mem_get.mpr ((h.entities.children p n.id).mpr ⟨n, hget, hp⟩)
      obtain ⟨c, hc, hc'⟩ := exists_of_forall₂ hcs hmem
      exact Option.mem_unique hc' hget ▸ hc
    · have hnone := parentId_entity h hn hs hit (hpar ▸ splitId_entity h hrow)
      rw [hnone] at hpar
      obtain rfl : g = p := hpar
      obtain ⟨f, hf, hkind⟩ := (h.files.streams g).mp (by rw [hs]; rfl)
      obtain rfl := Option.mem_unique hrow hf
      exact absurd hkind hk

theorem no_child (hp : Childless d σ p) {n : Node} (hnode : d.HasNode n) : n.parent ≠ some p := by
  intro he
  rcases child_cases h hn hnode he with ⟨-, m, hm, -⟩ | ⟨g, st, it, hs, hit, rfl, hpar⟩
  · exact absurd (hp.1 (splitId_entity h hm)) (by rw [hm]; simp)
  · rcases itemParent_cases h hn hs hit with hnone | ⟨q, hq, hlt, hsplit⟩
    · rw [hnone] at hpar
      obtain rfl : g = p := hpar
      obtain ⟨f, hf, -⟩ := (h.files.streams g).mp (by rw [hs]; rfl)
      exact absurd (hp.1 (splitId_entity h hf)) (by rw [hf]; simp)
    · rw [hpar] at hsplit
      have hle := hp.2 (by rw [hsplit]) st (by rw [hsplit]; exact hs)
      rw [hsplit] at hle
      exact absurd hlt (Nat.not_lt.mpr hle)

theorem nodup_itemIds (hs : σ f = some st) (par : Option U32) :
    (((childItems st.readBack par).map (itemNodeOf es f)).map Node.id).Nodup := by
  have hfile := (h.content.stored f st hs).file
  rw [map_map]
  refine List.Nodup.map_on ?_ (nodup_childItems _ _)
  intro it hit it' hit' he
  have hin := (mem_childItems.mp hit).1
  have hin' := (mem_childItems.mp hit').1
  have hsplit := congrArg splitId (show itemId f it = itemId f it' by simpa using he)
  rw [splitId_itemId (narrow_lt hn hs) hfile hin, splitId_itemId (narrow_lt hn hs) hfile hin',
    Prod.mk.injEq, Prod.mk.injEq] at hsplit
  exact item_eq_of_splitId hin hin' hsplit.1 hsplit.2.2

omit hn in
theorem nodup_kids {cs : List Node}
    (hcs : List.Forall₂ (fun k c => d.nodes.get k = some c) (d.children.get p) cs) :
    (cs.map Node.id).Nodup := by
  have hids : List.Forall₂ (fun k c => k = c.id) (d.children.get p) cs :=
    hcs.imp fun k c hc => (h.entities.ids k c hc).1.symm
  rw [← forall₂_map_right_iff, forall₂_eq_eq_eq] at hids
  rw [← hids]
  exact (d.children.get_sorted p).imp ne_of_lt

theorem childrenOf_spec (p : Nat) : ∃ cs, d.childrenOf p = .ok cs ∧ (cs.map Node.id).Nodup ∧
    ∀ n, n ∈ cs ↔ d.HasNode n ∧ n.parent = some p := by
  rcases id_cases h p with ⟨m, hrow, hk⟩ | ⟨m, st, hrow, hk, hs⟩ | ⟨f, st, i, hs, hi, rfl⟩ | hp
  · obtain ⟨cs, hcs, hrows⟩ := kids_spec h p
    refine ⟨cs, ?_, nodup_kids h hrows, mem_kids h hn hrow hk hrows⟩
    rw [childrenOf_row h hrow, if_neg hk, hcs]
  · refine ⟨_, ?_, nodup_itemIds h hn hs none, mem_items_file h hn hs hrow hk⟩
    rw [childrenOf_row h hrow, if_pos hk, childrenOfFile_eq h hn hs]
  · exact ⟨_, childrenOf_symbol h hn hs hi, nodup_itemIds h hn hs _, mem_items_symbol h hn hs hi⟩
  · refine ⟨[], childrenOf_childless h hn hp, nodup_nil, fun n => ?_⟩
    simpa using no_child h hn hp

end
end MemoryGraph
