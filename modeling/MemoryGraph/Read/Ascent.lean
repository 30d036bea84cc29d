import MemoryGraph.Read.Descent

/-! Going up: `ancestors` is the line of parents, through the symbols of a file and the
entity rows to the org. -/

namespace MemoryGraph
open Lib Codec Option List
variable {p : Nat} {m : Node}

/-- `as` is the line of nodes from the id `up` to the org, each the parent of the one before. -/
inductive Data.Line (d : Data) : Option Nat → List Node → Prop
  | top : Data.Line d none []
  | up {m : Node} {rest : List Node} :
    d.HasNode m → Data.Line d m.parent rest → Data.Line d (some m.id) (m :: rest)

theorem Data.Line.hasNode {d : Data} {p : Option Nat} {as : List Node} (hl : d.Line p as) :
    ∀ m ∈ as, d.HasNode m := by
  induction hl with
  | top => simp
  | up hm _ ih =>
    intro m hmem
    rcases mem_cons.mp hmem with rfl | hmem
    · exact hm
    · exact ih m hmem

theorem Data.Line.unique {d : Data} {p : Option Nat} {as bs : List Node} (ha : d.Line p as)
    (hb : d.Line p bs) : as = bs := by
  induction ha generalizing bs with
  | top =>
    cases hb
    rfl
  | @up m rest hm _ ih =>
    generalize hid : some m.id = q at hb
    cases hb with
    | top => cases hid
    | @up m' rest' hm' hrest' =>
      have hget : d.get m.id = .ok (some m') := by rw [some.inj hid]; exact hm'
      obtain rfl : m = m' := some.inj (Except.ok.inj (Eq.trans (Eq.symm hm) hget))
      rw [ih hrest']

section
variable {sha256 : List UInt8 → List UInt8} {ok : Extraction → Prop} {d : Data}
  {σ : Nat → Option Stream} {es : List (Nat × String)} (h : Inv sha256 ok d σ es)
  (hn : ∀ g st, σ g = some st → st.Narrow)
include h

theorem entitiesUp_row (hrow : d.nodes.get p = some m) {fuel : Nat} {rest : List Node}
    (hrest : d.entitiesUp fuel m.parent = .ok rest) (hline : d.Line m.parent rest) :
    d.entitiesUp (fuel + 1) (some p) = .ok (m :: rest) ∧ d.Line (some p) (m :: rest) := by
  have hid := (h.entities.ids p m hrow).1
  refine ⟨?_, hid ▸ .up (hasNode_entity h hrow) hline⟩
  have hneed : d.need p = .ok m := by rw [Data.need, hrow]
  rw [Data.entitiesUp, hneed, ok_bind, hrest]
  rfl

theorem entitiesUp_org (hrow : d.nodes.get p = some m) (hk : m.kind = .org) (fuel : Nat) :
    ∃ as, d.entitiesUp (fuel + 1) (some p) = .ok as ∧ d.Line (some p) as := by
  have hshape := h.entities.shaped p m hrow
  rw [Shaped, hk] at hshape
  have hp : m.parent = none := hshape.1
  have hend : d.entitiesUp fuel none = .ok [] := by unfold Data.entitiesUp; cases fuel <;> rfl
  exact ⟨[m], entitiesUp_row h hrow (by rw [hp, hend]) (by rw [hp]; exact .top)⟩

theorem entitiesUp_repo (hrow : d.nodes.get p = some m) (hk : m.kind = .repo) (fuel : Nat) :
    ∃ as, d.entitiesUp (fuel + 2) (some p) = .ok as ∧ d.Line (some p) as := by
  have hshape := h.entities.shaped p m hrow
  rw [Shaped, hk] at hshape
  obtain ⟨-, o, n, hp, hn, ho⟩ := hshape
  obtain ⟨as, has, hline⟩ := entitiesUp_org h hn ho fuel
  exact ⟨m :: as, entitiesUp_row h hrow (by rw [hp]; exact has) (by rw [hp]; exact hline)⟩

theorem entitiesUp_file (hrow : d.nodes.get p = some m) (hk : m.kind = .file) (fuel : Nat) :
    ∃ as, d.entitiesUp (fuel + 3) (some p) = .ok as ∧ d.Line (some p) as := by
  have hshape := h.entities.shaped p m hrow
  rw [Shaped, hk] at hshape
  obtain ⟨-, -, r, n, hp, hn, hr⟩ := hshape
  obtain ⟨as, has, hline⟩ := entitiesUp_repo h hn hr fuel
  exact ⟨m :: as, entitiesUp_row h hrow (by rw [hp]; exact has) (by rw [hp]; exact hline)⟩

theorem two_le_len (hrow : d.nodes.get p = some m) (hk : m.kind = .file) : 2 ≤ d.nodes.len := by
  have hshape := h.entities.shaped p m hrow
  rw [Shaped, hk] at hshape
  obtain ⟨-, -, r, n, hp, hn, -⟩ := hshape
  have hlt := h.entities.above p m r hrow hp
  have hnd : [(p, m), (r, n)].Nodup := by simp [hlt.ne']
  have hsub : [(p, m), (r, n)] ⊆ d.nodes.rows := by
    intro e he
    rcases mem_cons.mp he with rfl | he
    · exact Table.get_eq_some.mp hrow
    · rw [mem_singleton.mp he]
      exact Table.get_eq_some.mp hn
  exact (subperm_of_subset hnd hsub).length_le

theorem entitiesUp_spec (hrow : d.nodes.get p = some m) :
    ∃ as, d.entitiesUp (d.nodes.len + 1) (some p) = .ok as ∧ d.Line (some p) as := by
  have hlen : 1 ≤ d.nodes.len := length_pos_of_mem (Table.get_eq_some.mp hrow)
  rcases (h.entities.shaped p m hrow).cases with ⟨ho, -⟩ | ⟨hr, -⟩ | ⟨hf, -⟩
  · exact entitiesUp_org h hrow ho _
  · obtain ⟨k, hk⟩ := Nat.exists_eq_add_of_le hlen
    rw [show d.nodes.len + 1 = k + 2 by omega]
    exact entitiesUp_repo h hrow hr k
  · obtain ⟨k, hk⟩ := Nat.exists_eq_add_of_le (two_le_len h hrow hf)
    rw [show d.nodes.len + 1 = k + 3 by omega]
    exact entitiesUp_file h hrow hf k

include hn

theorem symbolsUp_spec {f : Nat} {st : Stream} (hs : σ f = some st) {above : List Node}
    (habove : d.Line (some f) above) (fuel : Nat) {cur : Option U32}
    (hcur : ∀ p ∈ cur, p.val < fuel ∧ p.val < st.ranged.length) :
    ∃ as, d.symbolsUp f st.ranged fuel cur = .ok as ∧
      d.Line (some (parentId f cur)) (as ++ above) := by
  have hst := hn f st hs
  have hdec := decoded_readBack hst.wf hst.laid hst.nsym.le
  induction fuel generalizing cur with
  | zero =>
    cases cur with
    | none => exact ⟨[], rfl, habove⟩
    | some p => exact absurd (hcur p rfl).1 (Nat.not_lt_zero _)
  | succ fuel ih =>
    cases cur with
    | none => exact ⟨[], rfl, habove⟩
    | some p =>
      obtain ⟨hfuel, hlt⟩ := hcur p rfl
      have hr : st.ranged[p.val]? = some st.ranged[p.val] := getElem?_eq_getElem hlt
      have hparent : ∀ q ∈ st.ranged[p.val].parent, q.val < fuel ∧ q.val < st.ranged.length := by
        intro q hq
        have hbefore := hdec.laid.parents p.val _ hr q hq
        omega
      obtain ⟨as, has, hline⟩ := ih hparent
      have hnode := hasNode_item h hn hs
        (show InStream st.readBack (.inl (st.ranged[p.val], p.val)) from hr)
      refine ⟨itemNodeOf es f (.inl (st.ranged[p.val], p.val)) :: as, ?_, .up hnode hline⟩
      rw [Data.symbolsUp, symNode_eq h.content hs hr, ok_bind, hr, bind_some, has]
      rfl

omit hn in
theorem ancestors_entity (hrow : d.nodes.get p = some m) :
    ∃ as, d.ancestors p = .ok as ∧ d.Line m.parent as := by
  rw [Data.ancestors]
  dsimp only
  rw [if_pos (splitId_entity h hrow), hrow, bind_some]
  cases hp : m.parent with
  | none => exact ⟨[], rfl, .top⟩
  | some q =>
    obtain ⟨n, hn⟩ := (h.entities.shaped p m hrow).parent_row hp
    exact entitiesUp_spec h hn

theorem ancestors_item {f : Nat} {st : Stream} (hs : σ f = some st) {it : Item}
    (hit : InStream st.readBack it) :
    ∃ as, d.ancestors (itemId f it) = .ok as ∧ d.Line (some (parentId f (itemParent it))) as := by
  have hsto := (h.content.stored f st hs).storable
  have hsplit := splitId_itemId (narrow_lt hn hs) (h.content.stored f st hs).file hit
  obtain ⟨m, hrow, -⟩ := (h.files.streams f).mp (by rw [hs]; rfl)
  obtain ⟨above, habove, hline⟩ := entitiesUp_spec h hrow
  have hcur : ∀ p ∈ itemParent it, p.val < st.ranged.length + 1 ∧ p.val < st.ranged.length := by
    intro p hp
    rcases itemParent_cases h hn hs hit with hnone | ⟨q, hq, hlt, -⟩
    · rw [hnone] at hp
      cases hp
    · obtain rfl := mem_unique hq hp
      rw [length_ranged]
      omega
  obtain ⟨as, has, hup⟩ := symbolsUp_spec h hn hs hline _ hcur
  refine ⟨as ++ above, ?_, hup⟩
  rcases it with ⟨r, i⟩ | ⟨r, i⟩
  · have hlt : i < st.ranged.length := lt_of_getElem? hit
    have hsplit : splitId (itemId f (.inl (r, i))) = (tagSym, f, i) := hsplit
    rw [Data.ancestors, hsplit]
    dsimp only
    rw [if_neg (by decide), withLazy_eq h.content, hs]
    dsimp only
    rw [symbols_lazyOf hsto, ok_bind, if_pos ⟨rfl, hlt⟩, show st.ranged[i]? =
      some r from hit, bind_some,
      show d.symbolsUp f st.ranged (st.ranged.length + 1) r.parent = .ok as from has]
    dsimp only [map_ok, ok_bind, join]
    rw [habove]
    rfl
  · have hlt : i < (lazyOf st).ntok := lt_of_getElem? hit
    have hsplit : splitId (itemId f (.inr (r, i))) = (tagTok, f, i) := hsplit
    rw [Data.ancestors, hsplit]
    dsimp only
    rw [if_neg (by decide), withLazy_eq h.content, hs]
    dsimp only
    rw [symbols_lazyOf hsto, ok_bind, if_neg (fun e => absurd e.1 (by decide)), if_pos ⟨rfl, hlt⟩,
      Lazy.tokensAt, tokensAtWhile_lazyOf hsto _ (pairwise_singleton _ _) (fun ord ho =>
      mem_singleton.mp ho ▸ hlt), pick_cons (show st.tokens[i]? = some r from hit), ok_bind,
      show d.symbolsUp f st.ranged (st.ranged.length + 1)
        (visit (fun _ (t : TokRec) (_ : Option U32) => (t.parent, true))
        ((r, i) :: pick st.tokens []) none).1 = .ok as from has]
    dsimp only [map_ok, ok_bind, join]
    rw [habove]
    rfl

theorem ancestors_none (hp : d.get p = .ok none) : d.ancestors p = .ok [] := by
  have hid := subId_splitId p
  rcases hsplit : splitId p with ⟨tag, f, i⟩
  rw [hsplit] at hid
  have hitem : ∀ {st : Stream} {it : Item}, σ f = some st → InStream st.readBack it →
      p ≠ itemId f it := by
    intro st it hs hit he
    have hget := get_item h.content hn hs hit
    rw [← he, hp] at hget
    cases hget
  rw [Data.ancestors, hsplit]
  dsimp only
  by_cases htag : tag = 0
  · have hrow : d.get p = .ok (d.nodes.get p) := by
      rw [Data.get, hsplit]
      exact if_pos htag
    rw [if_pos htag, ← Except.ok.inj (hp.symm.trans hrow)]
    rfl
  rw [if_neg htag, withLazy_eq h.content]
  cases hs : σ f with
  | none => rfl
  | some st =>
    have hsym : ¬ (tag = tagSym ∧ i < st.ranged.length) := by
      rintro ⟨rfl, hlt⟩
      exact @hitem st (.inl (st.ranged[i], i)) hs (getElem?_eq_getElem hlt) hid.symm
    have htok : ¬ (tag = tagTok ∧ i < (lazyOf st).ntok) := by
      rintro ⟨rfl, hlt⟩
      have hlt : i < st.tokens.length := hlt
      exact @hitem st (.inr (st.tokens[i], i)) hs (getElem?_eq_getElem hlt) hid.symm
    dsimp only
    rw [symbols_lazyOf (h.content.stored f st hs).storable, ok_bind, if_neg hsym, if_neg htok]
    rfl

theorem ancestors_node {n : Node} (hnode : d.HasNode n) :
    ∃ as, d.ancestors n.id = .ok as ∧ d.Line n.parent as := by
  rcases (hasNode_iff h hn n).mp hnode with hrow | ⟨f, st, it, hs, hit, rfl⟩
  · exact ancestors_entity h hrow
  · rw [itemNodeOf_id, itemNodeOf_parent]
    exact ancestors_item h hn hs hit

theorem org_of_parent_none {n : Node} (hnode : d.HasNode n) (hp : n.parent = none) :
    n.kind = .org := by
  rcases (hasNode_iff h hn n).mp hnode with hrow | ⟨f, st, it, hs, hit, rfl⟩
  · rcases (h.entities.shaped _ _ hrow).cases with ⟨ho, -⟩ | ⟨-, o, m, ho, -⟩ | ⟨-, r, m, hr, -⟩
    · exact ho
    · rw [hp] at ho
      cases ho
    · rw [hp] at hr
      cases hr
  · rw [itemNodeOf_parent] at hp
    cases hp

end

structure Data.Coherent (d : Data) : Prop where
  ids : ∀ p q : Place, p.Stored d → q.Stored d → p.id = q.id → p = q
  nodes : ∀ p : Place, p.Stored d → ∃ n, d.HasNode n ∧ n.id = p.id
  children : ∀ p, ∃ cs, d.childrenOf p = .ok cs ∧ (cs.map Node.id).Nodup ∧
    ∀ n, n ∈ cs ↔ d.HasNode n ∧ n.parent = some p
  descendants : ∀ p, ∃ ds, d.descendants p = .ok ds ∧ d.Preorder p ds ∧ ∀ n ∈ ds, d.HasNode n
  ancestors : ∀ p, ∃ as, d.ancestors p = .ok as ∧ ∀ n ∈ as, d.HasNode n
  line : ∀ n, d.HasNode n → ∃ as, d.ancestors n.id = .ok as ∧ (as.getLastD n).kind = .org ∧
    (n.parent = none ∧ as = [] ∨ ∃ m rest, n.parent = some m.id ∧ d.parent n.id = .ok (some m) ∧
      d.ancestors m.id = .ok rest ∧ as = m :: rest)

section
variable {sha256 : List UInt8 → List UInt8} {ok : Extraction → Prop} {d : Data}
  {σ : Nat → Option Stream} {es : List (Nat × String)} (h : Inv sha256 ok d σ es)
  (hn : ∀ g st, σ g = some st → st.Narrow)
include h hn

theorem Place.Stored.hasNode {p : Place} (hp : p.Stored d) : ∃ n, d.HasNode n ∧ n.id = p.id := by
  have hstream : ∀ {f : Nat} {s : Stream}, d.stream f = .ok (some s) → ∃ st, σ f = some st ∧
      s = st.readBack := by
    intro f s hs
    rw [stream_eq h.content] at hs
    obtain ⟨st, hst, rfl⟩ := map_eq_some_iff.mp (Except.ok.inj hs)
    exact ⟨st, hst, rfl⟩
  cases p with
  | entity id =>
    obtain ⟨n, hrow⟩ := hp
    exact ⟨n, hasNode_entity h hrow, (h.entities.ids id n hrow).1⟩
  | symbol f i =>
    obtain ⟨s, hs, hi⟩ := hp
    obtain ⟨st, hst, rfl⟩ := hstream hs
    have hin : InStream st.readBack (.inl (st.readBack.symbols[i], i)) := getElem?_eq_getElem hi
    exact ⟨_, hasNode_item h hn hst hin, itemNodeOf_id ..⟩
  | token f i =>
    obtain ⟨s, hs, hi⟩ := hp
    obtain ⟨st, hst, rfl⟩ := hstream hs
    have hin : InStream st.readBack (.inr (st.readBack.tokens[i], i)) := getElem?_eq_getElem hi
    exact ⟨_, hasNode_item h hn hst hin, itemNodeOf_id ..⟩

theorem Data.Line.last {n : Node} (hnode : d.HasNode n) {as : List Node} (hl : d.Line n.parent as) :
    (as.getLastD n).kind = .org := by
  generalize hp : n.parent = p at hl
  induction hl generalizing n with
  | top => exact org_of_parent_none h hn hnode hp
  | @up m rest hm _ ih =>
    rw [getLastD_cons]
    exact ih hm rfl

theorem coherent_of_inv : d.Coherent where
  ids p q hp hq e := Place.eq_of_id_eq h hn hp hq e
  nodes p hp := hp.hasNode h hn
  children := childrenOf_spec h hn
  descendants p := by
    obtain ⟨ds, hds, hpre⟩ := descendants_spec h hn p
    exact ⟨ds, hds, hpre, hpre.hasNode h hn⟩
  ancestors p := by
    obtain ⟨found, hget, hcases⟩ := get_cases h.content hn p
    cases found with
    | none => exact ⟨[], ancestors_none h hn hget, by simp⟩
    | some n =>
      have hnode : d.HasNode n ∧ n.id = p := by
        rcases hcases n rfl with ⟨-, hrow⟩ | ⟨f, st, it, hs, hit, rfl, rfl⟩
        · exact ⟨hasNode_entity h hrow, (h.entities.ids p n hrow).1⟩
        · exact ⟨hasNode_item h hn hs hit, itemNodeOf_id ..⟩
      obtain ⟨as, has, hline⟩ := ancestors_node h hn hnode.1
      exact ⟨as, hnode.2 ▸ has, hline.hasNode⟩
  line n hnode := by
    obtain ⟨as, has, hline⟩ := ancestors_node h hn hnode
    refine ⟨as, has, hline.last h hn hnode, ?_⟩
    generalize hp : n.parent = p at hline
    cases hline with
    | top => exact Or.inl ⟨rfl, rfl⟩
    | @up m rest hm hrest =>
      obtain ⟨rest', hrest', hline'⟩ := ancestors_node h hn hm
      have hget : d.get n.id = .ok (some n) := hnode
      refine Or.inr ⟨m, rest, rfl, ?_, hrest.unique hline' ▸ hrest', rfl⟩
      rw [Data.parent, hget, ok_bind, bind_some, hp]
      exact hm

end

def Extraction.Narrow (ex : Extraction) : Prop := ex.tokens.length < 4294967296 ∧
    ex.symbols.length < 4294967296

instance (ex : Extraction) : Decidable ex.Narrow := inferInstanceAs (Decidable (_ ∧ _))

theorem Whole.narrow {sha256 : List UInt8 → List UInt8} {d : Data} {σ : Nat → Option Stream}
    {es : List (Nat × String)} (h : Whole sha256 Extraction.Narrow d σ es) :
    ∀ g st, σ g = some st → st.Narrow := by
  intro g st hs
  have hst := h.inv.content.stored g st hs
  obtain ⟨ex, ids, hex, rfl⟩ := hst.built
  have hsym : ((V2Prep.build ex).stream.withIds ids).symbols.length = ex.symbols.length :=
    (length_withIds ids _).1.trans (length_build_symbols ex)
  have htok : ((V2Prep.build ex).stream.withIds ids).tokens.length = ex.tokens.length :=
    (length_withIds ids _).2.trans (length_build_tokens ex)
  obtain ⟨fits, parents, terms, tokParents, -, nsym⟩ := hst.storable
  exact ⟨⟨fits, parents, terms, tokParents, htok.trans_lt hex.bound.1, nsym⟩,
    laid_withIds hex.bound.2.le ids, hsym.trans_lt hex.bound.2⟩

/-- In every reachable store the reads describe one tree. -/
theorem reach_coherent {sha256 : List UInt8 → List UInt8} {d : Data}
    (h : Reachable sha256 Extraction.Narrow d) : d.Coherent := by
  obtain ⟨σ, es, hw⟩ := reachable_whole h
  exact coherent_of_inv hw.inv hw.narrow

theorem reach_coherent_sample : sampleStore.Coherent :=
  reach_coherent (sampleStore_reachable (show Extraction.Narrow sampleContent by decide))

end MemoryGraph
