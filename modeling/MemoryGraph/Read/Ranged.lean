import MemoryGraph.Read.Walk
import MemoryGraph.Prep.Terms

/-! On an encoded stream that the builder laid out, the traversals over the stored ranges
return what the eager ones return. -/

namespace MemoryGraph
open Lib Codec List
variable {i : Nat} {st : Stream}

def Codec.Stream.readBack (st : Stream) : Stream := ⟨st.ranged, st.tokens⟩

theorem sameShape_readBack (st : Stream) : SameShape st st.readBack := by
  refine ⟨ext_getElem? fun i => ?_, rfl⟩
  rw [getElem?_map, getElem?_map]
  cases hs : st.symbols[i]? with
  | none =>
    have hlen := getElem?_eq_none_iff.mp hs
    rw [← length_ranged] at hlen
    simp [Stream.readBack, getElem?_eq_none hlen]
  | some s =>
    obtain ⟨r, hr, -⟩ := exists_ranged hs
    simp [Stream.readBack, hr]

theorem decoded_readBack (h : st.Wf) (hl : st.Laid) (hn : st.symbols.length ≤ 4294967296) :
    Decoded st.readBack where
  laid := (sameShape_readBack st).laid hl
  ranges i s hs := by
    have hi := lt_of_getElem? hs
    rw [← (sameShape_readBack st).length.1] at hi
    obtain ⟨r, hr, hrange⟩ := getElem?_ranged h (getElem?_eq_getElem hi)
    obtain rfl := Option.mem_unique hs hr
    rw [← (sameShape_readBack st).under]
    exact hrange
  nsym := (sameShape_readBack st).length.1 ▸ hn
  ntok := h.ntok

theorem rangesDense_of_laid (h : st.Wf) (hl : st.Laid) : (lazyOf st).rangesDense = true := by
  refine (computeRanges_dense h.parents h.ntok).mpr fun i hi => ?_
  obtain ⟨lo, hi', hb, -⟩ := hl.intervals
  obtain ⟨-, -, hmem⟩ := hb i hi
  rcases Nat.lt_or_ge (lo i) (hi' i) with hlt | hge
  · refine Or.inr ⟨lo i, hi' i - 1, Set.ext fun ord => ?_⟩
    rw [hmem, Set.mem_Icc]
    omega
  · refine Or.inl (Set.eq_empty_of_forall_notMem fun ord hord => ?_)
    have := (hmem ord).mp hord
    omega

structure Codec.Stream.Readable (text : Nat → Except StoreError String) (st : Stream) : Prop where
  names : ∀ s ∈ st.symbols, ∃ t, text s.name = .ok t
  langKinds : ∀ s ∈ st.symbols, ∀ k ∈ s.langKind, ∃ t, text k = .ok t
  terms : ∀ r ∈ st.tokens, ∃ t, text r.term = .ok t

theorem exists_itemNode {text : Nat → Except StoreError String} (h : st.Wf)
    (ht : st.Readable text) (file : Nat) {it : Item} (hit : InStream st.readBack it) :
    ∃ n, itemNode text file it = .ok n := by
  cases it with
  | inr p =>
    obtain ⟨t, htext⟩ := ht.terms p.1 (mem_of_getElem? hit)
    rw [itemNode, tokNode, htext]
    exact ⟨_, rfl⟩
  | inl p =>
    obtain ⟨s, hs⟩ : ∃ s, st.symbols[p.2]? = some s := by
      have hi := lt_of_getElem? hit
      rw [← (sameShape_readBack st).length.1] at hi
      exact ⟨_, getElem?_eq_getElem hi⟩
    obtain ⟨r, hr, -⟩ := getElem?_ranged h hs
    have hp : p.1 = { s with toks := r } := Option.some.inj (Eq.trans (Eq.symm hit) hr)
    obtain ⟨name, hname⟩ := ht.names s (mem_of_getElem? hs)
    rw [itemNode, symRecNode, hp]
    dsimp only
    rw [hname, ok_bind]
    cases hk : s.langKind with
    | none => exact ⟨_, rfl⟩
    | some k =>
      obtain ⟨t, htext⟩ := ht.langKinds s (mem_of_getElem? hs) k hk
      rw [optText, htext]
      exact ⟨_, rfl⟩

theorem visit_push (ps acc : List (TokRec × Nat)) :
    (visit (fun ord t (toks : List (TokRec × Nat)) => (toks ++ [(t, ord)], true)) ps acc).1 =
    acc ++ ps := by
  induction ps generalizing acc with
  | nil => simp [visit]
  | cons p ps ih =>
    rw [visit, if_pos rfl, ih]
    simp

theorem pick_eq_self {tokens : List TokRec} {ps : List (TokRec × Nat)}
    (h : ∀ p ∈ ps, tokens[p.2]? = some p.1) : pick tokens (ps.map Prod.snd) = ps := by
  induction ps with
  | nil => rfl
  | cons p ps ih =>
    obtain ⟨hp, hps⟩ := forall_mem_cons.mp h
    rw [map_cons, pick_cons hp, ih hps]

theorem fetch_toksOf (h : st.Wf) (par : Option U32) :
    fetch (lazyOf st) ((toksOf st.readBack par).map Prod.snd) = .ok (toksOf st.readBack par) := by
  have hmem : ∀ p ∈ toksOf st.readBack par, st.tokens[p.2]? = some p.1 :=
    fun p hp => (mem_toksOf.mp hp).1
  rw [fetch]
  split_ifs with hnil
  · rw [map_eq_nil_iff.mp hnil]
    rfl
  · rw [Lazy.tokensAt, tokensAtWhile_lazyOf h.storable _ (toksOf_snd_sorted par) (fun ord hord =>
      ?_), pick_eq_self hmem, visit_push, nil_append]
    obtain ⟨p, hp, rfl⟩ := mem_map.mp hord
    exact (List.getElem?_eq_some_iff.mp (hmem p hp)).1

theorem get_visit_insert {tokens : List TokRec} (ps : List (TokRec × Nat))
    (h : ∀ p ∈ ps, tokens[p.2]? = some p.1) (m : Table Nat TokRec) {ord : Nat} {t : TokRec}
    (ht : tokens[ord]? = some t) (hm : m.get ord = some t ∨ (t, ord) ∈ ps) :
    (visit (fun ord t (m : Table Nat TokRec) => (m.insert ord t, true)) ps m).1.get ord =
      some t := by
  induction ps generalizing m with
  | nil => exact hm.resolve_right not_mem_nil
  | cons p ps ih =>
    obtain ⟨hp, hps⟩ := forall_mem_cons.mp h
    rw [visit, if_pos rfl]
    refine ih hps _ ?_
    rw [Table.get_insert]
    by_cases he : p.2 = ord
    · subst he
      exact Or.inl (by rw [if_pos rfl, ← ht, hp])
    · rw [if_neg he]
      refine hm.imp_right fun hmem => (mem_cons.mp hmem).resolve_left ?_
      rintro rfl
      exact he rfl

theorem fetchRange_spec (h : st.Wf) (hd : Decoded st.readBack) {s : SymRec}
    (hs : st.readBack.symbols[i]? = some s) :
    ∃ m, fetchRange (lazyOf st) s.toks = .ok m ∧
      ∀ ord t, st.tokens[ord]? = some t → ord ∈ st.readBack.under i → m.get ord = some t := by
  have hrange := hd.ranges i s hs
  cases hr : s.toks with
  | none =>
    rw [hr] at hrange
    refine ⟨Table.empty, rfl, fun ord t _ hord => ?_⟩
    rw [show st.readBack.under i = ∅ from hrange] at hord
    exact absurd hord (Set.notMem_empty _)
  | some r =>
    have hcov := mem_range_iff hd hs hr
    have hin : ∀ ord ∈ range' r.1.val (r.2.val + 1 - r.1.val), ord < st.tokens.length := by
      intro ord hord
      rw [mem_range'_1] at hord
      obtain ⟨t, ht, -⟩ := (hcov ord).mp (by omega)
      exact lt_of_getElem? ht
    refine ⟨_, tokensAtWhile_lazyOf h.storable _ pairwise_lt_range' hin _, fun ord t ht hord => ?_⟩
    refine get_visit_insert _ (fun p hp => ?_) _ ht (Or.inr ?_)
    · obtain ⟨o, -, ho⟩ := mem_filterMap.mp hp
      obtain ⟨u, hu, rfl⟩ := Option.map_eq_some_iff.mp ho
      exact hu
    · have := (hcov ord).mpr hord
      exact mem_filterMap.mpr ⟨ord, mem_range'_1.mpr (by omega), by rw [ht]; rfl⟩

theorem foldl_pushKid (ps : List (SymRec × Nat)) (kids : List (List (SymRec × Nat)))
    (hi : i < 4294967296) :
    (ps.foldl pushKid kids)[i]? =
      kids[i]?.map (fun ks => ks ++ ps.filter (fun p => p.1.parent = some (u32 i))) := by
  have hval : (u32 i).val = i := Nat.mod_eq_of_lt hi
  induction ps generalizing kids with
  | nil => simp
  | cons p ps ih =>
    rw [foldl_cons, ih, filter_cons, pushKid]
    cases hp : p.1.parent with
    | none => simp
    | some q =>
      by_cases hq : q = u32 i
      · subst hq
        simp [hval, Function.comp_def]
      · have hne : q.val ≠ i := fun e => hq (Fin.ext (e.trans hval.symm))
        simp [hne, hq]

theorem symKidsMap_eq {d : Stream} (hi : i < d.symbols.length)
    (hn : d.symbols.length ≤ 4294967296) :
    (symKidsMap d.symbols)[i]? = some (kidsOf d (some (u32 i))) := by
  rw [symKidsMap, foldl_pushKid _ _ (hi.trans_le hn), kidsOf]
  simp [hi]

section
variable {st : Stream} (h : st.Wf) (hl : st.Laid) (hn : st.symbols.length ≤ 4294967296)
  (text : Nat → Except StoreError String) (file : Nat)
include h hl hn

theorem childrenFallback_eq (hi : i < st.symbols.length) :
    childrenFallback text file i (encode st) =
      (childItems st.readBack (some (u32 i))).mapM (itemNode text file) := by
  have hd := decoded_readBack h hl hn
  have hi' : i < st.readBack.symbols.length := (sameShape_readBack st).length.1 ▸ hi
  have hback : (⟨st.ranged, st.tokens⟩ : Stream) = st.readBack := rfl
  rw [childrenFallback, decode_encode h.storable, ok_bind, hback,
    streamTree_kids hd.laid hi' hd.nsym]

theorem childrenRanged_eq (hi : i < st.symbols.length) :
    childrenRanged text file i (encode st) =
      some <$> (childItems st.readBack (some (u32 i))).mapM (itemNode text file) := by
  have hd := decoded_readBack h hl hn
  have hi' : i < st.readBack.symbols.length := (sameShape_readBack st).length.1 ▸ hi
  have hs : st.ranged[i]? = some st.readBack.symbols[i] := getElem?_eq_getElem hi'
  have hord := directTokenOrdinals_eq hd (i := u32 i) (s := st.readBack.symbols[i])
    (by rw [u32_val hd hi']; exact hs)
  rw [childrenRanged, decodeLazy_encode h.storable, ok_bind, rangesDense_of_laid h hl,
    if_neg (by simp), symbols_lazyOf h.storable, ok_bind, hs]
  change (fetch (lazyOf st) (directTokenOrdinals _ (kidsOf st.readBack (some (u32 i)))) >>= _) = _
  rw [hord, fetch_toksOf h, ok_bind]
  rfl

theorem childrenFile_eq : childrenFile text file (encode st) =
    (childItems st.readBack none).mapM (itemNode text file) := by
  rw [childrenFile, decode_encode h.storable, ok_bind]
  exact congrArg _ (streamTree_top (decoded_readBack h hl hn).laid)

theorem childrenRangedFile_eq : childrenRangedFile text file (encode st) =
    some <$> (childItems st.readBack none).mapM (itemNode text file) := by
  have hd := decoded_readBack h hl hn
  rw [childrenRangedFile, decodeLazy_encode h.storable, ok_bind, rangesDense_of_laid h hl,
    if_neg (by simp), symbols_lazyOf h.storable, ok_bind]
  change (fetch (lazyOf st) (topLevelOrdinals (topLevelIdxs st.readBack.symbols)
    st.readBack.tokens.length) >>= fun toks =>
      (interleave symFirst (topLevelIdxs st.readBack.symbols) toks).mapM (itemNode text file) >>=
      _) = _
  rw [topLevelIdxs_eq, topLevelOrdinals_eq hd, fetch_toksOf h, ok_bind]
  rfl

theorem treeKids_eq {p : SymRec × Nat} (hp : InStream st.readBack (.inl p)) :
    treeKids (streamTree st.readBack) p.2 = .ok (childItems st.readBack (some (u32 p.2))) := by
  have hd := decoded_readBack h hl hn
  rw [treeKids, streamTree_kids hd.laid (List.getElem?_eq_some_iff.mp hp).1 hd.nsym]

theorem walk_tree (its : List Item) (hits : ∀ it ∈ its, InStream st.readBack it)
    (hfuel : (its.flatMap (preorder st.readBack)).length ≤ st.ranged.length + st.tokens.length) :
    walkStack text file (treeKids (streamTree st.readBack)) (st.ranged.length + st.tokens.length)
      its = (its.flatMap (preorder st.readBack)).mapM (itemNode text file) :=
  walkStack_eq (decoded_readBack h hl hn) text file (fun _ hit => hit)
    (fun _ hp => ⟨treeKids_eq h hl hn hp, fun _ hit => (mem_childItems.mp hit).1⟩) _ _ hits hfuel

theorem fileWalk_sym (hi : i < st.symbols.length) :
    fileWalk text file (some i) (encode st) =
      ((childItems st.readBack (some (u32 i))).flatMap (preorder st.readBack)).mapM
        (itemNode text file) := by
  have hi' : i < st.ranged.length := length_ranged st ▸ hi
  have hs : InStream st.readBack (.inl (st.ranged[i], i)) := getElem?_eq_getElem hi'
  rw [fileWalk, decode_encode h.storable, ok_bind]
  dsimp only
  rw [if_neg (by omega)]
  change (treeKids (streamTree st.readBack) i >>= _) = _
  rw [treeKids_eq h hl hn hs, ok_bind]
  exact walk_tree h hl hn text file _ (fun it hit => (mem_childItems.mp hit).1)
    (length_walk_sym (decoded_readBack h hl hn) hi')

theorem fileWalk_file : fileWalk text file none (encode st) =
    ((childItems st.readBack none).flatMap (preorder st.readBack)).mapM (itemNode text file) := by
  have hd := decoded_readBack h hl hn
  rw [fileWalk, decode_encode h.storable, ok_bind]
  dsimp only
  change walkStack text file _ _ (streamTree st.readBack).top = _
  rw [streamTree_top hd.laid]
  exact walk_tree h hl hn text file _ (fun it hit => (mem_childItems.mp hit).1)
    (length_walk_file hd)

omit h hl hn in
theorem pickToks_eq {m : Table Nat TokRec} {ps : List (TokRec × Nat)}
    (hm : ∀ p ∈ ps, m.get p.2 = some p.1) : pickToks m (ps.map Prod.snd) = .ok ps := by
  induction ps with
  | nil => rfl
  | cons p ps ih =>
    obtain ⟨hp, hps⟩ := forall_mem_cons.mp hm
    have hrec := ih hps
    rw [pickToks] at hrec ⊢
    rw [map_cons, mapM_cons, hp, hrec]
    rfl

theorem itemChildren_eq {m : Table Nat TokRec}
    (hm : ∀ ord t, st.tokens[ord]? = some t → ord ∈ st.readBack.under i → m.get ord = some t)
    {j : Nat} (hj : j < st.ranged.length) (he : Encloses st.ranged (some (u32 j)) i) :
    itemChildren (symKidsMap st.ranged) st.ranged m j =
      .ok (childItems st.readBack (some (u32 j))) := by
  have hd := decoded_readBack h hl hn
  have hs : st.ranged[j]? = some st.ranged[j] := getElem?_eq_getElem hj
  have hkids : (symKidsMap st.ranged)[j]? = some (kidsOf st.readBack (some (u32 j))) :=
    symKidsMap_eq (d := st.readBack) hj hd.nsym
  have hord := directTokenOrdinals_eq hd (i := u32 j) (s := st.ranged[j])
    (by rw [u32_val hd hj]; exact hs)
  rw [itemChildren, hkids, hs]
  dsimp only
  rw [hord, pickToks_eq fun p hp => ?_]
  · rfl
  · obtain ⟨hp1, hp2⟩ := mem_toksOf.mp hp
    exact hm p.2 p.1 hp1 ⟨p.1, hp1, hp2 ▸ he⟩

theorem descendantsRangedOne_eq (hi : i < st.ranged.length) :
    descendantsRangedOne text file (lazyOf st) st.ranged (symKidsMap st.ranged) i =
      ((childItems st.readBack (some (u32 i))).flatMap (preorder st.readBack)).mapM
        (itemNode text file) := by
  have hd := decoded_readBack h hl hn
  have hs : st.ranged[i]? = some st.ranged[i] := getElem?_eq_getElem hi
  obtain ⟨m, hfetch, hm⟩ := fetchRange_spec h hd hs
  have hval := u32_val hd hi
  have hself : Encloses st.ranged (some (u32 i)) i := by
    have hhere : Encloses st.ranged (some (u32 i)) (u32 i).val := .here (by rw [hval]; exact hi)
    rwa [hval] at hhere
  rw [descendantsRangedOne, hs]
  dsimp only
  rw [hfetch, ok_bind, itemChildren_eq h hl hn hm hi hself, ok_bind]
  -- everything on the stack lies below symbol `i`
  refine walkStack_eq hd text file
    (P := fun it => InStream st.readBack it ∧ Encloses st.ranged (itemParent it) i)
    (fun _ hit => hit.1) (fun p hp => ?_) _ _ (fun it hit => ?_) (length_walk_sym hd hi)
  · have hlt := lt_of_getElem? hp.1
    have hpv := u32_val hd hlt
    have hup : Encloses st.ranged (some (u32 p.2)) i := .up (by rw [hpv]; exact hp.1) hp.2
    refine ⟨itemChildren_eq h hl hn hm hlt hup, fun it hit => ?_⟩
    obtain ⟨hin, hpar⟩ := mem_childItems.mp hit
    exact ⟨hin, hpar ▸ hup⟩
  · obtain ⟨hin, hpar⟩ := mem_childItems.mp hit
    exact ⟨hin, hpar ▸ hself⟩

theorem descendantsRanged_eq (hi : i < st.symbols.length) :
    descendantsRanged text file i (encode st) =
      some <$> ((childItems st.readBack (some (u32 i))).flatMap (preorder st.readBack)).mapM
        (itemNode text file) := by
  have hi' : i < st.ranged.length := length_ranged st ▸ hi
  rw [descendantsRanged, decodeLazy_encode h.storable, ok_bind, rangesDense_of_laid h hl,
    if_neg (by simp), symbols_lazyOf h.storable, ok_bind, if_neg (by omega),
    descendantsRangedOne_eq h hl hn text file hi']
  rfl

omit h hl hn in
theorem itemNode_sym {p : SymRec × Nat} {n : Node} (hn : itemNode text file (.inl p) = .ok n) :
    n.kind = .symbol ∧ n.id = subId tagSym file p.2 := by
  rw [itemNode, symRecNode] at hn
  obtain ⟨name, -, hn⟩ := bind_eq_ok.mp hn
  obtain ⟨langKind, -, hn⟩ := bind_eq_ok.mp hn
  cases hn
  exact ⟨rfl, rfl⟩

omit h hl hn in
theorem itemNode_tok {p : TokRec × Nat} {n : Node} (hn : itemNode text file (.inr p) = .ok n) :
    n.kind ≠ .symbol := by
  rw [itemNode, tokNode] at hn
  obtain ⟨name, -, hn⟩ := bind_eq_ok.mp hn
  cases hn
  exact NodeKind.noConfusion

theorem extendTops_eq (hfile : file ≤ maxLocal) {its : List Item} {nodes : List Node}
    (hits : ∀ it ∈ its, InStream st.readBack it)
    (hnodes : List.Forall₂ (fun it n => itemNode text file it = .ok n) its nodes) :
    extendTops text file (lazyOf st) st.ranged (symKidsMap st.ranged) nodes =
      some <$> (its.flatMap (preorder st.readBack)).mapM (itemNode text file) := by
  have hd := decoded_readBack h hl hn
  induction hnodes with
  | nil => rfl
  | @cons it n its nodes hnode _ ih =>
    obtain ⟨hit, hits⟩ := forall_mem_cons.mp hits
    rw [extendTops, ih hits, flatMap_cons]
    cases it with
    | inr p =>
      rw [if_neg (itemNode_tok text file hnode), preorder_tok, singleton_append, mapM_cons, hnode,
        ok_bind]
      cases (its.flatMap (preorder st.readBack)).mapM (itemNode text file) <;> rfl
    | inl p =>
      obtain ⟨hkind, hid⟩ := itemNode_sym text file hnode
      have hlt : p.2 < st.ranged.length := lt_of_getElem? hit
      have hidx : (splitId n.id).2.2 = p.2 := by
        rw [hid, splitId_subId hfile (hlt.trans_le hd.nsym)]
      rw [if_pos hkind]
      dsimp only
      rw [hidx, if_neg (by omega), descendantsRangedOne_eq h hl hn text file hlt,
        preorder_sym hd hit, cons_append, mapM_cons, hnode, ok_bind, mapM_append]
      cases ((childItems st.readBack (some (u32 p.2))).flatMap (preorder st.readBack)).mapM
        (itemNode text file) with
      | error e => rfl
      | ok sub => cases (its.flatMap (preorder st.readBack)).mapM (itemNode text file) <;> rfl

omit h hl hn in
theorem self_mem_preorder (d : Stream) (it : Item) : it ∈ preorder d it := by
  rw [preorder]
  cases d.symbols.length with
  | zero => exact mem_singleton_self _
  | succ n => cases it <;> exact mem_cons_self

theorem descendantsRangedFile_eq (hfile : file ≤ maxLocal) (nodes : List Node) :
    descendantsRangedFile text file (encode st) = .ok (some nodes) ↔
      fileWalk text file none (encode st) = .ok nodes := by
  have hin : ∀ it ∈ childItems st.readBack none, InStream st.readBack it :=
    fun it hit => (mem_childItems.mp hit).1
  rw [descendantsRangedFile, childrenRangedFile_eq h hl hn, fileWalk_file h hl hn]
  cases htop : (childItems st.readBack none).mapM (itemNode text file) with
  | ok tops =>
    have hext := extendTops_eq h hl hn text file hfile hin (mapM_eq_ok.mp htop)
    rw [map_ok, ok_bind]
    dsimp only
    rw [decodeLazy_encode h.storable, ok_bind, rangesDense_of_laid h hl, if_neg (by simp),
      symbols_lazyOf h.storable, ok_bind, hext]
    cases ((childItems st.readBack none).flatMap (preorder st.readBack)).mapM
      (itemNode text file) <;>
      simp [Functor.map, Except.map]
  | error e =>
    -- a top-level node that cannot be read stops the walk as well
    have hno : ¬ ∃ tops, (childItems st.readBack none).mapM (itemNode text file) = .ok tops := by
      simp [htop]
    constructor
    · intro hf
      cases hf
    · intro hf
      have hall := exists_mapM_ok.mp ⟨nodes, hf⟩
      exact absurd (exists_mapM_ok.mpr fun it hit =>
        hall it (mem_flatMap.mpr ⟨it, hit, self_mem_preorder _ it⟩)) hno

end
end MemoryGraph
