import MemoryGraph.Read.Tree

/-! Going down: `descendants` is the depth-first preorder that following `children` gives. -/

namespace MemoryGraph
open Lib Codec
variable {st : Stream} {f : Nat} {p : Nat} {m : Node}

/-- `ds` is the preorder below `p`: each child followed by the preorder below it. -/
inductive Data.Preorder (d : Data) : Nat → List Node → Prop
  | follow {p : Nat} {subs : List (Node × List Node)} : d.childrenOf p = .ok (subs.map Prod.fst) →
      (∀ c ∈ subs, Data.Preorder d c.1.id c.2) → Data.Preorder d p
      (subs.flatMap fun c => c.1 :: c.2)

section
variable {sha256 : List UInt8 → List UInt8} {ok : Extraction → Prop} {d : Data}
  {σ : Nat → Option Stream} {es : List (Nat × String)} (h : Inv sha256 ok d σ es)
  (hn : ∀ g st, σ g = some st → st.Narrow)
include h hn

theorem Data.Preorder.hasNode {ds : List Node} (hp : d.Preorder p ds) : ∀ n ∈ ds, d.HasNode n := by
  induction hp with
  | @follow p subs hcs _ ih =>
    intro n hmem
    obtain ⟨c, hc, hmem⟩ := List.mem_flatMap.mp hmem
    rcases List.mem_cons.mp hmem with rfl | hmem
    · obtain ⟨cs, hcs', -, hiff⟩ := childrenOf_spec h hn p
      obtain rfl := Except.ok.inj (hcs.symm.trans hcs')
      exact ((hiff c.1).mp (List.mem_map_of_mem hc)).1
    · exact ih c hc n hmem

theorem childrenOf_token (hs : σ f = some st) {p : TokRec × Nat}
    (hp : InStream st.readBack (.inr p)) : d.childrenOf (subId tagTok f p.2) = .ok [] := by
  have hsplit : splitId (subId tagTok f p.2) = (tagTok, f, p.2) :=
    splitId_subId (h.content.stored f st hs).file
      ((List.getElem?_eq_some_iff.mp hp).1.trans (narrow_lt hn hs).2)
  rw [Data.childrenOf, hsplit]
  rfl

omit h hn in
theorem preorder_items {its : List Item}
    (hcs : d.childrenOf p = .ok (its.map (itemNodeOf es f)))
    (hits : ∀ it ∈ its, preorder st.readBack it = it :: (preorder st.readBack it).tail ∧
      d.Preorder (itemId f it) ((preorder st.readBack it).tail.map (itemNodeOf es f))) :
    d.Preorder p ((its.flatMap (preorder st.readBack)).map (itemNodeOf es f)) := by
  let subs := its.map fun it =>
    (itemNodeOf es f it, (preorder st.readBack it).tail.map (itemNodeOf es f))
  have hflat : subs.flatMap (fun c => c.1 :: c.2) = (its.flatMap (preorder st.readBack)).map
      (itemNodeOf es f) := by
    rw [List.flatMap_map, List.map_flatMap]
    refine List.flatMap_congr fun it hit => ?_
    rw [(hits it hit).1]
    rfl
  rw [← hflat]
  refine .follow ?_ fun c hc => ?_
  · rw [hcs, List.map_map]
    rfl
  · obtain ⟨it, hit, rfl⟩ := List.mem_map.mp hc
    dsimp only
    rw [itemNodeOf_id]
    exact (hits it hit).2

theorem preorder_item (hs : σ f = some st) (k : Nat) {it : Item}
    (hit : InStream st.readBack it) (hk : room st.readBack it ≤ k) :
    preorder st.readBack it = it :: (preorder st.readBack it).tail ∧
      d.Preorder (itemId f it) ((preorder st.readBack it).tail.map (itemNodeOf es f)) := by
  have hst := hn f st hs
  have hdec := decoded_readBack hst.wf hst.laid hst.nsym.le
  induction k generalizing it with
  | zero =>
    cases it with
    | inl p =>
      have hlt := (List.getElem?_eq_some_iff.mp hit).1
      simp only [room] at hk
      omega
    | inr p =>
      rw [preorder_tok]
      exact ⟨rfl, @Data.Preorder.follow d _ [] (childrenOf_token h hn hs hit) (by simp)⟩
  | succ k ih =>
    cases it with
    | inl p =>
      have hlt : p.2 < st.symbols.length :=
        (List.getElem?_eq_some_iff.mp hit).1.trans_eq (length_ranged st)
      rw [preorder_sym hdec hit]
      refine ⟨rfl, preorder_items (childrenOf_symbol h hn hs hlt) fun c hc => ?_⟩
      have hroom := room_child hdec hit hc
      exact ih (mem_childItems.mp hc).1 (by omega)
    | inr p =>
      rw [preorder_tok]
      exact ⟨rfl, @Data.Preorder.follow d _ [] (childrenOf_token h hn hs hit) (by simp)⟩

theorem preorder_walk (hs : σ f = some st) {par : Option U32}
    (hcs : d.childrenOf p = .ok ((childItems st.readBack par).map (itemNodeOf es f))) :
    d.Preorder p (((childItems st.readBack par).flatMap (preorder st.readBack)).map
      (itemNodeOf es f)) :=
  preorder_items hcs fun _ hit => preorder_item h hn hs _ (mem_childItems.mp hit).1 le_rfl

omit hn in
theorem mapM_walk (hs : σ f = some st) (par : Option U32) :
    ((childItems st.readBack par).flatMap (preorder st.readBack)).mapM (itemNode d.terms.text f) =
      .ok (((childItems st.readBack par).flatMap (preorder st.readBack)).map (itemNodeOf es f)) :=
  mapM_itemNode h.content hs fun _ hit => inStream_of_mem_walk hit

theorem descendantsOfFile_eq (hs : σ f = some st) : d.descendantsOfFile f =
    .ok (((childItems st.readBack none).flatMap (preorder st.readBack)).map (itemNodeOf es f)) := by
  have hst := hn f st hs
  have hwalk := fileWalk_file hst.wf hst.laid hst.nsym.le d.terms.text f
  rw [mapM_walk h hs] at hwalk
  have hranged := (descendantsRangedFile_eq hst.wf hst.laid hst.nsym.le d.terms.text f
    (h.content.stored f st hs).file _).mpr hwalk
  rw [Data.descendantsOfFile, withBytes_eq h.content, hs]
  dsimp only
  rw [hranged]
  rfl

theorem descendantsOfSymbol_eq (hs : σ f = some st) {i : Nat} (hi : i < st.symbols.length) :
    d.descendantsOfSymbol f i =
      .ok (((childItems st.readBack (some (u32 i))).flatMap (preorder st.readBack)).map
        (itemNodeOf es f)) := by
  have hst := hn f st hs
  rw [Data.descendantsOfSymbol, withBytes_eq h.content, hs]
  dsimp only
  rw [descendantsRanged_eq hst.wf hst.laid hst.nsym.le _ _ hi, mapM_walk h hs]
  rfl

theorem descendantsOfSymbol_none {f i : Nat} (hi : ∀ st, σ f = some st → st.symbols.length ≤ i) :
    d.descendantsOfSymbol f i = .ok [] := by
  rw [Data.descendantsOfSymbol, withBytes_eq h.content, withBytes_eq h.content]
  cases hs : σ f with
  | none => rfl
  | some st =>
    have hst := hn f st hs
    have hsto := (h.content.stored f st hs).storable
    have hlen : st.ranged.length ≤ i := (length_ranged st).trans_le (hi st hs)
    have hranged : descendantsRanged d.terms.text f i (encode st) = .ok none := by
      rw [descendantsRanged, decodeLazy_encode hsto, ok_bind, rangesDense_of_laid hst.wf hst.laid,
        if_neg (by simp), symbols_lazyOf hsto, ok_bind, if_pos hlen]
      rfl
    have hwalk : fileWalk d.terms.text f (some i) (encode st) = .ok [] := by
      rw [fileWalk, decode_encode hsto, ok_bind]
      dsimp only
      rw [if_pos hlen]
      rfl
    dsimp only
    rw [hranged]
    dsimp only [map_ok, ok_bind, Option.join]
    rw [hwalk]
    rfl

omit hn in
theorem descendantsGo_row {fuel p : Nat} (hrow : d.nodes.get p = some m) (hk : m.kind ≠ .file)
    (hkids : ∀ c, d.nodes.get c.id = some c → c.parent = some p → ∃ sub,
      (if c.kind = .file then d.descendantsOfFile c.id else d.descendantsGo fuel c.id) = .ok sub ∧
        d.Preorder c.id sub) :
    ∃ ds, d.descendantsGo (fuel + 1) p = .ok ds ∧ d.Preorder p ds := by
  have hbelow : ∀ k ∈ d.children.get p, ∃ e : Node × List Node, d.need k = .ok e.1 ∧
      (if e.1.kind = .file then d.descendantsOfFile e.1.id else d.descendantsGo fuel e.1.id) =
      .ok e.2 ∧ d.Preorder e.1.id e.2 := by
    intro k hk
    obtain ⟨c, hc, hp⟩ := (h.entities.children p k).mp (Multimap.mem_get.mp hk)
    have hid := (h.entities.ids k c hc).1
    obtain ⟨sub, hsub, hpre⟩ := hkids c (hid.symm ▸ hc) hp
    exact ⟨(c, sub), by rw [Data.need, hc], hsub, hpre⟩
  obtain ⟨subs, hsubs⟩ := exists_forall₂ hbelow
  have hneed : (d.children.get p).mapM d.need = .ok (subs.map Prod.fst) :=
    mapM_eq_ok.mpr (List.forall₂_map_right_iff.mpr (hsubs.imp fun _ _ he => he.1))
  refine ⟨subs.flatMap fun e => e.1 :: e.2, ?_, .follow ?_ fun e he => ?_⟩
  · rw [Data.descendantsGo]
    dsimp only
    rw [if_pos (splitId_entity h hrow), hrow]
    dsimp only
    rw [if_neg hk]
    refine bind_eq_ok.mpr ⟨subs.map fun e => e.1 :: e.2, ?_, rfl⟩
    refine mapM_eq_ok.mpr (List.forall₂_map_right_iff.mpr (hsubs.imp fun k e he => ?_))
    obtain ⟨hc, hsub, -⟩ := he
    rw [hc, ok_bind]
    split_ifs at hsub ⊢ with hfile
    · rw [hsub]
      rfl
    · rw [hsub]
      rfl
  · rw [childrenOf_row h hrow, if_neg hk]
    exact hneed
  · obtain ⟨k, -, hk⟩ := exists_of_forall₂ hsubs.flip he
    exact hk.2.2

theorem preorder_file (hrow : d.nodes.get p = some m) (hk : m.kind = .file) :
    ∃ ds, d.descendantsOfFile p = .ok ds ∧ d.Preorder p ds := by
  obtain ⟨st, hs⟩ := Option.isSome_iff_exists.mp ((h.files.streams p).mpr ⟨m, hrow, hk⟩)
  refine ⟨_, descendantsOfFile_eq h hn hs, preorder_walk h hn hs ?_⟩
  rw [childrenOf_row h hrow, if_pos hk, childrenOfFile_eq h hn hs]

theorem descendantsGo_repo (hrow : d.nodes.get p = some m) (hk : m.kind = .repo) (fuel : Nat) :
    ∃ ds, d.descendantsGo (fuel + 1) p = .ok ds ∧ d.Preorder p ds := by
  refine descendantsGo_row h hrow (by rw [hk]; decide) fun c hc hp => ?_
  have hfile : c.kind = .file := by
    rcases (h.entities.shaped _ _ hc).kind_of_parent hp hrow with ⟨ho, -⟩ | ⟨-, hf⟩
    · rw [hk] at ho
      cases ho
    · exact hf
  rw [if_pos hfile]
  exact preorder_file h hn hc hfile

theorem descendantsGo_org (hrow : d.nodes.get p = some m) (hk : m.kind = .org) (fuel : Nat) :
    ∃ ds, d.descendantsGo (fuel + 2) p = .ok ds ∧ d.Preorder p ds := by
  refine descendantsGo_row h hrow (by rw [hk]; decide) fun c hc hp => ?_
  have hrepo : c.kind = .repo := by
    rcases (h.entities.shaped _ _ hc).kind_of_parent hp hrow with ⟨-, hr⟩ | ⟨hr, -⟩
    · exact hr
    · rw [hk] at hr
      cases hr
  rw [if_neg (by rw [hrepo]; decide)]
  exact descendantsGo_repo h hn hc hrepo fuel

theorem descendants_spec (p : Nat) : ∃ ds, d.descendants p = .ok ds ∧ d.Preorder p ds := by
  rw [Data.descendants]
  rcases id_cases h p with ⟨m, hrow, hk⟩ | ⟨m, st, hrow, hk, hs⟩ | ⟨f, st, i, hs, hi, rfl⟩ | hp
  · rcases (h.entities.shaped p m hrow).cases with ⟨ho, -⟩ | ⟨hr, -⟩ | ⟨hf, -⟩
    · have hlen : 0 < d.nodes.len := List.length_pos_of_mem (Table.get_eq_some.mp hrow)
      obtain ⟨k, hk⟩ := Nat.exists_eq_add_of_lt hlen
      rw [show d.nodes.len + 1 = k + 2 by omega]
      exact descendantsGo_org h hn hrow ho k
    · exact descendantsGo_repo h hn hrow hr _
    · exact absurd hf hk
  · obtain ⟨ds, hds, hpre⟩ := preorder_file h hn hrow hk
    refine ⟨ds, ?_, hpre⟩
    rw [Data.descendantsGo]
    dsimp only
    rw [if_pos (splitId_entity h hrow), hrow]
    dsimp only
    rw [if_pos hk, hds]
  · refine ⟨_, ?_, preorder_walk h hn hs (childrenOf_symbol h hn hs hi)⟩
    rw [Data.descendantsGo, splitId_symbol h hn hs hi]
    exact descendantsOfSymbol_eq h hn hs hi
  · refine ⟨[], ?_, @Data.Preorder.follow d p [] (childrenOf_childless h hn hp) (by simp)⟩
    rw [Data.descendantsGo]
    dsimp only
    split_ifs with htag hsym
    · rw [hp.1 htag]
      rfl
    · exact descendantsOfSymbol_none h hn (hp.2 hsym)
    · rfl

end
end MemoryGraph
