import MemoryGraph.Store.Removal

/-! Writing a file's content: the terms are interned, and the tables get exactly the rows
of the stream under the global ids. -/

namespace MemoryGraph
open Lib Codec List Function
variable {sha256 : List UInt8 → List UInt8} {ex : Extraction}

/-- An extraction that fits in memory: a declared symbol takes 104 bytes, a token 56, and a
string is at most `isize::MAX` long. -/
structure Extraction.InMemory (ex : Extraction) : Prop where
  symbols : 104 * ex.symbols.length < 2 ^ 63
  tokens : 56 * ex.tokens.length < 2 ^ 63
  texts : ∀ t ∈ ex.texts, (utf8 t).length < 2 ^ 63

theorem get_foldl_ords (k : Nat) (l : List (TokRec × Nat)) (acc : Table Nat (List Nat)) :
    ((l.foldl (fun ords t => ords.alter t.1.term (fun old => old.getD [] ++ [t.2])) acc).get k).getD
        [] = (acc.get k).getD [] ++ (l.filter (fun p => p.1.term = k)).map Prod.snd ∧
      ((l.foldl (fun ords t => ords.alter t.1.term (fun old => old.getD [] ++ [t.2])) acc).get k =
        none ↔ acc.get k = none ∧ ∀ p ∈ l, p.1.term ≠ k) := by
  induction l generalizing acc with
  | nil => simp
  | cons p l ih =>
    obtain ⟨h1, h2⟩ := ih (acc.alter p.1.term (fun old => old.getD [] ++ [p.2]))
    rw [foldl_cons, h1, h2, Table.get_alter, filter_cons]
    by_cases hp : p.1.term = k <;> simp [hp]

theorem get_termOrds (tokens : List TokRec) (syms : List SymRec) (k : Nat) :
    (termOrds tokens).get k = if (Stream.mk syms tokens).ordsOf k = [] then none
      else some ((Stream.mk syms tokens).ordsOf k) := by
  obtain ⟨h1, h2⟩ := get_foldl_ords k tokens.zipIdx Table.empty
  have hnone : (termOrds tokens).get k = none ↔ (Stream.mk syms tokens).ordsOf k = [] := by
    rw [termOrds, h2, Stream.ordsOf, map_eq_nil_iff, filter_eq_nil_iff]
    simp
  split_ifs with h0
  · exact hnone.mpr h0
  · obtain ⟨os, hos⟩ := Option.ne_none_iff_exists'.mp (fun e => h0 (hnone.mp e))
    rw [hos]
    rw [← termOrds, hos] at h1
    exact congrArg some h1

theorem mem_postings (ex : Extraction) (k : Nat) (v : List UInt8) :
    (k, v) ∈ (V2Prep.build ex).postings ↔ postRow (V2Prep.build ex).stream k = some v := by
  have hget := get_termOrds (buildLoop ex).tokens (buildLoop ex).symbols k
  change (k, v) ∈ (termOrds (buildLoop ex).tokens).rows.map (fun r => (r.1, encodePosting r.2)) ↔
    postRow ⟨(buildLoop ex).symbols, (buildLoop ex).tokens⟩ k = some v
  rw [mem_map, postRow]
  constructor
  · rintro ⟨⟨k', os⟩, hr, e⟩
    obtain ⟨rfl, rfl⟩ := Prod.ext_iff.mp e
    rw [Table.mem_rows_iff] at hr
    dsimp only at hr hget ⊢
    rw [hget] at hr
    split_ifs at hr ⊢ with h0
    rw [Option.some.inj hr]
  · intro e
    split_ifs at e hget with h0
    exact ⟨(k, _), Table.mem_rows_iff.mpr hget, Prod.ext rfl (Option.some.inj e)⟩

section
variable {sha256 : List UInt8 → List UInt8} {dict : Dict} {es : List (Nat × String)}
  (hd : dict.Inv sha256 es) {terms : List String} {ids : List Nat}
  (hids : List.Forall₂ (fun t id => (id, t) ∈ es) terms ids)
include hids

theorem mem_of_numbers {k : Nat} {t : String} (hk : Numbers terms k t) :
    (ids.getD k 0, t) ∈ es := by
  obtain ⟨hlen, hall⟩ := forall₂_iff_get.mp hids
  obtain ⟨hlt, rfl⟩ := List.getElem?_eq_some_iff.mp hk
  rw [getD_eq_getElem _ _ (hlen ▸ hlt)]
  exact hall k hlt (hlen ▸ hlt)

include hd

theorem textAt_of_numbers {k : Nat} {t : String} (hk : Numbers terms k t) :
    textAt es (ids.getD k 0) = t :=
  textAt_of_mem hd (mem_of_numbers hids hk)

theorem getD_inj (hnd : terms.Nodup) {j k : Nat} {t u : String} (hj : Numbers terms j t)
    (hk : Numbers terms k u) : ids.getD j 0 = ids.getD k 0 ↔ j = k := by
  refine ⟨fun e => ?_, fun e => by rw [e]⟩
  have htu : t = u := hd.text_unique (e ▸ mem_of_numbers hids hj) (mem_of_numbers hids hk)
  obtain ⟨hlj, hj⟩ := List.getElem?_eq_some_iff.mp hj
  obtain ⟨hlk, hk⟩ := List.getElem?_eq_some_iff.mp hk
  exact (hnd.getElem_inj_iff).mp (hj.trans (htu.trans hk.symm))

end

def Data.addContent (d : Data) (terms : Dict) (es : List (Nat × String)) (file : Nat) (st : Stream)
    (rows : List ((Nat ×ₗ Nat) × List UInt8)) : Data :=
  { d with
    terms
    streams := d.streams.insert file (encode st)
    post := d.post.insertAll rows
    symIdx := d.symIdx.insertAll (symPairs es file st)
    symFold := d.symFold.insertAll (foldPairs es file st)
    refs := d.refs.insert file 1
    contentFiles := d.contentFiles.insert file file }

def postRows (file : Nat) (ids : List Nat) (postings : List (Nat × List UInt8)) :
    List ((Nat ×ₗ Nat) × List UInt8) :=
  (globalPostings ids postings).map (fun p => (toLex (p.1, file), p.2))

theorem foldl_indexSymbol (file : Nat) (ps : List (String × Nat)) (d : Data) :
    ps.foldl (indexSymbol file) d = { d with
      symIdx := d.symIdx.insertAll (ps.map (fun p => (p.1, subId tagSym file p.2)))
      symFold := d.symFold.insertAll
        (ps.map (fun p => (foldSymbolName p.1, subId tagSym file p.2))) } := by
  induction ps generalizing d with
  | nil => rfl
  | cons p ps ih =>
    rw [foldl_cons, ih]
    rfl

section
variable {sha256 : List UInt8 → List UInt8} {dict : Dict} {es : List (Nat × String)}
  (hd : dict.Inv sha256 es) {ex : Extraction} {ids : List Nat}
  (hids : List.Forall₂ (fun t id => (id, t) ∈ es) (V2Prep.build ex).terms ids)

theorem numbers_tok {r : TokRec} (hr : r ∈ (V2Prep.build ex).stream.tokens) :
    ∃ t ∈ sortedToks ex, Numbers (V2Prep.build ex).terms r.term t.text := by
  obtain ⟨t, ht, hrt⟩ := exists_of_forall₂ (build_spelled ex).tokens hr
  exact ⟨t, ht, hrt.term⟩

include hids

theorem known_withIds :
    ∀ id ∈ ((V2Prep.build ex).stream.withIds ids).termIds, ∃ t, (id, t) ∈ es := by
  intro id hid
  rcases mem_append.mp hid with hid | hid
  · obtain ⟨s, hs, hid⟩ := mem_flatMap.mp hid
    obtain ⟨r, hr, rfl⟩ := mem_map.mp hs
    obtain ⟨sd, -, hsd⟩ := exists_of_forall₂ (build_spelled ex).symbols hr
    have hopt : ∀ {o : Option Nat} {u : Option String},
        Option.Rel (Numbers (buildLoop ex).terms) o u →
        id ∈ (o.map (fun k => ids.getD k 0)).toList → ∃ t, (id, t) ∈ es := by
      intro o u hrel hmem
      cases hrel with
      | none => exact absurd hmem (by simp)
      | some hk =>
        rw [mem_singleton.mp hmem]
        exact ⟨_, mem_of_numbers hids hk⟩
    rcases mem_cons.mp hid with rfl | hid
    · exact ⟨_, mem_of_numbers hids hsd.name⟩
    · exact (mem_append.mp hid).elim (hopt hsd.langKind) (hopt hsd.owner)
  · obtain ⟨s, hs, rfl⟩ := mem_map.mp hid
    obtain ⟨r, hr, rfl⟩ := mem_map.mp hs
    obtain ⟨t, -, hk⟩ := numbers_tok hr
    exact ⟨_, mem_of_numbers hids hk⟩

theorem kinds_withIds (hkinds : ∀ sd ∈ ex.symbols, ∀ k ∈ sd.langKind, NulFree k) :
    ∀ r ∈ ((V2Prep.build ex).stream.withIds ids).symbols, ∀ k ∈ r.langKind, ∃ t, (k, t) ∈ es ∧
      NulFree t := by
  intro s hs k hk
  obtain ⟨r, hr, rfl⟩ := mem_map.mp hs
  obtain ⟨sd, hsd, hdesc⟩ := exists_of_forall₂ (build_spelled ex).symbols hr
  obtain ⟨i, hi, rfl⟩ := Option.map_eq_some_iff.mp (Option.mem_def.mp hk)
  have hrel := hdesc.langKind
  rw [hi] at hrel
  cases hlk : sd.langKind with
  | none =>
    rw [hlk] at hrel
    cases hrel
  | some t =>
    rw [hlk] at hrel
    cases hrel with
    | some hnum => exact ⟨t, mem_of_numbers hids hnum, hkinds sd (mem_sortedSyms.mp hsd) t hlk⟩

include hd

theorem ordsOf_withIds {k : Nat} {t : String} (hk : Numbers (V2Prep.build ex).terms k t) :
    ((V2Prep.build ex).stream.withIds ids).ordsOf (ids.getD k 0) =
      (V2Prep.build ex).stream.ordsOf k := by
  have hrename : ∀ p ∈ (V2Prep.build ex).stream.tokens.zipIdx,
      decide (ids.getD p.1.term 0 = ids.getD k 0) = decide (p.1.term = k) := by
    intro p hp
    obtain ⟨u, -, hu⟩ := numbers_tok (mem_of_getElem? (mem_zipIdx_iff_getElem?.mp hp))
    exact decide_eq_decide.mpr (getD_inj hd hids (build_spelled ex).nodup hu hk)
  rw [Stream.ordsOf, Stream.withIds, zipIdx_map, filter_map, map_map, Stream.ordsOf]
  change ((V2Prep.build ex).stream.tokens.zipIdx.filter
    (fun p => decide (ids.getD p.1.term 0 = ids.getD k 0))).map Prod.snd = _
  rw [filter_congr hrename]

theorem mem_postRows (file t f : Nat) (v : List UInt8) :
    (toLex (t, f), v) ∈ postRows file ids (V2Prep.build ex).postings ↔
      f = file ∧ postRow ((V2Prep.build ex).stream.withIds ids) t = some v := by
  have hrow : ∀ {k u}, Numbers (V2Prep.build ex).terms k u →
      postRow ((V2Prep.build ex).stream.withIds ids) (ids.getD k 0) =
      postRow (V2Prep.build ex).stream k := by
    intro k u hk
    rw [postRow, postRow, ordsOf_withIds hd hids hk]
  rw [postRows, globalPostings, mem_map]
  simp only [(perm_insertionSort _ _).mem_iff, mem_map, Prod.exists]
  constructor
  · rintro ⟨i, w, ⟨k, w', hkw, ei⟩, e⟩
    cases ei
    obtain ⟨hkey, rfl⟩ := Prod.mk.inj e
    obtain ⟨rfl, rfl⟩ := Prod.mk.inj (toLex.injective hkey)
    refine ⟨rfl, ?_⟩
    rw [mem_postings] at hkw
    have hocc : ∃ r ∈ (V2Prep.build ex).stream.tokens, r.term = k := by
      by_contra hno
      rw [postRow_eq_none.mpr fun r hr e => hno ⟨r, hr, e⟩] at hkw
      cases hkw
    obtain ⟨r, hr, rfl⟩ := hocc
    obtain ⟨u, -, hu⟩ := numbers_tok hr
    exact (hrow hu).trans hkw
  · rintro ⟨rfl, hv⟩
    have hocc : ∃ s ∈ ((V2Prep.build ex).stream.withIds ids).tokens, s.term = t := by
      by_contra hno
      rw [postRow_eq_none.mpr fun r hr e => hno ⟨r, hr, e⟩] at hv
      cases hv
    obtain ⟨s, hs, rfl⟩ := hocc
    obtain ⟨r, hr, rfl⟩ := mem_map.mp hs
    obtain ⟨u, -, hu⟩ := numbers_tok hr
    refine ⟨_, _, ⟨r.term, v, (mem_postings ex _ _).mpr ((hrow hu).symm.trans hv), rfl⟩, rfl⟩

theorem nodup_postRows (file : Nat) :
    ((postRows file ids (V2Prep.build ex).postings).map Prod.fst).Nodup := by
  have hkeys : ((V2Prep.build ex).postings.map Prod.fst).Nodup := by
    have hsorted := (termOrds (buildLoop ex).tokens).keys_sorted
    rw [V2Prep.build, map_map]
    exact hsorted.imp ne_of_lt
  have hnum : ∀ p ∈ (V2Prep.build ex).postings, ∃ u, Numbers (V2Prep.build ex).terms p.1 u := by
    intro p hp
    have hrow := (mem_postings ex p.1 p.2).mp hp
    by_contra hno
    rw [postRow_eq_none.mpr ?_] at hrow
    · cases hrow
    · intro r hr e
      obtain ⟨u, -, hu⟩ := numbers_tok hr
      exact hno ⟨u.text, e ▸ hu⟩
  rw [postRows, globalPostings, map_map]
  have hperm := (perm_insertionSort (fun a b : Nat × List UInt8 => a.1 ≤ b.1)
    ((V2Prep.build ex).postings.map (fun p => (ids.getD p.1 0, p.2)))).map
      (Prod.fst ∘ fun p : Nat × List UInt8 => ((toLex (p.1, file) : Nat ×ₗ Nat), p.2))
  rw [hperm.nodup_iff, map_map, nodup_map_iff_inj_on (List.Nodup.of_map _ hkeys)]
  intro p hp q hq e
  obtain ⟨u, hu⟩ := hnum p hp
  obtain ⟨w, hw⟩ := hnum q hq
  have hid : ids.getD p.1 0 = ids.getD q.1 0 := congrArg Prod.fst (toLex.injective e)
  exact inj_on_of_nodup_map hkeys hp hq ((getD_inj hd hids (build_spelled ex).nodup hu hw).mp hid)

end

theorem textAt_mono {dict dict' : Dict} {es es' : List (Nat × String)}
    (hd : dict.Inv sha256 es) (hd' : dict'.Inv sha256 es') (hpre : es <+: es') {id : Nat}
    (hid : ∃ t, (id, t) ∈ es) : textAt es' id = textAt es id := by
  obtain ⟨t, ht⟩ := hid
  rw [textAt_of_mem hd ht, textAt_of_mem hd' (hpre.subset ht)]

section
variable {sha256 : List UInt8 → List UInt8} {ok : Extraction → Prop} {d : Data}
  {σ : Nat → Option Stream} {es es' : List (Nat × String)} (h : Content sha256 ok d σ es)
  {dict : Dict} (hd : dict.Inv sha256 es') (hpre : es <+: es') {f : Nat} (hfree : σ f = none)
include h hd hpre

theorem symPairs_mono {g : Nat} {st : Stream} (hg : σ g = some st) :
    symPairs es' g st = symPairs es g st := by
  refine map_congr_left fun p hp => ?_
  have hr := mem_of_getElem? (mem_zipIdx_iff_getElem?.mp hp)
  rw [textAt_mono h.dict hd hpre ((h.stored g st hg).known _ (mem_termIds_sym hr mem_cons_self))]

omit hpre hd h in
theorem exists_update_some {P : Nat → Stream → Prop} {st : Stream} (hfree : σ f = none) :
    (∃ g st', Function.update σ f (some st) g = some st' ∧ P g st') ↔
      P f st ∨ ∃ g st', σ g = some st' ∧ P g st' := by
  constructor
  · rintro ⟨g, st', hg, hp⟩
    rw [update_apply] at hg
    split_ifs at hg with hgf
    · cases hg
      exact Or.inl (hgf ▸ hp)
    · exact Or.inr ⟨g, st', hg, hp⟩
  · rintro (hp | ⟨g, st', hg, hp⟩)
    · exact ⟨f, st, update_self .., hp⟩
    · refine ⟨g, st', ?_, hp⟩
      rw [update_of_ne, hg]
      rintro rfl
      rw [hfree] at hg
      cases hg

include hfree

theorem symbols_add (hs : Symbols d σ es) (st : Stream) (rows : List ((Nat ×ₗ Nat) × List UInt8)) :
    Symbols (d.addContent dict es' f st rows) (Function.update σ f (some st)) es' := by
  refine ⟨fun p => ?_, fun p => ?_⟩
  · rw [exists_update_some hfree, Data.addContent, Multimap.mem_pairs_insertAll, hs.names]
    refine or_congr_right (exists_congr fun g => exists_congr fun st' =>
      and_congr_right fun hg => ?_)
    rw [symPairs_mono h hd hpre hg]
  · rw [exists_update_some hfree, Data.addContent, Multimap.mem_pairs_insertAll, hs.folded]
    refine or_congr_right (exists_congr fun g => exists_congr fun st' =>
      and_congr_right fun hg => ?_)
    rw [foldPairs, foldPairs, symPairs_mono h hd hpre hg]

theorem content_add {ids : List Nat}
    (hids : List.Forall₂ (fun t id => (id, t) ∈ es') (V2Prep.build ex).terms ids)
    (hst : Stored ok es' f ((V2Prep.build ex).stream.withIds ids)) :
    Content sha256 ok
      (d.addContent dict es' f ((V2Prep.build ex).stream.withIds ids)
        (postRows f ids (V2Prep.build ex).postings))
      (Function.update σ f (some ((V2Prep.build ex).stream.withIds ids))) es' := by
  refine ⟨hd, fun g => ?_, fun g st' hg => ?_, fun t g => ?_, fun g => ?_, fun c g => ?_⟩
  · rw [Data.addContent, Table.get_insert, h.streams, update_apply]
    by_cases hfg : f = g <;> simp [hfg, eq_comm]
  · rw [update_apply] at hg
    split_ifs at hg with hgf
    · cases hg
      exact hgf ▸ hst
    · have hold := h.stored g st' hg
      exact ⟨hold.file, hold.storable, fun id hid => (hold.known id hid).imp fun _ ht =>
        hpre.subset ht, fun r hr k hk => (hold.kinds r hr k hk).imp fun _ ht =>
        ⟨hpre.subset ht.1, ht.2⟩, hold.built⟩
  · obtain ⟨hin, hout⟩ := Table.get_insertAll d.post (nodup_postRows hd hids f) (toLex (t, g))
    rw [update_apply]
    have hkey : toLex (t, g) ∈ (postRows f ids (V2Prep.build ex).postings).map Prod.fst ↔
        g = f ∧ ∃ v, postRow ((V2Prep.build ex).stream.withIds ids) t = some v := by
      simp only [mem_map, Prod.exists, exists_and_right, exists_eq_right]
      exact (exists_congr fun v => mem_postRows hd hids f t g v).trans exists_and_left
    split_ifs with hgf
    · rw [Option.bind_some]
      cases hrow : postRow ((V2Prep.build ex).stream.withIds ids) t with
      | none =>
        refine (hout fun hmem => ?_).trans ?_
        · obtain ⟨-, v, hv⟩ := hkey.mp hmem
          rw [hrow] at hv
          cases hv
        · rw [h.post, hgf, hfree]
          rfl
      | some v => exact hin v ((mem_postRows hd hids f t g v).mpr ⟨hgf, hrow⟩)
    · exact (hout fun hmem => hgf (hkey.mp hmem).1).trans (h.post t g)
  · rw [Data.addContent, Table.get_insert, h.refs, update_apply]
    by_cases hfg : f = g <;> simp [hfg, eq_comm]
  · rw [Data.addContent, Multimap.mem_pairs_insert, h.contentFiles, update_apply]
    by_cases hgf : g = f
    · subst hgf
      simp [hfree]
    · simp [hgf]

end

theorem putContent_eq {d : Data} {dict : Dict} {es : List (Nat × String)}
    (hd : dict.Inv sha256 es) {ids : List Nat}
    (hids : List.Forall₂ (fun t id => (id, t) ∈ es) (V2Prep.build ex).terms ids)
    (hi : internAll sha256 d.terms (V2Prep.build ex).terms = .ok (dict, ids)) (f : Nat) :
    d.putContent sha256 f (V2Prep.build ex) = .ok (d.addContent dict es f
      ((V2Prep.build ex).stream.withIds ids) (postRows f ids (V2Prep.build ex).postings)) := by
  have hname : ∀ r ∈ (V2Prep.build ex).stream.symbols,
      (V2Prep.build ex).terms.getD r.name "" = textAt es (ids.getD r.name 0) := by
    intro r hr
    obtain ⟨sd, -, hsd⟩ := exists_of_forall₂ (build_spelled ex).symbols hr
    have hk : Numbers (V2Prep.build ex).terms r.name sd.name := hsd.name
    rw [textAt_of_numbers hd hids hk, getD_eq_getElem?_getD, hk]
    rfl
  have hpairs : ∀ g : String → String, (((V2Prep.build ex).stream.symbols.map
      (fun s => (V2Prep.build ex).terms.getD s.name "")).zipIdx.map (fun p =>
        (g p.1, subId tagSym f p.2))) = (symPairs es f ((V2Prep.build ex).stream.withIds ids)).map
        (fun p => (g p.1, p.2)) := by
    intro g
    rw [map_congr_left hname, zipIdx_map, symPairs, Stream.withIds, zipIdx_map, map_map,
      map_map, map_map]
    rfl
  have hpost : ∀ post : Table (Nat ×ₗ Nat) (List UInt8),
      (globalPostings ids (V2Prep.build ex).postings).foldl (fun post p =>
        post.insert (toLex (p.1, f)) p.2) post =
        post.insertAll (postRows f ids (V2Prep.build ex).postings) := by
    intro post
    rw [Table.insertAll, postRows, foldl_map]
  rw [Data.putContent, hi, ok_bind]
  dsimp only
  rw [foldl_indexSymbol, hpost]
  dsimp only
  rw [hpairs (fun s => s), hpairs foldSymbolName, map_id']
  rfl

theorem putContent_spec {ok : Extraction → Prop} {d d' : Data}
    {σ : Nat → Option Stream} {es : List (Nat × String)} (h : Content sha256 ok d σ es) {f : Nat}
    (hfree : σ f = none) (hf : f ≤ maxLocal) (hok : ok ex) (hmem : ex.InMemory)
    (hkinds : ∀ sd ∈ ex.symbols, ∀ k ∈ sd.langKind, NulFree k)
    (hcf : CollisionFree sha256 (textsOf es ∪ {t | t ∈ ex.texts}))
    (hput : d.putContent sha256 f (V2Prep.build ex) = .ok d') :
    ∃ dict ids es', es <+: es' ∧ (∀ e ∈ es', e ∈ es ∨ e.2 ∈ ex.texts) ∧
      List.Forall₂ (fun t id => (id, t) ∈ es') (V2Prep.build ex).terms ids ∧
      d' = d.addContent dict es' f ((V2Prep.build ex).stream.withIds ids)
        (postRows f ids (V2Prep.build ex).postings) ∧
      Content sha256 ok d' (Function.update σ f (some ((V2Prep.build ex).stream.withIds ids))) es' ∧
      (Symbols d σ es →
        Symbols d' (Function.update σ f (some ((V2Prep.build ex).stream.withIds ids))) es') := by
  obtain ⟨⟨dict, ids⟩, hi, hput'⟩ := bind_eq_ok.mp hput
  have htexts := (build_spelled ex).texts
  obtain ⟨es', hd, hpre, hids, -, hnew⟩ := internAll_spec hcf (V2Prep.build ex).terms
    (fun t ht => ⟨Or.inr (htexts t ht), (hmem.texts t (htexts t ht)).trans (by decide)⟩) h.dict
    Set.subset_union_left hi
  rw [putContent_eq hd hids hi] at hput
  cases hput
  have hlt : ∀ id ∈ ids, id < 2 ^ 64 - 1 := by
    intro id hid
    obtain ⟨t, -, ht⟩ := exists_of_forall₂ hids.flip hid
    exact (hd.lt _ ht).trans_le hd.next
  have hst : Stored ok es' f ((V2Prep.build ex).stream.withIds ids) := by
    refine ⟨hf, storable_withIds ?_ hmem.tokens hlt, known_withIds hids, kinds_withIds hids hkinds,
      ex, ids, hok, rfl⟩
    have := hmem.symbols
    omega
  refine ⟨dict, ids, es', hpre, fun e he => (hnew e he).imp_right (htexts e.2), hids, rfl,
    content_add h hd hpre hfree hids hst, fun hs => symbols_add h hd hpre hfree hs _ _⟩

end MemoryGraph
