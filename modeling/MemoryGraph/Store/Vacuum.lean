import MemoryGraph.Store.Files

/-! Vacuum: it keeps exactly the dictionary entries some stream uses, under their ids. -/

namespace MemoryGraph
open Lib Codec List
variable {es : List (Nat × String)} {sha256 : List UInt8 → List UInt8}

def Live (σ : Nat → Option Stream) (id : Nat) : Prop := ∃ f st, σ f = some st ∧ id ∈ st.termIds

section
variable {sha256 : List UInt8 → List UInt8} {ok : Extraction → Prop} {d : Data}
  {σ : Nat → Option Stream} {es : List (Nat × String)} (h : Content sha256 ok d σ es)
include h

theorem rowSymbolTerms_eq {f : Nat} {st : Stream} (hf : σ f = some st) :
    rowSymbolTerms (encode st) = .ok (st.symbols.flatMap SymRec.ids) := by
  have hs := (h.stored f st hf).storable
  have hids : st.ranged.flatMap SymRec.ids = st.symbols.flatMap SymRec.ids := by
    rw [flatMap_def, flatMap_def, map_ranged fun _ _ => rfl]
  rw [rowSymbolTerms, decodeLazy_encode hs, ok_bind, symbols_lazyOf hs, ok_bind]
  exact congrArg Except.ok hids

theorem mem_streams_rows {f : Nat} {raw : List UInt8} :
    (f, raw) ∈ d.streams.rows ↔ ∃ st, σ f = some st ∧ raw = encode st := by
  rw [Table.mem_rows_iff, h.streams, Option.map_eq_some_iff]
  exact exists_congr fun st => and_congr_right fun _ => eq_comm

theorem liveTerms_eq : ∃ live, d.liveTerms = .ok live ∧ ∀ id, id ∈ live ↔ Live σ id := by
  have hrows : ∀ r ∈ d.streams.rows, ∃ ids, rowSymbolTerms r.2 = .ok ids := by
    rintro ⟨f, raw⟩ hr
    obtain ⟨st, hf, rfl⟩ := (mem_streams_rows h).mp hr
    exact ⟨_, rowSymbolTerms_eq h hf⟩
  obtain ⟨used, hused⟩ := exists_mapM_ok.mpr hrows
  have hsym : ∀ id, id ∈ used.flatten ↔ ∃ f st, σ f = some st ∧
      id ∈ st.symbols.flatMap SymRec.ids := by
    intro id
    have hrel := mapM_eq_ok.mp hused
    rw [mem_flatten]
    constructor
    · rintro ⟨ids, hids, hid⟩
      obtain ⟨⟨f, raw⟩, hr, hrow⟩ := exists_of_forall₂ hrel.flip hids
      obtain ⟨st, hf, rfl⟩ := (mem_streams_rows h).mp hr
      obtain rfl := Except.ok.inj ((rowSymbolTerms_eq h hf).symm.trans hrow)
      exact ⟨f, st, hf, hid⟩
    · rintro ⟨f, st, hf, hid⟩
      obtain ⟨ids, hids, hrow⟩ := exists_of_forall₂ hrel ((mem_streams_rows h).mpr ⟨st, hf, rfl⟩)
      obtain rfl := Except.ok.inj ((rowSymbolTerms_eq h hf).symm.trans hrow)
      exact ⟨_, hids, hid⟩
  have hpost : ∀ id, id ∈ d.post.rows.map (fun r => (ofLex r.1).1) ↔
      ∃ f st, σ f = some st ∧ id ∈ st.tokens.map TokRec.term := by
    intro id
    rw [mem_map]
    constructor
    · rintro ⟨⟨k, v⟩, hr, rfl⟩
      have hget := (Table.mem_rows_iff.mp hr).symm.trans (h.post (ofLex k).1 (ofLex k).2)
      obtain ⟨st, hf, hrow⟩ := Option.bind_eq_some_iff.mp hget.symm
      by_contra hno
      rw [postRow_eq_none.mpr] at hrow
      · cases hrow
      · exact fun r hr e => hno ⟨_, st, hf, mem_map.mpr ⟨r, hr, e⟩⟩
    · rintro ⟨f, st, hf, hid⟩
      obtain ⟨r, hr, rfl⟩ := mem_map.mp hid
      cases hrow : postRow st r.term with
      | none => exact absurd rfl (postRow_eq_none.mp hrow r hr)
      | some v =>
        refine ⟨(toLex (r.term, f), v), Table.mem_rows_iff.mpr ?_, rfl⟩
        rw [h.post, hf]
        exact hrow
  refine ⟨_, (congrArg (· >>= _) hused).trans rfl, fun id => ?_⟩
  rw [mem_append, hpost, hsym, Live]
  simp only [Stream.termIds, mem_append]
  constructor
  · rintro (⟨f, st, hf, hid⟩ | ⟨f, st, hf, hid⟩)
    · exact ⟨f, st, hf, Or.inr hid⟩
    · exact ⟨f, st, hf, Or.inl hid⟩
  · rintro ⟨f, st, hf, hid | hid⟩
    · exact Or.inr ⟨f, st, hf, hid⟩
    · exact Or.inl ⟨f, st, hf, hid⟩

end

theorem RevOf.blocks_eq {rev : Table Nat (List UInt8)} (h : RevOf rev es) :
    ∃ blocks, rev.rows.mapM (fun r => decodeDictBlock r.2) = .ok blocks ∧ blocks.flatten = es := by
  obtain ⟨blocks, hc⟩ := h
  refine ⟨blocks, ?_, hc.entries_eq⟩
  have hblock : ∀ b ∈ blocks, decodeDictBlock (encodeDictBlock b) = .ok b := fun b hb =>
    decodeDictBlock_encode (blockFits_of (hc.sizes b hb).2 fun e he =>
      hc.fits e (hc.entries_eq ▸ mem_flatten_of_mem hb he))
  have hmap : rev.rows.mapM (fun r => decodeDictBlock r.2) =
      (rev.rows.map Prod.snd).mapM decodeDictBlock := by
    rw [mapM_map]
    rfl
  rw [hmap, hc.rows.rows_eq, mapM_map]
  exact (mapM_ok (g := fun b => b) hblock).trans (by rw [map_id'])

theorem Dict.Inv.key_inj {d : Dict}
    (h : d.Inv sha256 es) {a b : Nat × String} (ha : a ∈ es) (hb : b ∈ es)
    (hkey : termKey sha256 a.2 = termKey sha256 b.2) : a = b := by
  have h1 := (h.dict _ _).mpr ⟨a.2, ha, rfl⟩
  have h2 := (h.dict _ _).mpr ⟨b.2, hb, rfl⟩
  rw [hkey, h2] at h1
  have hid : b.1 = a.1 := Option.some.inj h1
  exact Prod.ext hid.symm (h.text_unique ha (hid ▸ hb))

theorem dropTerms_eq {terms : Dict}
    (h : terms.Inv sha256 es) (dead : List (Nat × String)) (hdead : dead ⊆ es) (hnd : dead.Nodup)
    (dict : Table String Nat) (hdict : ∀ e ∈ dead, dict.get (termKey sha256 e.2) = some e.1) :
    dead.foldlM (dropTerm sha256 terms) dict =
      .ok (dict.removeAll (dead.map (fun e => termKey sha256 e.2))) := by
  induction dead generalizing dict with
  | nil => rfl
  | cons e dead ih =>
    obtain ⟨he, hdead⟩ := cons_subset.mp hdead
    obtain ⟨hnot, hnd⟩ := nodup_cons.mp hnd
    have hfound := dictKey_some (d := { terms with dict }) (hdict e mem_cons_self)
    have hstep : dropTerm sha256 terms dict e = .ok (dict.remove (termKey sha256 e.2)) := by
      rw [dropTerm, hfound]
      rfl
    rw [foldlM_cons, hstep, ok_bind, ih hdead hnd]
    · rfl
    · intro b hb
      rw [Table.get_remove, if_neg, hdict b (.tail _ hb)]
      exact fun hk => hnot (h.key_inj he (hdead hb) hk ▸ hb)

theorem inv_filter {d d' : Dict}
    (h : d.Inv sha256 es) (p : Nat × String → Bool) (hrev : RevOf d'.rev (es.filter p))
    (hnext : d'.nextTerm = d.nextTerm)
    (hdict : d'.dict = d.dict.removeAll
      ((es.filter (fun e => ¬ p e)).map (fun e => termKey sha256 e.2))) :
    d'.Inv sha256 (es.filter p) := by
  refine ⟨hrev, fun e he => hnext ▸ h.lt e (mem_filter.mp he).1, hnext ▸ h.next,
    h.texts.sublist (filter_sublist.map _), fun key id => ?_⟩
  rw [hdict, Table.get_removeAll]
  split_ifs with hkey
  · obtain ⟨e, he, rfl⟩ := mem_map.mp hkey
    obtain ⟨hmem, hnp⟩ := mem_filter.mp he
    refine ⟨fun e => (by cases e), fun ⟨t, ht, hk⟩ => ?_⟩
    obtain ⟨hmem', hp⟩ := mem_filter.mp ht
    obtain rfl := h.key_inj hmem hmem' hk
    simp [hp] at hnp
  · rw [h.dict]
    refine exists_congr fun t => and_congr_left fun hk => ?_
    refine ⟨fun hmem => mem_filter.mpr ⟨hmem, ?_⟩, fun hmem => (mem_filter.mp hmem).1⟩
    by_contra hnp
    exact hkey (mem_map.mpr ⟨(id, t), mem_filter.mpr ⟨hmem, by simpa using hnp⟩, hk.symm⟩)

theorem vacuumIn_spec {ok : Extraction → Prop} {d : Data}
    {σ : Nat → Option Stream} (h : Content sha256 ok d σ es) :
    ∃ terms' stats nothing, d.vacuumIn sha256 = .ok ({ d with terms := terms' }, stats, nothing) ∧
      ∃ es', terms'.Inv sha256 es' ∧ es'.Sublist es ∧ (∀ e, e ∈ es' ↔ e ∈ es ∧ Live σ e.1) ∧
        terms'.nextTerm = d.terms.nextTerm ∧ (nothing = true → terms' = d.terms) := by
  obtain ⟨live, hlive, hiff⟩ := liveTerms_eq h
  obtain ⟨blocks, hblocks, hflat⟩ := h.dict.rev.blocks_eq
  have hnodup : es.Nodup := h.dict.rev.sorted.imp fun hlt e =>
    absurd hlt (by rw [e]; exact lt_irrefl _)
  have hdrop := dropTerms_eq h.dict (es.filter (fun e => e.1 ∉ live)) (filter_subset_self _)
    (hnodup.filter _) d.terms.dict fun e he =>
    (h.dict.dict _ _).mpr ⟨e.2, (mem_filter.mp he).1, rfl⟩
  obtain ⟨cut, hcut⟩ := h.dict.rev
  have hrev : RevOf (if es.filter (fun e => e.1 ∉ live) = [] then d.terms.rev
      else fillRows (clearRows d.terms.rev d.terms.rev.len)
      (packDictBlocks (es.filter (fun e => e.1 ∈ live)))) (es.filter (fun e => e.1 ∈ live)) := by
    split_ifs with hnil
    · have hall : es.filter (fun e => e.1 ∈ live) = es := by
        rw [filter_eq_self]
        intro e he
        have := filter_eq_nil_iff.mp hnil e he
        simpa using this
      rw [hall]
      exact h.dict.rev
    · exact packDictBlocks_spec (clearRows_holds hcut.rows) (hcut.sorted.filter _)
        fun e he => hcut.fits e (mem_filter.mp he).1
  rw [Data.vacuumIn, hlive, ok_bind, hblocks, ok_bind]
  dsimp only
  rw [hflat, hdrop, ok_bind]
  refine ⟨_, _, _, rfl, es.filter (fun e => e.1 ∈ live), inv_filter h.dict _ hrev rfl ?_,
    filter_sublist, fun e => ?_, rfl, fun hnothing => ?_⟩
  · simp only [decide_eq_true_eq, decide_not]
  · rw [mem_filter, decide_eq_true_eq, hiff]
  · have hnil : es.filter (fun e => e.1 ∉ live) = [] := of_decide_eq_true hnothing
    rw [hnil]
    rfl

end MemoryGraph
