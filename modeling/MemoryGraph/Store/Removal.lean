import MemoryGraph.Store.Content

/-! Removing a file's content: it always succeeds, takes exactly that file's rows, and
counts every record of the stream out again. -/

namespace MemoryGraph
open Lib Codec List
variable {st : Stream} {f : Nat}

def symSampleOf (es : List (Nat × String)) (file : Nat) (r : SymRec) : Node :=
  { blank 0 (some file) .symbol "" with
    symbolKind := some r.kind
    langKind := r.langKind.map (textAt es) }

def samplesOf (es : List (Nat × String)) (file : Nat) (st : Stream) : List Node :=
  st.symbols.map (symSampleOf es file) ++ st.tokens.map (tokSample file)

def Tally.nodes (t : Tally) (scope : Scope) (ns : List Node) (d : Int) : Tally :=
  ns.foldl (fun t n => t.node scope n d) t

def Data.dropContent (d : Data) (es : List (Nat × String)) (file : Nat) (st : Stream) : Data :=
  { d with
    streams := d.streams.remove file
    post := d.post.removeAll ((tokenTerms st).map (fun t => toLex (t, file)))
    symIdx := d.symIdx.removeAll (symPairs es file st)
    symFold := d.symFold.removeAll (foldPairs es file st)
    refs := d.refs.remove file
    contentFiles := d.contentFiles.remove file file }

theorem mem_tokenTerms {t : Nat} : t ∈ tokenTerms st ↔ ∃ r ∈ st.tokens, r.term = t := by
  have hget : ∀ (rs : List TokRec) (u : Table Nat Unit),
      (∃ v, (rs.foldl (fun u r => u.insert r.term ()) u).get t =
      some v) ↔ (∃ r ∈ rs, r.term = t) ∨ ∃ v, u.get t = some v := by
    intro rs
    induction rs with
    | nil => simp
    | cons r rs ih =>
      intro u
      rw [foldl_cons, ih, Table.get_insert]
      by_cases hr : r.term = t <;> simp [hr]
  rw [tokenTerms, Table.mem_keys, hget]
  simp

theorem foldl_unindexSymbol (file : Nat) (ps : List (String × Nat)) (d : Data) :
    ps.foldl (unindexSymbol file) d = { d with
      symIdx := d.symIdx.removeAll (ps.map (fun p => (p.1, subId tagSym file p.2)))
      symFold := d.symFold.removeAll
        (ps.map (fun p => (foldSymbolName p.1, subId tagSym file p.2))) } := by
  induction ps generalizing d with
  | nil => rfl
  | cons p ps ih =>
    rw [foldl_cons, ih]
    rfl

theorem map_ranged {β : Type} {g : SymRec → β} (hg : ∀ s r, g { s with toks := r } = g s)
    (st : Stream) : st.ranged.map g = st.symbols.map g := by
  refine ext_getElem? fun i => ?_
  rw [getElem?_map, getElem?_map]
  cases hs : st.symbols[i]? with
  | none =>
    have hlen := getElem?_eq_none_iff.mp hs
    rw [← length_ranged] at hlen
    rw [getElem?_eq_none hlen]
  | some s =>
    obtain ⟨r, hr, -⟩ := exists_ranged hs
    rw [hr]
    exact congrArg some (hg s r)

theorem mapM_ranged {β : Type} {g : SymRec → Except StoreError β} {k : SymRec → β}
    (hg : ∀ s r, g { s with toks := r } = g s) (hk : ∀ s ∈ st.symbols, g s = .ok (k s)) :
    st.ranged.mapM g = .ok (st.symbols.map k) := by
  have hid : ∀ l : List SymRec, l.mapM g = (l.map g).mapM id := fun l => by
    rw [mapM_map]
    rfl
  rw [hid, map_ranged hg, ← hid]
  exact mapM_ok hk

section
variable {sha256 : List UInt8 → List UInt8} {ok : Extraction → Prop} {d : Data}
  {σ : Nat → Option Stream} {es : List (Nat × String)} (h : Content sha256 ok d σ es)
include h

theorem ContentRows.text_sym (hf : σ f = some st) {r : SymRec} (hr : r ∈ st.symbols)
    {id : Nat} (hid : id ∈ r.ids) : d.terms.text id = .ok (textAt es id) :=
  text_eq_textAt h.dict ((h.stored f st hf).known id (mem_termIds_sym hr hid))

theorem symSample_eq (hf : σ f = some st) (file : Nat) {r : SymRec}
    (hr : r ∈ st.symbols) : symSample d.terms file r = .ok (symSampleOf es file r) := by
  have hkind : optText d.terms.text r.langKind = .ok (r.langKind.map (textAt es)) := by
    cases hk : r.langKind with
    | none => rfl
    | some k =>
      rw [optText, h.text_sym hf hr (by simp [SymRec.ids, hk])]
      rfl
  rw [symSample, hkind]
  rfl

theorem tallyStream_eq (hf : σ f = some st) (tally : Tally) (scope : Scope) (dl : Int) :
    tallyStream d.terms tally scope f st.readBack dl =
      .ok (tally.nodes scope (samplesOf es f st) dl) := by
  have hsyms : st.readBack.symbols.mapM (symSample d.terms f) =
      .ok (st.symbols.map (symSampleOf es f)) :=
    mapM_ranged (fun _ _ => rfl) (fun r hr => symSample_eq h hf f hr)
  rw [tallyStream, hsyms, ok_bind, Tally.nodes, samplesOf, foldl_append]
  rfl

theorem removeStream_eq (hf : σ f = some st) (d₀ : Data) (hd : d₀.terms = d.terms) (scope : Scope)
    (tally : Tally) :
    d₀.removeStream f scope tally st.readBack =
      .ok ({ d₀ with
        streams := d₀.streams.remove f
        post := d₀.post.removeAll ((tokenTerms st).map (fun t => toLex (t, f)))
        symIdx := d₀.symIdx.removeAll (symPairs es f st)
        symFold := d₀.symFold.removeAll (foldPairs es f st) },
        tally.nodes scope (samplesOf es f st) (-1)) := by
  have hnames : st.readBack.symbols.mapM (fun r => d.terms.text r.name) =
      .ok (st.symbols.map (fun r => textAt es r.name)) :=
    mapM_ranged (fun _ _ => rfl) (fun r hr => h.text_sym hf hr mem_cons_self)
  have hpairs : ∀ g : String → String, ((st.symbols.map (fun r => textAt es r.name)).zipIdx.map
      (fun p => (g p.1, subId tagSym f p.2))) = (symPairs es f st).map (fun p => (g p.1, p.2)) := by
    intro g
    rw [zipIdx_map, symPairs, map_map, map_map]
    rfl
  have hpost : (tokenTerms st.readBack).foldl (fun post t => post.remove (toLex (t, f))) d₀.post =
      d₀.post.removeAll ((tokenTerms st).map (fun t => toLex (t, f))) := by
    rw [Table.removeAll, foldl_map]
    rfl
  rw [Data.removeStream, hd, tallyStream_eq h hf, ok_bind, hnames, ok_bind]
  dsimp only
  rw [foldl_unindexSymbol, hpost]
  dsimp only
  rw [hpairs (fun s => s), hpairs foldSymbolName, map_id']
  rfl

theorem removeContent_some (hf : σ f = some st) (scope : Scope) (tally : Tally) :
    d.removeContent f scope tally =
      .ok (d.dropContent es f st, tally.nodes scope (samplesOf es f st) (-1)) := by
  have hrow : d.streams.get f = some (encode st) := by rw [h.streams, hf]; rfl
  have href : d.refs.get f = some 1 := by rw [h.refs, hf]; rfl
  rw [Data.removeContent, hrow]
  dsimp only
  rw [decode_encode (h.stored f st hf).storable, ok_bind]
  have hlast : ¬ 0 < (d.refs.get (contentId f)).getD 0 - 1 := by
    rw [contentId, href]
    decide
  refine (if_neg hlast).trans ?_
  exact removeStream_eq h hf { d with
    contentFiles := d.contentFiles.remove f f, refs := d.refs.remove f } rfl scope tally

open Function in
theorem content_drop (hf : σ f = some st) :
    Content sha256 ok (d.dropContent es f st) (update σ f none) es := by
  refine ⟨h.dict, fun g => ?_, fun g st' hg => ?_, fun t g => ?_, fun g => ?_, fun c g => ?_⟩
  · rw [Data.dropContent, Table.get_remove, h.streams, update_apply]
    by_cases hfg : f = g <;> simp [hfg, eq_comm]
  · rw [update_apply] at hg
    split_ifs at hg
    exact h.stored g st' hg
  · rw [Data.dropContent, Table.get_removeAll, h.post, update_apply]
    by_cases hgf : g = f
    · subst hgf
      rw [if_pos rfl, hf]
      split_ifs with hmem
      · rfl
      · refine postRow_eq_none.mpr fun r hr e => hmem ?_
        exact mem_map.mpr ⟨t, mem_tokenTerms.mpr ⟨r, hr, e⟩, rfl⟩
    · rw [if_neg hgf, if_neg]
      intro hmem
      obtain ⟨u, -, hu⟩ := mem_map.mp hmem
      exact hgf (congrArg Prod.snd (toLex.injective hu)).symm
  · rw [Data.dropContent, Table.get_remove, h.refs, update_apply]
    by_cases hfg : f = g <;> simp [hfg, eq_comm]
  · rw [Data.dropContent, Multimap.mem_pairs_remove, h.contentFiles, update_apply]
    by_cases hgf : g = f
    · subst hgf
      simp only [if_true, Option.isSome_none, Bool.false_eq_true, and_false, iff_false]
      rintro ⟨hne, rfl, -⟩
      exact hne rfl
    · rw [if_neg hgf]
      exact and_iff_right fun e => hgf (congrArg Prod.snd e)

end

open Function in
theorem symbols_drop {d : Data} {σ : Nat → Option Stream} {es : List (Nat × String)}
    (h : Symbols d σ es)
    (hlocal : ∀ g st', σ g = some st' → g ≤ maxLocal ∧ st'.symbols.length ≤ 4294967296)
    (hf : σ f = some st) :
    Symbols (d.dropContent es f st) (update σ f none) es := by
  have hfile : ∀ g st' p q, σ g = some st' → p ∈ symPairs es g st' → q ∈ symPairs es f st →
      p.2 = q.2 → g = f := by
    intro g st' p q hg hp hq hpq
    obtain ⟨i, r, hi, rfl⟩ := mem_symPairs.mp hp
    obtain ⟨j, s, hj, rfl⟩ := mem_symPairs.mp hq
    have hi := lt_of_getElem? hi
    have hj := lt_of_getElem? hj
    obtain ⟨hgl, hgn⟩ := hlocal g st' hg
    obtain ⟨hfl, hfn⟩ := hlocal f st hf
    have := congrArg splitId hpq
    rw [splitId_subId hgl (by omega), splitId_subId hfl (by omega)] at this
    exact congrArg (fun t => t.2.1) this
  have hkeep : ∀ (pairs : Nat → Stream → List (String × Nat)),
      (∀ g st' p q, σ g = some st' → p ∈ pairs g st' → q ∈ pairs f st → p.2 = q.2 → g = f) →
      ∀ p, (p ∉ pairs f st ∧ ∃ g st', σ g = some st' ∧ p ∈ pairs g st') ↔
        ∃ g st', update σ f none g = some st' ∧ p ∈ pairs g st' := by
    intro pairs hsep p
    constructor
    · rintro ⟨hno, g, st', hg, hp⟩
      refine ⟨g, st', ?_, hp⟩
      rw [update_of_ne, hg]
      rintro rfl
      exact hno (Option.mem_unique hg hf ▸ hp)
    · rintro ⟨g, st', hg, hp⟩
      rw [update_apply] at hg
      split_ifs at hg with hgf
      exact ⟨fun hq => hgf (hsep g st' p p hg hp hq rfl), g, st', hg, hp⟩
  refine ⟨fun p => ?_, fun p => ?_⟩
  · rw [Data.dropContent, Multimap.mem_pairs_removeAll, h.names]
    exact hkeep (symPairs es) hfile p
  · rw [Data.dropContent, Multimap.mem_pairs_removeAll, h.folded]
    refine hkeep (foldPairs es) (fun g st' p q hg hp hq hpq => ?_) p
    obtain ⟨p', hp', rfl⟩ := mem_foldPairs.mp hp
    obtain ⟨q', hq', rfl⟩ := mem_foldPairs.mp hq
    exact hfile g st' p' q' hg hp' hq' hpq

end MemoryGraph
