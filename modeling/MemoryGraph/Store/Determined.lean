import MemoryGraph.Store.Progress

/-! The node rows, the dictionary and the streams determine every other table, so two
stores that agree on these are equal. -/

namespace MemoryGraph
open Lib Codec List

section
variable {sha256 : List UInt8 → List UInt8}

theorem Dict.Inv.entries_unique {d : Dict} {es es' : List (Nat × String)} (h : d.Inv sha256 es)
    (h' : d.Inv sha256 es') : es = es' := by
  obtain ⟨blocks, hb, rfl⟩ := h.rev.blocks_eq
  obtain ⟨blocks', hb', rfl⟩ := h'.rev.blocks_eq
  rw [Except.ok.inj (hb.symm.trans hb')]

theorem internAll_found {d : Dict} {es : List (Nat × String)} (h : d.Inv sha256 es)
    {ts : List String} {ids : List Nat} (hids : List.Forall₂ (fun t id => (id, t) ∈ es) ts ids) :
    internAll sha256 d ts = .ok (d, ids) := by
  induction hids with
  | nil => rfl
  | @cons t id ts ids hmem _ ih =>
    have hone : intern sha256 d t = .ok (d, id) := by
      rw [intern, dictKey_found h hmem]
      rfl
    rw [internAll, hone, ok_bind]
    dsimp only
    rw [ih]
    rfl

theorem ids_unique {d : Dict} {es : List (Nat × String)} (h : d.Inv sha256 es) {ts : List String}
    {ids ids' : List Nat} (hids : List.Forall₂ (fun t id => (id, t) ∈ es) ts ids)
    (hids' : List.Forall₂ (fun t id => (id, t) ∈ es) ts ids') : ids = ids' := by
  have heq := (internAll_found h hids).symm.trans (internAll_found h hids')
  exact congrArg Prod.snd (Except.ok.inj heq)

end

section
variable {nextId : Nat} {nodes : Table Nat Node} {σ : Nat → Option Stream}
  {es : List (Nat × String)}

theorem CatalogRows.sub {cat cat' : Table String Nat} (h : CatalogRows cat nextId nodes σ es)
    (h' : CatalogRows cat' nextId nodes σ es) {key : String} {v : Nat} (hv : cat.get key = some v) :
    cat'.get key = some v := by
  obtain ⟨fs, hne, hfree, rfl⟩ := h.keys key v hv
  by_cases hm : IsMark nodes fs
  · rw [h'.marks fs hm, ← h.marks fs hm, hv]
  · rw [h'.counts fs hne hfree hm, ← h.counts fs hne hfree hm, hv]

theorem CatalogRows.ext {cat cat' : Table String Nat} (h : CatalogRows cat nextId nodes σ es)
    (h' : CatalogRows cat' nextId nodes σ es) : cat = cat' :=
  Table.ext fun _ => Option.ext fun _ => ⟨h.sub h', h'.sub h⟩

theorem EntityRows.ext {names names' : Table String Nat} {children children' : Multimap Nat Nat}
    (h : EntityRows nextId nodes names children) (h' : EntityRows nextId nodes names' children') :
    names = names' ∧ children = children' :=
  ⟨Table.ext fun key => Option.ext fun id => (h.names key id).trans (h'.names key id).symm,
    Multimap.ext fun p => (h.children p.1 p.2).trans (h'.children p.1 p.2).symm⟩

theorem FileRows.ext {keys keys' : Table Nat (List UInt8)} (h : FileRows nodes keys σ)
    (h' : FileRows nodes keys' σ) : keys = keys' :=
  Table.ext fun f => Option.ext fun row => (h.keys f row).trans (h'.keys f row).symm

theorem SymbolRows.ext {symIdx symIdx' symFold symFold' : Multimap String Nat}
    (h : SymbolRows symIdx symFold σ es) (h' : SymbolRows symIdx' symFold' σ es) :
    symIdx = symIdx' ∧ symFold = symFold' :=
  ⟨Multimap.ext fun p => (h.names p).trans (h'.names p).symm,
    Multimap.ext fun p => (h.folded p).trans (h'.folded p).symm⟩

theorem ContentRows.ext {sha256 : List UInt8 → List UInt8} {ok : Extraction → Prop} {terms : Dict}
    {streams streams' : Table Nat (List UInt8)} {post post' : Table (Nat ×ₗ Nat) (List UInt8)}
    {refs refs' : Table Nat Nat} {contentFiles contentFiles' : Multimap Nat Nat}
    (h : ContentRows sha256 ok terms streams post refs contentFiles σ es)
    (h' : ContentRows sha256 ok terms streams' post' refs' contentFiles' σ es) :
    streams = streams' ∧ post = post' ∧ refs = refs' ∧ contentFiles = contentFiles' :=
  ⟨Table.ext fun f => (h.streams f).trans (h'.streams f).symm,
    Table.ext fun k => (h.post (ofLex k).1 (ofLex k).2).trans
    (h'.post (ofLex k).1 (ofLex k).2).symm, Table.ext fun f => (h.refs f).trans (h'.refs f).symm,
    Multimap.ext fun p => (h.contentFiles p.1 p.2).trans (h'.contentFiles p.1 p.2).symm⟩

end

section
variable {sha256 : List UInt8 → List UInt8} {bound : Extraction → Prop} {d d' : Data}
  {σ : Nat → Option Stream} {es es' : List (Nat × String)}

theorem Whole.ext (h : Whole sha256 bound d σ es) (h' : Whole sha256 bound d' σ es')
    (hb : ∀ ex, bound ex → ex.symbols.length ≤ 4294967296) (hnext : d.nextId = d'.nextId)
    (hnodes : d.nodes = d'.nodes) (hterms : d.terms = d'.terms) : d = d' := by
  obtain rfl : es = es' := (hterms ▸ h.inv.content.dict).entries_unique h'.inv.content.dict
  have hent : EntityRows d.nextId d.nodes d'.names d'.children := by
    rw [hnext, hnodes]
    exact h'.inv.entities
  have hfiles : FileRows d.nodes d'.fileKeys σ := by
    rw [hnodes]
    exact h'.inv.files
  have hcontent : ContentRows sha256 (Admitted bound) d.terms d'.streams d'.post d'.refs
      d'.contentFiles σ es := by
    rw [hterms]
    exact h'.inv.content
  have hcat : CatalogRows d'.cat d.nextId d.nodes σ es := by
    rw [hnext, hnodes]
    exact h'.catalog
  obtain ⟨hnames, hchildren⟩ := h.inv.entities.ext hent
  obtain ⟨hstreams, hpost, hrefs, hcf⟩ := h.inv.content.ext hcontent
  obtain ⟨hsym, hfold⟩ := (h.symbols hb).ext (h'.symbols hb)
  have hkeys := h.inv.files.ext hfiles
  have hcat := h.catalog.ext hcat
  cases d
  cases d'
  simp_all only

end

def AllUsed (st : BuildState) : Prop :=
  ∀ k < st.terms.length, k ∈ (Stream.mk st.symbols st.tokens).termIds

theorem lt_internLocal {t : String} {terms : List String} {k : Nat}
    (hk : k < (internLocal t terms).2.length) : k < terms.length ∨ k = (internLocal t terms).1 := by
  unfold internLocal at hk ⊢
  split at hk <;> rename_i heq
  · exact Or.inl hk
  · rw [length_append, length_singleton] at hk
    simp only
    omega

theorem lt_internOption {o : Option String} {terms : List String} {k : Nat}
    (hk : k < (internOption o terms).2.length) :
    k < terms.length ∨ k ∈ (internOption o terms).1 := by
  cases o with
  | none => exact Or.inl hk
  | some t =>
    rcases lt_internLocal hk with h | h
    · exact Or.inl h
    · exact Or.inr (congrArg some h.symm)

theorem pushSym_allUsed {st : BuildState} (h : AllUsed st) (s : SymbolDecl) :
    AllUsed (pushSym st s) := by
  intro k hk
  simp only [pushSym, Stream.termIds, flatMap_append, flatMap_cons, flatMap_nil, append_nil,
    SymRec.ids, mem_append, mem_cons, Option.mem_toList] at hk ⊢
  rcases lt_internOption hk with hk | hk
  · rcases lt_internOption hk with hk | hk
    · rcases lt_internLocal hk with hk | hk
      · rcases mem_append.mp (h k hk) with hm | hm
        · exact Or.inl (Or.inl hm)
        · exact Or.inr hm
      · exact Or.inl (Or.inr (Or.inl hk))
    · exact Or.inl (Or.inr (Or.inr (Or.inl hk)))
  · exact Or.inl (Or.inr (Or.inr (Or.inr hk)))

theorem pushTok_allUsed {st : BuildState} (h : AllUsed st) (t : TokenDecl) :
    AllUsed (pushTok st t) := by
  intro k hk
  simp only [pushTok, Stream.termIds, map_append, map_cons, map_nil, mem_append,
    mem_singleton] at hk ⊢
  rcases lt_internLocal hk with hk | hk
  · rcases mem_append.mp (h k hk) with hm | hm
    · exact Or.inl hm
    · exact Or.inr (Or.inl hm)
  · exact Or.inr (Or.inr hk)

theorem build_allUsed (ex : Extraction) : AllUsed (buildLoop ex) := by
  have hloop : ∀ (items : List (SymbolDecl ⊕ TokenDecl)) (st : BuildState), AllUsed st →
      AllUsed (items.foldl pushItem st) := by
    intro items
    induction items with
    | nil => exact fun st h => h
    | cons it items ih =>
      intro st h
      cases it with
      | inl s => exact ih _ (pushSym_allUsed h s)
      | inr t => exact ih _ (pushTok_allUsed h t)
  exact hloop _ _ fun k hk => absurd hk (Nat.not_lt_zero k)

theorem mem_termIds_withIds {st : Stream} {k : Nat} (h : k ∈ st.termIds) (ids : List Nat) :
    ids.getD k 0 ∈ (st.withIds ids).termIds := by
  rcases mem_append.mp h with hm | hm
  · obtain ⟨r, hr, hk⟩ := mem_flatMap.mp hm
    refine mem_append_left _ (mem_flatMap.mpr ⟨_, mem_map_of_mem hr, ?_⟩)
    rcases mem_cons.mp hk with rfl | hk
    · exact mem_cons_self
    · refine mem_cons_of_mem _ ?_
      rcases mem_append.mp hk with hk | hk
      · exact mem_append_left _
          (Option.mem_toList.mpr (Option.mem_map_of_mem _ (Option.mem_toList.mp hk)))
      · exact mem_append_right _
          (Option.mem_toList.mpr (Option.mem_map_of_mem _ (Option.mem_toList.mp hk)))
  · obtain ⟨r, hr, rfl⟩ := mem_map.mp hm
    exact mem_append_right _ (mem_map.mpr ⟨_, mem_map_of_mem hr, rfl⟩)

theorem forall₂_live {ex : Extraction} {ids : List Nat} {es es' : List (Nat × String)}
    (hids : List.Forall₂ (fun t id => (id, t) ∈ es) (V2Prep.build ex).terms ids)
    (hlive : ∀ e ∈ es, e.1 ∈ ((V2Prep.build ex).stream.withIds ids).termIds → e ∈ es') :
    List.Forall₂ (fun t id => (id, t) ∈ es') (V2Prep.build ex).terms ids := by
  rw [forall₂_iff_get] at hids ⊢
  refine ⟨hids.1, fun k hk hk' => hlive _ (hids.2 k hk hk') ?_⟩
  have hmem := mem_termIds_withIds (build_allUsed ex k hk) ids
  rwa [getD_eq_getElem _ _ hk'] at hmem

end MemoryGraph
