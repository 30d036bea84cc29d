import MemoryGraph.Store.Counters

/-! The counters through an ingest: the tally is what the new file counts minus what the
file it replaces counted. -/

namespace MemoryGraph
open Lib Codec List
variable {f : Nat} {n : Node} {fs : List String} {m : Node} {i : Nat} {st : Stream}
  {org repo : String}
variable {nodes nodes' : Table Nat Node} {σ : Nat → Option Stream}
  {nodes : Table Nat Node} {d : Data}

theorem SymbolKind.asStr_injective : Function.Injective SymbolKind.asStr := by
  intro a b h
  cases a <;> cases b <;> first | rfl | exact absurd h (by decide)

theorem TokenClass.asStr_injective : Function.Injective TokenClass.asStr := by
  intro a b h
  cases a <;> cases b <;> first | rfl | exact absurd h (by decide)

theorem Tally.val_weighted (t : Tally) (s : Scope) (ns : List (Node × Int)) (key : String) :
    Tally.val (ns.foldl (fun t n => t.node s n.1 n.2) t) key =
      t.val key + (ns.map (fun n => n.2 * ((nodeKeys s n.1).count key : Int))).sum := by
  induction ns generalizing t with
  | nil => simp
  | cons n ns ih =>
    rw [foldl_cons, ih, node, val_addAll, map_cons, sum_cons]
    ring

theorem sum_tallyNodes (ex : Extraction) (g : Node → Int) :
    ((V2Prep.build ex).tallyNodes.map (fun n => n.2 * g n.1)).sum =
      ((sortedSyms ex).map (fun sd => g (sampleSym sd.kind sd.langKind))).sum +
        ((sortedToks ex).map (fun t => g (sampleTok t.cls))).sum := by
  have hsyms := Table.sum_countBy (fun sd : SymbolDecl =>
    (toLex (sd.kind.asStr, sd.langKind) : String ×ₗ WithBot String))
    SymbolDecl.kind (fun a b h =>
      SymbolKind.asStr_injective (congrArg Prod.fst (toLex.injective h)))
    (fun k kind => g (sampleSym kind (ofLex k).2)) (sortedSyms ex)
  have htoks := Table.sum_countBy (fun t : TokenDecl => t.cls.asStr) TokenDecl.cls
    (fun a b h => TokenClass.asStr_injective h) (fun _ cls => g (sampleTok cls)) (sortedToks ex)
  rw [V2Prep.build, map_append, sum_append, map_map, map_map]
  exact congrArg₂ (· + ·) hsyms htoks

section
variable {sha256 : List UInt8 → List UInt8} {dict : Dict} {es : List (Nat × String)}
  (hd : dict.Inv sha256 es) {ex : Extraction} {ids : List Nat}
  (hids : List.Forall₂ (fun t id => (id, t) ∈ es) (V2Prep.build ex).terms ids)
include hd hids

theorem langKind_withIds {r : SymRec} {sd : SymbolDecl}
    (h : r.Describes (V2Prep.build ex).terms sd) :
    (r.langKind.map (fun k => ids.getD k 0)).map (textAt es) = sd.langKind := by
  have hrel := h.langKind
  cases hr : r.langKind <;> cases hs : sd.langKind <;> rw [hr, hs] at hrel
  · rfl
  · cases hrel
  · cases hrel
  · cases hrel with
    | some hk => exact congrArg some (textAt_of_numbers hd hids hk)

theorem nodeKeys_samplesOf (s : Scope) (f : Nat) :
    (samplesOf es f ((V2Prep.build ex).stream.withIds ids)).map (Tally.nodeKeys s) =
      (sortedSyms ex).map (fun sd => Tally.nodeKeys s (sampleSym sd.kind sd.langKind)) ++
        (sortedToks ex).map (fun t => Tally.nodeKeys s (sampleTok t.cls)) := by
  rw [samplesOf, map_append, Stream.withIds, map_map, map_map, map_map, map_map]
  refine congrArg₂ (· ++ ·) (map_eq_of_forall₂ (build_spelled ex).symbols fun r sd hr => ?_)
    (map_eq_of_forall₂ (build_spelled ex).tokens fun r t hr => ?_)
  · have hlang := langKind_withIds hd hids hr
    change Tally.nodeKeys s
      (sampleSym r.kind ((r.langKind.map (fun k => ids.getD k 0)).map (textAt es))) = _
    rw [hlang, hr.kind]
  · change Tally.nodeKeys s (sampleTok r.cls) = _
    rw [hr.cls]

theorem val_tallyNodes (t : Tally) (s : Scope) (f : Nat) (key : String) :
    Tally.val ((V2Prep.build ex).tallyNodes.foldl (fun t n => t.node s n.1 n.2) t) key =
      t.val key + (((samplesOf es f ((V2Prep.build ex).stream.withIds ids)).flatMap
        (Tally.nodeKeys s)).count key : Int) := by
  rw [Tally.val_weighted, sum_tallyNodes ex (fun n => ((Tally.nodeKeys s n).count key : Int)),
    flatMap_def, nodeKeys_samplesOf hd hids, count_flatten, map_append, sum_append, map_map,
    map_map, Nat.cast_add, Nat.cast_list_sum, Nat.cast_list_sum, map_map, map_map]
  rfl

end

theorem nulFree_append {a b : String} (ha : NulFree a) (hb : NulFree b) : NulFree (a ++ b) := by
  rw [NulFree, String.toList_append, mem_append]
  exact not_or.mpr ⟨ha, hb⟩

theorem SymbolKind.nulFree_asStr (k : SymbolKind) : NulFree k.asStr := by
  cases k <;> decide

theorem TokenClass.nulFree_asStr (c : TokenClass) : NulFree c.asStr := by
  cases c <;> decide

theorem nulFree_kindLabel (h : ∀ k ∈ n.langKind, NulFree k) : NulFree (kindLabel n) := by
  have hgen := SymbolKind.nulFree_asStr (n.symbolKind.getD .other)
  rw [kindLabel]
  cases hk : n.langKind with
  | none => exact hgen
  | some k =>
    dsimp only
    split_ifs
    · exact nulFree_append (nulFree_append hgen (by decide)) (h k hk)
    · exact hgen

structure Scope.Clean (s : Scope) : Prop where
  org : NulFree s.org
  repo : NulFree s.repo
  lang : NulFree s.lang
  encoding : ∀ e ∈ s.encoding, NulFree e

theorem fielded_tagged {tag a b : String} {rest : List String} (ht : NulFree tag ∧ tag ≠ "r")
    (ha : NulFree a) (hb : NulFree b) (hr : NulFreeAll rest) :
    tag :: a :: b :: rest ≠ [] ∧ NulFreeAll (tag :: a :: b :: rest) ∧
      (tag :: a :: b :: rest).head? ≠ some "r" := by
  refine ⟨cons_ne_nil _ _, ?_, fun h => ht.2 (Option.some.inj h)⟩
  simp only [NulFreeAll, forall_mem_cons]
  exact ⟨ht.1, ha, hb, hr⟩

theorem nulFreeAll_singleton {a : String} (h : NulFree a) : NulFreeAll [a] :=
  fun _ hf => mem_singleton.mp hf ▸ h

theorem fielded_fileFields {s : Scope} (hs : s.Clean) : Fielded s.fileFields := by
  intro fs hfs
  rw [Scope.fileFields, mem_cons, mem_append, mem_map] at hfs
  rcases hfs with rfl | ⟨e, he, rfl⟩ | hl
  · exact fielded_tagged ⟨by decide, by decide⟩ hs.org hs.repo (nulFreeAll_singleton hs.lang)
  · exact fielded_tagged ⟨by decide, by decide⟩ hs.org hs.repo
      (nulFreeAll_singleton (hs.encoding e (Option.mem_toList.mp he)))
  · split_ifs at hl
    · obtain rfl := mem_singleton.mp hl
      exact fielded_tagged ⟨by decide, by decide⟩ hs.org hs.repo (by simp [NulFreeAll])
    · exact absurd hl not_mem_nil

theorem fielded_nodeFields {s : Scope} (hs : s.Clean) (hn : ∀ k ∈ n.langKind, NulFree k) :
    Fielded (s.nodeFields n) := by
  intro fs hfs
  rw [Scope.nodeFields] at hfs
  cases hk : n.kind <;> rw [hk] at hfs
  case symbol =>
    simp only [mem_cons, not_mem_nil, or_false] at hfs
    rcases hfs with rfl | rfl
    · exact fielded_tagged ⟨by decide, by decide⟩ hs.org hs.repo (nulFreeAll_singleton hs.lang)
    · refine fielded_tagged ⟨by decide, by decide⟩ hs.org hs.repo ?_
      simp only [NulFreeAll, forall_mem_cons]
      exact ⟨hs.lang, nulFree_kindLabel hn, by simp⟩
  case token =>
    rw [mem_cons, mem_map] at hfs
    rcases hfs with rfl | ⟨c, -, rfl⟩
    · exact fielded_tagged ⟨by decide, by decide⟩ hs.org hs.repo (nulFreeAll_singleton hs.lang)
    · exact fielded_tagged ⟨by decide, by decide⟩ hs.org hs.repo
        (nulFreeAll_singleton c.nulFree_asStr)
  all_goals exact absurd hfs not_mem_nil

theorem fielded_contentFields {s : Scope} (hs : s.Clean) {es : List (Nat × String)}
    (hk : ∀ r ∈ st.symbols, ∀ k ∈ r.langKind, NulFree (textAt es k)) :
    Fielded (contentFields s es f st) := by
  intro fs hfs
  rw [contentFields, mem_append, mem_flatMap] at hfs
  rcases hfs with hfs | ⟨n, hn, hfs⟩
  · exact fielded_fileFields hs fs hfs
  · refine fielded_nodeFields hs (fun k hlk => ?_) fs hfs
    rw [samplesOf, mem_append, mem_map, mem_map] at hn
    rcases hn with ⟨r, hr, rfl⟩ | ⟨r, -, rfl⟩
    · obtain ⟨id, hid, rfl⟩ := Option.map_eq_some_iff.mp (Option.mem_def.mp hlk)
      exact hk r hr id hid
    · exact absurd hlk (by simp [tokSample, blank])

theorem IsRepo.mono {id : Nat} (h : IsRepo nodes org repo id)
    (hkeep : ∀ i m, nodes.get i = some m → m.kind ≠ .file → nodes'.get i = some m) :
    IsRepo nodes' org repo id := by
  obtain ⟨r, orgId, o, hr, hrk, hrn, hrp, ho, hok, hon⟩ := h
  exact ⟨r, orgId, o, hkeep _ _ hr (by rw [hrk]; decide), hrk, hrn, hrp,
    hkeep _ _ ho (by rw [hok]; decide), hok, hon⟩

theorem IsRepo.nulFree (h : Entities d) {id : Nat}
    (hr : IsRepo d.nodes org repo id) : NulFree org ∧ NulFree repo := by
  obtain ⟨r, orgId, o, hr, hrk, rfl, -, ho, hok, rfl⟩ := hr
  have hrs := h.shaped _ _ hr
  have hos := h.shaped _ _ ho
  unfold Shaped at hrs hos
  rw [hrk] at hrs
  rw [hok] at hos
  exact ⟨hos.2, hrs.1⟩

theorem isRepo_of_file (h : Entities d) (hn : d.nodes.get f = some n)
    (hk : n.kind = .file) :
    ∃ org repo repoId, n.parent = some repoId ∧ IsRepo d.nodes org repo repoId := by
  have hs := h.shaped _ _ hn
  unfold Shaped at hs
  rw [hk] at hs
  obtain ⟨-, -, repoId, r, hp, hr, hrk⟩ := hs
  have hrs := h.shaped _ _ hr
  unfold Shaped at hrs
  rw [hrk] at hrs
  obtain ⟨-, orgId, o, hrp, ho, hok⟩ := hrs
  exact ⟨o.name, r.name, repoId, hp, r, orgId, o, hr, hrk, rfl, hrp, ho, hok, rfl⟩

theorem clean_scopeOf (h : Entities d) (hn : d.nodes.get f = some n)
    (hk : n.kind = .file) {repoId : Nat} (hr : IsRepo d.nodes org repo repoId) :
    (scopeOf org repo n).Clean := by
  obtain ⟨ho, hrn⟩ := hr.nulFree h
  have hs := h.shaped _ _ hn
  unfold Shaped at hs
  rw [hk] at hs
  obtain ⟨⟨l, hl, hfree⟩, henc, -⟩ := hs
  refine ⟨ho, hrn, ?_, henc⟩
  rw [scopeOf, hl]
  exact hfree

theorem fieldsOf_none (h : σ f = none)
    (es : List (Nat × String)) : fieldsOf nodes σ es f = [] := by
  rw [fieldsOf, h]
  cases nodes.get f <;> rfl

theorem fieldsOf_file
    {repoId : Nat} (hn : nodes.get f = some n) (hp : n.parent = some repoId)
    (hr : IsRepo nodes org repo repoId) (hσ : σ f = some st) (es : List (Nat × String)) :
    fieldsOf nodes σ es f = contentFields (scopeOf org repo n) es f st := by
  obtain ⟨r, orgId, o, hr, -, rfl, hrp, ho, -, rfl⟩ := hr
  have hscope : scopeAt nodes n = some (scopeOf o.name r.name n) := by
    simp [scopeAt, hp, hr, hrp, ho]
  rw [fieldsOf, hn, hσ]
  dsimp only
  rw [hscope]
  rfl

theorem contentFields_congr {es es' : List (Nat × String)}
    (h : ∀ r ∈ st.symbols, ∀ k ∈ r.langKind, textAt es' k = textAt es k) (s : Scope) (f : Nat) :
    contentFields s es' f st = contentFields s es f st := by
  have hsample : ∀ r ∈ st.symbols, symSampleOf es' f r = symSampleOf es f r := by
    intro r hr
    rw [symSampleOf, symSampleOf, Option.map_congr (fun k hk => h r hr k hk)]
  rw [contentFields, contentFields, samplesOf, samplesOf, map_congr_left hsample]

section
variable {sha256 : List UInt8 → List UInt8} {ok : Extraction → Prop} {d : Data}
  {σ : Nat → Option Stream} {es : List (Nat × String)} (h : Inv sha256 ok d σ es)
include h

theorem fielded_fieldsOf (f : Nat) : Fielded (fieldsOf d.nodes σ es f) := by
  cases hσ : σ f with
  | none =>
    rw [fieldsOf_none hσ]
    exact fun fs hfs => absurd hfs not_mem_nil
  | some st =>
    obtain ⟨n, hn, hk⟩ := (h.files.streams f).mp (by rw [hσ]; rfl)
    obtain ⟨org, repo, repoId, hp, hr⟩ := isRepo_of_file h.entities hn hk
    rw [fieldsOf_file hn hp hr hσ]
    refine fielded_contentFields (clean_scopeOf h.entities hn hk hr) fun r hr k hk => ?_
    obtain ⟨t, ht, hfree⟩ := (h.content.stored f st hσ).kinds r hr k hk
    rw [textAt_of_mem h.content.dict ht]
    exact hfree

theorem fieldsOf_of_le (hf : d.nextId ≤ f) : fieldsOf d.nodes σ es f = [] := by
  rw [fieldsOf, h.entities.get_none_of_le hf]

theorem total_mark (n : Nat) (hfs : fs.head? = some "r") : total n d.nodes σ es fs = 0 :=
  Finset.sum_eq_zero fun f _ => count_eq_zero.mpr fun hm => (fielded_fieldsOf h f fs hm).2.2 hfs

theorem fieldsOf_congr {nodes' : Table Nat Node} {σ' : Nat → Option Stream}
    {es' : List (Nat × String)} (hσ : σ' f = σ f)
    (hrow : ∀ n, d.nodes.get f = some n → ∃ n', nodes'.get f = some n' ∧ n'.parent = n.parent ∧
      ∀ org repo, scopeOf org repo n' = scopeOf org repo n)
    (hkeep : ∀ i m, d.nodes.get i = some m → m.kind ≠ .file → nodes'.get i = some m)
    (hes : ∀ st, σ f = some st → ∀ r ∈ st.symbols, ∀ k ∈ r.langKind, textAt es' k = textAt es k) :
    fieldsOf nodes' σ' es' f = fieldsOf d.nodes σ es f := by
  cases hst : σ f with
  | none => rw [fieldsOf_none hst, fieldsOf_none (hσ.trans hst)]
  | some st =>
    obtain ⟨n, hn, hk⟩ := (h.files.streams f).mp (by rw [hst]; rfl)
    obtain ⟨org, repo, repoId, hp, hr⟩ := isRepo_of_file h.entities hn hk
    obtain ⟨n', hn', hp', hscope⟩ := hrow n hn
    rw [fieldsOf_file hn hp hr hst, fieldsOf_file hn' (hp'.trans hp) (hr.mono hkeep) (hσ.trans hst),
      hscope, contentFields_congr (hes st hst)]

end

section
variable {nodes nodes' : Table Nat Node} {σ σ' : Nat → Option Stream} {es es' : List (Nat × String)}

theorem total_extend {n m : Nat} (hnm : n ≤ m) (h0 : ∀ f, n ≤ f → fieldsOf nodes σ es f = [])
    (fs : List String) : total m nodes σ es fs = total n nodes σ es fs := by
  refine (Finset.sum_subset (Finset.range_subset_range.mpr hnm) fun f _ hf => ?_).symm
  rw [h0 f (not_lt.mp (fun hlt => hf (Finset.mem_range.mpr hlt)))]
  rfl

theorem total_congr {n : Nat} (h : ∀ f, fieldsOf nodes' σ' es' f = fieldsOf nodes σ es f)
    (fs : List String) : total n nodes' σ' es' fs = total n nodes σ es fs :=
  Finset.sum_congr rfl fun f _ => by rw [h f]

theorem total_change {n f : Nat} (hf : f < n)
    (h : ∀ g, g ≠ f → fieldsOf nodes' σ' es' g = fieldsOf nodes σ es g) (fs : List String) :
    total n nodes' σ' es' fs + (fieldsOf nodes σ es f).count fs =
      total n nodes σ es fs + (fieldsOf nodes' σ' es' f).count fs := by
  have hmem := Finset.mem_range.mpr hf
  have hrest : ∑ g ∈ (Finset.range n).erase f, (fieldsOf nodes' σ' es' g).count fs =
      ∑ g ∈ (Finset.range n).erase f, (fieldsOf nodes σ es g).count fs :=
    Finset.sum_congr rfl fun g hg => by rw [h g (Finset.ne_of_mem_erase hg)]
  rw [total, total, ← Finset.add_sum_erase _ _ hmem, ← Finset.add_sum_erase _ _ hmem, hrest]
  ring

end

theorem IsMark.head (h : IsMark nodes fs) : fs.head? = some "r" := by
  obtain ⟨org, repo, id, -, rfl⟩ := h
  rfl

theorem nulFreeAll_mark (ho : NulFree org) (hr : NulFree repo) :
    NulFreeAll ["r", org, repo] := by
  simp only [NulFreeAll, forall_mem_cons]
  exact ⟨by decide, ho, hr, by simp⟩

theorem IsMark.nulFree (h : Entities d) (hm : IsMark d.nodes fs) :
    NulFreeAll fs := by
  obtain ⟨org, repo, id, hr, rfl⟩ := hm
  obtain ⟨ho, hrn⟩ := hr.nulFree h
  exact nulFreeAll_mark ho hrn

theorem IsMark.mono (h : IsMark nodes fs)
    (hkeep : ∀ i m, nodes.get i = some m → m.kind ≠ .file → nodes'.get i = some m) :
    IsMark nodes' fs := by
  obtain ⟨org, repo, id, hr, rfl⟩ := h
  exact ⟨org, repo, id, hr.mono hkeep, rfl⟩

theorem CatalogRows.mark {cat : Table String Nat} {nextId nextId' : Nat}
    {es : List (Nat × String)} (h : CatalogRows cat nextId nodes σ es)
    (hfree : NulFreeAll ["r", org, repo])
    (hmark : ∀ fs, IsMark nodes' fs ↔ IsMark nodes fs ∨ fs = ["r", org, repo])
    (htotal : ∀ fs, total nextId' nodes' σ es fs = total nextId nodes σ es fs) :
    CatalogRows (cat.insert (nulJoin ["r", org, repo]) derivedWriterMark) nextId' nodes' σ es := by
  refine ⟨fun fs hm => ?_, fun fs hne hfs hm => ?_, fun key v hv => ?_⟩
  · rw [Table.get_insert]
    split_ifs with hk
    · rfl
    · rcases (hmark fs).mp hm with hm | rfl
      · exact h.marks fs hm
      · exact absurd rfl hk
  · obtain ⟨hold, hnew⟩ := not_or.mp ((not_congr (hmark fs)).mp hm)
    rw [Table.get_insert_of_ne, h.counts fs hne hfs hold, htotal]
    exact fun e => hnew (nulJoin_inj (cons_ne_nil _ _) hne hfree hfs e).symm
  · rw [Table.get_insert] at hv
    split_ifs at hv with hk
    · exact ⟨_, cons_ne_nil _ _, hfree, hk.symm⟩
    · exact h.keys key v hv

section
variable {d d' : Data} {parent : Option Nat} {kind : NodeKind} {name : String}
  {language : Option String} {id : Nat} {existed : Bool}
  (he : d.ensure parent kind name language = .ok (d', id, existed))
include he

theorem ensure_keep (h : Entities d) (hm : d.nodes.get i = some m) :
    d'.nodes.get i = some m := by
  rcases ensure_cases he with ⟨-, rfl, -⟩ | ⟨-, rfl, -, -, rfl⟩
  · exact hm
  · refine (addEntity_nodes ..).trans ((if_neg ?_).trans hm)
    exact (h.ids i m hm).2.2.ne'

theorem ensure_back (hm : d'.nodes.get i = some m) :
    d.nodes.get i = some m ∨ i = id ∧ m.kind = kind := by
  rcases ensure_cases he with ⟨-, rfl, -⟩ | ⟨-, rfl, -, -, rfl⟩
  · exact Or.inl hm
  · rw [addEntity_nodes] at hm
    split_ifs at hm with hi
    · exact Or.inr ⟨hi.symm, Option.some.inj hm ▸ rfl⟩
    · exact Or.inl hm

theorem ensure_nextId : d.nextId ≤ d'.nextId ∧ d'.cat = d.cat := by
  rcases ensure_cases he with ⟨-, rfl, -⟩ | ⟨-, rfl, -, -, rfl⟩
  · exact ⟨le_rfl, rfl⟩
  · exact ⟨Nat.le_succ _, rfl⟩

end

theorem contentFields_keys (s : Scope) (es : List (Nat × String)) (f : Nat) (st : Stream) :
    (contentFields s es f st).map nulJoin =
      Tally.fileKeys s ++ (samplesOf es f st).flatMap (Tally.nodeKeys s) := by
  rw [contentFields, map_append, ← fileKeys_eq, map_flatMap]
  exact congrArg (fun g => Tally.fileKeys s ++ (samplesOf es f st).flatMap g)
    (funext fun n => (nodeKeys_eq s n).symm)

namespace IngestRun
variable {sha256 : List UInt8 → List UInt8} {ok : Extraction → Prop} {d : Data}
  {org repo path language : String} {ex : Extraction} {fm : FileMeta}
  (r : IngestRun sha256 d org repo path language ex fm) {σ : Nat → Option Stream}
  {es : List (Nat × String)} (h : Inv sha256 ok d σ es)
include h

theorem keep (hm : d.nodes.get i = some m) : r.d₃.nodes.get i = some m :=
  ensure_keep r.file_eq (r.repo_spec h).1 (ensure_keep r.repo_eq (r.org_spec h).1
    (ensure_keep r.org_eq h.entities hm))

theorem isRepo : IsRepo r.d₃.nodes org repo r.repoId := by
  obtain ⟨hent₁, -, -, o, ho, hok, hon⟩ := r.org_spec h
  obtain ⟨hent₂, -, -, n, hn, hnk, hnn, hnp⟩ := r.repo_spec h
  exact ⟨n, r.orgId, o, ensure_keep r.file_eq hent₂ hn, hnk, hnn, hnp,
    ensure_keep r.file_eq hent₂ (ensure_keep r.repo_eq hent₁ ho), hok, hon⟩

theorem isMark_iff (fs : List String) :
    IsMark r.d₃.nodes fs ↔ IsMark d.nodes fs ∨ fs = ["r", org, repo] := by
  constructor
  · rintro ⟨org', repo', id, ⟨n, orgId, o, hn, hnk, hnn, hnp, ho, hok, hon⟩, rfl⟩
    obtain ⟨n₀, orgId₀, o₀, hn₀, -, hnn₀, hnp₀, ho₀, -, hon₀⟩ := r.isRepo h
    have hback : d.nodes.get id = some n ∨ id = r.repoId := by
      rcases ensure_back r.file_eq hn with hn₂ | ⟨-, hkind⟩
      · rcases ensure_back r.repo_eq hn₂ with hn₁ | ⟨hid, -⟩
        · rcases ensure_back r.org_eq hn₁ with hn₁ | ⟨-, hkind⟩
          · exact Or.inl hn₁
          · rw [hkind] at hnk
            cases hnk
        · exact Or.inr hid
      · rw [hkind] at hnk
        cases hnk
    rcases hback with hn' | rfl
    · -- a repo that was there has its org there
      obtain ⟨o', ho'⟩ := (h.entities.shaped _ _ hn').parent_row hnp
      obtain rfl := Option.some.inj ((r.keep h ho').symm.trans ho)
      exact Or.inl ⟨org', repo', id, ⟨n, orgId, o', hn', hnk, hnn, hnp, ho', hok, hon⟩, rfl⟩
    · obtain rfl := Option.mem_unique hn hn₀
      obtain rfl := Option.mem_unique hnp hnp₀
      obtain rfl := Option.mem_unique ho ho₀
      rw [← hon, ← hnn, hon₀, hnn₀]
      exact Or.inr rfl
  · rintro (hm | rfl)
    · exact hm.mono fun i m hm _ => r.keep h hm
    · exact ⟨org, repo, r.repoId, r.isRepo h, rfl⟩

theorem fieldsOf_created (f : Nat) : fieldsOf r.d₃.nodes σ es f = fieldsOf d.nodes σ es f :=
  fieldsOf_congr h rfl (fun n hn => ⟨n, r.keep h hn, rfl, fun _ _ => rfl⟩) (fun _ _ hm _ =>
    r.keep h hm) fun _ _ _ _ _ _ => rfl

theorem catalogued_marked (hc : Catalogued d σ es) : Catalogued (r.d₃.markRepo org repo) σ es := by
  obtain ⟨hle₁, hcat₁⟩ := ensure_nextId r.org_eq
  obtain ⟨hle₂, hcat₂⟩ := ensure_nextId r.repo_eq
  obtain ⟨hle₃, hcat₃⟩ := ensure_nextId r.file_eq
  obtain ⟨ho, hr, -, -⟩ := checkIngest_spec r.checked
  have hcat : r.d₃.cat = d.cat := (hcat₃.trans hcat₂).trans hcat₁
  have hrows := hc.mark (nulFreeAll_mark ho hr) (r.isMark_iff h) fun fs =>
    (total_congr (r.fieldsOf_created h) fs).trans
      (total_extend ((hle₁.trans hle₂).trans hle₃) (fun f hf => fieldsOf_of_le h hf) fs)
  rw [← hcat] at hrows
  exact hrows

theorem val_tally (key : String) : r.tally.val key = ((Tally.fileKeys r.scope).count key : Int) -
    ((fieldsOf r.d₃.nodes σ es r.fileId).map nulJoin).count key := by
  obtain ⟨-, -, n, hn, -, -, hp⟩ := r.file_spec h
  rcases r.old_spec h with ⟨hs, -, ht⟩ | ⟨old, st, hold, hs, -, ht⟩
  · rw [ht, Tally.file, Tally.val_addAll, Tally.val_empty, fieldsOf_none hs, map_nil, count_nil]
    ring
  · obtain rfl := Option.mem_unique hold hn
    rw [ht, Tally.val_nodes, Tally.file, Tally.val_addAll, Tally.file, Tally.val_addAll,
      Tally.val_empty, fieldsOf_file hn hp (r.isRepo h) hs, contentFields_keys, count_append]
    push_cast
    ring

section
variable {dict : Dict} {ids : List Nat} {es' : List (Nat × String)} (hpre : es <+: es')
  (hids : List.Forall₂ (fun t id => (id, t) ∈ es') (V2Prep.build ex).terms ids)
  (h5 : r.d₅ = (r.d₄.putFile r.fileId r.file r.row).addContent dict es' r.fileId
    ((V2Prep.build ex).stream.withIds ids) (postRows r.fileId ids (V2Prep.build ex).postings))
  (hinv : Inv sha256 ok r.final
    (Function.update σ r.fileId (some ((V2Prep.build ex).stream.withIds ids))) es')
include h5

theorem final_rows : r.final.nodes = r.d₃.nodes.insert r.fileId r.file ∧
    r.final.nextId = r.d₃.nextId ∧ r.d₅.cat = (r.d₃.markRepo org repo).cat := by
  rw [final, h5]
  rcases r.old_spec h with ⟨-, h4, -⟩ | ⟨old, st, -, -, h4, -⟩
  · rw [h4]
    exact ⟨rfl, rfl, rfl⟩
  · rw [h4]
    exact ⟨rfl, rfl, rfl⟩

theorem final_keep (hm : r.d₃.nodes.get i = some m) (hk : m.kind ≠ .file) :
    r.final.nodes.get i = some m := by
  obtain ⟨-, -, n, hn, hnk, -⟩ := r.file_spec h
  rw [(r.final_rows h h5).1, Table.get_insert_of_ne, hm]
  rintro rfl
  exact hk (Option.mem_unique hn hm ▸ hnk)

theorem final_file : r.final.nodes.get r.fileId = some r.file := by
  rw [(r.final_rows h h5).1, Table.get_insert_self]

include hpre hinv

theorem fieldsOf_final (hf : f ≠ r.fileId) :
    fieldsOf r.final.nodes
      (Function.update σ r.fileId (some ((V2Prep.build ex).stream.withIds ids))) es' f =
      fieldsOf d.nodes σ es f := by
  refine fieldsOf_congr h (Function.update_of_ne hf ..) (fun n hn => ⟨n, ?_, rfl, fun _ _ => rfl⟩)
    (fun i m hm hk => r.final_keep h h5 (r.keep h hm) hk) fun st hst s hs k hk => ?_
  · rw [(r.final_rows h h5).1, Table.get_insert_of_ne _ _ (Ne.symm hf), r.keep h hn]
  · exact textAt_mono h.content.dict hinv.content.dict hpre
      ((h.content.stored f st hst).known k (mem_termIds_sym hs (mem_ids_langKind hk)))

include hids

theorem moves_ingest :
    Tally.Moves ((V2Prep.build ex).tallyNodes.foldl (fun t n => t.node r.scope n.1 n.2) r.tally)
      (total r.d₃.nextId r.d₃.nodes σ es) (total r.final.nextId r.final.nodes
        (Function.update σ r.fileId (some ((V2Prep.build ex).stream.withIds ids))) es') := by
  obtain ⟨hent₃, -, n, hn, -⟩ := r.file_spec h
  have hnew : fieldsOf r.final.nodes
      (Function.update σ r.fileId (some ((V2Prep.build ex).stream.withIds ids)))
      es' r.fileId = contentFields r.scope es' r.fileId ((V2Prep.build ex).stream.withIds ids) := by
    rw [fieldsOf_file (r.final_file h h5) (by rw [r.node_eq]; rfl)
      ((r.isRepo h).mono fun i m => r.final_keep h h5) (Function.update_self ..),
      r.node_eq, r.scope_eq]
    rfl
  refine Tally.Moves.of_diff (fielded_fieldsOf hinv r.fileId) (fielded_fieldsOf h r.fileId)
    (fun key => ?_) fun fs => ?_
  · rw [val_tallyNodes hinv.content.dict hids _ _ r.fileId, r.val_tally h, r.fieldsOf_created h,
      hnew, contentFields_keys, count_append]
    push_cast
    ring
  · rw [(r.final_rows h h5).2.1, ← r.fieldsOf_created h]
    exact total_change (hent₃.ids _ _ hn).2.2
      (fun g hg => (r.fieldsOf_final h hpre h5 hinv hg).trans (r.fieldsOf_created h g).symm) fs

theorem exact_ingest (hc : Catalogued d σ es) :
    Tally.Exact ((V2Prep.build ex).tallyNodes.foldl (fun t n => t.node r.scope n.1 n.2) r.tally)
      r.d₅.cat := by
  rw [(r.final_rows h h5).2.2]
  exact (r.catalogued_marked h hc).exact (r.moves_ingest h hpre hids h5 hinv) fun fs hm =>
    (total_congr (r.fieldsOf_created h) fs).trans (total_mark h _ hm.head)

theorem catalogued_ingest (hc : Catalogued d σ es) :
    Catalogued r.final (Function.update σ r.fileId (some ((V2Prep.build ex).stream.withIds ids)))
      es' := by
  obtain ⟨hent₃, -⟩ := r.file_spec h
  obtain ⟨hnodes, -, hcat⟩ := r.final_rows h h5
  have hmark : ∀ fs, IsMark r.final.nodes fs ↔ IsMark r.d₃.nodes fs := by
    refine fun fs => ⟨fun hm => hm.mono fun i m hm hk => ?_, fun hm => hm.mono fun i m =>
      r.final_keep h h5⟩
    rw [hnodes, Table.get_insert] at hm
    split_ifs at hm with hi
    · exact absurd (Option.some.inj hm ▸ (by rw [r.node_eq]; rfl)) hk
    · exact hm
  have hrows : CatalogRows (Tally.apply _ r.d₅.cat) _ _ _ _ :=
    hcat ▸ (r.catalogued_marked h hc).apply hmark (fun fs hm => hm.nulFree hent₃)
      (r.moves_ingest h hpre hids h5 hinv) fun fs hm =>
      ⟨(total_congr (r.fieldsOf_created h) fs).trans (total_mark h _ hm.head),
        total_mark hinv _ hm.head⟩
  exact hrows

end

end IngestRun

end MemoryGraph
