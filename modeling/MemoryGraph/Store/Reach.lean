import MemoryGraph.Store.Prune
import MemoryGraph.Store.Vacuum

/-! The store over whole runs: every state that ingests, prunes, vacuums and refreshes
reach from an empty store keeps the invariants. -/

namespace MemoryGraph
open Lib Codec Option

/-- An extraction a run may store; `bound` says more about its size where a result needs it. -/
structure Admitted (bound : Extraction → Prop) (ex : Extraction) : Prop where
  spans : validateSpans ex = .ok ()
  memory : ex.InMemory
  bound : bound ex

/-- What the arguments of an ingest are known to be: the strings it builds fit in memory, an
encoding's name has no NUL, and SHA-256 tells the long terms apart. -/
structure IngestInput (sha256 : List UInt8 → List UInt8) (bound : Extraction → Prop) (d : Data)
    (path language : String) (ex : Extraction) (fm : FileMeta) : Prop where
  admitted : Admitted bound ex
  path : (utf8 (normalizePath path)).length < 2 ^ 63
  language : (utf8 (asciiLower language)).length < 2 ^ 63
  encoding : ∀ e ∈ fm.encoding, NulFree e
  digests : CollisionFree sha256 ({t | ∃ id, d.terms.text id = .ok t} ∪ {t | t ∈ ex.texts})

inductive Step (sha256 : List UInt8 → List UInt8) (bound : Extraction → Prop) : Data → Data → Prop
  | ingest {d d' : Data} {org repo path language : String} {ex : Extraction} {fm : FileMeta}
      {stats : IngestStats} : IngestInput sha256 bound d path language ex fm →
      d.ingestPrepped sha256 org repo path language ex fm = .ok (d', stats) → Step sha256 bound d d'
  | prune {d d' : Data} {org repo : String} {keep : List String} {dryRun : Bool}
      {removed : List String} :
      d.pruneIn org repo keep dryRun = .ok (d', removed) → Step sha256 bound d d'
  | vacuum {d d' : Data} {stats : VacuumStats} {nothing : Bool} :
      d.vacuumIn sha256 = .ok (d', stats, nothing) → Step sha256 bound d d'
  | refresh {d d' : Data} {org repo path lang fp : String} {origin : Option String}
      {stats : IngestStats} {dirty : Bool} :
      d.checkUnchanged org repo path lang fp origin = some (d', stats, dirty) →
      Step sha256 bound d d'

def Reachable (sha256 : List UInt8 → List UInt8) (bound : Extraction → Prop) : Data → Prop :=
  Relation.ReflTransGen (Step sha256 bound) Data.empty

section
variable {sha256 : List UInt8 → List UInt8} {ok bound : Extraction → Prop} {d d' : Data}
  {σ : Nat → Option Stream} {es es' : List (Nat × String)}

theorem symPairs_live {terms terms' : Dict} (hd : terms.Inv sha256 es) (hd' : terms'.Inv sha256 es')
    (hsub : es' ⊆ es) {g : Nat} {st : Stream} (hlive : ∀ id ∈ st.termIds, ∃ t, (id, t) ∈ es') :
    symPairs es' g st = symPairs es g st := by
  refine List.map_congr_left fun p hp => ?_
  have hr := List.mem_of_getElem? (List.mem_zipIdx_iff_getElem?.mp hp)
  obtain ⟨t, ht⟩ := hlive _ (mem_termIds_sym hr (.head _))
  rw [textAt_of_mem hd (hsub ht), textAt_of_mem hd' ht]

theorem inv_vacuum (h : Inv sha256 ok d σ es) {terms' : Dict} (hd' : terms'.Inv sha256 es')
    (hmem : ∀ e, e ∈ es' ↔ e ∈ es ∧ Live σ e.1) :
    Inv sha256 ok { d with terms := terms' } σ es' ∧
      (Symbols d σ es → Symbols { d with terms := terms' } σ es') ∧
      (Catalogued d σ es → Catalogued { d with terms := terms' } σ es') := by
  have hknown : ∀ g st, σ g = some st → ∀ id ∈ st.termIds, ∃ t, (id, t) ∈ es' := by
    intro g st hg id hid
    obtain ⟨t, ht⟩ := (h.content.stored g st hg).known id hid
    exact ⟨t, (hmem (id, t)).mpr ⟨ht, g, st, hg, hid⟩⟩
  have hsub : es' ⊆ es := fun e he => ((hmem e).mp he).1
  have hc := h.content
  refine ⟨⟨h.entities, ⟨hd', hc.streams, fun g st hg => ?_, hc.post, hc.refs, hc.contentFiles⟩,
    h.files⟩, fun hs => ⟨fun p => ?_, fun p => ?_⟩, fun hcat =>
    hcat.congr rfl (fun fs => Iff.rfl) fun f => ?_⟩
  · have hst := hc.stored g st hg
    refine ⟨hst.file, hst.storable, hknown g st hg, fun r hr k hk => ?_, hst.built⟩
    obtain ⟨t, ht, hfree⟩ := hst.kinds r hr k hk
    exact ⟨t, (hmem (k, t)).mpr ⟨ht, g, st, hg, mem_termIds_sym hr (mem_ids_langKind hk)⟩, hfree⟩
  · refine (hs.names p).trans (exists_congr fun g => exists_congr fun st =>
      and_congr_right fun hg => ?_)
    rw [symPairs_live hc.dict hd' hsub (hknown g st hg)]
  · refine (hs.folded p).trans (exists_congr fun g => exists_congr fun st =>
      and_congr_right fun hg => ?_)
    rw [foldPairs, foldPairs, symPairs_live hc.dict hd' hsub (hknown g st hg)]
  · refine fieldsOf_congr h rfl (fun n hn => ⟨n, hn, rfl, fun _ _ => rfl⟩) (fun _ _ hm _ =>
      hm) fun st hst r hr k hk => ?_
    obtain ⟨t, ht⟩ := hknown f st hst k (mem_termIds_sym hr (mem_ids_langKind hk))
    rw [textAt_of_mem hc.dict (hsub ht), textAt_of_mem hd' ht]

theorem checkUnchanged_eq_some {d d' : Data} {org repo path lang fp : String}
    {origin : Option String} {stats : IngestStats} {dirty : Bool}
    (h : d.checkUnchanged org repo path lang fp origin = some (d', stats, dirty)) :
    ∃ fid n, d.fileId org repo path = some fid ∧ d.nodes.get fid = some n ∧
      n.fingerprint = some fp ∧ d' = { d with nodes := d.nodes.insert fid { n with origin } } ∧
      stats = ⟨fid, 0, 0, false, true, n.hasErrors, path, lang, n.encoding, n.lossy, none⟩ := by
  obtain ⟨fid, hfid, h⟩ := bind_eq_some_iff.mp h
  obtain ⟨n, hn, h⟩ := bind_eq_some_iff.mp h
  split_ifs at h with hfp
  obtain ⟨hd', hrest⟩ := Prod.mk.inj (some.inj h)
  refine ⟨fid, n, hfid, hn, not_not.mp hfp, ?_, (Prod.mk.inj hrest).1.symm⟩
  split_ifs at hd' with hdirty
  · exact hd'.symm
  · -- the row is as it should be
    have horigin : n.origin = origin := not_not.mp (by simpa using hdirty)
    have hself : d.nodes.insert fid { n with origin } = d.nodes := by
      refine Table.ext fun i => ?_
      rw [Table.get_insert]
      split_ifs with hi
      · rw [← hi, hn, ← horigin]
      · rfl
    rw [hself, ← hd']

theorem exists_fileKeyRow (h : Entities d) {f : Nat} {n : Node} (hn : d.nodes.get f = some n)
    (hk : n.kind = .file) : ∃ row, fileKeyRow n = .ok row := by
  obtain ⟨-, -, q, hq, -⟩ := isRepo_of_file h hn hk
  rw [fileKeyRow, hq]
  exact ⟨_, rfl⟩

theorem inv_refresh (h : Inv sha256 ok d σ es) {org repo path lang fp : String}
    {origin : Option String} {stats : IngestStats} {dirty : Bool}
    (hc : d.checkUnchanged org repo path lang fp origin = some (d', stats, dirty)) :
    Inv sha256 ok d' σ es ∧ (Symbols d σ es → Symbols d' σ es) ∧
    (Catalogued d σ es → Catalogued d' σ es) := by
  obtain ⟨fileId, n, hid, hn, -, rfl, -⟩ := checkUnchanged_eq_some hc
  obtain ⟨repoId, -, hname⟩ := bind_eq_some_iff.mp hid
  obtain ⟨_, hown, hkey⟩ := (h.entities.names _ _).mp hname
  obtain rfl := mem_unique hn hown
  have hk : n.kind = .file := (nameKey_inj hkey).2.1.symm
  obtain ⟨st, hst⟩ := isSome_iff_exists.mp ((h.files.streams fileId).mpr ⟨n, hn, hk⟩)
  have hold := h.entities.shaped _ _ hn
  have hshaped : Shaped d.nodes { n with origin } := hold
  obtain ⟨row, hrow⟩ := exists_fileKeyRow h.entities hn hk
  have hfits := h.files.fits _ _ hn hk
  have hrow' : fileKeyRow { n with origin } = .ok row := hrow
  have hfiles : FileRows (d.nodes.insert fileId { n with origin }) d.fileKeys
      (Function.update σ fileId (some st)) :=
    h.files.replace (Table.get_insert_self ..) hk hrow'
      ((h.files.keys fileId row).mpr ⟨n, hn, hk, hrow⟩) hfits
      fun g hg => ⟨Table.get_insert_of_ne _ _ (Ne.symm hg), rfl⟩
  rw [Function.update_eq_self_iff.mpr hst.symm] at hfiles
  refine ⟨⟨entities_replace h.entities hn rfl rfl rfl rfl hshaped, h.content, hfiles⟩, fun hs =>
    hs, fun hcat => ?_⟩
  have hget : ∀ i m, i ≠ fileId → ((d.nodes.insert fileId { n with origin }).get i = some m ↔
      d.nodes.get i = some m) := fun i m hi => by rw [Table.get_insert_of_ne _ _ (Ne.symm hi)]
  have hkeep : ∀ i m, d.nodes.get i = some m → m.kind ≠ .file →
      (d.nodes.insert fileId { n with origin }).get i = some m := by
    intro i m hm hmk
    refine (hget i m ?_).mpr hm
    rintro rfl
    exact hmk (mem_unique hn hm ▸ hk)
  refine hcat.congr rfl (fun fs => ⟨fun hm => hm.mono fun i m hm hmk => ?_, fun hm =>
    hm.mono hkeep⟩) fun f => fieldsOf_congr h rfl (fun m hm => ?_) hkeep fun _ _ _ _ _ _ => rfl
  · refine (hget i m ?_).mp hm
    rintro rfl
    rw [Table.get_insert_self] at hm
    exact hmk (some.inj hm ▸ hk)
  · by_cases hf : f = fileId
    · subst hf
      obtain rfl := mem_unique hn hm
      exact ⟨_, Table.get_insert_self .., rfl, fun _ _ => rfl⟩
    · exact ⟨m, (hget f m hf).mpr hm, rfl, fun _ _ => rfl⟩

theorem IngestInput.collisionFree {path language : String} {ex : Extraction} {fm : FileMeta}
    (hin : IngestInput sha256 bound d path language ex fm) (hd : d.terms.Inv sha256 es) :
    CollisionFree sha256 (textsOf es ∪ {t | t ∈ ex.texts}) := by
  refine hin.digests.mono (Set.union_subset_union_left _ ?_)
  rintro t ⟨id, ht⟩
  exact ⟨id, hd.text_eq.mpr ht⟩

/-- All that is known of a state: its tables are those of the streams `σ` and the entries `es`, the
symbol indexes as long as no file has more than 2^32 symbols. -/
structure Whole (sha256 : List UInt8 → List UInt8) (bound : Extraction → Prop) (d : Data)
    (σ : Nat → Option Stream) (es : List (Nat × String)) : Prop where
  inv : Inv sha256 (Admitted bound) d σ es
  catalog : Catalogued d σ es
  symbols : (∀ ex, bound ex → ex.symbols.length ≤ 4294967296) → Symbols d σ es

theorem whole_empty : Whole sha256 bound Data.empty (fun _ => none) [] :=
  ⟨inv_empty, catalogued_empty, fun _ => symbols_empty⟩

theorem Whole.local (h : Whole sha256 bound d σ es)
    (hb : ∀ ex, bound ex → ex.symbols.length ≤ 4294967296) :
    ∀ g st, σ g = some st → g ≤ maxLocal ∧ st.symbols.length ≤ 4294967296 := by
  intro g st hg
  have hst := h.inv.content.stored g st hg
  obtain ⟨ex, ids, hok, rfl⟩ := hst.built
  refine ⟨hst.file, ?_⟩
  have hlen : (V2Prep.build ex).stream.symbols.length = ex.symbols.length := length_build_symbols ex
  rw [(length_withIds ..).1, hlen]
  exact hb ex hok.bound

theorem step_whole (h : Whole sha256 bound d σ es) (hstep : Step sha256 bound d d') :
    ∃ σ' es', Whole sha256 bound d' σ' es' := by
  cases hstep with
  | ingest hin hcall =>
    obtain ⟨r, rfl, -⟩ := exists_ingestRun hcall
    obtain ⟨_, ids, es', hpre, -, hids, h5, hinv, hsyms⟩ :=
      r.inv_ingest h.inv hin.path hin.language hin.encoding hin.admitted hin.admitted.memory
        (hin.collisionFree h.inv.content.dict)
    exact ⟨_, es', hinv, r.catalogued_ingest h.inv hpre hids h5 hinv h.catalog,
      fun hb => hsyms (h.symbols hb) (h.local hb)⟩
  | prune hcall =>
    obtain ⟨σ', hinv, -, hsyms, hcat⟩ := inv_prune h.inv hcall
    exact ⟨σ', es, hinv, hcat h.catalog, fun hb => hsyms (h.symbols hb) (h.local hb)⟩
  | vacuum hcall =>
    obtain ⟨terms', _, _, heq, es', hd', -, hmem, -⟩ := vacuumIn_spec h.inv.content
    obtain ⟨rfl, -⟩ := Prod.mk.inj (Except.ok.inj (heq.symm.trans hcall))
    obtain ⟨hinv, hsyms, hcat⟩ := inv_vacuum h.inv hd' hmem
    exact ⟨σ, es', hinv, hcat h.catalog, fun hb => hsyms (h.symbols hb)⟩
  | refresh hcall =>
    obtain ⟨hinv, hsyms, hcat⟩ := inv_refresh h.inv hcall
    exact ⟨σ, es, hinv, hcat h.catalog, fun hb => hsyms (h.symbols hb)⟩

theorem reachable_whole (h : Reachable sha256 bound d) : ∃ σ es, Whole sha256 bound d σ es := by
  induction h with
  | refl => exact ⟨_, _, whole_empty⟩
  | tail _ hstep ih =>
    obtain ⟨σ, es, hwhole⟩ := ih
    exact step_whole hwhole hstep

end
end MemoryGraph
