import MemoryGraph.Store.Counted

/-! Prune: the loop over a repo's files takes whole files and keeps every invariant. -/

namespace MemoryGraph
open Lib Codec
variable {fid : Nat} {d : Data} {tally : Tally} {removed : List String} {σ : Nat → Option Stream}

section
variable {sha256 : List UInt8 → List UInt8} {ok : Extraction → Prop} {org repo : String}
  {repoId : Nat} {keep : List String} {dryRun : Bool} {es : List (Nat × String)}

theorem pruneFile_cases {st st' : Data × Tally × List String}
    (h : Inv sha256 ok st.1 σ es) (hfile : ∀ f, st.1.nodes.get fid = some f → f.kind = .file)
    (hstep : pruneFile org repo repoId keep dryRun st fid = .ok st') :
    (st'.1 = st.1 ∧ st'.2.1 = st.2.1) ∨
      ∃ f s, st.1.nodes.get fid = some f ∧ f.kind = .file ∧ σ fid = some s ∧
        st'.1 = (st.1.dropContent es fid s).dropFile repoId fid f.name ∧
        st'.2.1 =
          (st.2.1.nodes (scopeOf org repo f) (samplesOf es fid s) (-1)).file (scopeOf org repo f)
            (-1) := by
  rw [pruneFile] at hstep
  cases hn : st.1.nodes.get fid with
  | none =>
    rw [hn] at hstep
    cases hstep
  | some f =>
    rw [hn] at hstep
    dsimp only at hstep
    split_ifs at hstep with hp hdry
    · cases hstep
      exact Or.inl ⟨rfl, rfl⟩
    · have hk := hfile f hn
      obtain ⟨s, hs⟩ := Option.isSome_iff_exists.mp ((h.files.streams fid).mpr ⟨f, hn, hk⟩)
      rw [removeContent_some h.content hs, ok_bind] at hstep
      cases hstep
      exact Or.inr ⟨f, s, rfl, hk, hs, rfl, rfl⟩
    · cases hstep
      exact Or.inl ⟨rfl, rfl⟩

theorem inv_dropFile (h : Inv sha256 ok d σ es) {f : Node}
    {s : Stream} (hf : d.nodes.get fid = some f) (hk : f.kind = .file) (hp : f.parent = some repoId)
    (hs : σ fid = some s) :
    Inv sha256 ok ((d.dropContent es fid s).dropFile repoId fid f.name) (Function.update σ fid none)
      es := by
  refine ⟨entities_removeFile h.entities hf hk hp, content_drop h.content hs,
    h.files.remove ?_ ?_ fun g hg => ?_⟩
  · exact (Table.get_remove ..).trans (if_pos rfl)
  · exact (Table.get_remove ..).trans (if_pos rfl)
  · exact ⟨(Table.get_remove ..).trans (if_neg (Ne.symm hg)),
      (Table.get_remove ..).trans (if_neg (Ne.symm hg))⟩

/-- What holds before each file: the repo is there, and what is left of the list are its files. -/
structure Pruning (org repo : String) (repoId : Nat) (fids : List Nat) (d : Data) : Prop where
  repo : IsRepo d.nodes org repo repoId
  files : ∀ fid ∈ fids, ∀ f, d.nodes.get fid = some f → f.kind = .file ∧ f.parent = some repoId

theorem pruning_init (h : Entities d) (hr : d.repoId org repo = some repoId) :
    Pruning org repo repoId (d.children.get repoId) d := by
  have hrepo := repoId_spec h hr
  refine ⟨hrepo, fun fid hfid f hf => ?_⟩
  obtain ⟨n, hn, hp⟩ := (h.children _ _).mp (Multimap.mem_get.mp hfid)
  obtain rfl := Option.mem_unique hn hf
  exact ⟨file_of_parent h hrepo hf hp, hp⟩

theorem Pruning.dropFile {fids : List Nat} (h : Pruning org repo repoId fids d) {f : Node}
    (hf : d.nodes.get fid = some f) (hk : f.kind = .file) (s : Stream) :
    Pruning org repo repoId fids ((d.dropContent es fid s).dropFile repoId fid f.name) := by
  have hkeep : ∀ g n, d.nodes.get g = some n → n.kind ≠ .file →
      ((d.dropContent es fid s).dropFile repoId fid f.name).nodes.get g = some n := by
    intro g n hg hnk
    refine (Table.get_remove ..).trans ((if_neg ?_).trans hg)
    rintro rfl
    exact hnk (Option.mem_unique hf hg ▸ hk)
  obtain ⟨r, orgId, o, hr, hrk, hrn, hrp, ho, hok, hon⟩ := h.repo
  refine ⟨⟨r, orgId, o, hkeep _ _ hr (by rw [hrk]; decide), hrk, hrn, hrp,
    hkeep _ _ ho (by rw [hok]; decide), hok, hon⟩, fun g hg n hn => h.files g hg n ?_⟩
  have hget := (Table.get_remove d.nodes fid g).symm.trans hn
  split_ifs at hget
  exact hget

/-- The loop so far: it took files out of `σ`, and its tally counts them out. -/
structure PruneLoop (sha256 : List UInt8 → List UInt8) (ok : Extraction → Prop)
    (es : List (Nat × String)) (d : Data) (σ : Nat → Option Stream) (cur : Data) (tally : Tally)
    (σ' : Nat → Option Stream) : Prop where
  inv : Inv sha256 ok cur σ' es
  sub : ∀ g st, σ' g = some st → σ g = some st
  symbols : Symbols d σ es →
    (∀ g st, σ g = some st → g ≤ maxLocal ∧ st.symbols.length ≤ 4294967296) → Symbols cur σ' es
  cat : cur.cat = d.cat
  nextId : cur.nextId = d.nextId
  marks : ∀ fs, IsMark cur.nodes fs ↔ IsMark d.nodes fs
  moves : tally.Moves (total d.nextId d.nodes σ es) (total cur.nextId cur.nodes σ' es)

theorem pruneLoop_init (h : Inv sha256 ok d σ es) :
    PruneLoop sha256 ok es d σ d Table.empty σ :=
  ⟨h, fun _ _ hg => hg, fun hs _ => hs, rfl, rfl, fun _ => Iff.rfl, Tally.Moves.refl _⟩

theorem PruneLoop.dropFile {d cur : Data} {σ σ' : Nat → Option Stream}
    (h : PruneLoop sha256 ok es d σ cur tally σ') (hr : IsRepo cur.nodes org repo repoId) {f : Node}
    {s : Stream} (hf : cur.nodes.get fid = some f) (hk : f.kind = .file)
    (hp : f.parent = some repoId) (hs : σ' fid = some s) :
    PruneLoop sha256 ok es d σ ((cur.dropContent es fid s).dropFile repoId fid f.name)
      ((tally.nodes (scopeOf org repo f) (samplesOf es fid s) (-1)).file (scopeOf org repo f) (-1))
      (Function.update σ' fid none) := by
  have hget : ∀ i m, i ≠ fid → cur.nodes.get i = some m →
      ((cur.dropContent es fid s).dropFile repoId fid f.name).nodes.get i = some m :=
    fun i m hi hm => (Table.get_remove ..).trans ((if_neg (Ne.symm hi)).trans hm)
  have hkeep : ∀ i m, cur.nodes.get i = some m → m.kind ≠ .file →
      ((cur.dropContent es fid s).dropFile repoId fid f.name).nodes.get i = some m := by
    intro i m hm hmk
    refine hget i m ?_ hm
    rintro rfl
    exact hmk (Option.mem_unique hf hm ▸ hk)
  have hfields : fieldsOf cur.nodes σ' es fid = contentFields (scopeOf org repo f) es fid s :=
    fieldsOf_file hf hp hr hs es
  have hother : ∀ g, g ≠ fid →
      fieldsOf ((cur.dropContent es fid s).dropFile repoId fid f.name).nodes
      (Function.update σ' fid none) es g = fieldsOf cur.nodes σ' es g := fun g hg =>
    fieldsOf_congr h.inv (Function.update_of_ne hg ..) (fun n hn =>
      ⟨n, hget g n hg hn, rfl, fun _ _ => rfl⟩) hkeep fun _ _ _ _ _ _ => rfl
  refine ⟨inv_dropFile h.inv hf hk hp hs, fun g st hg => ?_, fun hsym hlocal => ?_, h.cat, h.nextId,
    fun fs => ?_, ?_⟩
  · rw [Function.update_apply] at hg
    split_ifs at hg
    exact h.sub g st hg
  · exact symbols_drop (h.symbols hsym hlocal) (fun g st hg => hlocal g st (h.sub g st hg)) hs
  · refine Iff.trans ⟨fun hm => hm.mono fun i m hm _ => ?_, fun hm => hm.mono hkeep⟩ (h.marks fs)
    have hm := (Table.get_remove cur.nodes fid i).symm.trans hm
    split_ifs at hm
    exact hm
  · refine h.moves.sub (fielded_fieldsOf h.inv fid) (fun fs => ?_) fun key => ?_
    · have hchange := total_change (h.inv.entities.ids _ _ hf).2.2 hother fs
      rw [fieldsOf_none (Function.update_self ..)] at hchange
      exact hchange
    · rw [Tally.file, Tally.val_addAll, Tally.val_nodes, hfields, contentFields_keys,
        List.count_append]
      push_cast
      ring

theorem pruneFiles_loop {d d₁ : Data} (h : Inv sha256 ok d σ es)
    (hloop : d.pruneFiles org repo keep dryRun = .ok (d₁, tally, removed)) :
    ∃ σ', PruneLoop sha256 ok es d σ d₁ tally σ' := by
  rw [Data.pruneFiles] at hloop
  cases hr : d.repoId org repo with
  | none =>
    rw [hr] at hloop
    obtain ⟨rfl, hrest⟩ := Prod.mk.inj (Except.ok.inj hloop)
    cases hrest
    exact ⟨σ, pruneLoop_init h⟩
  | some repoId =>
    rw [hr] at hloop
    refine (foldlM_inv (P := fun st : Data × Tally × List String => Pruning org repo repoId
      (d.children.get repoId) st.1 ∧ ∃ σ', PruneLoop sha256 ok es d σ st.1 st.2.1 σ') ?_
      ⟨pruning_init h.entities hr, σ, pruneLoop_init h⟩ hloop).2
    rintro st fid st' hfid ⟨hpr, σ', hcur⟩ hstep
    rcases pruneFile_cases hcur.inv (fun f hf => (hpr.files fid hfid f hf).1) hstep with
      ⟨heq, htally⟩ | ⟨f, s, hf, hk, hs, heq, htally⟩
    · rw [heq, htally]
      exact ⟨hpr, σ', hcur⟩
    · rw [heq, htally]
      exact ⟨hpr.dropFile hf hk s, Function.update σ' fid none,
        hcur.dropFile hpr.repo hf hk (hpr.files fid hfid f hf).2 hs⟩

theorem exact_prune {d d₁ : Data} (h : Inv sha256 ok d σ es) (hc : Catalogued d σ es)
    (hloop : d.pruneFiles org repo keep dryRun = .ok (d₁, tally, removed)) :
    tally.Exact d₁.cat := by
  obtain ⟨σ', hcur⟩ := pruneFiles_loop h hloop
  rw [hcur.cat]
  exact hc.exact hcur.moves fun fs hm => total_mark h _ hm.head

theorem inv_prune {d d' : Data} (h : Inv sha256 ok d σ es)
    (hp : d.pruneIn org repo keep dryRun = .ok (d', removed)) :
    ∃ σ', Inv sha256 ok d' σ' es ∧ (∀ g st, σ' g = some st → σ g = some st) ∧
      (Symbols d σ es → (∀ g st, σ g = some st → g ≤ maxLocal ∧ st.symbols.length ≤ 4294967296) →
        Symbols d' σ' es) ∧ (Catalogued d σ es → Catalogued d' σ' es) := by
  obtain ⟨⟨d₁, tally, rem⟩, hloop, hp⟩ := bind_eq_ok.mp hp
  cases hp
  obtain ⟨σ', hcur⟩ := pruneFiles_loop h hloop
  refine ⟨σ', ⟨hcur.inv.entities, hcur.inv.content, hcur.inv.files⟩, hcur.sub,
    hcur.symbols, fun hc => ?_⟩
  have hrows := hc.apply hcur.marks (fun fs hm => hm.nulFree h.entities) hcur.moves fun fs hm =>
    ⟨total_mark h _ hm.head, total_mark hcur.inv _ hm.head⟩
  rw [← hcur.cat] at hrows
  exact hrows

end
end MemoryGraph
