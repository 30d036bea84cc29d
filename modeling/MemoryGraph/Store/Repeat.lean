import MemoryGraph.Store.Overwrite

/-! Prune and vacuum: which rows and entries they leave, and that doing either again changes
nothing. -/

namespace MemoryGraph
open Lib Codec List

theorem removeContent_frame {d d' : Data} {fid : Nat} {scope : Scope} {tally tally' : Tally}
    (h : d.removeContent fid scope tally = .ok (d', tally')) : d'.nodes = d.nodes := by
  unfold Data.removeContent at h
  cases hraw : d.streams.get fid with
  | none =>
    rw [hraw] at h
    cases h
    rfl
  | some raw =>
    rw [hraw] at h
    obtain ⟨s, -, h⟩ := bind_eq_ok.mp h
    dsimp only at h
    split_ifs at h
    · cases h
      rfl
    · obtain ⟨_, -, h⟩ := bind_eq_ok.mp h
      obtain ⟨_, -, h⟩ := bind_eq_ok.mp h
      cases h
      rw [foldl_unindexSymbol]

def Taken (keep : List String) (dryRun : Bool) (fids : List Nat) (i : Nat) (n : Node) : Prop :=
  dryRun = false ∧ i ∈ fids ∧ prunes keep n = true

section
variable {org repo : String} {repoId : Nat} {keep : List String} {dryRun : Bool}

theorem pruneFile_nodes {st st' : Data × Tally × List String} {fid : Nat}
    (h : pruneFile org repo repoId keep dryRun st fid = .ok st') (i : Nat) (n : Node) :
    st'.1.nodes.get i = some n ↔ st.1.nodes.get i = some n ∧ ¬ Taken keep dryRun [fid] i n := by
  rw [pruneFile] at h
  cases hf : st.1.nodes.get fid with
  | none =>
    rw [hf] at h
    cases h
  | some f =>
    rw [hf] at h
    dsimp only at h
    have hself : st.1.nodes.get i = some n → i ∈ [fid] → n = f := by
      intro hn hi
      obtain rfl := mem_singleton.mp hi
      exact Option.mem_unique hn hf
    split_ifs at h with hp hdry
    · cases h
      exact ⟨fun hn => ⟨hn, fun ht => absurd hdry (by rw [ht.1]; decide)⟩, fun hn => hn.1⟩
    · obtain ⟨⟨d, tally⟩, hrem, h⟩ := bind_eq_ok.mp h
      cases h
      change (d.nodes.remove fid).get i = some n ↔ _
      rw [Table.get_remove, removeContent_frame hrem]
      by_cases hi : fid = i
      · rw [if_pos hi]
        have hmem : i ∈ [fid] := mem_singleton.mpr hi.symm
        refine ⟨fun hn => (by cases hn), fun h =>
          absurd ⟨Bool.eq_false_of_not_eq_true hdry, hmem, ?_⟩ h.2⟩
        rw [hself h.1 hmem]
        exact hp
      · rw [if_neg hi]
        exact ⟨fun hn => ⟨hn, fun ht => hi (mem_singleton.mp ht.2.1).symm⟩, fun hn => hn.1⟩
    · cases h
      exact ⟨fun hn => ⟨hn, fun ht => hp (hself hn ht.2.1 ▸ ht.2.2)⟩, fun hn => hn.1⟩

theorem foldlM_pruneFile_nodes {fids : List Nat} {st st' : Data × Tally × List String}
    (h : fids.foldlM (pruneFile org repo repoId keep dryRun) st = .ok st') (i : Nat) (n : Node) :
    st'.1.nodes.get i = some n ↔ st.1.nodes.get i = some n ∧ ¬ Taken keep dryRun fids i n := by
  induction fids generalizing st with
  | nil =>
    cases h
    exact ⟨fun hn => ⟨hn, fun ht => by cases ht.2.1⟩, fun hn => hn.1⟩
  | cons fid fids ih =>
    rw [foldlM_cons] at h
    obtain ⟨st₁, hone, h⟩ := bind_eq_ok.mp h
    rw [ih h, pruneFile_nodes hone, and_assoc]
    refine and_congr_right fun _ => ?_
    rw [← not_or]
    refine not_congr ⟨?_, ?_⟩
    · rintro (⟨hd, hi, hp⟩ | ⟨hd, hi, hp⟩)
      · exact ⟨hd, mem_cons.mpr (Or.inl (mem_singleton.mp hi)), hp⟩
      · exact ⟨hd, mem_cons_of_mem _ hi, hp⟩
    · rintro ⟨hd, hi, hp⟩
      rcases mem_cons.mp hi with hi | hi
      · exact Or.inl ⟨hd, mem_singleton.mpr hi, hp⟩
      · exact Or.inr ⟨hd, hi, hp⟩

theorem foldlM_pruneFile_kept {fids : List Nat} {st : Data × Tally × List String}
    (h : ∀ fid ∈ fids, ∃ f, st.1.nodes.get fid = some f ∧ prunes keep f = false) :
    fids.foldlM (pruneFile org repo repoId keep dryRun) st = .ok st := by
  induction fids with
  | nil => rfl
  | cons fid fids ih =>
    obtain ⟨f, hf, hp⟩ := h fid mem_cons_self
    have hone : pruneFile org repo repoId keep dryRun st fid = .ok st := by
      rw [pruneFile, hf]
      dsimp only
      rw [if_pos (by simp [hp])]
      rfl
    rw [foldlM_cons, hone, ok_bind]
    exact ih fun g hg => h g (.tail _ hg)

end

def Data.filesOf (d : Data) (org repo : String) : List Nat :=
  (d.repoId org repo).elim [] d.children.get

section
variable {d d' : Data} {org repo : String} {keep : List String} {dryRun : Bool}
  {removed : List String}

theorem pruneIn_nodes (h : d.pruneIn org repo keep dryRun = .ok (d', removed)) (i : Nat)
    (n : Node) :
    d'.nodes.get i = some n ↔
      d.nodes.get i = some n ∧
        ¬ Taken (keep.map normalizePath) dryRun (d.filesOf org repo) i n := by
  obtain ⟨⟨d₁, tally, names⟩, hfiles, h⟩ := bind_eq_ok.mp h
  cases h
  change d₁.nodes.get i = some n ↔ _
  unfold Data.pruneFiles at hfiles
  unfold Data.filesOf
  cases hr : d.repoId org repo with
  | none =>
    rw [hr] at hfiles
    cases hfiles
    exact ⟨fun hn => ⟨hn, fun ht => by cases ht.2.1⟩, fun hn => hn.1⟩
  | some repoId =>
    rw [hr] at hfiles
    exact foldlM_pruneFile_nodes hfiles i n

theorem pruneIn_kept
    (h : ∀ fid ∈ d.filesOf org repo,
      ∃ f, d.nodes.get fid = some f ∧ prunes (keep.map normalizePath) f = false) :
    d.pruneIn org repo keep dryRun = .ok (d, []) := by
  have hfiles : d.pruneFiles org repo (keep.map normalizePath) dryRun =
      .ok (d, Table.empty, []) := by
    unfold Data.pruneFiles
    unfold Data.filesOf at h
    cases hr : d.repoId org repo with
    | none => rfl
    | some repoId =>
      rw [hr] at h
      exact foldlM_pruneFile_kept h
  rw [Data.pruneIn, hfiles]
  rfl

end

variable {S : Setting}

theorem exists_pruned (s : State S) {d' : Data} {org repo : String} {keep : List String}
    {dryRun : Bool} {removed : List String}
    (h : s.data.pruneIn org repo keep dryRun = .ok (d', removed)) :
    ∃ s' : State S, s'.data = d' ∧ s'.entries = s.entries ∧
      ∀ i n, s'.data.nodes.get i = some n → n.kind = .file → s'.streams i = s.streams i := by
  obtain ⟨σ', hinv, hsub, hsyms, hcat⟩ := inv_prune s.whole.inv h
  refine ⟨⟨d', σ', s.entries, ⟨hinv, hcat s.whole.catalog, fun hb =>
    hsyms (s.whole.symbols hb) (s.whole.local hb)⟩, s.texts⟩, rfl, rfl, fun i n hn hk => ?_⟩
  obtain ⟨st, hst⟩ := Option.isSome_iff_exists.mp ((hinv.files.streams i).mpr ⟨n, hn, hk⟩)
  exact hst.trans (hsub i st hst).symm

theorem mem_filesOf {d : Data} (h : Entities d) {org repo : String} {i : Nat} :
    i ∈ d.filesOf org repo ↔ ∃ path, IsFile d.nodes org repo path i := by
  unfold Data.filesOf
  constructor
  · intro hi
    cases hr : d.repoId org repo with
    | none =>
      rw [hr] at hi
      cases hi
    | some repoId =>
      rw [hr] at hi
      have hrepo := repoId_spec h hr
      obtain ⟨n, hn, hpar⟩ := (h.children _ _).mp (Multimap.mem_get.mp hi)
      exact ⟨n.name, n, repoId, hn, file_of_parent h hrepo hn hpar, rfl, hpar, hrepo⟩
  · rintro ⟨path, hf⟩
    obtain ⟨orgId, repoId, hplaced⟩ := fileId_eq_placed.mp ((fileId_eq_some h).mpr hf)
    obtain ⟨-, n, hn, -, -, hpar⟩ := hplaced.nodes h
    have hr : d.repoId org repo = some repoId :=
      Option.bind_eq_some_iff.mpr ⟨orgId, hplaced.org, hplaced.repo⟩
    rw [hr]
    exact Multimap.mem_get.mpr ((h.children _ _).mpr ⟨n, hn, hpar⟩)

theorem IsFile.mono {nodes nodes' : Table Nat Node} {org repo path : String} {fid : Nat}
    (h : IsFile nodes org repo path fid)
    (hfile : ∀ n, nodes.get fid = some n → nodes'.get fid = some n)
    (hkeep : ∀ i m, nodes.get i = some m → m.kind ≠ .file → nodes'.get i = some m) :
    IsFile nodes' org repo path fid := by
  obtain ⟨n, repoId, hn, hk, hname, hpar, hrepo⟩ := h
  exact ⟨n, repoId, hfile n hn, hk, hname, hpar, hrepo.mono hkeep⟩

section
variable {s s' : State S} {org repo : String} {keep : List String} {dryRun : Bool}
  {removed : List String} (h : s.data.pruneIn org repo keep dryRun = .ok (s'.data, removed))
include h

theorem pruned_keep {i : Nat} {m : Node} (hm : s.data.nodes.get i = some m) (hk : m.kind ≠ .file) :
    s'.data.nodes.get i = some m := by
  refine (pruneIn_nodes h i m).mpr ⟨hm, fun ht => ?_⟩
  obtain ⟨path, n, -, hn, hnk, -⟩ := (mem_filesOf s.whole.inv.entities).mp ht.2.1
  exact hk (Option.mem_unique hm hn ▸ hnk)

theorem pruned_sub {i : Nat} {m : Node} (hm : s'.data.nodes.get i = some m) :
    s.data.nodes.get i = some m :=
  ((pruneIn_nodes h i m).mp hm).1

theorem pruneIn_again (hdry : dryRun = false) :
    s'.data.pruneIn org repo keep dryRun = .ok (s'.data, []) := by
  refine pruneIn_kept fun fid hfid => ?_
  obtain ⟨path, hfile⟩ := (mem_filesOf s'.whole.inv.entities).mp hfid
  obtain ⟨n, -, hn, -⟩ := id hfile
  have hold : fid ∈ s.data.filesOf org repo :=
    (mem_filesOf s.whole.inv.entities).mpr ⟨path, hfile.mono (fun _ => pruned_sub h) fun _ _ hm _ =>
      pruned_sub h hm⟩
  refine ⟨n, hn, Bool.eq_false_of_not_eq_true fun hp => ?_⟩
  exact ((pruneIn_nodes h fid n).mp hn).2 ⟨hdry, hold, hp⟩

end

theorem vacuumIn_live {sha256 : List UInt8 → List UInt8} {ok : Extraction → Prop} {d : Data}
    {σ : Nat → Option Stream} {es : List (Nat × String)} (h : Content sha256 ok d σ es)
    (hlive : ∀ e ∈ es, Live σ e.1) : ∃ stats, d.vacuumIn sha256 = .ok (d, stats, true) := by
  obtain ⟨live, hlive', hiff⟩ := liveTerms_eq h
  obtain ⟨blocks, hblocks, hflat⟩ := h.dict.rev.blocks_eq
  have hdead : es.filter (fun e => e.1 ∉ live) = [] := by
    rw [filter_eq_nil_iff]
    intro e he hno
    exact (of_decide_eq_true hno) ((hiff e.1).mpr (hlive e he))
  rw [Data.vacuumIn, hlive', ok_bind, hblocks, ok_bind]
  dsimp only
  rw [hflat, hdead]
  exact ⟨_, rfl⟩

theorem exists_vacuumed (s : State S) {d' : Data} {stats : VacuumStats} {nothing : Bool}
    (h : s.data.vacuumIn S.sha256 = .ok (d', stats, nothing)) :
    ∃ s' : State S, s'.data = d' ∧ s'.data.nodes = s.data.nodes ∧ s'.streams = s.streams ∧
      ∀ e, e ∈ s'.entries ↔ e ∈ s.entries ∧ Live s.streams e.1 := by
  obtain ⟨terms', _, _, heq, es', hd', -, hmem, -⟩ := vacuumIn_spec s.whole.inv.content
  obtain ⟨rfl, -⟩ := Prod.mk.inj (Except.ok.inj (heq.symm.trans h))
  obtain ⟨hinv, hsyms, hcat⟩ := inv_vacuum s.whole.inv hd' hmem
  exact ⟨⟨_, s.streams, es', ⟨hinv, hcat s.whole.catalog, fun hb => hsyms (s.whole.symbols hb)⟩,
    fun e he => s.texts e ((hmem e).mp he).1⟩, rfl, rfl, rfl, hmem⟩

theorem vacuumIn_again (s : State S) {d' : Data} {stats : VacuumStats} {nothing : Bool}
    (h : s.data.vacuumIn S.sha256 = .ok (d', stats, nothing)) :
    ∃ stats', d'.vacuumIn S.sha256 = .ok (d', stats', true) := by
  obtain ⟨s', rfl, -, hstreams, hmem⟩ := exists_vacuumed s h
  refine vacuumIn_live s'.whole.inv.content fun e he => ?_
  rw [hstreams]
  exact ((hmem e).mp he).2

end MemoryGraph
