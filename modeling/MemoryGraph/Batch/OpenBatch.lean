import MemoryGraph.Batch.Ahead
import MemoryGraph.Batch.Rerun
import MemoryGraph.Lib.Runs
import MemoryGraph.Store.Scan

/-! The open-batch rows over many batches. There is one set of rows for all repos: a batch of
another repo overwrites them. -/

namespace MemoryGraph
open Lib Codec List
variable {b : BatchCall} {s t : Watched} {L : Lineage}

def Store.openBatchMarker (st : Store) : Option (String × String) := do
  let org ← st.openOrg
  let repo ← st.openRepo
  return (org, repo)

def Store.describe (st : Store) (org repo : Option String) : Except StoreError (List RepoInfo) :=
  describeIn st.data.cat st.openBatchMarker org repo

structure BatchCall where
  x : Indexer
  org : String
  repo : String
  files : List BatchFile
  prepared : Option (List PreparedFile)
  opts : IndexOptions
  chunkBytes : Nat
  before : Nat

def BatchCall.batch (b : BatchCall) (st : Store) : Batch :=
  match b.prepared with
  | none => b.x.indexBatch st b.org b.repo b.files b.opts b.chunkBytes
  | some ps => b.x.indexPrepared st b.org b.repo ps b.opts b.chunkBytes

/-- A committed store, and the repos whose latest batch committed a chunk and has not
completed. -/
structure Watched where
  store : Store
  opened : Finset (String × String)

def Watched.commit (s : Watched) (b : BatchCall) : Option Watched :=
  let r := b.batch s.store
  r.committed[b.before]?.map fun st =>
    if b.before + 1 = r.committed.length ∧ r.result.isOk then ⟨st, s.opened.erase (b.org, b.repo)⟩
    else ⟨st, insert (b.org, b.repo) s.opened⟩

def Watched.Reports (s : Watched) : Prop :=
  ∀ org repo : Option String, ∃ infos, s.store.describe org repo = .ok infos ∧
    ∀ o r, (∃ i ∈ infos, i.org = o ∧ i.repo = r ∧ i.openBatch = true) ↔ InScope org repo o r ∧
    (o, r) ∈ s.opened

structure Lineage.Calls (L : Lineage) (b : BatchCall) : Prop where
  has : L.Has b.x
  fits : ∀ f ∈ b.files, L.Fits b.x b.opts f
  prepared : ∀ ps ∈ b.prepared, List.Forall₂ (b.x.Prepares b.org b.repo b.opts) b.files ps

def Watched.Alone (s : Watched) (b : BatchCall) : Prop := ∀ k ∈ s.opened, k = (b.org, b.repo)

instance (s : Watched) (b : BatchCall) : Decidable (s.Alone b) := inferInstanceAs
    (Decidable (∀ k ∈ s.opened, _))

structure Lineage.Chunk (L : Lineage) (org repo : String) (st : Store) : Prop where
  kept : L.Kept st.data
  marker : st.openBatchMarker = some (org, repo)
  repo : ∃ repoId, IsRepo st.data.nodes org repo repoId

section
variable {L : Lineage} {x : Indexer} {org repo : String} {opts : IndexOptions}
  {chunkBytes batchId : Nat}

theorem isRepo_of_stored {d d' : Data} (hd : L.Kept d) (hx : L.Has x) {f : BatchFile}
    (hf : L.Fits x opts f) {r : Except StoreError IngestStats}
    (h : x.outcome d org repo f opts = .ok (d', r)) (hr : isStored r = true) :
    ∃ repoId, IsRepo d'.nodes org repo repoId := by
  obtain ⟨s, rfl, hp⟩ := hd
  rcases outcome_cases hp hx hf h with ⟨e, -, -, rfl⟩ | ⟨w, s', stats, hw, hwrote, rfl, -⟩
  · cases hr
  · obtain ⟨_, _, -, -, -, rfl⟩ := Indexer.write_eq_ok hw
    obtain ⟨repoId, fid, ids, hat⟩ := hwrote.at_file
    obtain ⟨orgId, hplaced⟩ := hat.placed
    refine ⟨repoId, repoId_spec s'.whole.inv.entities ?_⟩
    rw [Data.repoId, hplaced.org]
    exact hplaced.repo

theorem runFiles_chunks (hx : L.Has x) {files : List BatchFile} (hf : ∀ f ∈ files, L.Fits x opts f)
    {l : Loop} (hkept : L.Kept l.wt.data) (hmark : l.wt.openBatchMarker = some (org, repo))
    (hl : ∀ st ∈ l.committed, L.Chunk org repo st) :
    (∃ chunks st out, x.runFiles org repo opts chunkBytes batchId l files =
      ⟨chunks ++ [st], .ok out⟩ ∧ (∀ c ∈ chunks, L.Chunk org repo c) ∧ L.Kept st.data ∧
      st.openBatchMarker = none) ∨
    ∃ chunks e, x.runFiles org repo opts chunkBytes batchId l files = ⟨chunks, .error e⟩ ∧
      ∀ c ∈ chunks, L.Chunk org repo c := by
  induction files generalizing l with
  | nil => exact Or.inl ⟨l.committed, l.wt.clearOpenBatch, l.out, rfl, hl, hkept, rfl⟩
  | cons f files ih =>
    unfold Indexer.runFiles Indexer.fileStep
    cases hout : x.outcome l.wt.data org repo f opts with
    | error e => exact Or.inr ⟨l.committed, e, rfl, hl⟩
    | ok p =>
      obtain ⟨d', r⟩ := p
      have hff := hf f mem_cons_self
      have hkept' := hkept.outcome hx hff hout
      refine ih (fun g hg => hf g (.tail _ hg)) ?_ ?_ ?_
      · rw [Indexer.push_data]
        exact hkept'
      · unfold Loop.push
        dsimp only
        split_ifs
        · exact hmark
        · rfl
        · exact hmark
      · intro st hst
        by_cases hr : isStored r = true
        · rcases Indexer.push_committed org repo chunkBytes batchId l f.bytes.length d' r
            with he | he
          · rw [he] at hst
            exact hl st hst
          · rw [he] at hst
            rcases mem_append.mp hst with hst | hst
            · exact hl st hst
            · obtain rfl := mem_singleton.mp hst
              exact ⟨hkept', hmark, isRepo_of_stored hkept hx hff hout hr⟩
        · have he : (l.push org repo chunkBytes batchId f.bytes.length d' r).committed =
              l.committed := by
            unfold Loop.push
            dsimp only
            rw [if_pos hr]
          rw [he] at hst
          exact hl st hst

end

theorem Lineage.Calls.batch_eq (h : L.Calls b) {st : Store} (hst : L.Kept st.data) :
    b.batch st =
      b.x.runFiles b.org b.repo b.opts b.chunkBytes st.nextBatchId (st.openLoop b.org b.repo)
        b.files := by
  have hprep := h.prepared
  unfold BatchCall.batch
  cases hp : b.prepared with
  | none => exact indexBatch_eq h.has hst h.fits b.chunkBytes
  | some ps =>
    exact commitFiles_eq h.has h.fits (Indexer.Prepares.commitsAs h.has h.fits (hprep ps hp)) hst

structure Lineage.Single (L : Lineage) (s : Watched) : Prop where
  kept : L.Kept s.store.data
  rows : (s.opened = ∅ ∧ s.store.openBatchMarker = none) ∨
    ∃ org repo, s.opened = {(org, repo)} ∧ L.Chunk org repo s.store

theorem reported_iff {infos : Infos} {listed : String → String → Prop}
    {c : String → String → Field → Nat} (h : Described infos listed c)
    (openBatch : Option (String × String)) (o r : String) :
    (∃ i ∈ (markOpenBatch openBatch infos).rows.map Prod.snd, i.org = o ∧ i.repo = r ∧
      i.openBatch = true) ↔ listed o r ∧ openBatch = some (o, r) := by
  constructor
  · rintro ⟨i, hi, horg, hrepo, hopen⟩
    obtain ⟨⟨⟨o', r'⟩, i'⟩, hrow, rfl⟩ := mem_map.mp hi
    obtain ⟨j, hj, hij⟩ := Option.map_eq_some_iff.mp
      ((get_markOpenBatch openBatch infos _).symm.trans (Table.get_eq_some.mpr hrow))
    have hinfo : InfoOf o' r' _ j := h.infoOf hj
    have hlisted : listed o' r' := (h.listed_iff o' r').mpr ⟨j, hj⟩
    by_cases hmark : openBatch = some (o', r')
    · obtain rfl : { j with openBatch := true } = i' := by rw [← hij]; exact (if_pos hmark).symm
      obtain rfl : o' = o := hinfo.org.symm.trans horg
      obtain rfl : r' = r := hinfo.repo.symm.trans hrepo
      exact ⟨hlisted, hmark⟩
    · obtain rfl : j = i' := by rw [← hij]; exact (if_neg hmark).symm
      rw [hinfo.openBatch] at hopen
      cases hopen
  · rintro ⟨hl, rfl⟩
    obtain ⟨j, hj⟩ := (h.listed_iff o r).mp hl
    have hinfo := h.infoOf hj
    have hget := get_markOpenBatch (some (o, r)) infos (toLex (o, r))
    rw [hj, Option.map_some, ofLex_toLex, if_pos rfl] at hget
    exact ⟨_, mem_map.mpr ⟨_, Table.get_eq_some.mp hget, rfl⟩, hinfo.org, hinfo.repo, rfl⟩

theorem Lineage.Kept.describes {st : Store} (h : L.Kept st.data) (org repo : Option String) :
    ∃ infos, st.describe org repo = .ok infos ∧ ∀ o r,
      (∃ i ∈ infos, i.org = o ∧ i.repo = r ∧ i.openBatch = true) ↔
        (InScope org repo o r ∧ ∃ repoId, IsRepo st.data.nodes o r repoId) ∧
        st.openBatchMarker = some (o, r) := by
  obtain ⟨s, hs, -⟩ := h
  have hw := s.whole
  rw [hs] at hw
  obtain ⟨infos, hinfos, hdesc⟩ := describeIn_eq hw.inv hw.catalog st.openBatchMarker org repo
  exact ⟨_, hdesc, reported_iff hinfos st.openBatchMarker⟩

theorem commit_cases (hs : L.Kept s.store.data) (hb : L.Calls b)
    (h : s.commit b = some t) :
    (t.opened = s.opened.erase (b.org, b.repo) ∧ L.Kept t.store.data ∧
      t.store.openBatchMarker = none) ∨ t.opened = insert (b.org, b.repo) s.opened ∧
      L.Chunk b.org b.repo t.store := by
  obtain ⟨st, hst, ht⟩ := Option.map_eq_some_iff.mp h
  have hrun := @runFiles_chunks L b.x b.org b.repo b.opts b.chunkBytes s.store.nextBatchId hb.has
    b.files hb.fits (s.store.openLoop b.org b.repo) hs rfl fun _ hm => absurd hm not_mem_nil
  rw [← hb.batch_eq hs] at hrun
  rcases hrun with ⟨chunks, last, out, hrun, hchunks, hkept, hnone⟩ | ⟨chunks, e, hrun, hchunks⟩
  · rw [hrun] at hst ht
    by_cases hlast : b.before = chunks.length
    · rw [hlast, getElem?_concat_length] at hst
      cases hst
      rw [if_pos ⟨by rw [hlast, length_append]; rfl, rfl⟩] at ht
      subst ht
      exact Or.inl ⟨rfl, hkept, hnone⟩
    · rw [if_neg (fun e => hlast (by simpa using e.1))] at ht
      subst ht
      have hlt : b.before < chunks.length := by
        have := lt_of_getElem? hst
        rw [length_append, length_singleton] at this
        omega
      rw [getElem?_append_left hlt] at hst
      exact Or.inr ⟨rfl, hchunks st (mem_of_getElem? hst)⟩
  · rw [hrun] at hst ht
    rw [if_neg (fun e => Bool.false_ne_true e.2)] at ht
    subst ht
    exact Or.inr ⟨rfl, hchunks st (mem_of_getElem? hst)⟩

theorem Lineage.Single.commit (hs : L.Single s) (hb : L.Calls b)
    (halone : s.Alone b) (h : s.commit b = some t) : L.Single t := by
  rcases commit_cases hs.kept hb h with ⟨hopen, hkept, hnone⟩ | ⟨hopen, hchunk⟩
  · refine ⟨hkept, Or.inl ⟨?_, hnone⟩⟩
    rw [hopen, Finset.eq_empty_iff_forall_notMem]
    intro k hk
    exact Finset.ne_of_mem_erase hk (halone k (Finset.mem_of_mem_erase hk))
  · refine ⟨hchunk.kept, Or.inr ⟨b.org, b.repo, ?_, hchunk⟩⟩
    rw [hopen, Finset.eq_singleton_iff_unique_mem]
    exact ⟨Finset.mem_insert_self _ _, fun k hk => (Finset.mem_insert.mp hk).elim id (halone k)⟩

theorem Lineage.Single.reports {s : Watched} (hs : L.Single s) : s.Reports := by
  intro org repo
  obtain ⟨infos, hdesc, hiff⟩ := hs.kept.describes org repo
  refine ⟨infos, hdesc, fun o r => (hiff o r).trans ?_⟩
  rcases hs.rows with ⟨hopen, hnone⟩ | ⟨org', repo', hopen, hchunk⟩
  · rw [hopen, hnone]
    simp
  · rw [hopen, hchunk.marker, Finset.mem_singleton]
    constructor
    · rintro ⟨⟨hin, -⟩, e⟩
      exact ⟨hin, (Option.some.inj e).symm⟩
    · rintro ⟨hin, e⟩
      cases e
      exact ⟨⟨hin, hchunk.repo⟩, rfl⟩

theorem not_reports_of_other (hs : L.Kept s.store.data)
    (hb : L.Calls b) (h : s.commit b = some t) {k : String × String} (hk : k ∈ s.opened)
    (hne : k ≠ (b.org, b.repo)) : ¬ t.Reports := by
  intro hrep
  obtain ⟨infos, hdesc, hiff⟩ := hrep none none
  have hmem : k ∈ t.opened ∧ L.Kept t.store.data ∧ t.store.openBatchMarker ≠ some k := by
    rcases commit_cases hs hb h with ⟨hopen, hkept, hnone⟩ | ⟨hopen, hchunk⟩
    · refine ⟨hopen ▸ Finset.mem_erase.mpr ⟨hne, hk⟩, hkept, ?_⟩
      rw [hnone]
      exact (Option.some_ne_none k).symm
    · refine ⟨hopen ▸ Finset.mem_insert_of_mem hk, hchunk.kept, ?_⟩
      rw [hchunk.marker]
      exact fun e => hne (Option.some.inj e).symm
  obtain ⟨hopen, hkept, hmarker⟩ := hmem
  obtain ⟨infos', hdesc', hiff'⟩ := hkept.describes none none
  obtain rfl := Except.ok.inj (hdesc.symm.trans hdesc')
  have hin : InScope none none k.1 k.2 :=
    ⟨fun _ hx => absurd hx (by simp), fun _ hx => absurd hx (by simp)⟩
  exact hmarker ((hiff' k.1 k.2).mp ((hiff k.1 k.2).mpr ⟨hin, hopen⟩)).2

/-- As long as no batch commits beside the open batch of another repo, every state reached
reports exactly the open batches; the first such commit is not reported right. -/
theorem reach_reports {L : Lineage} {s : Watched}
    (h : Reach Watched.commit (fun s b => L.Calls b ∧ s.Alone b) ⟨Store.empty, ∅⟩ s) :
    s.Reports ∧ ∀ b t, L.Calls b → s.commit b = some t → (t.Reports ↔ s.Alone b) := by
  have hs : L.Single s := h.inv (P := L.Single) ⟨reachable_empty.kept, Or.inl ⟨rfl, rfl⟩⟩
    fun s t b hs hb ht => hs.commit hb.1 hb.2 ht
  refine ⟨hs.reports, fun b t hb ht =>
    ⟨fun hrep k hk => ?_, fun halone => (hs.commit hb halone ht).reports⟩⟩
  by_contra hne
  exact not_reports_of_other hs.kept hb ht hk hne hrep

def sampleCall (repo : String) (before : Nat) : BatchCall where
  x := sampleIndexer
  org := "o"
  repo := repo
  files := [sampleFile "a.txt" [120], sampleFile "b.txt" [121]]
  prepared := none
  opts := sampleOpts
  chunkBytes := 1
  before := before

theorem sampleCall_calls (repo : String) (before : Nat) :
    sampleLineage.Calls (sampleCall repo before) where
  has := sampleLineage_has
  fits f hf := by
    rcases mem_cons.mp hf with rfl | hf
    · exact sampleFile_fits rfl (by decide) (by decide)
    · obtain rfl := mem_singleton.mp hf
      exact sampleFile_fits rfl (by decide) (by decide)
  prepared ps hps := by cases hps

def forgotten : Option Watched :=
  run Watched.commit ⟨Store.empty, ∅⟩ [sampleCall "r" 0, sampleCall "q" 2]

/-- The batch of `r` is open and nobody says so. -/
theorem forgotten_not_reported : ∃ s, forgotten = some s ∧ ("o", "r") ∈ s.opened ∧ ¬ s.Reports := by
  have hsome : forgotten.isSome = true := by decide +kernel
  obtain ⟨s, hs⟩ := Option.isSome_iff_exists.mp hsome
  have hopen : ("o", "r") ∈ s.opened := by
    have h : (forgotten.map Watched.opened) = some {("o", "r")} := by decide +kernel
    rw [hs] at h
    rw [Option.some.inj h]
    exact Finset.mem_singleton_self _
  refine ⟨s, hs, hopen, fun hrep => ?_⟩
  obtain ⟨infos, hinfos, hiff⟩ := hrep none none
  have hflags : (forgotten.bind fun s =>
      (s.store.describe none none).toOption.map (List.map RepoInfo.openBatch)) =
      some [false, false] := by decide +kernel
  rw [hs, Option.bind_some, hinfos] at hflags
  have hall : infos.map RepoInfo.openBatch = [false, false] := Option.some.inj hflags
  obtain ⟨i, hi, -, -, hopenBatch⟩ := (hiff "o" "r").mpr ⟨⟨by simp, by simp⟩, hopen⟩
  have hmem : true ∈ infos.map RepoInfo.openBatch := hopenBatch ▸ List.mem_map_of_mem hi
  rw [hall] at hmem
  simp at hmem

theorem reach_reports_rerun : ∃ s t, Watched.commit ⟨Store.empty, ∅⟩ (sampleCall "r" 0) = some s ∧
    s.opened = {("o", "r")} ∧ s.Reports ∧ s.commit (sampleCall "r" 1) = some t ∧ t.opened = ∅ ∧
    t.Reports := by
  have h₁ : (Watched.commit ⟨Store.empty, ∅⟩ (sampleCall "r" 0)).map Watched.opened =
      some {("o", "r")} := by
    decide +kernel
  have h₂ : ((Watched.commit ⟨Store.empty, ∅⟩ (sampleCall "r" 0)).bind
      (·.commit (sampleCall "r" 1))).map Watched.opened = some ∅ := by decide +kernel
  obtain ⟨s, hs, hopen⟩ := Option.map_eq_some_iff.mp h₁
  rw [hs, Option.bind_some] at h₂
  obtain ⟨t, ht, hopen'⟩ := Option.map_eq_some_iff.mp h₂
  have hreach : Reach Watched.commit (fun s b => sampleLineage.Calls b ∧ s.Alone b)
      ⟨Store.empty, ∅⟩ s :=
    .next .start ⟨sampleCall_calls "r" 0, by simp [Watched.Alone]⟩ hs
  have hreach' := hreach.next ⟨sampleCall_calls "r" 1, by simp [Watched.Alone, hopen, sampleCall]⟩
    ht
  exact ⟨s, t, hs, hopen, (reach_reports hreach).1, ht, hopen', (reach_reports hreach').1⟩

end MemoryGraph
