import MemoryGraph.Batch.Reach

/-! Batches run again. A batch is a run of overwriting writes, so that one stopped at any of
its commits and started over ends where it would have ended. -/

namespace MemoryGraph
open Lib Codec List
variable {files : List BatchFile}

section
variable (x : Indexer) (org repo : String) (opts : IndexOptions)

def Indexer.writes (files : List BatchFile) : List Write :=
  files.filterMap fun f => (x.write org repo f opts).toOption

end

section
variable {L : Lineage} {x : Indexer} {org repo : String} {opts : IndexOptions}

theorem Lineage.Fits.makes (hx : L.Has x) {f : BatchFile} (hf : L.Fits x opts f) {w : Write}
    (hw : x.write org repo f opts = .ok w) : L.Makes w := by
  obtain ⟨_, _, -, -, -, rfl⟩ := Indexer.write_eq_ok hw
  exact Or.inr ⟨x, f, opts, hx, hf.bytes, hw⟩

theorem run_of_dataRun {s : State L.toSetting} (hp : Printed s) (hx : L.Has x)
    (hf : ∀ f ∈ files, L.Fits x opts f) {d : Data}
    (h : x.dataRun org repo opts s.data files = .ok d) :
    ∃ s' : State L.toSetting, s'.data = d ∧ Printed s' ∧
      Run Wrote s (x.writes org repo opts files) s' := by
  induction files generalizing s with
  | nil => exact ⟨s, Except.ok.inj h, hp, .nil s⟩
  | cons f files ih =>
    obtain ⟨⟨d₁, r⟩, hout, h⟩ := bind_eq_ok.mp h
    have hff := hf f mem_cons_self
    have hrest := fun g hg => hf g (mem_cons_of_mem f hg)
    rcases outcome_cases hp hx hff hout with ⟨e, hw, rfl, -⟩ | ⟨w, s₁, -, hw, hwrote, rfl, -⟩
    · obtain ⟨s', hs', hp', hrun⟩ := ih hp hrest h
      refine ⟨s', hs', hp', ?_⟩
      rw [Indexer.writes, filterMap_cons, hw]
      exact hrun
    · obtain ⟨s', hs', hp', hrun⟩ := ih (hp.wrote (hff.makes hx hw) hwrote) hrest h
      refine ⟨s', hs', hp', ?_⟩
      rw [Indexer.writes, filterMap_cons, hw]
      exact .cons hwrote hrun

theorem dataRun_of_run {s s' : State L.toSetting} (hp : Printed s) (hx : L.Has x)
    (hf : ∀ f ∈ files, L.Fits x opts f) (h : Run Wrote s (x.writes org repo opts files) s') :
    x.dataRun org repo opts s.data files = .ok s'.data := by
  induction files generalizing s with
  | nil =>
    cases h
    rfl
  | cons f files ih =>
    have hff := hf f mem_cons_self
    have hrest := fun g hg => hf g (mem_cons_of_mem f hg)
    rw [Indexer.writes, filterMap_cons] at h
    cases hw : x.write org repo f opts with
    | error e =>
      rw [hw] at h
      rw [Indexer.dataRun, outcome_error hp hx hff.bytes hw]
      exact ih hp hrest h
    | ok w =>
      rw [hw] at h
      cases h with
      | cons hwrote hrun =>
        obtain ⟨stats, hcall⟩ := hwrote.call
        obtain ⟨stats', hout⟩ := outcome_of_apply hp hx hff hw hcall
        rw [Indexer.dataRun, hout]
        exact ih (hp.wrote (hff.makes hx hw) hwrote) hrest hrun

theorem dataRun_again {d d' : Data} (hd : L.Kept d) (hx : L.Has x)
    (hf : ∀ f ∈ files, L.Fits x opts f) (h : x.dataRun org repo opts d files = .ok d') :
    x.dataRun org repo opts d' files = .ok d' := by
  obtain ⟨s, rfl, hp⟩ := hd
  obtain ⟨s', rfl, hp', hrun⟩ := run_of_dataRun hp hx hf h
  exact dataRun_of_run hp' hx hf (Overwriting.replay (o := overwriting L.toSetting) hrun)

theorem dataRun_of_take {d d' : Data} (hd : L.Kept d) (hx : L.Has x)
    (hf : ∀ f ∈ files, L.Fits x opts f) {k : Nat}
    (h : x.dataRun org repo opts d (files.take k) = .ok d') :
    x.dataRun org repo opts d' files = x.dataRun org repo opts d files := by
  have hagain := dataRun_again hd hx (fun f hm => hf f (mem_of_mem_take hm)) h
  calc x.dataRun org repo opts d' files
      = x.dataRun org repo opts d' (files.take k ++ files.drop k) := by rw [take_append_drop]
    _ = x.dataRun org repo opts d' (files.drop k) := by rw [Indexer.dataRun_append, hagain, ok_bind]
    _ = x.dataRun org repo opts d (files.take k ++ files.drop k) := by
      rw [Indexer.dataRun_append, h, ok_bind]
    _ = x.dataRun org repo opts d files := by rw [take_append_drop]

end

def Store.marks (st : Store) : Option RaftMarker × Option (List UInt8) := (st.marker, st.membership)

namespace Indexer
variable {x : Indexer} {org repo : String} {opts : IndexOptions} {chunkBytes batchId : Nat}

variable (org repo chunkBytes batchId) in
theorem push_marks (l : Loop) (len : Nat) (d : Data) (r : Except StoreError IngestStats) :
    (l.push org repo chunkBytes batchId len d r).wt.marks = l.wt.marks := by
  unfold Loop.push
  dsimp only
  split_ifs <;> rfl

variable (org repo chunkBytes batchId) in
theorem push_committed (l : Loop) (len : Nat) (d : Data) (r : Except StoreError IngestStats) :
    (l.push org repo chunkBytes batchId len d r).committed = l.committed ∨
      (l.push org repo chunkBytes batchId len d r).committed = l.committed ++
      [l.wt.withData d] := by
  unfold Loop.push
  dsimp only
  split_ifs
  · exact Or.inl rfl
  · exact Or.inr rfl
  · exact Or.inl rfl

theorem push_nextBatchId (l : Loop) (len : Nat) (d : Data) (r : Except StoreError IngestStats) :
    (l.push org repo chunkBytes batchId len d r).wt.nextBatchId = l.wt.nextBatchId := by
  unfold Loop.push
  dsimp only
  split_ifs <;> rfl

theorem mem_committed {l : Loop} {st : Store}
    (h : st ∈ (x.runFiles org repo opts chunkBytes batchId l files).committed) :
    st ∈ l.committed ∨
      (∃ k, x.dataRun org repo opts l.wt.data (files.take k) = .ok st.data) ∧
      st.marks = l.wt.marks := by
  induction files generalizing l with
  | nil =>
    rcases mem_append.mp h with h | h
    · exact Or.inl h
    · obtain rfl := mem_singleton.mp h
      exact Or.inr ⟨⟨0, rfl⟩, rfl⟩
  | cons f files ih =>
    unfold runFiles fileStep at h
    cases hout : x.outcome l.wt.data org repo f opts with
    | error e =>
      rw [hout] at h
      exact Or.inl h
    | ok r =>
      rw [hout] at h
      rcases ih h with hmem | ⟨⟨k, hk⟩, hmarks⟩
      · rcases push_committed org repo chunkBytes batchId l f.bytes.length r.1 r.2 with heq | heq
        · exact Or.inl (heq ▸ hmem)
        · rw [heq] at hmem
          rcases mem_append.mp hmem with hmem | hmem
          · exact Or.inl hmem
          · obtain rfl := mem_singleton.mp hmem
            refine Or.inr ⟨⟨1, ?_⟩, rfl⟩
            rw [take_succ_cons, take_zero, dataRun, hout]
            rfl
      · refine Or.inr ⟨⟨k + 1, ?_⟩, hmarks.trans (push_marks ..)⟩
        rw [push_data] at hk
        rw [take_succ_cons, dataRun, hout]
        exact hk

theorem runFiles_final (l : Loop) (files : List BatchFile) :
    match x.dataRun org repo opts l.wt.data files with
    | .ok d => ∃ out before, x.runFiles org repo opts chunkBytes batchId l files =
        ⟨before ++ [⟨d, l.wt.nextBatchId, none, none, none, l.wt.marker, l.wt.membership⟩], .ok out⟩
    | .error e =>
        ∃ before, x.runFiles org repo opts chunkBytes batchId l files = ⟨before, .error e⟩ := by
  induction files generalizing l with
  | nil => exact ⟨l.out, l.committed, rfl⟩
  | cons f files ih =>
    unfold runFiles fileStep dataRun
    cases hout : x.outcome l.wt.data org repo f opts with
    | error e => exact ⟨l.committed, rfl⟩
    | ok r =>
      have hnext := ih (l.push org repo chunkBytes batchId f.bytes.length r.1 r.2)
      have hmarks := push_marks org repo chunkBytes batchId l f.bytes.length r.1 r.2
      rw [push_data, push_nextBatchId, (Prod.mk.inj hmarks).1, (Prod.mk.inj hmarks).2] at hnext
      exact hnext

end Indexer

/-- `st'` is a store some runs of the batch left, each with its own chunk cap and each stopped
after any of its commits. -/
def Indexer.Interrupted (x : Indexer) (org repo : String) (files : List BatchFile)
    (opts : IndexOptions) : Store → Store → Prop :=
  Relation.ReflTransGen fun st st' => ∃ chunkBytes,
    st' ∈ (x.indexBatch st org repo files opts chunkBytes).committed

section
variable {L : Lineage} {x : Indexer} {org repo : String} {opts : IndexOptions}
  {files : List BatchFile}

theorem Indexer.Interrupted.spec (hx : L.Has x) (hf : ∀ f ∈ files, L.Fits x opts f) {st st' : Store}
    (h : x.Interrupted org repo files opts st st') (hst : L.Kept st.data) :
    L.Kept st'.data ∧
      x.dataRun org repo opts st'.data files = x.dataRun org repo opts st.data files ∧
      st'.marks = st.marks := by
  induction h with
  | refl => exact ⟨hst, rfl, rfl⟩
  | @tail a b _ hone ih =>
    obtain ⟨hkept, hrun, hmarks⟩ := ih
    obtain ⟨cap, hmem⟩ := hone
    rw [indexBatch_eq hx hkept hf] at hmem
    rcases Indexer.mem_committed hmem with hmem | ⟨⟨k, hk⟩, hmarks'⟩
    · cases hmem
    · have htake : ∀ f ∈ files.take k, L.Fits x opts f := fun f hm => hf f (mem_of_mem_take hm)
      exact ⟨hkept.dataRun hx htake hk, (dataRun_of_take hkept hx hf hk).trans hrun,
        hmarks'.trans hmarks⟩

variable (org repo) in
theorem indexBatch_final (hx : L.Has x) (hf : ∀ f ∈ files, L.Fits x opts f) {st : Store}
    (hst : L.Kept st.data) (chunkBytes : Nat) :
    match x.dataRun org repo opts st.data files with
    | .ok d => (x.indexBatch st org repo files opts chunkBytes).result.isOk = true ∧
        (x.indexBatch st org repo files opts chunkBytes).final st =
          ⟨d, st.nextBatchId + 1, none, none, none, st.marker, st.membership⟩
    | .error _ => (x.indexBatch st org repo files opts chunkBytes).result.isOk = false := by
  rw [indexBatch_eq hx hst hf]
  have hfinal := @Indexer.runFiles_final x org repo opts chunkBytes st.nextBatchId
    (st.openLoop org repo) files
  have hdata : (st.openLoop org repo).wt.data = st.data := rfl
  rw [hdata] at hfinal
  cases hrun : x.dataRun org repo opts st.data files with
  | error e =>
    rw [hrun] at hfinal
    obtain ⟨before, heq⟩ := hfinal
    dsimp only
    rw [heq]
    rfl
  | ok d =>
    rw [hrun] at hfinal
    obtain ⟨out, before, heq⟩ := hfinal
    dsimp only
    rw [heq, Batch.final, getLastD_eq_getLast?, getLast?_concat]
    exact ⟨rfl, rfl⟩

/-- A batch that was stopped after any of its commits, any number of times, and is run again to
completion leaves the store of one uninterrupted run, but for the batch-id counter. -/
theorem rerun_eq_uninterrupted (hx : L.Has x) {st st' : Store} (hst : L.Reachable st.data)
    (hf : ∀ f ∈ files, L.Fits x opts f) (hint : x.Interrupted org repo files opts st st')
    (cap cap' : Nat) :
    (x.indexBatch st' org repo files opts cap').result.isOk =
      (x.indexBatch st org repo files opts cap).result.isOk ∧
      ((x.indexBatch st org repo files opts cap).result.isOk = true →
        (x.indexBatch st' org repo files opts cap').final st' =
          { (x.indexBatch st org repo files opts cap).final st with
            nextBatchId := st'.nextBatchId + 1 }) := by
  obtain ⟨hkept', hrun, hmarks⟩ := hint.spec hx hf hst.kept
  have hone := indexBatch_final org repo hx hf hst.kept cap
  have htwo := indexBatch_final org repo hx hf hkept' cap'
  rw [hrun] at htwo
  cases hd : x.dataRun org repo opts st.data files with
  | error e =>
    rw [hd] at hone htwo
    exact ⟨htwo.trans hone.symm, fun hok => absurd (hone.symm.trans hok) (by decide)⟩
  | ok d =>
    rw [hd] at hone htwo
    refine ⟨htwo.1.trans hone.1.symm, fun _ => ?_⟩
    rw [hone.2, htwo.2, (Prod.mk.inj hmarks).1, (Prod.mk.inj hmarks).2]

theorem rerun_eq_uninterrupted_twice :
    ∃ st ∈ (sampleIndexer.indexBatch Store.empty "o" "r"
        [sampleFile "a.txt" [120], sampleFile "a.txt" [121]] sampleOpts 1).committed,
      st.openRepo = some "r" ∧
      (sampleIndexer.indexBatch st "o" "r" [sampleFile "a.txt" [120], sampleFile "a.txt" [121]]
        sampleOpts 5).final st =
        { (sampleIndexer.indexBatch Store.empty "o" "r"
            [sampleFile "a.txt" [120], sampleFile "a.txt" [121]] sampleOpts 9).final
            Store.empty with nextBatchId := st.nextBatchId + 1 } := by
  have hok : (sampleIndexer.indexBatch Store.empty "o" "r" [sampleFile "a.txt" [120],
      sampleFile "a.txt" [121]] sampleOpts 9).result.isOk = true := by decide +kernel
  have hopen : ((sampleIndexer.indexBatch Store.empty "o" "r" [sampleFile "a.txt" [120],
      sampleFile "a.txt" [121]] sampleOpts 1).committed.head?.map Store.openRepo) =
      some (some "r") := by decide +kernel
  obtain ⟨st, hst, hrepo⟩ := Option.map_eq_some_iff.mp hopen
  have hmem := List.mem_of_mem_head? hst
  refine ⟨st, hmem, hrepo,
    (rerun_eq_uninterrupted sampleLineage_has reachable_empty (fun f hf => ?_)
    (.single ⟨1, hmem⟩) 9 5).2 hok⟩
  rcases List.mem_pair.mp hf with rfl | rfl
  · exact sampleFile_fits rfl (by decide) (by decide)
  · exact sampleFile_fits rfl (by decide) (by decide)

end
end MemoryGraph
