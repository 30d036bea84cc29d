import MemoryGraph.Batch.Reach

/-! Files prepared ahead of their commit, against any store: the commit decides each file again. -/

namespace MemoryGraph
open Lib Codec

inductive Indexer.Prepares (x : Indexer) (org repo : String) (opts : IndexOptions) (f : BatchFile) :
    PreparedFile → Prop
  | prepare (st : Store) : Indexer.Prepares x org repo opts f (x.prepare st org repo f opts)
  | prepareWith (st : Store) (known : Indexer.FingerprintSnapshot) :
      Indexer.Prepares x org repo opts f (x.prepareWith st org repo f opts known)

variable {L : Lineage} {x : Indexer} {org repo : String} {opts : IndexOptions}

theorem Indexer.Prepares.asked {f : BatchFile} {p : PreparedFile}
    (h : x.Prepares org repo opts f p) :
    ∃ ask d₀, p = (x.prepareFile org repo f opts ask d₀).2 := by
  cases h with
  | prepare st => exact ⟨_, _, rfl⟩
  | prepareWith st known =>
    unfold Indexer.prepareWith
    split_ifs
    · exact ⟨_, _, rfl⟩
    · exact ⟨_, _, rfl⟩

theorem Indexer.Prepares.commitsAs (hx : L.Has x) {files : List BatchFile}
    (hf : ∀ f ∈ files, L.Fits x opts f) {ps : List PreparedFile}
    (hps : List.Forall₂ (x.Prepares org repo opts) files ps) :
    List.Forall₂ (fun f next => ∀ d, L.Kept d → x.CommitsAs org repo opts f next d) files
      (ps.map fun p d => (d, p)) := by
  rw [List.forall₂_map_right_iff]
  refine (List.forall₂_and_left files ps |>.mpr ⟨hf, hps⟩).imp fun f p ⟨hfit, hp⟩ d hd => ?_
  obtain ⟨ask, d₀, rfl⟩ := hp.asked
  obtain ⟨s, rfl, hprinted⟩ := hd
  exact ⟨commitPrepared_prepared hprinted hx hfit.bytes ask d₀, prepareFile_bytesLen ..⟩

/-- Committing prepared files in order gives the results and the stores of indexing the files
at commit time, whatever was written since they were prepared. -/
theorem indexPrepared_eq_indexBatch (hx : L.Has x) {st : Store} (hst : L.Reachable st.data)
    {files : List BatchFile} (hf : ∀ f ∈ files, L.Fits x opts f) {ps : List PreparedFile}
    (hps : List.Forall₂ (x.Prepares org repo opts) files ps) (chunkBytes : Nat) :
    x.indexPrepared st org repo ps opts chunkBytes =
      x.indexBatch st org repo files opts chunkBytes := by
  rw [indexBatch_eq hx hst.kept hf]
  exact commitFiles_eq hx hf (Indexer.Prepares.commitsAs hx hf hps) hst.kept

def staleSnapshot : Indexer.FingerprintSnapshot :=
  ⟨"o", "r", Table.empty.insert "a.txt" (sampleIndexer.fingerprint [120] "text" .utf8 false), true⟩

theorem indexPrepared_eq_indexBatch_stale :
    (sampleIndexer.prepareWith Store.empty "o" "r" (sampleFile "a.txt" [120]) sampleOpts
        staleSnapshot).work = .unchanged "x" ∧
      sampleIndexer.indexPrepared Store.empty "o" "r"
        [sampleIndexer.prepareWith Store.empty "o" "r" (sampleFile "a.txt" [120]) sampleOpts
          staleSnapshot] sampleOpts 1 =
      sampleIndexer.indexBatch Store.empty "o" "r" [sampleFile "a.txt" [120]] sampleOpts 1 := by
  refine ⟨by decide +kernel, indexPrepared_eq_indexBatch sampleLineage_has reachable_empty
    (fun f hf => ?_) (.cons (.prepareWith _ _) .nil) 1⟩
  obtain rfl := List.mem_singleton.mp hf
  exact sampleFile_fits rfl (by decide) (by decide)

end MemoryGraph
