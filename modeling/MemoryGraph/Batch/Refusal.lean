import MemoryGraph.Batch.Rerun

/-! An error a file has before the store sees it stays in the file's own slot; a refusal of the
store's write is an error of the transaction. -/

namespace MemoryGraph
open Lib Codec List
variable {files : List BatchFile}

namespace Indexer
variable (x : Indexer) (org repo : String) (opts : IndexOptions)

def RefusedByStore (f : BatchFile) : Prop :=
  ∃ w e, x.write org repo f opts = .ok w ∧ checkIngest w.org w.repo w.language w.ex = .error e

def storable (f : BatchFile) : Bool :=
  match x.write org repo f opts with
  | .ok w => (checkIngest w.org w.repo w.language w.ex).isOk
  | .error _ => false

/-- The batch with `f` between `before` and `after` has an error for `f` and all else as the batch
without it has it, commits the same stores, and fails only if that one does. -/
def OnlyFailsItself (st : Store) (chunkBytes : Nat) (before : List BatchFile) (f : BatchFile)
    (after : List BatchFile) : Prop :=
  ∃ e, (x.indexBatch st org repo (before ++ f :: after) opts chunkBytes).result =
      (x.indexBatch st org repo (before ++ after) opts chunkBytes).result.map (fun out =>
        out.take before.length ++ .error e :: out.drop before.length) ∧
    (x.indexBatch st org repo (before ++ f :: after) opts chunkBytes).committed =
      (x.indexBatch st org repo (before ++ after) opts chunkBytes).committed

variable {x org repo opts}

theorem write_of_not_storable {f : BatchFile} (h : x.storable org repo opts f = false) :
    (∃ e, x.write org repo f opts = .error e) ∨ x.RefusedByStore org repo opts f := by
  unfold storable at h
  cases hw : x.write org repo f opts with
  | error e => exact Or.inl ⟨e, rfl⟩
  | ok w =>
    rw [hw] at h
    dsimp only at h
    cases hc : checkIngest w.org w.repo w.language w.ex with
    | error e => exact Or.inr ⟨w, e, hw, hc⟩
    | ok u =>
      rw [hc] at h
      cases h

section
variable (l : Loop) (org repo : String) (chunkBytes batchId len : Nat) (d : Data)
  (r : Except StoreError IngestStats)

theorem push_out : (l.push org repo chunkBytes batchId len d r).out = l.out ++ [r] := by
  unfold Loop.push
  dsimp only
  split_ifs <;> rfl

theorem push_forget : { l.push org repo chunkBytes batchId len d r with out := [] } =
    { Loop.push { l with out := [] } org repo chunkBytes batchId len d r with out := [] } := by
  unfold Loop.push
  dsimp only
  split_ifs <;> rfl

theorem push_error (e : StoreError) :
    l.push org repo chunkBytes batchId len l.wt.data (.error e) =
      { l with out := l.out ++ [.error e] } := rfl

end

variable {chunkBytes batchId : Nat}

variable (x org repo opts chunkBytes batchId) in
theorem runFiles_out (l : Loop) (files : List BatchFile) :
    x.runFiles org repo opts chunkBytes batchId l files =
      ⟨(x.runFiles org repo opts chunkBytes batchId { l with out := [] } files).committed,
        (x.runFiles org repo opts chunkBytes batchId { l with out := [] } files).result.map
          (l.out ++ ·)⟩ := by
  induction files generalizing l with
  | nil =>
    unfold runFiles
    rw [Except.map, append_nil]
  | cons f files ih =>
    unfold runFiles fileStep
    dsimp only
    cases x.outcome l.wt.data org repo f opts with
    | error e => rfl
    | ok r =>
      dsimp only [Except.map]
      rw [ih, ih (Loop.push { l with out := [] } org repo chunkBytes batchId f.bytes.length r.1
        r.2), push_out, push_out, push_forget]
      dsimp only
      cases (x.runFiles org repo opts chunkBytes batchId
        { Loop.push { l with out := [] } org repo chunkBytes batchId f.bytes.length r.1 r.2 with
          out := [] } files).result with
      | error e => rfl
      | ok out => simp [Except.map]

end Indexer

section
variable {L : Lineage} {x : Indexer} {org repo : String} {opts : IndexOptions}
  {chunkBytes batchId : Nat}

theorem runFiles_insert (hx : L.Has x) {before : List BatchFile} {f : BatchFile}
    {after : List BatchFile} (hbefore : ∀ g ∈ before, L.Fits x opts g) (hf : f.bytes ∈ L.known)
    {e : StoreError} (hw : x.write org repo f opts = .error e) {l : Loop} (hl : L.Kept l.wt.data)
    (hout : l.out = []) :
    x.runFiles org repo opts chunkBytes batchId l (before ++ f :: after) =
      ⟨(x.runFiles org repo opts chunkBytes batchId l (before ++ after)).committed,
        (x.runFiles org repo opts chunkBytes batchId l (before ++ after)).result.map fun out =>
          out.take before.length ++ .error e :: out.drop before.length⟩ := by
  induction before generalizing l with
  | nil =>
    obtain ⟨s, hs, hp⟩ := hl
    rw [nil_append, nil_append, Indexer.runFiles, Indexer.fileStep, ← hs,
      outcome_error hp hx hf hw, hs]
    dsimp only [Except.map]
    rw [Indexer.push_error, Indexer.runFiles_out, hout]
    have hsame : { l with out := [] } = l := by rw [← hout]
    dsimp only
    rw [hsame]
    rfl
  | cons g before ih =>
    rw [cons_append, cons_append, Indexer.runFiles, Indexer.runFiles, Indexer.fileStep]
    cases hone : x.outcome l.wt.data org repo g opts with
    | error e' => rfl
    | ok r =>
      dsimp only [Except.map]
      have hkept := hl.outcome hx (hbefore g mem_cons_self) hone
      rw [Indexer.runFiles_out, Indexer.runFiles_out _ _ _ _ _ _ _ (before ++ after),
        Indexer.push_out, hout]
      rw [ih (fun g' hg => hbefore g' (.tail _ hg)) (by rw [Indexer.push_data]; exact hkept) rfl]
      dsimp only
      cases (x.runFiles org repo opts chunkBytes batchId
        { l.push org repo chunkBytes batchId g.bytes.length r.1 r.2
        with out := [] } (before ++ after)).result with
      | error e' => rfl
      | ok out => rfl

theorem not_refused_of_dataRun (hx : L.Has x) (hf : ∀ f ∈ files, L.Fits x opts f) {d d' : Data}
    (hd : L.Kept d) (h : x.dataRun org repo opts d files = .ok d') :
    ∀ f ∈ files, ¬ x.RefusedByStore org repo opts f := by
  induction files generalizing d with
  | nil => exact fun f hm => absurd hm not_mem_nil
  | cons g files ih =>
    obtain ⟨r, hone, h⟩ := bind_eq_ok.mp h
    have hg := hf g mem_cons_self
    intro f hm
    rcases mem_cons.mp hm with rfl | hm
    · rintro ⟨w, e, hw, hcheck⟩
      obtain ⟨s, rfl, hp⟩ := hd
      rcases outcome_cases hp hx hg hone with ⟨e', hw', -⟩ | ⟨w', _, _, hw', hwrote, -⟩
      · cases hw.symm.trans hw'
      · obtain rfl := Except.ok.inj (hw.symm.trans hw')
        cases hcheck.symm.trans hwrote.checked
    · exact ih (fun g' hg' => hf g' (.tail _ hg')) (hd.outcome hx hg hone) h f hm

variable (org repo) in
theorem indexBatch_isOk (hx : L.Has x) (hf : ∀ f ∈ files, L.Fits x opts f) {st : Store}
    (hst : L.Kept st.data) (chunkBytes : Nat) :
    (x.indexBatch st org repo files opts chunkBytes).result.isOk =
      (x.dataRun org repo opts st.data files).isOk := by
  have hfinal := indexBatch_final org repo hx hf hst chunkBytes
  cases hrun : x.dataRun org repo opts st.data files with
  | error e =>
    rw [hrun] at hfinal
    exact hfinal
  | ok d =>
    rw [hrun] at hfinal
    exact hfinal.1

variable {st : Store} {before after : List BatchFile} {f : BatchFile}

theorem fits_without (h : ∀ g ∈ before ++ f :: after, L.Fits x opts g) :
    ∀ g ∈ before ++ after, L.Fits x opts g := fun g hg =>
  h g ((List.Sublist.append_left (List.sublist_cons_self f after) before).subset hg)

theorem onlyFailsItself_of_error (hx : L.Has x) (hst : L.Kept st.data)
    (hfits : ∀ g ∈ before ++ f :: after, L.Fits x opts g) {e : StoreError}
    (hw : x.write org repo f opts = .error e) (chunkBytes : Nat) :
    x.OnlyFailsItself org repo opts st chunkBytes before f after := by
  have hf : f.bytes ∈ L.known := (hfits f (mem_append_right _ mem_cons_self)).bytes
  have hinsert : x.indexBatch st org repo (before ++ f :: after) opts chunkBytes =
      ⟨(x.indexBatch st org repo (before ++ after) opts chunkBytes).committed,
        (x.indexBatch st org repo (before ++ after) opts chunkBytes).result.map fun out =>
          out.take before.length ++ .error e :: out.drop before.length⟩ := by
    rw [indexBatch_eq hx hst hfits, indexBatch_eq hx hst (fits_without hfits)]
    exact runFiles_insert hx (fun g hg => hfits g (mem_append_left _ hg)) hf hw hst rfl
  exact ⟨e, congrArg (·.result) hinsert, congrArg (·.committed) hinsert⟩

theorem not_refused_of_onlyFailsItself (hx : L.Has x) (hst : L.Kept st.data)
    (hfits : ∀ g ∈ before ++ f :: after, L.Fits x opts g)
    (hanswers : (x.indexBatch st org repo (before ++ after) opts chunkBytes).result.isOk = true)
    (h : x.OnlyFailsItself org repo opts st chunkBytes before f after) :
    ¬x.RefusedByStore org repo opts f := by
  obtain ⟨e, hres, -⟩ := h
  obtain ⟨out, hout⟩ := isOk_eq_true.mp hanswers
  have hok := indexBatch_isOk org repo hx hfits hst chunkBytes
  rw [hres, hout] at hok
  obtain ⟨d, hrun⟩ := isOk_eq_true.mp hok.symm
  exact not_refused_of_dataRun hx hfits hst hrun f (mem_append_right _ mem_cons_self)

/-- A file that cannot be stored fails only itself, in every batch, exactly when it is not the
store's write that refuses it; and so in each batch that answers without it. -/
theorem only_fails_itself_iff (hx : L.Has x) {f : BatchFile} (hf : L.Fits x opts f)
    (hs : x.storable org repo opts f = false) :
    ((∀ st chunkBytes before after, L.Reachable st.data → (∀ g ∈ before ++ after, L.Fits x opts g) →
        x.OnlyFailsItself org repo opts st chunkBytes before f after) ↔
        ¬x.RefusedByStore org repo opts f) ∧
    ∀ st chunkBytes before after, L.Reachable st.data → (∀ g ∈ before ++ after, L.Fits x opts g) →
      (x.indexBatch st org repo (before ++ after) opts chunkBytes).result.isOk = true →
        (x.OnlyFailsItself org repo opts st chunkBytes before f after ↔
          ¬x.RefusedByStore org repo opts f) := by
  have hwith : ∀ {before after}, (∀ g ∈ before ++ after, L.Fits x opts g) →
      ∀ g ∈ before ++ f :: after, L.Fits x opts g := by
    intro before after hfits g hg
    rcases List.mem_append.mp hg with hg | hg
    · exact hfits g (List.mem_append_left _ hg)
    · rcases List.mem_cons.mp hg with rfl | hg
      · exact hf
      · exact hfits g (List.mem_append_right _ hg)
  have hif : ¬x.RefusedByStore org repo opts f → ∀ st chunkBytes before after, L.Reachable st.data →
      (∀ g ∈ before ++ after, L.Fits x opts g) →
        x.OnlyFailsItself org repo opts st chunkBytes before f after := by
    intro hown st chunkBytes before after hst hfits
    obtain ⟨e, hw⟩ := (Indexer.write_of_not_storable hs).resolve_right hown
    exact onlyFailsItself_of_error hx hst.kept (hwith hfits) hw chunkBytes
  refine ⟨⟨fun h => ?_, hif⟩, fun st chunkBytes before after hst hfits hanswers => ?_⟩
  · -- in a batch of its own
    have hempty : L.Reachable Store.empty.data := reachable_empty
    have hnil : ∀ g ∈ ([] ++ [] : List BatchFile), L.Fits x opts g :=
      fun g hg => absurd hg List.not_mem_nil
    refine not_refused_of_onlyFailsItself hx hempty.kept (hwith hnil) ?_
      (h Store.empty 1 [] [] hempty hnil)
    rw [indexBatch_isOk org repo hx hnil hempty.kept]
    rfl
  · exact ⟨not_refused_of_onlyFailsItself hx hst.kept (hwith hfits) hanswers,
      fun hown => hif hown st chunkBytes before after hst hfits⟩

theorem only_fails_itself_binary :
    sampleIndexer.storable "o" "r" sampleOpts (sampleFile "b.bin" [0]) = false ∧
    sampleIndexer.OnlyFailsItself "o" "r" sampleOpts Store.empty 1 [sampleFile "a.txt" [120]]
      (sampleFile "b.bin" [0]) [sampleFile "c.txt" [121]] := by
  have hbin : sampleIndexer.write "o" "r" (sampleFile "b.bin" [0]) sampleOpts =
      .error (.binary "`b.bin`") := by
    decide +kernel
  have hb : sampleIndexer.storable "o" "r" sampleOpts (sampleFile "b.bin" [0]) =
      false := by decide +kernel
  have hown : ¬sampleIndexer.RefusedByStore "o" "r" sampleOpts (sampleFile "b.bin" [0]) := by
    rintro ⟨w, e, hw, -⟩
    cases hbin.symm.trans hw
  refine ⟨hb, (only_fails_itself_iff sampleLineage_has (sampleFile_fits rfl (by decide) (by decide))
    hb).1.mpr hown Store.empty 1 [sampleFile "a.txt" [120]] [sampleFile "c.txt" [121]]
    reachable_empty fun g hg => ?_⟩
  rcases List.mem_cons.mp hg with rfl | hg
  · exact sampleFile_fits rfl (by decide) (by decide)
  · rw [List.mem_singleton.mp hg]
    exact sampleFile_fits rfl (by decide) (by decide)

def nulLanguageFile : BatchFile := { sampleFile "b.txt" [121] with language := some "a\x00" }

theorem refused_language_fails_batch :
    (sampleIndexer.indexBatch Store.empty "o" "r" [sampleFile "a.txt" [120]] sampleOpts
      9).result.isOk = true ∧ sampleIndexer.storable "o" "r" sampleOpts nulLanguageFile = false ∧
      (sampleIndexer.indexBatch Store.empty "o" "r" [sampleFile "a.txt" [120], nulLanguageFile]
        sampleOpts 9).committed = [] ∧
      ¬ sampleIndexer.OnlyFailsItself "o" "r" sampleOpts Store.empty 9 [sampleFile "a.txt" [120]]
        nulLanguageFile [] := by
  have hres : (sampleIndexer.indexBatch Store.empty "o" "r" [sampleFile "a.txt" [120],
      nulLanguageFile] sampleOpts 9).result.isOk = false := by decide +kernel
  have halone : (sampleIndexer.indexBatch Store.empty "o" "r" [sampleFile "a.txt" [120]] sampleOpts
      9).result.isOk = true := by decide +kernel
  refine ⟨halone, by decide +kernel, by decide +kernel, ?_⟩
  rintro ⟨e, hok, -⟩
  obtain ⟨out, hout⟩ := isOk_eq_true.mp halone
  rw [List.singleton_append, List.append_nil, hout] at hok
  rw [hok] at hres
  cases hres

end
end MemoryGraph
