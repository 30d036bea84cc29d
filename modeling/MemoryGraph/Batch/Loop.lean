import MemoryGraph.Batch.Outcome

/-! A batch as a run over its files: what each file leaves, where the loop commits, and
which states a batch can stop in. -/

namespace MemoryGraph
open Lib Codec
variable {files : List BatchFile}

def Loop.push (l : Loop) (org repo : String) (chunkBytes batchId len : Nat) (d : Data)
    (r : Except StoreError IngestStats) : Loop :=
  let wt := l.wt.withData d
  let out := l.out ++ [r]
  if ¬ isStored r then { l with wt, out }
  else if l.inTxn + len < chunkBytes then { l with wt, out, inTxn := l.inTxn + len }
  else ⟨l.committed ++ [wt], wt.markOpenBatch batchId org repo, 0, out⟩

namespace Indexer
variable (x : Indexer) (org repo : String) (opts : IndexOptions) (chunkBytes batchId : Nat)

def fileStep (l : Loop) (f : BatchFile) : Except StoreError Loop :=
  (x.outcome l.wt.data org repo f opts).map fun r =>
    l.push org repo chunkBytes batchId f.bytes.length r.1 r.2

def runFiles : Loop → List BatchFile → Batch
  | l, [] => ⟨l.committed ++ [l.wt.clearOpenBatch], .ok l.out⟩
  | l, f :: rest =>
    match x.fileStep org repo opts chunkBytes batchId l f with
    | .error e => ⟨l.committed, .error e⟩
    | .ok l => runFiles l rest

def dataRun : Data → List BatchFile → Except StoreError Data
  | d, [] => .ok d
  | d, f :: rest => do
    let r ← x.outcome d org repo f opts
    dataRun r.1 rest

def CommitsAs (f : BatchFile) (next : Data → Data × PreparedFile) (d : Data) : Prop :=
  x.commitPrepared (next d).1 org repo (next d).2 opts = x.outcome d org repo f opts ∧
    (next d).2.bytesLen = f.bytes.length

variable {x org repo opts chunkBytes batchId}

theorem commitFile_eq {l : Loop} {f : BatchFile} {next : Data → Data × PreparedFile}
    (h : x.CommitsAs org repo opts f next l.wt.data) :
    x.commitFile org repo opts chunkBytes batchId l next =
      x.fileStep org repo opts chunkBytes batchId l f := by
  unfold commitFile fileStep
  dsimp only
  rw [h.1, h.2]
  cases x.outcome l.wt.data org repo f opts with
  | error e => rfl
  | ok r =>
    change _ = Except.ok _
    unfold Loop.push
    dsimp only [ok_bind]
    split_ifs <;> rfl

theorem dataRun_append (d : Data) (l m : List BatchFile) :
    x.dataRun org repo opts d (l ++ m) = x.dataRun org repo opts d l >>= fun d =>
    x.dataRun org repo opts d m := by
  induction l generalizing d with
  | nil => rfl
  | cons f l ih =>
    rw [List.cons_append, dataRun, dataRun]
    cases x.outcome d org repo f opts with
    | error e => rfl
    | ok r => exact ih r.1

theorem push_data (l : Loop) (len : Nat) (d : Data) (r : Except StoreError IngestStats) :
    (l.push org repo chunkBytes batchId len d r).wt.data = d := by
  unfold Loop.push
  dsimp only
  split_ifs <;> rfl

end Indexer

section
variable {L : Lineage} {x : Indexer} {org repo : String} {opts : IndexOptions}

def Lineage.Kept (L : Lineage) (d : Data) : Prop := ∃ s : State L.toSetting, s.data = d ∧ Printed s

theorem Lineage.Kept.outcome {d d' : Data} (h : L.Kept d) (hx : L.Has x) {f : BatchFile}
    (hf : L.Fits x opts f) {r : Except StoreError IngestStats}
    (hout : x.outcome d org repo f opts = .ok (d', r)) : L.Kept d' := by
  obtain ⟨s, rfl, hp⟩ := h
  rcases outcome_cases hp hx hf hout with ⟨-, -, rfl, -⟩ | ⟨w, s', -, hw, hwrote, rfl, -⟩
  · exact ⟨s, rfl, hp⟩
  · refine ⟨s', rfl, hp.wrote (Or.inr ⟨x, f, opts, hx, hf.bytes, ?_⟩) hwrote⟩
    obtain ⟨_, _, -, -, -, rfl⟩ := Indexer.write_eq_ok hw
    exact hw

theorem Lineage.Kept.dataRun {d d' : Data} (h : L.Kept d) (hx : L.Has x)
    (hf : ∀ f ∈ files, L.Fits x opts f) (hrun : x.dataRun org repo opts d files = .ok d') :
    L.Kept d' := by
  induction files generalizing d with
  | nil => exact Except.ok.inj hrun ▸ h
  | cons f files ih =>
    obtain ⟨r, hr, hrun⟩ := bind_eq_ok.mp hrun
    exact ih (h.outcome hx (hf f (.head _)) hr) (fun g hg => hf g (.tail _ hg)) hrun

theorem commitFiles_eq (hx : L.Has x) {chunkBytes batchId : Nat}
    {nexts : List (Data → Data × PreparedFile)} (hf : ∀ f ∈ files, L.Fits x opts f)
    (hnext : List.Forall₂ (fun f next => ∀ d, L.Kept d → x.CommitsAs org repo opts f next d)
      files nexts) {l : Loop} (hl : L.Kept l.wt.data) :
    x.commitFiles org repo opts chunkBytes batchId l nexts =
      x.runFiles org repo opts chunkBytes batchId l files := by
  induction hnext generalizing l with
  | nil => rfl
  | @cons f next files nexts hone _ ih =>
    rw [Indexer.commitFiles, Indexer.runFiles, Indexer.commitFile_eq (hone _ hl)]
    cases hstep : x.fileStep org repo opts chunkBytes batchId l f with
    | error e => rfl
    | ok l' =>
      refine ih (fun g hg => hf g (.tail _ hg)) ?_
      unfold Indexer.fileStep at hstep
      cases hout : x.outcome l.wt.data org repo f opts with
      | error e =>
        rw [hout] at hstep
        cases hstep
      | ok r =>
        rw [hout] at hstep
        cases hstep
        rw [Indexer.push_data]
        exact hl.outcome hx (hf f (.head _)) hout

theorem prepareFile_bytesLen (f : BatchFile) (ask : String → String → String → Data → Data × Bool)
    (d : Data) : (x.prepareFile org repo f opts ask d).2.bytesLen = f.bytes.length := by
  rcases @Indexer.prepareFile_forms x org repo f opts ask d with ⟨e, -,
    hform⟩ | ⟨s, -, hform | hform⟩
  · rw [hform]
    rfl
  · rw [hform]
    rfl
  · rw [hform]
    rfl

def Store.openLoop (st : Store) (org repo : String) : Loop :=
  ⟨[], { st with nextBatchId := st.nextBatchId + 1 }.markOpenBatch st.nextBatchId org repo, 0, []⟩

theorem indexBatch_eq (hx : L.Has x) {st : Store} (hst : L.Kept st.data)
    (hf : ∀ f ∈ files, L.Fits x opts f) (chunkBytes : Nat) :
    x.indexBatch st org repo files opts chunkBytes =
      x.runFiles org repo opts chunkBytes st.nextBatchId (st.openLoop org repo) files := by
  have hnext : List.Forall₂ (fun f next => ∀ d, L.Kept d → x.CommitsAs org repo opts f next d) files
      (files.map fun f => x.prepareFile org repo f opts
        (Indexer.askTransaction org repo f.origin)) := by
    rw [List.forall₂_map_right_iff]
    refine List.forall₂_same.mpr fun f _ d _ =>
      ⟨Indexer.commitPrepared_asked d, prepareFile_bytesLen ..⟩
  exact commitFiles_eq hx hf hnext hst

end
end MemoryGraph
