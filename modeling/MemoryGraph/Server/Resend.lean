import MemoryGraph.Server.ExactlyOnce
import MemoryGraph.Batch.Rerun
import MemoryGraph.Batch.Ahead

/-! A command that is sent again, and so applied twice in a row at increasing log ids, leaves
what it left the first time. -/

namespace MemoryGraph
open Lib

namespace Server

def change (x : Indexer) (d : Data) : Command → Except StoreError Data
  | .indexChunk org repo reindex files => do
    let fs ← files.mapM FileBytes.asBatchFile
    x.dataRun org repo (chunkOptions reindex) d fs
  | .ingestExtraction _ _ _ _ none _ => .error (.protocol "IngestExtraction.extraction is missing")
  | .ingestExtraction _ _ _ _ (some (.error why)) _ => .error (.protocol why)
  | .ingestExtraction org repo path language (some (.ok ex)) origin => do
    validateSpans ex
    (d.ingestPrepped x.sha256 org repo path language ex (Store.fileMetaExtracted origin)).map
      Prod.fst
  | .prune org repo keep => (d.pruneIn org repo keep false).map Prod.fst
  | .vacuum => (d.vacuumIn x.sha256).map Prod.fst
  | .noop => .ok d

def settle (st : Store) (d : Data) (marker : RaftMarker) : Command → Store
  | .indexChunk _ _ _ _ => ⟨d, st.nextBatchId + 1, none, none, none, some marker, st.membership⟩
  | _ => { st with data := d, marker := some marker }

section
variable (st : Store) (d : Data) (m : RaftMarker) (cmd : Command)

theorem settle_data : (settle st d m cmd).data = d := by cases cmd <;> rfl

theorem settle_marker : (settle st d m cmd).marker = some m := by cases cmd <;> rfl

theorem settle_settle (m' : RaftMarker) :
    settle (settle st d m cmd) d m' cmd = { settle st d m cmd with
    marker := some m', nextBatchId :=
  (settle (settle st d m cmd) d m' cmd).nextBatchId } := by cases cmd <;> rfl

end

def extractionWrite (org repo path language : String) (ex : Extraction) (origin : Option String) :
    Write :=
  ⟨org, repo, path, language, ex, Store.fileMetaExtracted origin⟩

/-- What is known of the arguments of a command: they are held in memory, and the code that
runs on them is of the lineage. -/
def Carries (L : Lineage) (x : Indexer) : Command → Prop
  | .indexChunk _ _ reindex files => (files.map fun f => f.bytes.length).sum < usizeMax ∧
      ∀ f ∈ files, ∀ b, f.asBatchFile = .ok b → L.Fits x (chunkOptions reindex) b
  | .ingestExtraction org repo path language (some (.ok ex)) origin =>
      validateSpans ex = .ok () →
        (extractionWrite org repo path language ex origin).Fits L.toSetting
  | _ => True

variable {L : Lineage} {x : Indexer} {st : Store} {marker : RaftMarker}

def Leaves (st : Store) (marker : RaftMarker) (cmd : Command) (a : Applied)
    (r : Except StoreError Data) : Prop :=
  match r with
  | .ok d => ∃ resp, a = ⟨[settle st d marker cmd], .ok resp⟩
  | .error e => a = ⟨[], .error e⟩

theorem fits_of_mapM {opts : IndexOptions} {files : List FileBytes} {fs : List BatchFile}
    (h : files.mapM FileBytes.asBatchFile = .ok fs)
    (hfits : ∀ f ∈ files, ∀ b, f.asBatchFile = .ok b → L.Fits x opts b) :
    ∀ b ∈ fs, L.Fits x opts b := by
  induction mapM_eq_ok.mp h with
  | nil => exact fun b hb => absurd hb List.not_mem_nil
  | @cons f b files fs hone hrest ih =>
    refine List.forall_mem_cons.mpr ⟨hfits f List.mem_cons_self b hone, ?_⟩
    exact ih (mapM_eq_ok.mpr hrest) fun g hg => hfits g (.tail _ hg)

theorem indexPreparedMarked_eq (hx : L.Has x) (hst : L.Kept st.data) {org repo : String}
    {opts : IndexOptions} {fs : List BatchFile} (hf : ∀ f ∈ fs, L.Fits x opts f)
    (hpast : ∀ cur ∈ st.marker, cur.index < marker.index) :
    x.indexPreparedMarked st org repo (fs.map fun f => x.prepare st org repo f opts) opts marker
      none =
      x.runFiles org repo opts usizeMax st.nextBatchId
        ⟨[], (Store.markOpenBatch ⟨st.data, st.nextBatchId + 1, st.openBatchId, st.openOrg,
          st.openRepo, some marker, st.membership⟩ st.nextBatchId org repo), 0, []⟩ fs := by
  have hps : List.Forall₂ (x.Prepares org repo opts) fs (fs.map fun f =>
      x.prepare st org repo f opts) := by
    rw [List.forall₂_map_right_iff]
    exact List.forall₂_same.mpr fun f _ => .prepare st
  unfold Indexer.indexPreparedMarked Indexer.commitEach
  dsimp only
  rw [stampMarker_past hpast]
  exact commitFiles_eq hx hf (Indexer.Prepares.commitsAs hx hf hps) hst

theorem leaves_indexChunk (hx : L.Has x) (hst : L.Kept st.data) {org repo : String} {reindex : Bool}
    {files : List FileBytes} (hc : Carries L x (.indexChunk org repo reindex files))
    (hpast : ∀ cur ∈ st.marker, cur.index < marker.index) :
    Leaves st marker (.indexChunk org repo reindex files)
      (applyCommand x st marker (.indexChunk org repo reindex files))
      (change x st.data (.indexChunk org repo reindex files)) := by
  rw [applyCommand, change]
  cases hfs : files.mapM FileBytes.asBatchFile with
  | error e => exact rfl
  | ok fs =>
    have hfits := fits_of_mapM hfs hc.2
    have hcap : ((fs.map fun f => x.prepare st org repo f (chunkOptions reindex)).map
        PreparedFile.bytesLen).sum < usizeMax := by rw [bytesLen_sum hfs]; exact hc.1
    have hcases := @indexPreparedMarked_cases none x st marker org repo
      (chunkOptions reindex) _ hpast hcap
    rw [indexPreparedMarked_eq hx hst hfits hpast] at hcases
    dsimp only
    rw [indexPreparedMarked_eq hx hst hfits hpast, ok_bind]
    have hfinal := @Indexer.runFiles_final x org repo (chunkOptions reindex) usizeMax st.nextBatchId
      ⟨[], (Store.markOpenBatch ⟨st.data, st.nextBatchId + 1, st.openBatchId, st.openOrg,
        st.openRepo, some marker, st.membership⟩ st.nextBatchId org repo), 0, []⟩ fs
    dsimp only [Store.markOpenBatch] at hfinal hcases ⊢
    cases hrun : x.dataRun org repo (chunkOptions reindex) st.data fs with
    | error e =>
      rw [hrun] at hfinal
      obtain ⟨before, heq⟩ := hfinal
      rw [heq] at hcases ⊢
      rcases hcases with ⟨_, _, h, -⟩ | ⟨_, h, -⟩
      · cases (Batch.mk.inj h).2
      · obtain ⟨rfl, -⟩ := Batch.mk.inj h
        rfl
    | ok d =>
      rw [hrun] at hfinal
      obtain ⟨out, before, heq⟩ := hfinal
      rw [heq] at hcases ⊢
      rcases hcases with ⟨_, _, h, -⟩ | ⟨_, h, -⟩
      · rcases List.append_eq_singleton_iff.mp (Batch.mk.inj h).1 with ⟨rfl, -⟩ | ⟨-, hnil⟩
        · exact ⟨_, rfl⟩
        · cases hnil
      · cases (Batch.mk.inj h).2

theorem leaves_marked {α β : Type} {answer : β → LogResponse}
    {f : Data → Except StoreError (Data × α)} (g : α → β)
    (hpast : ∀ cur ∈ st.marker, cur.index < marker.index) {cmd : Command}
    (hcmd : ∀ d, settle st d marker cmd = { st with data := d, marker := some marker }) :
    Leaves st marker cmd (.ofWrite answer (do
      let wt ← st.stampMarker marker none
      let (d, a) ← f wt.data
      return (wt.withData d, g a))) ((f st.data).map Prod.fst) := by
  rw [stampMarker_past hpast, ok_bind]
  dsimp only
  cases f st.data with
  | error e => exact rfl
  | ok r => exact ⟨_, by rw [hcmd]; rfl⟩

theorem leaves_applyCommand (hx : L.Has x) (hst : L.Kept st.data) {cmd : Command}
    (hc : Carries L x cmd) (hpast : ∀ cur ∈ st.marker, cur.index < marker.index) :
    Leaves st marker cmd (applyCommand x st marker cmd) (change x st.data cmd) := by
  match cmd with
  | .indexChunk org repo reindex files => exact leaves_indexChunk hx hst hc hpast
  | .ingestExtraction org repo path language none origin => exact rfl
  | .ingestExtraction org repo path language (some (.error why)) origin => exact rfl
  | .ingestExtraction org repo path language (some (.ok ex)) origin =>
    rw [applyCommand, change, Store.ingestFileMarked]
    cases validateSpans ex with
    | error e => exact rfl
    | ok u =>
      rw [ok_bind, ok_bind]
      exact leaves_marked (f := fun d => d.ingestPrepped x.sha256 org repo path language ex
        (Store.fileMetaExtracted origin)) id hpast fun d => by rfl
  | .prune org repo keep =>
    exact leaves_marked (f := fun d => d.pruneIn org repo keep false) id hpast fun d => by rfl
  | .vacuum =>
    exact leaves_marked (f := fun d => d.vacuumIn x.sha256) Prod.fst hpast fun d => by rfl
  | .noop =>
    rw [applyCommand, change, Store.markOnly, stampMarker_past hpast]
    exact ⟨_, rfl⟩

theorem map_fst_eq_ok {α : Type} {r : Except StoreError (Data × α)} {d : Data}
    (h : r.map Prod.fst = .ok d) : ∃ a, r = .ok (d, a) := by
  cases r with
  | error e => cases h
  | ok p => exact ⟨p.2, by rw [← Except.ok.inj h]⟩

theorem change_again (hx : L.Has x) {d d' : Data} (hd : L.Kept d) {cmd : Command}
    (hc : Carries L x cmd) (h : change x d cmd = .ok d') :
    L.Kept d' ∧ change x d' cmd = .ok d' := by
  match cmd with
  | .indexChunk org repo reindex files =>
    obtain ⟨fs, hfs, hrun⟩ := bind_eq_ok.mp h
    have hfits := fits_of_mapM hfs hc.2
    refine ⟨hd.dataRun hx hfits hrun, ?_⟩
    rw [change, hfs, ok_bind]
    exact dataRun_again hd hx hfits hrun
  | .ingestExtraction org repo path language (some (.ok ex)) origin =>
    obtain ⟨u, hvalid, h⟩ := bind_eq_ok.mp h
    obtain ⟨stats, happly⟩ := map_fst_eq_ok h
    obtain ⟨s, rfl, hp⟩ := hd
    rw [hx.sha256] at happly
    obtain ⟨s', rfl, hwrote, -⟩ := wrote_of_apply s (hc hvalid) happly
    refine ⟨⟨s', rfl, hp.wrote (Or.inl rfl) hwrote⟩, ?_⟩
    -- the write repeated on its own result is that result
    have hagain : Run Wrote s' [extractionWrite org repo path language ex origin] s' :=
      Overwriting.replay (o := overwriting L.toSetting) (.cons hwrote (.nil s'))
    cases hagain with
    | cons hwrote' hnil =>
      cases hnil
      obtain ⟨stats', hcall⟩ := hwrote'.call
      have hcall : s'.data.ingestPrepped L.sha256 org repo path language ex
        (Store.fileMetaExtracted origin) = .ok (s'.data, stats') := hcall
      rw [change, hvalid, ok_bind, hx.sha256, hcall]
      rfl
  | .prune org repo keep =>
    obtain ⟨removed, hprune⟩ := map_fst_eq_ok h
    refine ⟨hd.step (.prune hprune), ?_⟩
    obtain ⟨s, rfl, -⟩ := hd
    obtain ⟨s', rfl, -⟩ := exists_pruned s hprune
    rw [change, pruneIn_again hprune rfl]
    rfl
  | .vacuum =>
    obtain ⟨stats, hvac⟩ := map_fst_eq_ok h
    rw [hx.sha256] at hvac
    refine ⟨hd.step (.vacuum hvac), ?_⟩
    obtain ⟨s, rfl, -⟩ := hd
    obtain ⟨stats', hagain⟩ := vacuumIn_again s hvac
    rw [change, hx.sha256, hagain]
    rfl
  | .noop =>
    cases h
    exact ⟨hd, rfl⟩

def commandEntry (marker : RaftMarker) (cmd : Command) : Entry := ⟨marker, .normal (.ok (some cmd))⟩

theorem Carries.inMemory {cmd : Command} (hc : Carries L x cmd) :
    (commandEntry marker cmd).payload.InMemory := by
  match cmd with
  | .indexChunk org repo reindex files => exact hc.1
  | .ingestExtraction _ _ _ _ _ _ => exact trivial
  | .prune _ _ _ => exact trivial
  | .vacuum => exact trivial
  | .noop => exact trivial

theorem applyOne_command (hx : L.Has x) (hst : L.Kept st.data) {cmd : Command}
    (hc : Carries L x cmd) (hpast : ∀ cur ∈ st.marker, cur.index < marker.index) :
    match change x st.data cmd with
    | .ok d => (applyOne x st (commandEntry marker cmd)).final st = settle st d marker cmd ∧
        (applyOne x st (commandEntry marker cmd)).result.isOk = true
    | .error e => (applyOne x st (commandEntry marker cmd)).final st =
          (if isRefusal e then { st with marker := some marker } else st) ∧
        (applyOne x st (commandEntry marker cmd)).result.isOk = isRefusal e := by
  have hout : Leaves st marker cmd (applyPayload x st marker (commandEntry marker cmd).payload)
    (change x st.data cmd) := leaves_applyCommand hx hst hc hpast
  have hsingle := @single_applyPayload x st marker (commandEntry marker cmd).payload
    hpast hc.inMemory
  cases hchange : change x st.data cmd with
  | ok d =>
    rw [hchange] at hout
    obtain ⟨resp, heq⟩ := hout
    dsimp only
    rw [applyOne_ok (e := commandEntry marker cmd) hpast heq rfl]
    exact ⟨rfl, rfl⟩
  | error e =>
    rw [hchange] at hout
    have heq : applyPayload x st marker (commandEntry marker cmd).payload = ⟨[], .error e⟩ := hout
    rw [heq] at hsingle
    have hstale : e.isStale = false := by
      rcases hsingle with ⟨_, _, h, -⟩ | ⟨_, h, hstale⟩
      · cases h
      · cases h
        exact hstale
    dsimp only
    rw [applyOne_error (e := commandEntry marker cmd) hpast heq hstale]
    cases isRefusal e with
    | false => exact ⟨rfl, rfl⟩
    | true => exact ⟨rfl, rfl⟩

/-- A command applied again right after itself, at a higher log id, changes nothing but the
marker and the batch-id counter, and stops the node exactly when it did the first time. -/
theorem resent_command_changes_nothing (hx : L.Has x) (hst : L.Reachable st.data) {cmd : Command}
    (hc : Carries L x cmd) {m₁ m₂ : RaftMarker} (hpast : ∀ cur ∈ st.marker, cur.index < m₁.index)
    (hlt : m₁.index < m₂.index) {st₁ st₂ : Store}
    (h₁ : (applyOne x st (commandEntry m₁ cmd)).final st = st₁)
    (h₂ : (applyOne x st₁ (commandEntry m₂ cmd)).final st₁ = st₂) :
    st₂ = { st₁ with marker := st₂.marker, nextBatchId := st₂.nextBatchId } ∧
      (applyOne x st₁ (commandEntry m₂ cmd)).result.isOk =
      (applyOne x st (commandEntry m₁ cmd)).result.isOk := by
  have hfirst := applyOne_command hx hst.kept hc hpast
  cases hchange : change x st.data cmd with
  | ok d =>
    rw [hchange] at hfirst
    obtain ⟨hkept, hagain⟩ := change_again hx hst.kept hc hchange
    obtain ⟨hfinal, hok⟩ := hfirst
    obtain rfl : settle st d m₁ cmd = st₁ := hfinal.symm.trans h₁
    have hsecond := @applyOne_command L x (settle st d m₁ cmd) m₂ hx
      (by rw [settle_data]; exact hkept) cmd hc (by
      rw [settle_marker]
      rintro cur ⟨⟩
      exact hlt)
    rw [settle_data, hagain] at hsecond
    obtain ⟨hfinal₂, hok₂⟩ := hsecond
    obtain rfl : settle (settle st d m₁ cmd) d m₂ cmd = st₂ := hfinal₂.symm.trans h₂
    refine ⟨?_, hok₂.trans hok.symm⟩
    rw [settle_marker (settle st d m₁ cmd)]
    exact settle_settle st d m₁ cmd m₂
  | error e =>
    rw [hchange] at hfirst
    obtain ⟨hfinal, hok⟩ := hfirst
    -- refused or failed, the tables are those of before
    have hstore : st₁ = { st with marker := st₁.marker } := by
      rw [← h₁, hfinal]
      split_ifs <;> rfl
    have hpast₁ : ∀ cur ∈ st₁.marker, cur.index < m₂.index := by
      rw [← h₁, hfinal]
      split_ifs
      · rintro cur ⟨⟩
        exact hlt
      · exact fun cur hcur => (hpast cur hcur).trans hlt
    have hdata : st₁.data = st.data := by rw [hstore]
    have hchange₁ : change x st₁.data cmd = .error e := by rw [hdata]; exact hchange
    have hsecond := @applyOne_command L x st₁ m₂ hx (by rw [hdata]; exact hst.kept) cmd hc hpast₁
    rw [hchange₁] at hsecond
    obtain ⟨hfinal₂, hok₂⟩ := hsecond
    refine ⟨?_, hok₂.trans hok.symm⟩
    rw [← h₂, hfinal₂]
    split_ifs <;> rfl

def samplePairChunk : Command :=
  .indexChunk "o" "r" false [⟨"a.txt", [120], none, none, none, false⟩,
    ⟨"a.txt", [121], none, none, none, false⟩]

theorem resent_command_changes_nothing_pair :
    ∃ st₁ st₂,
      (applyOne sampleIndexer Store.empty (commandEntry ⟨1, 1, 1⟩ samplePairChunk)).final
        Store.empty = st₁ ∧
      (applyOne sampleIndexer st₁ (commandEntry ⟨1, 2, 1⟩ samplePairChunk)).final st₁ = st₂ ∧
      st₁.data.streams.len = 1 ∧ st₂.data = st₁.data := by
  have hc : Carries sampleLineage sampleIndexer samplePairChunk := by
    refine ⟨by decide, fun f hf b hb => ?_⟩
    rcases List.mem_pair.mp hf with rfl | rfl
    · cases hb
      exact @sampleFile_fits "a.txt" [120] (chunkOptions false) rfl (by decide) (by decide)
    · cases hb
      exact @sampleFile_fits "a.txt" [121] (chunkOptions false) rfl (by decide) (by decide)
  refine ⟨_, _, rfl, rfl, by decide +kernel, ?_⟩
  have hsame := (@resent_command_changes_nothing sampleLineage sampleIndexer Store.empty
    sampleLineage_has reachable_empty samplePairChunk hc ⟨1, 1, 1⟩ ⟨1, 2, 1⟩ (by simp [Store.empty])
    (by decide) _ _ rfl rfl).1
  rw [hsame]

end Server
end MemoryGraph
