import MemoryGraph.Server.Apply
import MemoryGraph.Store.Faults
import MemoryGraph.Lib.Delivery
import MemoryGraph.Batch.Reach

/-! The log is applied exactly once: every entry commits its marker with its write, in one
transaction, and an entry at or below the marker is skipped. -/

namespace MemoryGraph
open Lib
variable {membership : Option (List UInt8)}

def StoreError.isStale : StoreError → Bool
  | .alreadyApplied _ => true
  | _ => false

abbrev NeverStale {α : Type} (x : Except StoreError α) : Prop :=
  FailsAs (fun e => e.isStale = false) x

theorem StoreError.not_stale_of_isRejected (e : StoreError) (h : e.isRejected = true) :
    e.isStale = false := by
  cases e <;> first | rfl | cases h

theorem Faults.neverStale {α : Type} {x : Except StoreError α} (h : Faults x) : NeverStale x :=
  h.mono fun e he => e.not_stale_of_isRejected (e.isRejected_of_isFault he)

namespace Indexer
variable (x : Indexer)

theorem neverStale_commitPrepared (d : Data) (org repo : String) (p : PreparedFile)
    (opts : IndexOptions) : NeverStale (x.commitPrepared d org repo p opts) := by
  have hstore : ∀ d work, NeverStale (x.storeExtracted d org repo p work) := by
    intro d work
    unfold storeExtracted
    split
    · exact .bind ((rejects_ingestPrepped _ _ _ _ _ _ _ _).mono StoreError.not_stale_of_isRejected)
        fun _ => .ok _
    · exact .ok _
    · exact .error rfl
  refine .ite (.error rfl) ?_
  split
  · exact .ok _
  · exact .ok _
  · split
    · exact .ok _
    · split
      · exact hstore _ _
      · exact hstore _ _

variable {x} {org repo : String} {opts : IndexOptions}

theorem commitFiles_one {cap batchId : Nat} {l : Loop} {ps : List PreparedFile}
    (hcap : l.inTxn + (ps.map PreparedFile.bytesLen).sum < cap) :
    (∃ t out, x.commitFiles org repo opts cap batchId l (ps.map fun p d => (d, p)) =
      ⟨l.committed ++ [t], .ok out⟩ ∧ t.marker = l.wt.marker) ∨
    ∃ e, x.commitFiles org repo opts cap batchId l
      (ps.map fun p d => (d, p)) = ⟨l.committed, .error e⟩ ∧ e.isStale = false := by
  induction ps generalizing l with
  | nil => exact Or.inl ⟨_, _, rfl, rfl⟩
  | cons p ps ih =>
    rw [List.map_cons, List.sum_cons] at hcap
    rw [List.map_cons, commitFiles, commitFile]
    dsimp only
    cases hone : x.commitPrepared l.wt.data org repo p opts with
    | error e => exact Or.inr ⟨e, rfl, neverStale_commitPrepared x _ _ _ _ _ e hone⟩
    | ok r =>
      rw [ok_bind]
      split_ifs with hs hlt
      · exact @ih ⟨l.committed, l.wt.withData r.1, l.inTxn + p.bytesLen, l.out ++ [r.2]⟩
          (by dsimp only; omega)
      · exact absurd (by omega) hlt
      · exact @ih { l with wt := l.wt.withData r.1, out := l.out ++ [r.2] } (by dsimp only; omega)

end Indexer

namespace Server

def LogResponse.isFailed : LogResponse → Bool
  | .failed _ => true
  | _ => false

def Single (marker : RaftMarker) (a : Applied) : Prop :=
  (∃ t resp, a = ⟨[t], .ok resp⟩ ∧ t.marker = some marker ∧ resp.isFailed = false) ∨
    ∃ e, a = ⟨[], .error e⟩ ∧ e.isStale = false

variable {x : Indexer} {st : Store} {marker : RaftMarker}

theorem single_ofWrite {α : Type} {answer : α → LogResponse} {r : Except StoreError (Store × α)}
    (hfail : NeverStale r) (hmark : ∀ t a, r = .ok (t, a) → t.marker = some marker)
    (hanswer : ∀ a, (answer a).isFailed = false) : Single marker (.ofWrite answer r) := by
  cases r with
  | error e => exact Or.inr ⟨e, rfl, hfail e rfl⟩
  | ok p => exact Or.inl ⟨p.1, _, rfl, hmark p.1 p.2 rfl, hanswer p.2⟩

theorem stampMarker_past (hpast : ∀ cur ∈ st.marker, cur.index < marker.index) :
    st.stampMarker marker membership =
      .ok { st with marker := some marker, membership := membership.or st.membership } := by
  unfold Store.stampMarker
  rw [failIf_of_not]
  · rfl
  · rintro ⟨cur, hcur, hle⟩
    exact absurd (hpast cur hcur) (not_lt.mpr hle)

theorem single_marked {α β : Type} {answer : β → LogResponse}
    {f : Data → Except StoreError (Data × α)} (g : α → β)
    (hpast : ∀ cur ∈ st.marker, cur.index < marker.index) (hf : ∀ d, NeverStale (f d))
    (hanswer : ∀ b, (answer b).isFailed = false) :
    Single marker (.ofWrite answer (do
      let wt ← st.stampMarker marker membership
      let (d, a) ← f wt.data
      return (wt.withData d, g a))) := by
  rw [stampMarker_past hpast, ok_bind]
  refine single_ofWrite (.bind (hf _) fun _ => .ok _) (fun t a h => ?_) hanswer
  obtain ⟨r, -, h⟩ := bind_eq_ok.mp h
  cases h
  rfl

def Payload.InMemory : Payload → Prop
  | .normal (.ok (some (.indexChunk _ _ _ files))) =>
  (files.map fun f => f.bytes.length).sum < usizeMax
  | _ => True

theorem asBatchFile_bytes {f : FileBytes} {b : BatchFile} (h : f.asBatchFile = .ok b) :
    b.bytes = f.bytes := by
  unfold FileBytes.asBatchFile at h
  split at h
  · exact Except.ok.inj h ▸ rfl
  · exact Except.ok.inj h ▸ rfl
  · cases h

theorem asBatchFile_error {f : FileBytes} : NeverStale f.asBatchFile := by
  unfold FileBytes.asBatchFile
  split
  · exact .ok _
  · exact .ok _
  · exact .error rfl

theorem bytesLen_sum {files : List FileBytes} {fs : List BatchFile}
    (h : files.mapM FileBytes.asBatchFile = .ok fs) (org repo : String) (opts : IndexOptions) :
    ((fs.map fun f => x.prepare st org repo f opts).map PreparedFile.bytesLen).sum =
      (files.map fun f => f.bytes.length).sum := by
  have hlen : ∀ f, (x.prepare st org repo f opts).bytesLen = f.bytes.length :=
    fun f => prepareFile_bytesLen ..
  rw [List.map_map]
  induction mapM_eq_ok.mp h with
  | nil => rfl
  | @cons f b files fs hone hrest ih =>
    rw [List.map_cons, List.map_cons, List.sum_cons, List.sum_cons, ih (mapM_eq_ok.mpr hrest),
      Function.comp_apply, hlen, asBatchFile_bytes hone]

theorem indexPreparedMarked_cases {org repo : String} {opts : IndexOptions}
    {ps : List PreparedFile} (hpast : ∀ cur ∈ st.marker, cur.index < marker.index)
    (hcap : (ps.map PreparedFile.bytesLen).sum < usizeMax) :
    (∃ t out, x.indexPreparedMarked st org repo ps opts marker membership = ⟨[t], .ok out⟩ ∧
      t.marker = some marker) ∨ ∃ e, x.indexPreparedMarked st org repo ps opts marker membership =
      ⟨[], .error e⟩ ∧ e.isStale = false := by
  unfold Indexer.indexPreparedMarked Indexer.commitEach
  dsimp only
  rw [stampMarker_past hpast]
  exact Indexer.commitFiles_one (by rw [Nat.zero_add]; exact hcap)

theorem single_indexChunk {org repo : String} {reindex : Bool} {files : List FileBytes}
    (hpast : ∀ cur ∈ st.marker, cur.index < marker.index)
    (hmem : (files.map fun f => f.bytes.length).sum < usizeMax) :
    Single marker (applyCommand x st marker (.indexChunk org repo reindex files)) := by
  rw [applyCommand]
  cases hfs : files.mapM FileBytes.asBatchFile with
  | error e => exact Or.inr ⟨e, rfl, FailsAs.mapM (fun _ => asBatchFile_error) e hfs⟩
  | ok fs =>
    have hcap : ((fs.map fun f => x.prepare st org repo f (chunkOptions reindex)).map
        PreparedFile.bytesLen).sum < usizeMax := by rw [bytesLen_sum hfs]; exact hmem
    dsimp only
    rcases indexPreparedMarked_cases hpast hcap with ⟨t, out, heq, hmark⟩ | ⟨e, heq, hstale⟩
    · rw [heq]
      exact Or.inl ⟨t, .index out, rfl, hmark, rfl⟩
    · rw [heq]
      exact Or.inr ⟨e, rfl, hstale⟩

theorem single_markOnly (hpast : ∀ cur ∈ st.marker, cur.index < marker.index) :
    Single marker (.ofWrite (fun _ => .marked) (st.markOnly marker membership)) := by
  unfold Store.markOnly
  rw [stampMarker_past hpast]
  exact Or.inl ⟨_, _, rfl, rfl, rfl⟩

theorem single_applyPayload {p : Payload} (hpast : ∀ cur ∈ st.marker, cur.index < marker.index)
    (hmem : p.InMemory) : Single marker (applyPayload x st marker p) := by
  match p with
  | .blank => exact single_markOnly hpast
  | .membership bytes => exact single_markOnly hpast
  | .normal (.error why) => exact Or.inr ⟨_, rfl, rfl⟩
  | .normal (.ok none) => exact Or.inr ⟨_, rfl, rfl⟩
  | .normal (.ok (some cmd)) =>
    match cmd with
    | .indexChunk org repo reindex files => exact single_indexChunk hpast hmem
    | .ingestExtraction org repo path language none origin => exact Or.inr ⟨_, rfl, rfl⟩
    | .ingestExtraction org repo path language (some (.error why)) origin =>
      exact Or.inr ⟨_, rfl, rfl⟩
    | .ingestExtraction org repo path language (some (.ok ex)) origin =>
      change Single marker (.ofWrite .ingest
        (st.ingestFileMarked x.sha256 org repo path language ex origin marker none))
      unfold Store.ingestFileMarked
      cases hv : validateSpans ex with
      | error e =>
        obtain ⟨why, rfl⟩ := validateSpans_error hv
        exact Or.inr ⟨_, rfl, rfl⟩
      | ok u =>
        rw [ok_bind]
        exact single_marked id hpast (fun d =>
          (rejects_ingestPrepped _ d _ _ _ _ _ _).mono StoreError.not_stale_of_isRejected) fun _ =>
          rfl
    | .prune org repo keep =>
      exact single_marked id hpast (fun d => (faults_pruneIn d _ _ _ _).neverStale) fun _ => rfl
    | .vacuum =>
      exact single_marked Prod.fst hpast (fun d => (faults_vacuumIn _ d).neverStale) fun _ => rfl
    | .noop => exact single_markOnly hpast

theorem applyOne_seen {e : Entry} {cur : RaftMarker} (hcur : st.marker = some cur)
    (hle : e.logId.index ≤ cur.index) : applyOne x st e = ⟨[], .ok .skipped⟩ :=
  if_pos ⟨cur, hcur, hle⟩

section
variable {e : Entry} (hpast : ∀ cur ∈ st.marker, cur.index < e.logId.index)
include hpast

theorem not_seen : ¬ ∃ cur ∈ st.marker, e.logId.index ≤ cur.index := by
  rintro ⟨cur, hcur, hle⟩
  exact absurd (hpast cur hcur) (not_lt.mpr hle)

theorem applyOne_ok {a : Applied} (h : applyPayload x st e.logId e.payload = a) {resp : LogResponse}
    (hres : a.result = .ok resp) : applyOne x st e = a := by
  unfold applyOne
  rw [if_neg (not_seen hpast), h]
  dsimp only
  rw [hres]

theorem applyOne_error {err : StoreError}
    (h : applyPayload x st e.logId e.payload = ⟨[], .error err⟩) (hstale : err.isStale = false) :
    applyOne x st e =
      if isRefusal err then ⟨[{ st with marker := some e.logId }], .ok (.failed err)⟩
      else ⟨[], .error err⟩ := by
  have hmark : markRefused (Applied.final ⟨[], .error err⟩ st) e.logId =
      .ok { st with marker := some e.logId } := by
    change markRefused st e.logId = _
    unfold markRefused Store.markOnly
    rw [stampMarker_past hpast]
    rfl
  unfold applyOne
  rw [if_neg (not_seen hpast), h]
  dsimp only
  rw [hmark]
  cases err with
  | alreadyApplied index => cases hstale
  | _ => rfl

theorem applyOne_past (hmem : e.payload.InMemory) :
    (∃ t resp, applyOne x st e = ⟨[t], .ok resp⟩ ∧ t.marker = some e.logId ∧
      (resp.isFailed = true → t = { st with marker := some e.logId })) ∨
    ∃ err, applyOne x st e = ⟨[], .error err⟩ := by
  rcases @single_applyPayload x st e.logId e.payload hpast hmem with ⟨t, resp, heq, hmark,
    hresp⟩ | ⟨err, heq, hstale⟩
  · exact Or.inl ⟨t, resp, applyOne_ok hpast heq rfl, hmark, fun h => by rw [hresp] at h; cases h⟩
  · rw [applyOne_error hpast heq hstale]
    split_ifs
    · exact Or.inl ⟨_, _, rfl, rfl, fun _ => rfl⟩
    · exact Or.inr ⟨_, rfl⟩

end

abbrev HeldEntry := { e : Entry // e.payload.InMemory }

def stateMachine (x : Indexer) : Machine Store HeldEntry RaftMarker where
  mark := Store.marker
  id e := e.1.logId
  index := RaftMarker.index
  apply st e := ((applyOne x st e.1).committed, (applyOne x st e.1).result.isOk)
  seen st e cur hcur hle := by
    rw [applyOne_seen hcur hle]
    rfl
  once st e hpast := by
    rcases applyOne_past hpast e.2 with ⟨t, resp, heq, hmark, -⟩ | ⟨err, heq⟩
    · rw [heq]
      exact Or.inl ⟨t, rfl, hmark⟩
    · rw [heq]
      exact Or.inr rfl

/-- However a log with ascending indexes is delivered, the store is that of its first `n` entries,
each applied once and in order, with the marker of the last; `n` is at least the entries ever
answered and at most those ever handed over. -/
theorem delivered_exactly_once {log : List HeldEntry}
    (hlog : log.Pairwise fun a b => a.1.logId.index < b.1.logId.index) {st₀ : Store}
    (hstart : ∀ cur ∈ st₀.marker, ∀ e ∈ log, cur.index < e.1.logId.index) {d : Delivery Store}
    (h : (stateMachine x).Delivered log st₀ d) :
    (∃ n, d.next ≤ n ∧ d.answered ≤ n ∧ n ≤ d.tried ∧ d.tried ≤ log.length ∧
      (stateMachine x).execAll st₀ (log.take n) = some d.state ∧
      d.state.marker = ((log.take n).getLast?.map fun e => e.1.logId).or st₀.marker) ∧
    ∀ (st : Store) (e : HeldEntry) (err : StoreError),
      (applyOne x st e.1).result = .ok (.failed err) →
        (applyOne x st e.1).final st = { st with marker := some e.1.logId } := by
  constructor
  · obtain ⟨n, hnext, hanswered, htried, hlen, hholds⟩ := Machine.Delivered.holds hlog hstart h
    exact ⟨n, hnext, hanswered, htried, hlen, hholds.exec, hholds.mark⟩
  · intro st e err hres
    by_cases hseen : ∃ cur ∈ st.marker, e.1.logId.index ≤ cur.index
    · obtain ⟨cur, hcur, hle⟩ := hseen
      rw [applyOne_seen hcur hle] at hres
      cases hres
    · have hpast : ∀ cur ∈ st.marker, cur.index < e.1.logId.index := fun cur hcur =>
        not_le.mp fun hle => hseen ⟨cur, hcur, hle⟩
      rcases applyOne_past hpast e.2 with ⟨t, resp, heq, -, hrefused⟩ | ⟨err', heq⟩
      · rw [heq] at hres ⊢
        cases hres
        exact hrefused rfl
      · rw [heq] at hres
        cases hres

def blankEntry : HeldEntry := ⟨⟨⟨1, 1, 1⟩, .blank⟩, trivial⟩

def undecodableEntry : HeldEntry := ⟨⟨⟨1, 2, 1⟩, .normal (.error "truncated")⟩, trivial⟩

def sampleLog : List HeldEntry := [blankEntry, undecodableEntry]

def sampleMarked (index : Nat) : Store := { Store.empty with marker := some ⟨1, index, 1⟩ }

theorem delivered_exactly_once_replayed :
    (stateMachine sampleIndexer).Delivered sampleLog Store.empty ⟨sampleMarked 2, 2, 2, 2⟩ ∧
      (stateMachine sampleIndexer).execAll Store.empty sampleLog = some (sampleMarked 2) := by
  have hfirst : (stateMachine sampleIndexer).Step sampleLog ⟨Store.empty, 0, 0, 0⟩
      ⟨sampleMarked 1, 1, 1, 1⟩ :=
    .deliver (e := blankEntry) rfl rfl
  have hcrash : (stateMachine sampleIndexer).Step sampleLog ⟨sampleMarked 1, 1, 1, 1⟩
      ⟨sampleMarked 2, 0, 2, 1⟩ :=
    .crash (e := undecodableEntry) (k := 1) rfl ⟨Nat.zero_le _, fun e he =>
      absurd he List.not_mem_nil⟩
  have hagain : (stateMachine sampleIndexer).Step sampleLog ⟨sampleMarked 2, 0, 2, 1⟩
      ⟨sampleMarked 2, 1, 2, 1⟩ :=
    .deliver (e := blankEntry) rfl rfl
  have hlast : (stateMachine sampleIndexer).Step sampleLog ⟨sampleMarked 2, 1, 2, 1⟩
      ⟨sampleMarked 2, 2, 2, 2⟩ :=
    .deliver (e := undecodableEntry) rfl rfl
  have hrun : (stateMachine sampleIndexer).Delivered sampleLog Store.empty
      ⟨sampleMarked 2, 2, 2, 2⟩ :=
    (((Relation.ReflTransGen.single hfirst).tail hcrash).tail hagain).tail hlast
  obtain ⟨⟨n, hnext, -, htried, -, hexec, -⟩, -⟩ := delivered_exactly_once
    (by simp [sampleLog, blankEntry, undecodableEntry]) (by simp [Store.empty]) hrun
  obtain rfl : n = 2 := le_antisymm htried hnext
  exact ⟨hrun, hexec⟩

end Server
end MemoryGraph
