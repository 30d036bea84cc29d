import MemoryGraph.Batch.Loop
import MemoryGraph.Store.Repeat

/-! The stores the writers of a lineage leave: every one keeps its tables in agreement and
its fingerprints telling. -/

namespace MemoryGraph
open Lib Codec

/-- One file, extraction, prune or vacuum that some transaction holds. A file may have been
prepared against any store, with any answer of the unchanged check. -/
inductive Lineage.Step (L : Lineage) : Data → Data → Prop
  | commit {x : Indexer} {f : BatchFile} {opts : IndexOptions} {org repo : String}
      {ask : String → String → String → Data → Data × Bool} {d₀ d d' : Data}
      {r : Except StoreError IngestStats} : L.Has x → L.Fits x opts f →
      x.commitPrepared d org repo (x.prepareFile org repo f opts ask d₀).2 opts = .ok (d', r) →
      Lineage.Step L d d'
  | extracted {w : Write} {d d' : Data} {stats : IngestStats} :
      w.Fits L.toSetting → w.fm.fingerprint = none → w.apply L.sha256 d = .ok (d', stats) →
      Lineage.Step L d d'
  | prune {d d' : Data} {org repo : String} {keep : List String} {dryRun : Bool}
      {removed : List String} :
      d.pruneIn org repo keep dryRun = .ok (d', removed) → Lineage.Step L d d'
  | vacuum {d d' : Data} {stats : VacuumStats} {nothing : Bool} :
      d.vacuumIn L.sha256 = .ok (d', stats, nothing) → Lineage.Step L d d'

def Lineage.Reachable (L : Lineage) : Data → Prop := Relation.ReflTransGen L.Step Data.empty

variable {L : Lineage}

theorem reachable_empty : L.Reachable Store.empty.data := Relation.ReflTransGen.refl

theorem Printed.pruned {s s' : State L.toSetting} (hp : Printed s) {org repo : String}
    {keep : List String} {dryRun : Bool} {removed : List String}
    (h : s.data.pruneIn org repo keep dryRun = .ok (s'.data, removed))
    (hentries : s'.entries = s.entries)
    (hstreams : ∀ i n, s'.data.nodes.get i = some n → n.kind = .file → s'.streams i = s.streams i) :
    Printed s' := by
  intro fid n fp hn hk hfp
  obtain ⟨w, repoId, ids, hmade⟩ := hp fid n fp (pruned_sub h hn) hk hfp
  refine ⟨w, repoId, ids, hmade.mono (fun hf => ?_) (hstreams fid n hn hk) (hentries ▸ hmade.ids)⟩
  refine hf.mono (fun m hm => ?_) fun i m hm hmk => pruned_keep h hm hmk
  obtain rfl := Option.some.inj ((pruned_sub h hn).symm.trans hm)
  exact hn

theorem Printed.vacuumed {s s' : State L.toSetting} (hp : Printed s)
    (hnodes : s'.data.nodes = s.data.nodes) (hstreams : s'.streams = s.streams)
    (hmem : ∀ e, e ∈ s'.entries ↔ e ∈ s.entries ∧ Live s.streams e.1) : Printed s' := by
  intro fid n fp hn hk hfp
  rw [hnodes] at hn
  obtain ⟨w, repoId, ids, hmade⟩ := hp fid n fp hn hk hfp
  refine ⟨w, repoId, ids, hmade.mono (fun hf => hnodes ▸ hf) (congrFun hstreams fid) ?_⟩
  exact forall₂_live hmade.ids fun e he huse => (hmem e).mpr ⟨he, fid, _, hmade.stream, huse⟩

theorem Lineage.Kept.step {d d' : Data} (h : L.Kept d) (hstep : L.Step d d') : L.Kept d' := by
  cases hstep with
  | commit hx hf hcall =>
    obtain ⟨s, rfl, hp⟩ := id h
    rw [commitPrepared_prepared hp hx hf.bytes] at hcall
    exact h.outcome hx hf hcall
  | extracted hw hfp hcall =>
    obtain ⟨s, rfl, hp⟩ := h
    obtain ⟨s', hs', hwrote, -⟩ := wrote_of_apply s hw hcall
    exact ⟨s', hs', hp.wrote (Or.inl hfp) hwrote⟩
  | prune hcall =>
    obtain ⟨s, rfl, hp⟩ := h
    obtain ⟨s', rfl, hentries, hstreams⟩ := exists_pruned s hcall
    exact ⟨s', rfl, hp.pruned hcall hentries hstreams⟩
  | vacuum hcall =>
    obtain ⟨s, rfl, hp⟩ := h
    obtain ⟨s', hs', hnodes, hstreams, hmem⟩ := exists_vacuumed s hcall
    exact ⟨s', hs', hp.vacuumed hnodes hstreams hmem⟩

theorem Lineage.Reachable.kept {d : Data} (h : L.Reachable d) : L.Kept d := by
  induction h with
  | refl => exact ⟨State.empty L.toSetting, rfl, printed_empty⟩
  | tail _ hstep ih => exact ih.step hstep

def latin1 (bytes : List UInt8) : String := String.ofList (bytes.map fun b => Char.ofNat b.toNat)

def sampleCodecs : Codecs where
  forBom _ := none
  decode _ bytes := (latin1 bytes, false)
  strict _ _ := none
  fromUtf8 bytes := some (latin1 bytes)
  guess _ := .utf8

def sampleRegistry : Registry where
  extractors _ := none
  extensions _ := none
  extensionOf _ := none
  detectFromContent _ _ := "text"
  fallbackVersion := "fallback-1"
  tokenize src := [⟨src, .identifier, ⟨0, 1, 0, 0, 0, 1⟩⟩]

def sampleIndexer : Indexer := ⟨id, sampleCodecs, sampleRegistry⟩

def sampleLineage : Lineage where
  sha256 := id
  known := Set.univ
  injOn := Function.injective_id.injOn
  codecs := sampleCodecs
  registries := {sampleRegistry}
  lawful := ⟨fun _ _ _ h => (by cases h), fun _ _ h => congrArg (·, false) (Option.some.inj h)⟩
  plain r hr lang := by
    obtain rfl := Set.mem_singleton_iff.mp hr
    change '|' ∉ "fallback-1".toList
    decide
  agree r hr r' hr' lang _ src := by rw [Set.mem_singleton_iff.mp hr, Set.mem_singleton_iff.mp hr']

theorem sampleLineage_has : sampleLineage.Has sampleIndexer := ⟨rfl, rfl, rfl⟩

def sampleOpts : IndexOptions := ⟨false, none, false⟩

def sampleFile (path : String) (bytes : List UInt8) : BatchFile :=
  ⟨path, bytes, none, none, none, false⟩

theorem sampleCodecs_decodeSource (bytes : List UInt8) :
    sampleCodecs.decodeSource bytes none = ⟨latin1 bytes, .utf8, false⟩ := by
  have hcand : ∀ units high low e, sampleCodecs.candidate bytes units high low e = none := by
    intro units high low e
    unfold Codecs.candidate
    dsimp only
    split_ifs <;> rfl
  have hsniff : sampleCodecs.sniffUtf16 bytes = none := by
    unfold Codecs.sniffUtf16
    dsimp only
    split_ifs
    · rfl
    · rw [hcand, hcand]
  change sampleCodecs.decodeUnhinted bytes = _
  unfold Codecs.decodeUnhinted
  rw [hsniff]
  dsimp only
  split_ifs <;> rfl

theorem sampleFile_source {path : String} {bytes : List UInt8} {opts : IndexOptions}
    (hopts : opts.encoding = none) {s : Indexer.Source}
    (h : sampleIndexer.readSource (sampleFile path bytes) opts = .ok s) :
    s = ⟨latin1 bytes, "text", .utf8, false⟩ := by
  unfold Indexer.readSource at h
  have hdecode : sampleIndexer.codecs.decodeSource (sampleFile path bytes).bytes
      ((sampleFile path bytes).encoding.or opts.encoding) = ⟨latin1 bytes, .utf8, false⟩ := by
    rw [hopts]
    exact sampleCodecs_decodeSource bytes
  dsimp only at h
  rw [hdecode] at h
  split_ifs at h
  exact (Except.ok.inj h).symm

theorem sampleFile_fits {path : String} {bytes : List UInt8} {opts : IndexOptions}
    (hopts : opts.encoding = none) (hpath : (utf8 (normalizePath path)).length < 2 ^ 63)
    (hbytes : (utf8 (latin1 bytes)).length < 2 ^ 63) :
    sampleLineage.Fits sampleIndexer opts (sampleFile path bytes) where
  bytes := Set.mem_univ _
  path := hpath
  language s hs := by
    rw [sampleFile_source hopts hs]
    change (utf8 (asciiLower "text")).length < 2 ^ 63
    decide
  memory s hs := by
    rw [sampleFile_source hopts hs]
    refine ⟨Nat.two_pow_pos 63, ?_, fun t ht => ?_⟩
    · change 56 * 1 < 2 ^ 63
      decide
    obtain rfl := List.mem_singleton.mp ht
    exact hbytes
  symbols s hs := by
    rw [sampleFile_source hopts hs]
    exact Nat.zero_le _
  texts s hs t _ := Set.mem_univ _

end MemoryGraph
