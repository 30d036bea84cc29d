import MemoryGraph.Store.Reach

/-! An ingest that passes the checks succeeds as long as ids are left. -/

namespace MemoryGraph
open Lib Codec

theorem ensure_found {d : Data} {parent : Option Nat} {kind : NodeKind} {name : String} {id : Nat}
    (h : d.names.get (nameKey parent kind name) = some id) (language : Option String) :
    d.ensure parent kind name language = .ok (d, id, true) := by
  rw [Data.ensure, h]
  rfl

theorem ensure_new {d : Data} {parent : Option Nat} {kind : NodeKind} {name : String}
    (h : d.names.get (nameKey parent kind name) = none) (hroom : d.nextId ≤ maxLocal)
    (language : Option String) :
    d.ensure parent kind name language =
      .ok (d.addEntity (entityNode d.nextId parent kind name language), d.nextId, false) := by
  rw [Data.ensure, h]
  dsimp only
  rw [failIf_of_not (not_lt.mpr hroom), pure_eq_ok, ok_bind]
  rfl

section
variable {sha256 : List UInt8 → List UInt8} {ok : Extraction → Prop} {d : Data}
  {σ : Nat → Option Stream} {es : List (Nat × String)} (h : Inv sha256 ok d σ es)
  {org repo path language : String} {ex : Extraction}
include h

theorem IngestStart.replaceOld_ok (r : IngestStart d org repo path language ex) (tally : Tally) :
    ∃ d₄ tally', (r.d₃.markRepo org repo).replaceOld r.existed org repo r.fileId tally =
      .ok (d₄, tally') ∧
      d₄.terms = d.terms ∧ Content sha256 ok d₄ (Function.update σ r.fileId none) es := by
  obtain ⟨-, hcontent, n, hn, -⟩ := r.file_spec h
  obtain ⟨_, _, _, _, h1⟩ := ensure_frame r.org_eq
  obtain ⟨_, _, _, _, h2⟩ := ensure_frame r.repo_eq
  obtain ⟨_, _, _, _, h3⟩ := ensure_frame r.file_eq
  have hterms : r.d₃.terms = d.terms := by rw [h3, h2, h1]
  rw [Data.replaceOld]
  cases hs : σ r.fileId with
  | none =>
    have hno : ¬ r.existed = true := fun he => by simpa [hs] using (r.existed_iff h).mpr he
    refine ⟨r.d₃.markRepo org repo, tally, if_neg hno, hterms, ?_⟩
    rw [Function.update_eq_self_iff.mpr hs.symm]
    exact hcontent
  | some st =>
    have hyes : r.existed = true := (r.existed_iff h).mp (by rw [hs]; rfl)
    have hrow : (r.d₃.markRepo org repo).nodes.get r.fileId = some n := hn
    rw [if_pos hyes, hrow]
    exact ⟨_, _, removeContent_some (d := r.d₃.markRepo org repo) hcontent hs _ _, hterms,
      content_drop (d := r.d₃.markRepo org repo) hcontent hs⟩

theorem IngestStart.exists_run_of_interned (r : IngestStart d org repo path language ex)
    (fm : FileMeta) {dict : Dict} {ids : List Nat}
    (hi : internAll sha256 d.terms (V2Prep.build ex).terms = .ok (dict, ids)) :
    ∃ run : IngestRun sha256 d org repo path language ex fm, run.toIngestStart = r ∧
      run.final.terms = dict ∧
      ∃ stats, d.ingestPrepped sha256 org repo path language ex fm = .ok (run.final, stats) := by
  obtain ⟨d₄, tally, hold, hterms, -⟩ := r.replaceOld_ok h
    (Tally.file Table.empty ⟨org, repo, asciiLower language, fm.encoding, fm.lossy⟩ 1)
  rw [← hterms] at hi
  obtain ⟨row, hrow⟩ : ∃ row,
    fileKeyRow (fileNode r.fileId r.repoId (normalizePath path) (asciiLower language) ex
      fm) = .ok row := ⟨_, rfl⟩
  obtain ⟨d₅, hput, hd₅⟩ :
    ∃ d₅, (d₄.putFile r.fileId (fileNode r.fileId r.repoId (normalizePath path)
      (asciiLower language) ex fm) row).putContent sha256 r.fileId (V2Prep.build ex) = .ok d₅ ∧
      d₅.terms = dict := by
    refine ⟨_, bind_eq_ok.mpr ⟨(dict, ids), hi, rfl⟩, ?_⟩
    dsimp only
    rw [foldl_indexSymbol]
  refine ⟨⟨r, d₄, d₅, tally, row, _, _, rfl, rfl, hold, hrow, hput⟩, rfl, hd₅, ?_⟩
  exact ⟨_, bind_eq_ok.mpr ⟨(), r.checked,
    bind_eq_ok.mpr ⟨_, r.org_eq, bind_eq_ok.mpr ⟨_, r.repo_eq,
    bind_eq_ok.mpr ⟨_, r.file_eq,
      bind_eq_ok.mpr ⟨_, hold, bind_eq_ok.mpr ⟨_, hrow, bind_eq_ok.mpr ⟨_, hput, rfl⟩⟩⟩⟩⟩⟩⟩⟩

theorem IngestStart.exists_run (r : IngestStart d org repo path language ex) (fm : FileMeta)
    (hmem : ex.InMemory) (hcf : CollisionFree sha256 (textsOf es ∪ {t | t ∈ ex.texts}))
    (hroom : d.terms.nextTerm + (V2Prep.build ex).terms.length ≤ usizeMax) :
    ∃ run : IngestRun sha256 d org repo path language ex fm, run.toIngestStart = r ∧
      run.final.terms.nextTerm ≤ d.terms.nextTerm + (V2Prep.build ex).terms.length ∧
      ∃ stats, d.ingestPrepped sha256 org repo path language ex fm = .ok (run.final, stats) := by
  have htexts := (build_spelled ex).texts
  obtain ⟨dict, ids, hi, hnext⟩ := internAll_ok hcf (V2Prep.build ex).terms
    (fun t ht => ⟨Or.inr (htexts t ht), (hmem.texts t (htexts t ht)).trans (by decide)⟩)
    h.content.dict Set.subset_union_left hroom
  obtain ⟨run, hrun, hterms, hcall⟩ := r.exists_run_of_interned h fm hi
  exact ⟨run, hrun, hterms ▸ hnext, hcall⟩

end

def sampleContent : Extraction where
  symbols := [⟨"T", .type, none, ⟨0, 30, 0, 0, 0, 30⟩, none⟩,
    ⟨"run", .method, some "fn", ⟨4, 20, 0, 4, 0, 20⟩, some "T"⟩]
  tokens := [⟨"run", .identifier, ⟨5, 8, 0, 5, 0, 8⟩⟩, ⟨"x", .identifier, ⟨9, 10, 0, 9, 0, 10⟩⟩,
    ⟨"x", .identifier, ⟨22, 23, 0, 22, 0, 23⟩⟩]
  hasErrors := false

def sampleMeta : FileMeta := ⟨some originDirectory, none, some "UTF-8", false⟩

def sampleStore : Data :=
  match Data.empty.ingestPrepped (fun _ => []) "o" "r" "src/a.rs" "Rust" sampleContent
    sampleMeta with
  | .ok (d, _) => d
  | .error _ => Data.empty

theorem sampleStore_reachable {bound : Extraction → Prop} (hb : bound sampleContent) :
    Reachable (fun _ => []) bound sampleStore := by
  have hshort : ∀ t ∈ sampleContent.texts, isHashed t = false := by decide
  have hdigests : CollisionFree (fun _ => [])
      ({t | ∃ id, Data.empty.terms.text id = .ok t} ∪ {t | t ∈ sampleContent.texts}) := by
    rintro t (⟨id, ht⟩ | ht) u - hhash
    · cases ht
    · rw [hshort t ht] at hhash
      cases hhash
  have hin : IngestInput (fun _ => []) bound Data.empty "src/a.rs" "Rust"
      sampleContent sampleMeta :=
    ⟨⟨by decide +kernel, ⟨by decide, by decide, by decide⟩, hb⟩, by
      decide, by decide, by decide, hdigests⟩
  have hok : (Data.empty.ingestPrepped (fun _ => []) "o" "r" "src/a.rs" "Rust" sampleContent
      sampleMeta).isOk = true := by decide +kernel
  cases hcall : Data.empty.ingestPrepped (fun _ => []) "o" "r" "src/a.rs" "Rust" sampleContent
    sampleMeta with
  | error e =>
    rw [hcall] at hok
    cases hok
  | ok p =>
    have hstore : sampleStore = p.1 := by rw [sampleStore, hcall]
    rw [hstore]
    exact .single (.ingest hin hcall)

end MemoryGraph
