import MemoryGraph.Batch.Printed

/-! One file of a batch, as one function of the store at commit time: the prepared forms a
file can have all commit to it. -/

namespace MemoryGraph
open Lib Codec

namespace Indexer
variable (x : Indexer)

def outcome (d : Data) (org repo : String) (f : BatchFile) (opts : IndexOptions) :
    Except StoreError (Data × Except StoreError IngestStats) :=
  match x.readSource f opts with
  | .error e => .ok (d, .error e)
  | .ok s =>
    let p := x.sourced org repo f s
    match if opts.reindex then none
      else d.checkUnchanged org repo p.path p.language p.fingerprint p.origin with
    | some (d, stats, _) => .ok (d, .ok stats)
    | none => x.storeExtracted d org repo p (x.extracted f s)

def asRejected (org repo : String) (f : BatchFile) (e : StoreError) : PreparedFile :=
  { blankPrepared org repo f with work := .rejected e }

def asUnchanged (org repo : String) (f : BatchFile) (s : Source) : PreparedFile :=
  { x.sourced org repo f s with work := .unchanged s.text }

def asExtracted (org repo : String) (f : BatchFile) (s : Source) : PreparedFile :=
  { x.sourced org repo f s with work := (x.extracted f s).1, spanWarning := (x.extracted f s).2 }

variable {x} {org repo : String} {f : BatchFile} {opts : IndexOptions}

theorem prepareFile_error {e : StoreError} (h : x.readSource f opts = .error e)
    (ask : String → String → String → Data → Data × Bool) (d : Data) :
    x.prepareFile org repo f opts ask d = (d, asRejected org repo f e) := by
  unfold prepareFile
  rw [h]
  rfl

theorem prepareFile_ok {s : Source} (h : x.readSource f opts = .ok s)
    (ask : String → String → String → Data → Data × Bool) (d : Data) :
    x.prepareFile org repo f opts ask d =
      if opts.reindex then (d, x.asExtracted org repo f s)
      else match ask (normalizePath f.path) s.language (x.sourced org repo f s).fingerprint d with
        | (d, true) => (d, x.asUnchanged org repo f s)
        | (d, false) => (d, x.asExtracted org repo f s) := by
  unfold prepareFile
  rw [h]
  rfl

theorem prepareFile_forms (ask : String → String → String → Data → Data × Bool) (d : Data) :
    (∃ e, x.readSource f opts = .error e ∧ (x.prepareFile org repo f opts ask d).2 =
    asRejected org repo f e) ∨ ∃ s, x.readSource f opts = .ok s ∧
    ((x.prepareFile org repo f opts ask d).2 = x.asUnchanged org repo f s ∨
      (x.prepareFile org repo f opts ask d).2 = x.asExtracted org repo f s) := by
  cases h : x.readSource f opts with
  | error e => exact Or.inl ⟨e, rfl, by rw [prepareFile_error h]⟩
  | ok s =>
    refine Or.inr ⟨s, rfl, ?_⟩
    rw [prepareFile_ok h]
    split_ifs
    · exact Or.inr rfl
    · split
      · exact Or.inl rfl
      · exact Or.inr rfl

theorem commitPrepared_rejected (d : Data) (e : StoreError) :
    x.commitPrepared d org repo (asRejected org repo f e) opts = .ok (d, .error e) := by
  unfold commitPrepared
  rw [if_neg (by simp [asRejected, blankPrepared])]
  rfl

theorem commitPrepared_unchanged {s : Source} (h : x.readSource f opts = .ok s) (d : Data) :
    x.commitPrepared d org repo (x.asUnchanged org repo f s) opts =
    x.outcome d org repo f opts := by
  unfold commitPrepared outcome
  rw [if_neg (by simp [asUnchanged, sourced, blankPrepared]), h]
  rfl

theorem commitPrepared_extracted {s : Source} (h : x.readSource f opts = .ok s) (d : Data)
    (hstored : ∀ e, (x.extracted f s).1 = .rejected e → opts.reindex = false →
      d.checkUnchanged org repo (normalizePath f.path) s.language
      (x.sourced org repo f s).fingerprint f.origin = none) :
    x.commitPrepared d org repo (x.asExtracted org repo f s) opts =
      x.outcome d org repo f opts := by
  unfold commitPrepared outcome
  rw [if_neg (by simp [asExtracted, sourced, blankPrepared]), h]
  dsimp only
  rcases extractChecked_kept x.registry (normalizePath f.path) s.language s.text with ⟨ex, -,
    hex⟩ | ⟨-, e, hex⟩
  · obtain ⟨note, hpair⟩ : ∃ note, x.extracted f s = (.extracted ex, note) := ⟨_, Prod.ext hex rfl⟩
    unfold asExtracted
    rw [hpair]
    rfl
  · have hpair : x.extracted f s = (.rejected e, none) := hex
    have hnone : (if opts.reindex then none
        else d.checkUnchanged org repo (x.sourced org repo f s).path
        (x.sourced org repo f s).language (x.sourced org repo f s).fingerprint
        (x.sourced org repo f s).origin) = none := by
      split_ifs with hre
      · rfl
      · exact hstored e (congrArg Prod.fst hpair) (Bool.not_eq_true _ ▸ hre)
    unfold asExtracted
    rw [hpair]
    dsimp only
    rw [hnone]
    rfl

theorem checkUnchanged_again {d d' : Data} {path lang fp : String} {origin : Option String}
    {stats : IngestStats} {dirty : Bool}
    (h : d.checkUnchanged org repo path lang fp origin = some (d', stats, dirty)) :
    d'.checkUnchanged org repo path lang fp origin = some (d', stats, false) := by
  obtain ⟨fid, n, hfid, hn, hfp, rfl, rfl⟩ := checkUnchanged_eq_some h
  have hfid' : Data.fileId { d with nodes := d.nodes.insert fid { n with origin } } org repo path =
    some fid := hfid
  unfold Data.checkUnchanged
  rw [hfid']
  dsimp only [Option.bind_eq_bind, Option.bind_some]
  rw [Table.get_insert_self]
  dsimp only [Option.bind_some]
  rw [if_neg (not_not.mpr hfp)]
  simp

theorem commitPrepared_asked (d : Data) :
    x.commitPrepared (x.prepareFile org repo f opts (askTransaction org repo f.origin) d).1 org repo
      (x.prepareFile org repo f opts (askTransaction org repo f.origin) d).2 opts =
      x.outcome d org repo f opts := by
  cases h : x.readSource f opts with
  | error e =>
    rw [prepareFile_error h, commitPrepared_rejected, outcome, h]
  | ok s =>
    rw [prepareFile_ok h]
    by_cases hre : opts.reindex
    · rw [if_pos hre]
      exact commitPrepared_extracted h d fun _ _ hno => absurd hre (by simp [hno])
    · rw [if_neg hre]
      unfold askTransaction
      cases hcheck : d.checkUnchanged org repo (normalizePath f.path) s.language
          (x.sourced org repo f s).fingerprint f.origin with
      | none => exact commitPrepared_extracted h d fun _ _ _ => hcheck
      | some r =>
        obtain ⟨d', stats, dirty⟩ := r
        have hout : ∀ d₀ dirty₀, d₀.checkUnchanged org repo (normalizePath f.path) s.language
            (x.sourced org repo f s).fingerprint f.origin = some (d', stats, dirty₀) →
            x.outcome d₀ org repo f opts = .ok (d', .ok stats) := by
          intro d₀ dirty₀ hd₀
          have hd₀ : d₀.checkUnchanged org repo (x.sourced org repo f s).path
            (x.sourced org repo f s).language (x.sourced org repo f s).fingerprint
            (x.sourced org repo f s).origin = some (d', stats, dirty₀) := hd₀
          unfold outcome
          rw [h]
          dsimp only
          rw [if_neg hre, hd₀]
        rw [hout d dirty hcheck]
        exact (commitPrepared_unchanged h d').trans (hout d' false (checkUnchanged_again hcheck))

end Indexer

section
variable {L : Lineage} {x : Indexer} {org repo : String} {f : BatchFile} {opts : IndexOptions}
  {s : State L.toSetting}

theorem unchanged_none_of_rejected (hp : Printed s) (hx : L.Has x) (hf : f.bytes ∈ L.known)
    {src : Indexer.Source} (hsrc : x.readSource f opts = .ok src) {e : StoreError}
    (hrej : (x.extracted f src).1 = .rejected e) (lang : String) :
    s.data.checkUnchanged org repo (normalizePath f.path) lang
      (x.sourced org repo f src).fingerprint f.origin = none := by
  cases hcheck : s.data.checkUnchanged org repo (normalizePath f.path) lang
      (x.sourced org repo f src).fingerprint f.origin with
  | none => rfl
  | some r =>
    obtain ⟨fid, n, hfid, hn, hfp, -, -⟩ := checkUnchanged_eq_some hcheck
    obtain ⟨w, _, _, hw, -⟩ := write_of_printed hp hx hf hsrc hfid hn hfp
    obtain ⟨src', ex, hsrc', hex, -⟩ := Indexer.write_eq_ok hw
    obtain rfl := Except.ok.inj (hsrc.symm.trans hsrc')
    rw [hrej] at hex
    cases hex

theorem commitPrepared_prepared (hp : Printed s) (hx : L.Has x) (hf : f.bytes ∈ L.known)
    (ask : String → String → String → Data → Data × Bool) (d₀ : Data) :
    x.commitPrepared s.data org repo (x.prepareFile org repo f opts ask d₀).2 opts =
      x.outcome s.data org repo f opts := by
  rcases @Indexer.prepareFile_forms x org repo f opts ask d₀ with
    ⟨e, he, hform⟩ | ⟨src, hsrc, hform | hform⟩
  · rw [hform, Indexer.commitPrepared_rejected, Indexer.outcome, he]
  · rw [hform]
    exact Indexer.commitPrepared_unchanged hsrc s.data
  · rw [hform]
    exact Indexer.commitPrepared_extracted hsrc s.data fun e he _ =>
      unchanged_none_of_rejected hp hx hf hsrc he _

theorem storeExtracted_write (hx : L.Has x) {src : Indexer.Source} {ex : Extraction}
    (hex : (x.extracted f src).1 = .extracted ex) (d : Data) :
    x.storeExtracted d org repo (x.sourced org repo f src) (x.extracted f src) =
      (Write.apply ⟨org, repo, normalizePath f.path, src.language, ex,
        (x.sourced org repo f src).fileMeta⟩ L.sha256 d).map fun r =>
        (r.1, .ok { r.2 with spanWarning := (x.extracted f src).2 }) := by
  unfold Indexer.storeExtracted Write.apply
  have hpath : (x.sourced org repo f src).path = normalizePath f.path := rfl
  have hlang : (x.sourced org repo f src).language = src.language := rfl
  rw [hex, hx.sha256]
  dsimp only
  rw [hpath, hlang]
  cases d.ingestPrepped L.sha256 org repo (normalizePath f.path) src.language ex
    (x.sourced org repo f src).fileMeta with
  | error e => rfl
  | ok r => rfl

theorem outcome_error (hp : Printed s) (hx : L.Has x) (hf : f.bytes ∈ L.known) {e : StoreError}
    (hw : x.write org repo f opts = .error e) :
    x.outcome s.data org repo f opts = .ok (s.data, .error e) := by
  unfold Indexer.write at hw
  unfold Indexer.outcome
  cases hsrc : x.readSource f opts with
  | error e' =>
    rw [hsrc] at hw
    cases hw
    rfl
  | ok src =>
    rw [hsrc] at hw
    dsimp only at hw ⊢
    rcases extractChecked_kept x.registry (normalizePath f.path) src.language src.text with ⟨ex, -,
      hex⟩ | ⟨-, e', hex⟩
    · have hex : (x.extracted f src).1 = .extracted ex := hex
      rw [hex] at hw
      cases hw
    · have hpair : x.extracted f src = (.rejected e', none) := hex
      have hnone := @unchanged_none_of_rejected L x org repo f opts s hp hx hf src hsrc e'
        (congrArg Prod.fst hpair) src.language
      rw [hpair] at hw ⊢
      cases hw
      have hno : (if opts.reindex then none
          else s.data.checkUnchanged org repo (x.sourced org repo f src).path
          (x.sourced org repo f src).language (x.sourced org repo f src).fingerprint
          (x.sourced org repo f src).origin) = none := by
        split_ifs
        · rfl
        · exact hnone
      rw [hno]
      rfl

theorem outcome_of_apply (hp : Printed s) (hx : L.Has x) (hf : L.Fits x opts f) {w : Write}
    (hw : x.write org repo f opts = .ok w) {d' : Data} {stats : IngestStats}
    (happly : w.apply L.sha256 s.data = .ok (d', stats)) :
    ∃ stats', x.outcome s.data org repo f opts = .ok (d', .ok stats') := by
  obtain ⟨src, ex, hsrc, hex, -, hweq⟩ := Indexer.write_eq_ok hw
  unfold Indexer.outcome
  rw [hsrc]
  dsimp only
  split <;> rename_i hcheck
  · rename_i d₁ stats₁ dirty
    split_ifs at hcheck
    obtain ⟨w', s', hw', hwrote, hs'⟩ := wrote_of_unchanged hp hx hf hsrc hcheck
    obtain rfl := Except.ok.inj (hw.symm.trans hw')
    obtain ⟨_, hcall⟩ := hwrote.call
    obtain ⟨rfl, -⟩ := Prod.mk.inj (Except.ok.inj (happly.symm.trans hcall))
    exact ⟨stats₁, by rw [hs']⟩
  · rw [storeExtracted_write hx hex, ← hweq, happly]
    exact ⟨_, rfl⟩

theorem outcome_cases (hp : Printed s) (hx : L.Has x) (hf : L.Fits x opts f) {d' : Data}
    {r : Except StoreError IngestStats} (h : x.outcome s.data org repo f opts = .ok (d', r)) :
    (∃ e, x.write org repo f opts = .error e ∧ d' = s.data ∧ r = .error e) ∨
    ∃ w s' stats, x.write org repo f opts = .ok w ∧ Wrote s w s' ∧ s'.data = d' ∧
      r = .ok stats := by
  cases hw : x.write org repo f opts with
  | error e =>
    obtain ⟨rfl, rfl⟩ := Prod.mk.inj
      (Except.ok.inj ((outcome_error hp hx hf.bytes hw).symm.trans h))
    exact Or.inl ⟨e, rfl, rfl, rfl⟩
  | ok w =>
    obtain ⟨src, ex, hsrc, hex, -, hweq⟩ := Indexer.write_eq_ok hw
    have hout := h
    unfold Indexer.outcome at h
    rw [hsrc] at h
    dsimp only at h
    refine Or.inr ⟨w, ?_⟩
    split at h <;> rename_i hcheck
    · split_ifs at hcheck
      obtain ⟨w', s', hw', hwrote, hs'⟩ := wrote_of_unchanged hp hx hf hsrc hcheck
      obtain rfl := Except.ok.inj (hw.symm.trans hw')
      cases h
      exact ⟨s', _, rfl, hwrote, hs', rfl⟩
    · rw [storeExtracted_write hx hex, ← hweq] at h
      cases happly : w.apply L.sha256 s.data with
      | error e =>
        rw [happly] at h
        cases h
      | ok p =>
        rw [happly] at h
        cases h
        obtain ⟨s', hs', hwrote, -⟩ := wrote_of_apply s (hf.write hw) happly
        exact ⟨s', _, rfl, hwrote, hs', rfl⟩

end
end MemoryGraph
