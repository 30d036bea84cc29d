import MemoryGraph.Batch.Fingerprint

/-! The writers of one store over its life, and what a stored fingerprint then says. -/

namespace MemoryGraph
open Lib Codec
variable {ex : Extraction}

theorem checkSpan_error {opened : List U32} {isSym : Bool} {sp : Span} {e : StoreError}
    (h : checkSpan opened isSym sp = .error e) : ∃ why, e = .invalidSpan why := by
  rcases bind_eq_error.mp h with h | ⟨_, -, h⟩
  · exact ⟨_, (failIf_eq_error.mp h).2.symm⟩
  · cases hopen : (opened.dropWhile fun stop => stop ≤ sp.start).head? with
    | none =>
      rw [hopen] at h
      cases isSym <;> cases h
    | some stop =>
      rw [hopen] at h
      cases isSym <;> rcases bind_eq_error.mp h with h | ⟨_, -, h⟩
      · exact ⟨_, (failIf_eq_error.mp h).2.symm⟩
      · cases h
      · exact ⟨_, (failIf_eq_error.mp h).2.symm⟩
      · cases h

theorem validateSpans_error {e : StoreError} (h : validateSpans ex = .error e) :
    ∃ why, e = .invalidSpan why := by
  rcases bind_eq_error.mp h with h | ⟨_, -, h⟩
  · refine foldlM_error (P := fun e => ∃ why, e = .invalidSpan why)
      (fun opened item e hitem => ?_) h
    cases item with
    | inl sp => exact checkSpan_error hitem
    | inr sp => exact checkSpan_error hitem
  · cases h

def Extraction.keptPart (ex : Extraction) : Option Extraction :=
  if validateSpans ex = .ok () then some ex
  else if validateSpans { ex with symbols := [] } = .ok () then some { ex with symbols := [] }
  else none

theorem keptPart_valid {ex ex' : Extraction} (h : ex.keptPart = some ex') :
    validateSpans ex' = .ok () ∧ (ex' = ex ∨ ex' = { ex with symbols := [] }) := by
  unfold Extraction.keptPart at h
  split_ifs at h with h1 h2
  · cases h
    exact ⟨h1, Or.inl rfl⟩
  · cases h
    exact ⟨h2, Or.inr rfl⟩

theorem extractChecked_kept (r : Registry) (path lang src : String) :
    (∃ ex, (r.extractNoted lang src).1.keptPart = some ex ∧
      (extractChecked r path lang src).1 = .extracted ex) ∨
    ((r.extractNoted lang src).1.keptPart = none ∧
      ∃ e, extractChecked r path lang src = (.rejected e, none)) := by
  unfold extractChecked Extraction.keptPart
  dsimp only
  cases h1 : validateSpans (r.extractNoted lang src).1 with
  | ok u => exact Or.inl ⟨_, if_pos rfl, rfl⟩
  | error e =>
    obtain ⟨why, rfl⟩ := validateSpans_error h1
    dsimp only
    cases h2 : validateSpans { (r.extractNoted lang src).1 with symbols := [] } with
    | ok u => exact Or.inl ⟨_, rfl, rfl⟩
    | error e =>
      obtain ⟨why', rfl⟩ := validateSpans_error h2
      exact Or.inr ⟨rfl, _, rfl⟩

namespace Indexer
variable (x : Indexer)

def sourced (org repo : String) (f : BatchFile) (s : Source) : PreparedFile :=
  { blankPrepared org repo f with
    language := s.language
    fingerprint := x.fingerprint f.bytes s.language s.encoding s.lossy
    encoding := if s.encoding = Encoding.utf8 then none else some s.encoding
    lossy := s.lossy }

def extracted (f : BatchFile) (s : Source) : Prepared × Option String :=
  extractChecked x.registry (normalizePath f.path) s.language s.text

/-- What a file comes to, whatever the store holds: a write or an error of its own. -/
def write (org repo : String) (f : BatchFile) (opts : IndexOptions) : Except StoreError Write :=
  match x.readSource f opts with
  | .error e => .error e
  | .ok s =>
    match (x.extracted f s).1 with
    | .extracted ex =>
      .ok ⟨org, repo, normalizePath f.path, s.language, ex, (x.sourced org repo f s).fileMeta⟩
    | .rejected e => .error e
    | _ => .error (.panic "unreachable")

variable {x}

theorem write_eq_ok {org repo : String} {f : BatchFile} {opts : IndexOptions} {w : Write}
    (h : x.write org repo f opts = .ok w) :
    ∃ s ex, x.readSource f opts = .ok s ∧ (x.extracted f s).1 = .extracted ex ∧
      (x.registry.extractNoted s.language s.text).1.keptPart = some ex ∧
      w = ⟨org, repo, normalizePath f.path, s.language, ex,
        (x.sourced org repo f s).fileMeta⟩ := by
  unfold write at h
  cases hs : x.readSource f opts with
  | error e =>
    rw [hs] at h
    cases h
  | ok s =>
    rw [hs] at h
    rcases extractChecked_kept x.registry (normalizePath f.path) s.language s.text with ⟨ex, hkept,
      hex⟩ | ⟨-, e, hex⟩
    · have hex : (x.extracted f s).1 = .extracted ex := hex
      simp only [hex] at h
      exact ⟨s, ex, rfl, hex, hkept, (Except.ok.inj h).symm⟩
    · have hex : x.extracted f s = (.rejected e, none) := hex
      simp only [hex] at h
      cases h

theorem readSource_decoded (hc : x.codecs.Lawful) {f : BatchFile} {opts : IndexOptions} {s : Source}
    (h : x.readSource f opts = .ok s) :
    s.text = (x.codecs.decode s.encoding f.bytes).1 ∧
      s.lossy = (x.codecs.decode s.encoding f.bytes).2 := by
  unfold readSource at h
  dsimp only at h
  split_ifs at h
  have heq := Codecs.decodeSource_eq hc f.bytes (f.encoding.or opts.encoding)
  cases h
  exact ⟨congrArg Codecs.Decoded.text heq, congrArg Codecs.Decoded.lossy heq⟩

end Indexer

/-- The digest and the decoders of a store and the registries that index into it over its
life. An extractor's version says what it extracts. -/
structure Lineage extends Setting where
  codecs : Codecs
  registries : Set Registry
  lawful : codecs.Lawful
  plain : ∀ r ∈ registries, ∀ lang, '|' ∉ (r.version lang).toList
  agree : ∀ r ∈ registries, ∀ r' ∈ registries, ∀ lang, r.version lang = r'.version lang →
    ∀ src, (r.extractNoted lang src).1 = (r'.extractNoted lang src).1

structure Lineage.Has (L : Lineage) (x : Indexer) : Prop where
  sha256 : x.sha256 = L.sha256
  codecs : x.codecs = L.codecs
  registry : x.registry ∈ L.registries

structure Lineage.Fits (L : Lineage) (x : Indexer) (opts : IndexOptions) (f : BatchFile) :
    Prop where
  bytes : f.bytes ∈ L.known
  path : (utf8 (normalizePath f.path)).length < 2 ^ 63
  language : ∀ s, x.readSource f opts = .ok s → (utf8 (asciiLower s.language)).length < 2 ^ 63
  memory : ∀ s, x.readSource f opts = .ok s → (x.registry.extractNoted s.language s.text).1.InMemory
  symbols : ∀ s, x.readSource f opts = .ok s →
    (x.registry.extractNoted s.language s.text).1.Indexable
  texts : ∀ s, x.readSource f opts = .ok s →
    ∀ t ∈ (x.registry.extractNoted s.language s.text).1.texts, utf8 t ∈ L.known

theorem texts_tokens {t : String} (h : t ∈ { ex with symbols := [] }.texts) : t ∈ ex.texts :=
  List.mem_append_right _ h

theorem Extraction.InMemory.tokens_only (h : ex.InMemory) :
    { ex with symbols := [] }.InMemory :=
  ⟨Nat.two_pow_pos 63, h.tokens, fun t ht => h.texts t (texts_tokens ht)⟩

section
variable {L : Lineage} {x y : Indexer} {org repo : String} {f g : BatchFile}
  {opts opts' : IndexOptions}

theorem Lineage.Fits.write (hf : L.Fits x opts f) {w : Write}
    (hw : x.write org repo f opts = .ok w) : w.Fits L.toSetting := by
  obtain ⟨s, ex, hs, -, hkept, rfl⟩ := Indexer.write_eq_ok hw
  obtain ⟨hspans, hpart⟩ := keptPart_valid hkept
  have hmem := hf.memory s hs
  have hsyms := hf.symbols s hs
  have htexts := hf.texts s hs
  refine ⟨⟨hspans, ?_, ?_⟩, ?_, hf.language s hs, ?_, ?_⟩
  · rcases hpart with rfl | rfl
    · exact hmem
    · exact hmem.tokens_only
  · rcases hpart with rfl | rfl
    · exact hsyms
    · exact Nat.zero_le _
  · change (utf8 (normalizePath (normalizePath f.path))).length < 2 ^ 63
    rw [normalizePath_idem]
    exact hf.path
  · intro e he
    change e ∈ (if s.encoding = Encoding.utf8 then none else some s.encoding).map
      Encoding.name at he
    split_ifs at he
    · cases he
    · cases he
      exact s.encoding.plain _ (by decide)
  · rcases hpart with rfl | rfl
    · exact htexts
    · exact fun t ht => htexts t (texts_tokens ht)

theorem source_unique (hx : L.Has x) (hy : L.Has y) (hf : f.bytes ∈ L.known)
    (hg : g.bytes ∈ L.known) {s t : Indexer.Source} (hs : x.readSource f opts = .ok s)
    (ht : y.readSource g opts' = .ok t)
    (hfp : x.fingerprint f.bytes s.language s.encoding s.lossy =
      y.fingerprint g.bytes t.language t.encoding t.lossy) :
    asciiLower s.language = asciiLower t.language ∧ s.encoding = t.encoding ∧
      s.lossy = t.lossy ∧
      (x.registry.extractNoted s.language s.text).1 =
        (y.registry.extractNoted t.language t.text).1 := by
  obtain ⟨hsha, hlang, hversion, henc, hlossy⟩ :=
    fingerprint_inj (L.plain _ hx.registry _) (L.plain _ hy.registry _) hfp
  rw [hx.sha256, hy.sha256] at hsha
  have hbytes : f.bytes = g.bytes := L.injOn hf hg hsha
  have htext : s.text = t.text := by
    rw [(Indexer.readSource_decoded (hx.codecs ▸ L.lawful) hs).1,
      (Indexer.readSource_decoded (hy.codecs ▸ L.lawful) ht).1, hx.codecs, hy.codecs, henc, hbytes]
  have hget : ∀ r : Registry, r.get s.language = r.get t.language :=
    fun r => by rw [Registry.get, Registry.get, hlang]
  have hsame : x.registry.version t.language = y.registry.version t.language := by
    rw [← hversion, Registry.version, Registry.version, hget]
  refine ⟨hlang, henc, hlossy, ?_⟩
  rw [htext, ← L.agree _ hx.registry _ hy.registry t.language hsame t.text, Registry.extractNoted,
    hget, Registry.extractNoted]

end

end MemoryGraph
