import MemoryGraph.Store.Progress

/-! The derived tables are those recomputed from the stream rows and the file nodes, in every
state a run reaches whose files have at most 2^32 symbols. -/

namespace MemoryGraph
open Lib Codec List Function
variable {st : Stream}

def Data.decoded (d : Data) (f : Nat) : Option Stream :=
  (d.streams.get f).bind (fun raw => (decode raw).toOption)

/-- Every derived table says what the streams, the file nodes and the reverse dictionary say. -/
structure Derived (sha256 : List UInt8 → List UInt8) (d : Data) : Prop where
  streams : ∀ f raw, d.streams.get f = some raw → ∃ st, decode raw = .ok st
  posted : ∀ t f row, d.post.get (toLex (t, f)) = some row →
    ∃ st, d.decoded f = some st ∧ st.ordsOf t ≠ [] ∧ postingOrdinals row = .ok (st.ordsOf t)
  postings : ∀ t f st, d.decoded f = some st → st.ordsOf t ≠ [] → ∃ row, d.post.get (toLex (t, f)) =
    some row
  symbols : ∀ name id, (name, id) ∈ d.symIdx.pairs ↔ ∃ f st i r, d.decoded f = some st ∧
    st.symbols[i]? = some r ∧ d.terms.text r.name = .ok name ∧ id = subId tagSym f i
  folded : ∀ key id, (key, id) ∈ d.symFold.pairs ↔
    ∃ name, (name, id) ∈ d.symIdx.pairs ∧ key = foldSymbolName name
  files : ∀ f, (∃ row, d.fileKeys.get f = some row) ↔ ∃ n, d.nodes.get f = some n ∧ n.kind = .file
  fileKeys : ∀ f n row, d.nodes.get f = some n → d.fileKeys.get f = some row →
    ∃ parent, n.parent = some parent ∧ decodeFileKey row = .ok ⟨parent, n.language, n.name⟩
  refs : ∀ f, d.refs.get f = (d.streams.get f).map (fun _ => 1)
  contentFiles : ∀ c f, (c, f) ∈ d.contentFiles.pairs ↔ c = f ∧ (d.streams.get f).isSome
  dict : ∀ key id, d.terms.dict.get key = some id ↔ ∃ t, d.terms.text id = .ok t ∧
    key = termKey sha256 t
  known : ∀ f st, d.decoded f = some st → ∀ id ∈ st.termIds, ∃ t, d.terms.text id = .ok t

section
variable {sha256 : List UInt8 → List UInt8} {ok : Extraction → Prop} {d : Data}
  {σ : Nat → Option Stream} {es : List (Nat × String)} (h : Content sha256 ok d σ es)
include h

theorem decoded_eq (f : Nat) : d.decoded f = (σ f).map Stream.readBack := by
  rw [Data.decoded, h.streams]
  cases hs : σ f with
  | none => rfl
  | some st =>
    rw [Option.map_some, Option.bind_some, decode_encode (h.stored f st hs).storable]
    rfl

theorem decoded_eq_some {f : Nat} :
    d.decoded f = some st ↔ ∃ st₀, σ f = some st₀ ∧ st = st₀.readBack := by
  rw [decoded_eq h, Option.map_eq_some_iff]
  exact exists_congr fun _ => and_congr_right fun _ => eq_comm

theorem postingOrdinals_ordsOf {f : Nat} (hf : σ f = some st) (t : Nat) :
    postingOrdinals (encodePosting (st.ordsOf t)) = .ok (st.ordsOf t) := by
  have hntok := (h.stored f st hf).storable.ntok
  have hlt : ∀ o ∈ st.ordsOf t, o < st.tokens.length := by
    intro o ho
    obtain ⟨r, hr, -⟩ := mem_ordsOf.mp ho
    exact lt_of_getElem? hr
  have hlen : (st.ordsOf t).length ≤ st.tokens.length := by
    rw [Stream.ordsOf, length_map]
    exact (length_filter_le _ _).trans_eq length_zipIdx
  refine postingOrdinals_encode (by omega) (ordsOf_sorted st t) fun o ho => ?_
  have := hlt o ho
  change o ≤ 18446744073709551615
  omega

end

theorem termIds_readBack (st : Stream) : st.readBack.termIds = st.termIds := by
  have hids : st.ranged.flatMap SymRec.ids = st.symbols.flatMap SymRec.ids := by
    rw [flatMap_def, flatMap_def, map_ranged fun _ _ => rfl]
  exact congrArg (· ++ st.tokens.map TokRec.term) hids

theorem name_readBack {i : Nat} {name : Nat} :
    (∃ r, st.readBack.symbols[i]? = some r ∧ r.name = name) ↔ ∃ r, st.symbols[i]? = some r ∧
    r.name = name := by
  have hmap : (st.ranged.map SymRec.name)[i]? = (st.symbols.map SymRec.name)[i]? := by
    rw [map_ranged fun _ _ => rfl]
  rw [getElem?_map, getElem?_map] at hmap
  rw [← Option.map_eq_some_iff, ← Option.map_eq_some_iff]
  exact hmap ▸ Iff.rfl

section
variable {sha256 : List UInt8 → List UInt8} {bound : Extraction → Prop} {d : Data}
  {σ : Nat → Option Stream} {es : List (Nat × String)} (h : Whole sha256 bound d σ es)
include h

theorem derived_symbols (hb : ∀ ex, bound ex → ex.symbols.length ≤ 4294967296) (name : String)
    (id : Nat) :
    (name, id) ∈ d.symIdx.pairs ↔ ∃ f st i r, d.decoded f = some st ∧
      st.symbols[i]? = some r ∧ d.terms.text r.name = .ok name ∧ id = subId tagSym f i := by
  have hc := h.inv.content
  rw [(h.symbols hb).names]
  constructor
  · rintro ⟨f, st, hf, hp⟩
    obtain ⟨i, r, hi, e⟩ := mem_symPairs.mp hp
    obtain ⟨rfl, rfl⟩ := Prod.ext_iff.mp e
    obtain ⟨r', hi', hr'⟩ := name_readBack.mpr ⟨r, hi, rfl⟩
    refine ⟨f, st.readBack, i, r', (decoded_eq_some hc).mpr ⟨st, hf, rfl⟩, hi', ?_, rfl⟩
    rw [hr']
    exact hc.text_sym hf (mem_of_getElem? hi) mem_cons_self
  · rintro ⟨f, st, i, r, hst, hi, hname, rfl⟩
    obtain ⟨st, hf, rfl⟩ := (decoded_eq_some hc).mp hst
    obtain ⟨r', hi', hr'⟩ := name_readBack.mp ⟨r, hi, rfl⟩
    refine ⟨f, st, hf, mem_symPairs.mpr ⟨i, r', hi', ?_⟩⟩
    have htext := hc.text_sym hf (mem_of_getElem? hi') mem_cons_self
    rw [hr', hname] at htext
    rw [hr', ← Except.ok.inj htext]

theorem derived_fileKeys {f : Nat} {n : Node} {row : List UInt8} (hn : d.nodes.get f = some n)
    (hrow : d.fileKeys.get f = some row) :
    ∃ parent, n.parent = some parent ∧ decodeFileKey row = .ok ⟨parent, n.language, n.name⟩ := by
  obtain ⟨n', hn', hk, hkey⟩ := (h.inv.files.keys f row).mp hrow
  obtain rfl := Option.mem_unique hn hn'
  obtain ⟨-, hlang⟩ := h.inv.files.fits f n hn hk
  cases hp : n.parent with
  | none =>
    rw [fileKeyRow, hp] at hkey
    cases hkey
  | some parent =>
    rw [fileKeyRow, hp] at hkey
    obtain ⟨p, hrow⟩ := (h.inv.entities.shaped f n hn).parent_row hp
    have hlt := (h.inv.entities.ids parent p hrow).2.2
    have hmax := h.inv.entities.next.2
    refine ⟨parent, rfl, ?_⟩
    rw [← Except.ok.inj hkey]
    refine decodeFileKey_encode ⟨?_, fun l hl => (hlang l hl).trans (by decide)⟩
    exact (hlt.trans_le hmax).trans (by decide)

theorem Whole.derived (hb : ∀ ex, bound ex → ex.symbols.length ≤ 4294967296) :
    Derived sha256 d := by
  have hc := h.inv.content
  refine ⟨fun f raw hraw => ?_, fun t f row hrow => ?_, fun t f st hst hne =>
    ?_, derived_symbols h hb, fun key id => ?_, fun f => ?_, fun f n row => derived_fileKeys h,
    fun f => ?_, fun c f => ?_, fun key id => ?_, fun f st hst id hid => ?_⟩
  · rw [hc.streams] at hraw
    obtain ⟨st, hst, rfl⟩ := Option.map_eq_some_iff.mp hraw
    exact ⟨st.readBack, decode_encode (hc.stored f st hst).storable⟩
  · rw [hc.post] at hrow
    obtain ⟨st, hst, hrow⟩ := Option.bind_eq_some_iff.mp hrow
    rw [postRow] at hrow
    split_ifs at hrow with hnil
    cases hrow
    exact ⟨st.readBack, (decoded_eq_some hc).mpr ⟨st, hst, rfl⟩, hnil,
      postingOrdinals_ordsOf hc hst t⟩
  · obtain ⟨st, hσ, rfl⟩ := (decoded_eq_some hc).mp hst
    refine ⟨encodePosting (st.ordsOf t), ?_⟩
    rw [hc.post, hσ, Option.bind_some, postRow]
    exact if_neg hne
  · rw [(h.symbols hb).folded]
    simp only [(h.symbols hb).names, mem_foldPairs]
    constructor
    · rintro ⟨f, st, hf, q, hq, e⟩
      obtain ⟨rfl, rfl⟩ := Prod.ext_iff.mp e
      exact ⟨q.1, ⟨f, st, hf, hq⟩, rfl⟩
    · rintro ⟨name, ⟨f, st, hf, hq⟩, rfl⟩
      exact ⟨f, st, hf, _, hq, rfl⟩
  · simp only [h.inv.files.keys]
    constructor
    · rintro ⟨row, n, hn, hk, -⟩
      exact ⟨n, hn, hk⟩
    · rintro ⟨n, hn, hk⟩
      obtain ⟨-, -, parent, hp, -⟩ := isRepo_of_file h.inv.entities hn hk
      refine ⟨encodeFileKey ⟨parent, n.language, n.name⟩, n, hn, hk, ?_⟩
      rw [fileKeyRow, hp]
      rfl
  · rw [hc.refs, hc.streams, Option.map_map]
    rfl
  · rw [hc.contentFiles, hc.streams, Option.isSome_map]
  · rw [hc.dict.dict]
    simp only [hc.dict.text_eq]
  · obtain ⟨st, hσ, rfl⟩ := (decoded_eq_some hc).mp hst
    rw [termIds_readBack] at hid
    obtain ⟨t, ht⟩ := (hc.stored f st hσ).known id hid
    exact ⟨t, hc.dict.text_eq.mpr ht⟩

end

/-- In every reachable state the derived tables are exact. -/
theorem reachable_derived {sha256 : List UInt8 → List UInt8} {d : Data}
    (h : Reachable sha256 (fun ex => ex.symbols.length ≤ 4294967296) d) : Derived sha256 d := by
  obtain ⟨σ, es, hwhole⟩ := reachable_whole h
  exact hwhole.derived fun _ hex => hex

theorem reachable_derived_sample :
    Reachable (fun _ => []) (fun ex => ex.symbols.length ≤ 4294967296) sampleStore ∧
    Derived (fun _ => []) sampleStore := by
  have h : Reachable (fun _ => []) (fun ex => ex.symbols.length ≤ 4294967296) sampleStore :=
    sampleStore_reachable (by decide)
  exact ⟨h, reachable_derived h⟩

def crowd (n : Nat) : Extraction :=
  ⟨List.replicate n ⟨"x", .function, none, emptyTok.span, none⟩, [], false⟩

theorem validateSpans_crowd (n : Nat) : validateSpans (crowd n) = .ok () := by
  have hloop : ∀ n, (replicate n (.inl emptyTok.span : Span ⊕ Span)).foldlM checkItem
      [0] = .ok [0] := by
    intro n
    induction n with
    | zero => rfl
    | succ n ih =>
      have hstep : checkItem [0] (.inl emptyTok.span) = .ok [0] := by decide +kernel
      rw [replicate_succ, foldlM_cons, hstep, ok_bind, ih]
  have hall : ∃ opened, (replicate n (.inl emptyTok.span : Span ⊕ Span)).foldlM checkItem [] =
      .ok opened := by
    cases n with
    | zero => exact ⟨[], rfl⟩
    | succ n =>
      have hfirst : checkItem [] (.inl emptyTok.span) = .ok [0] := by decide +kernel
      rw [replicate_succ, foldlM_cons, hfirst, ok_bind]
      exact ⟨_, hloop n⟩
  obtain ⟨opened, hall⟩ := hall
  rw [validateSpans, crowd, map_replicate, map_nil,
    insertionSort_replicate (r := symBefore) (by decide +kernel), insertionSort_nil,
    interleave_nil_right, map_replicate, hall]
  rfl

theorem texts_crowd {n : Nat} {t : String} (ht : t ∈ (crowd n).texts) : t = "x" := by
  rw [Extraction.texts, mem_append, mem_flatMap] at ht
  rcases ht with ⟨s, hs, ht⟩ | ht
  · rw [eq_of_mem_replicate hs] at ht
    exact mem_singleton.mp ht
  · exact absurd ht not_mem_nil

theorem inMemory_crowd {n : Nat} (hn : 104 * n < 2 ^ 63) : (crowd n).InMemory := by
  refine ⟨?_, by simp [crowd], fun t ht => ?_⟩
  · rw [crowd, length_replicate]
    exact hn
  · rw [texts_crowd ht]
    decide

theorem checkIngest_crowd (n : Nat) : checkIngest "o" "r" "l" (crowd n) = .ok () := by
  have hdecls : (crowd n).symbols.mapM checkDecl = .ok ((crowd n).symbols.map fun _ => ()) :=
    mapM_ok fun s hs => by
      rw [eq_of_mem_replicate hs]
      rfl
  rw [checkIngest, failIf_of_not (by decide), rejectNul, rejectNul, rejectNul,
    failIf_of_not (by decide), failIf_of_not (by decide), failIf_of_not (by decide), hdecls]
  rfl

theorem length_terms_crowd (n : Nat) : (V2Prep.build (crowd n)).terms.length ≤ 1 := by
  have hsub : (V2Prep.build (crowd n)).terms ⊆ ["x"] := fun t ht =>
    mem_singleton.mpr (texts_crowd ((build_spelled (crowd n)).texts t ht))
  exact ((build_spelled (crowd n)).nodup.subperm hsub).length_le

section
variable {sha256 : List UInt8 → List UInt8} {ok : Extraction → Prop} {d : Data}
  {σ : Nat → Option Stream} {es : List (Nat × String)}

theorem IngestRun.mem_symIdx {org repo path language : String} {ex : Extraction} {fm : FileMeta}
    (r : IngestRun sha256 d org repo path language ex fm) (h : Inv sha256 ok d σ es) {dict : Dict}
    {es' : List (Nat × String)} {rows : List ((Nat ×ₗ Nat) × List UInt8)}
    (h5 : r.d₅ = (r.d₄.putFile r.fileId r.file r.row).addContent dict es' r.fileId st rows)
    (p : String × Nat) :
    p ∈ r.final.symIdx.pairs ↔ p ∈ symPairs es' r.fileId st ∨
      (∀ old, σ r.fileId = some old → p ∉ symPairs es r.fileId old) ∧ p ∈ d.symIdx.pairs := by
  obtain ⟨_, _, _, _, h1⟩ := ensure_frame r.org_eq
  obtain ⟨_, _, _, _, h2⟩ := ensure_frame r.repo_eq
  obtain ⟨_, _, _, _, h3⟩ := ensure_frame r.file_eq
  have hidx : r.d₃.symIdx = d.symIdx := by rw [h3, h2, h1]
  have hfinal : r.final.symIdx = r.d₄.symIdx.insertAll (symPairs es' r.fileId st) := by
    rw [IngestRun.final, h5]
    rfl
  rw [hfinal, Multimap.mem_pairs_insertAll]
  rcases r.old_spec h with ⟨hs, h4, -⟩ | ⟨old, st₀, -, hs, h4, -⟩
  · have hidx₄ : r.d₄.symIdx = d.symIdx := by rw [h4, ← hidx]; rfl
    rw [hidx₄, hs]
    simp
  · have hidx₄ : r.d₄.symIdx = d.symIdx.removeAll (symPairs es r.fileId st₀) := by
      rw [h4, ← hidx]; rfl
    rw [hidx₄, Multimap.mem_pairs_removeAll, hs]
    simp

theorem mem_symPairs_crowd (h : Content sha256 ok d σ es) (hx : ∀ e ∈ es, e.2 = "x") {f i : Nat}
    (hf : σ f = some st) (hi : i < st.symbols.length) :
    ("x", subId tagSym f i) ∈ symPairs es f st := by
  refine mem_symPairs.mpr ⟨i, st.symbols[i], getElem?_eq_getElem hi, ?_⟩
  obtain ⟨t, ht⟩ := (h.stored f st hf).known _ (mem_termIds_sym (getElem_mem hi) mem_cons_self)
  rw [textAt_of_mem h.dict ht, show t = "x" from hx _ ht]

theorem crowd_step (h : Whole sha256 (fun _ => True) d σ es) (hx : ∀ e ∈ es, e.2 = "x") {n : Nat}
    {path : String} (s : IngestStart d "o" "r" path "l" (crowd n)) (hn : 104 * n < 2 ^ 63)
    (hpath : (utf8 (normalizePath path)).length < 2 ^ 63) (hroom : d.terms.nextTerm < usizeMax) :
    ∃ d' es' st, Step sha256 (fun _ => True) d d' ∧
      Whole sha256 (fun _ => True) d' (Function.update σ s.fileId (some st)) es' ∧
      (∀ e ∈ es', e.2 = "x") ∧ st.symbols.length = n ∧ d'.names = s.d₃.names ∧
      d'.nextId = s.d₃.nextId ∧ d'.terms.nextTerm ≤ d.terms.nextTerm + 1 ∧
      ∀ p ∈ d'.symIdx.pairs, p ∈ symPairs es' s.fileId st ∨
        ∀ old, σ s.fileId = some old → p ∉ symPairs es s.fileId old := by
  have hshort : CollisionFree sha256 (textsOf es ∪ {t | t ∈ (crowd n).texts}) := by
    rintro t (⟨id, ht⟩ | ht) u - hhash
    · rw [show t = "x" from hx _ ht] at hhash
      exact absurd hhash (by decide)
    · rw [texts_crowd ht] at hhash
      exact absurd hhash (by decide)
  have hterms := length_terms_crowd n
  obtain ⟨r, rfl, hnext, stats, hcall⟩ :=
    s.exists_run h.inv ⟨none, none, none, false⟩ (inMemory_crowd hn) hshort (by omega)
  have hadm : Admitted (fun _ => True) (crowd n) :=
    ⟨validateSpans_crowd n, inMemory_crowd hn, trivial⟩
  have hin : IngestInput sha256 (fun _ => True) d path "l" (crowd n) ⟨none, none, none, false⟩ := by
    refine ⟨hadm, hpath, by decide, by decide, hshort.mono (Set.union_subset_union_left _ ?_)⟩
    rintro t ⟨id, ht⟩
    exact ⟨id, h.inv.content.dict.text_eq.mp ht⟩
  obtain ⟨dict, ids, es', hpre, hnew, hids, h5, hinv, hsyms⟩ :=
    r.inv_ingest h.inv hpath (by decide) (by decide) hadm (inMemory_crowd hn) hshort
  refine ⟨r.final, es', _, .ingest hin hcall,
    ⟨hinv, r.catalogued_ingest h.inv hpre hids h5 hinv h.catalog,
    fun hb => hsyms (h.symbols hb) (h.local hb)⟩, fun e he =>
    ?_, ?_, ?_, (r.final_rows h.inv h5).2.1, by omega, fun p hp => ?_⟩
  · rcases hnew e he with he | he
    · exact hx e he
    · exact texts_crowd he
  · have hlen : (V2Prep.build (crowd n)).stream.symbols.length = (crowd n).symbols.length :=
      length_build_symbols _
    rw [(length_withIds ..).1, hlen, crowd, length_replicate]
  · rw [IngestRun.final, h5]
    rcases r.old_spec h.inv with ⟨-, h4, -⟩ | ⟨_, _, -, -, h4, -⟩
    · rw [h4]
      rfl
    · rw [h4]
      rfl
  · exact ((r.mem_symIdx h.inv h5 p).mp hp).imp_right And.left

def startNew (d : Data) (path : String) (n : Nat)
    (horg : d.names.get (nameKey none .org "o") = some 1)
    (hrepo : d.names.get (nameKey (some 1) .repo "r") = some 2)
    (hfile : d.names.get (nameKey (some 2) .file (normalizePath path)) = none)
    (hroom : d.nextId ≤ maxLocal) : IngestStart d "o" "r" path "l" (crowd n) where
  d₁ := d
  d₂ := d
  d₃ := d.addEntity (entityNode d.nextId (some 2) .file (normalizePath path)
    (some (asciiLower "l")))
  orgId := 1
  repoId := 2
  fileId := d.nextId
  orgExisted := true
  repoExisted := true
  existed := false
  checked := checkIngest_crowd n
  org_eq := ensure_found horg none
  repo_eq := ensure_found hrepo none
  file_eq := ensure_new hfile hroom _

def startAgain (d : Data) (path : String) (n f : Nat)
    (horg : d.names.get (nameKey none .org "o") = some 1)
    (hrepo : d.names.get (nameKey (some 1) .repo "r") = some 2)
    (hfile : d.names.get (nameKey (some 2) .file (normalizePath path)) = some f) :
    IngestStart d "o" "r" path "l" (crowd n) where
  d₁ := d
  d₂ := d
  d₃ := d
  orgId := 1
  repoId := 2
  fileId := f
  orgExisted := true
  repoExisted := true
  existed := true
  checked := checkIngest_crowd n
  org_eq := ensure_found horg none
  repo_eq := ensure_found hrepo none
  file_eq := ensure_found hfile _

end

/-- Files 3, 4 and 5 in one repo, the second with 2^32 + 1 symbols. Emptying it takes the name of
its last symbol, which has the id of the first symbol of file 5. -/
theorem exists_not_derived (sha256 : List UInt8 → List UInt8) :
    ∃ d, Reachable sha256 (fun _ => True) d ∧ ¬ Derived sha256 d := by
  have s₁ : ∃ s : IngestStart Data.empty "o" "r" "a" "l" (crowd 0), s.d₃.nextId = 4 ∧ s.d₃.names =
      ((Table.empty.insert (nameKey none .org "o") 1).insert (nameKey (some 1) .repo "r") 2).insert
        (nameKey (some 2) .file "a") 3 :=
    ⟨⟨_, _, _, 1, 2, 3, false, false, false, checkIngest_crowd 0, rfl, rfl, rfl⟩, rfl, rfl⟩
  obtain ⟨s₁, hnext₁, hnames₁⟩ := s₁
  have hw₀ : Whole sha256 (fun _ => True) Data.empty (fun _ => none) [] := whole_empty
  obtain ⟨d₁, es₁, st₁, step₁, hw₁, hx₁, -, hn₁, hi₁, ht₁, -⟩ :=
    crowd_step hw₀ (by simp) s₁ (by decide) (by decide) (by decide)
  rw [hnames₁] at hn₁
  rw [hnext₁] at hi₁
  have ht₀ : Data.empty.terms.nextTerm + 4 < usizeMax := by decide
  -- the crowded file
  obtain ⟨d₂, es₂, st₂, step₂, hw₂, hx₂, hlen₂, hn₂, hi₂, ht₂, -⟩ := crowd_step hw₁ hx₁
    (startNew d₁ "b" (2 ^ 32 + 1) (by rw [hn₁]; decide) (by rw [hn₁]; decide) (by rw [hn₁]; decide)
      (by rw [hi₁]; decide)) (by decide) (by decide) (by omega)
  change d₂.names = d₁.names.insert (nameKey (some 2) .file (normalizePath "b")) d₁.nextId at hn₂
  change d₂.nextId = d₁.nextId + 1 at hi₂
  change Whole sha256 _ d₂ (update _ d₁.nextId (some st₂)) es₂ at hw₂
  rw [hn₁, hi₁] at hn₂
  rw [hi₁] at hi₂ hw₂
  -- the file after it
  obtain ⟨d₃, es₃, st₃, step₃, hw₃, hx₃, hlen₃, hn₃, hi₃, ht₃, -⟩ := crowd_step hw₂ hx₂
    (startNew d₂ "c" 1 (by rw [hn₂]; decide) (by rw [hn₂]; decide) (by rw [hn₂]; decide)
      (by rw [hi₂]; decide)) (by decide) (by decide) (by omega)
  change d₃.names = d₂.names.insert (nameKey (some 2) .file (normalizePath "c")) d₂.nextId at hn₃
  change Whole sha256 _ d₃ (update _ d₂.nextId (some st₃)) es₃ at hw₃
  rw [hn₂, hi₂] at hn₃
  rw [hi₂] at hw₃
  -- the crowded file again, without symbols
  obtain ⟨d₄, es₄, st₄, step₄, hw₄, hx₄, hlen₄, -, -, -, hsyms⟩ := crowd_step hw₃ hx₃
    (startAgain d₃ "b" 0 4 (by rw [hn₃]; decide) (by rw [hn₃]; decide) (by rw [hn₃]; decide))
    (by decide) (by decide) (by omega)
  change Whole sha256 _ d₄ (update _ 4 (some st₄)) es₄ at hw₄
  refine ⟨d₄, ((Relation.ReflTransGen.single step₁).tail step₂).tail step₃ |>.tail step₄,
    fun hder => ?_⟩
  have hfile₄ : update (update (update (update (fun _ => none) s₁.fileId
      (some st₁)) 4 (some st₂)) 5 (some st₃)) 4 (some st₄) 5 = some st₃ := rfl
  have hx : ("x", subId tagSym 5 0) ∈ d₄.symIdx.pairs := by
    have hlt : 0 < st₃.symbols.length := by rw [hlen₃]; decide
    obtain ⟨r, hr, hname⟩ := name_readBack.mpr ⟨st₃.symbols[0], getElem?_eq_getElem hlt, rfl⟩
    refine (hder.symbols _ _).mpr
      ⟨5, st₃.readBack, 0, r, (decoded_eq_some hw₄.inv.content).mpr ⟨st₃, hfile₄, rfl⟩, hr, ?_, rfl⟩
    obtain ⟨t, ht⟩ := (hw₄.inv.content.stored 5 st₃ hfile₄).known _
      (mem_termIds_sym (getElem_mem hlt) mem_cons_self)
    rw [hname, hw₄.inv.content.dict.text_eq.mpr ht, show t = "x" from hx₄ _ ht]
  rcases hsyms _ hx with hp | hp
  · obtain ⟨i, r, hi, -⟩ := mem_symPairs.mp hp
    rw [eq_nil_of_length_eq_zero hlen₄] at hi
    cases hi
  · refine hp st₂ rfl ?_
    have hid : subId tagSym 5 0 = subId tagSym 4 (2 ^ 32) := by decide
    rw [hid]
    exact mem_symPairs_crowd hw₃.inv.content hx₃ rfl (by rw [hlen₂]; decide)

-- The identity is a digest without collisions.
theorem derived_crowded : ∃ d, Reachable id (fun _ => True) d ∧ ¬ Derived id d :=
  exists_not_derived id

end MemoryGraph
