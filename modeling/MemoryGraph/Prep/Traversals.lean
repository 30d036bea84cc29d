import MemoryGraph.Read.Ranged

/-! Whatever extraction is laid out, the traversals over its stored ranges are the eager
ones, as long as ordinals fit 32 bits. -/

namespace MemoryGraph
open Lib Codec List
variable {ids : List Nat} {ex : Extraction}

theorem getD_lt {b : Nat} (hids : ∀ id ∈ ids, id < b) (hb : 0 < b) (k : Nat) :
    ids.getD k 0 < b := by
  rw [getD_eq_getElem?_getD]
  cases hk : ids[k]? with
  | none => exact hb
  | some id => exact hids id (mem_of_getElem? hk)

theorem length_withIds (ids : List Nat) (st : Stream) :
    (st.withIds ids).symbols.length = st.symbols.length ∧
      (st.withIds ids).tokens.length = st.tokens.length :=
  ⟨length_map _, length_map _⟩

theorem readable_withIds (hlen : ids.length = (V2Prep.build ex).terms.length)
    {text : Nat → Except StoreError String} (htext : ∀ id ∈ ids, ∃ t, text id = .ok t) :
    ((V2Prep.build ex).stream.withIds ids).Readable text := by
  have hsp := build_spelled ex
  have hnum : ∀ {k t}, Numbers (V2Prep.build ex).terms k t → ∃ t, text (ids.getD k 0) = .ok t := by
    intro k t hk
    have hlt : k < ids.length := hlen ▸ lt_of_getElem? hk
    rw [getD_eq_getElem _ _ hlt]
    exact htext _ (getElem_mem hlt)
  refine ⟨fun s hs => ?_, fun s hs k hk => ?_, fun r hr => ?_⟩
  · obtain ⟨r, hr, rfl⟩ := mem_map.mp hs
    obtain ⟨d, -, hd⟩ := exists_of_forall₂ hsp.symbols hr
    exact hnum hd.name
  · obtain ⟨r, hr, rfl⟩ := mem_map.mp hs
    obtain ⟨d, -, hd⟩ := exists_of_forall₂ hsp.symbols hr
    obtain ⟨j, hj, rfl⟩ := Option.map_eq_some_iff.mp (Option.mem_def.mp hk)
    have hrel := hd.langKind
    rw [hj] at hrel
    generalize d.langKind = o at hrel
    cases hrel with
    | some hn => exact hnum hn
  · obtain ⟨u, hu, rfl⟩ := mem_map.mp hr
    obtain ⟨d, -, hd⟩ := exists_of_forall₂ hsp.tokens hu
    exact hnum hd.term

theorem laid_withIds (hsym : ex.symbols.length ≤ 2 ^ 32) (ids : List Nat) :
    ((V2Prep.build ex).stream.withIds ids).Laid :=
  (sameShape_withIds ids _).laid (build_laid hsym)

theorem storable_withIds (hsym : ex.symbols.length < 2 ^ 57)
    (htok : 56 * ex.tokens.length < 2 ^ 63) (hids : ∀ id ∈ ids, id < 2 ^ 64 - 1) :
    ((V2Prep.build ex).stream.withIds ids).Storable := by
  have hp := build_parents ex
  have hget := getD_lt hids (by decide)
  have hlen := length_withIds ids (V2Prep.build ex).stream
  refine ⟨fun s hs => ?_, fun i s hs p hps => ?_, fun t ht => ?_, fun t ht p hpt => ?_, ?_, ?_⟩
  · obtain ⟨r, -, rfl⟩ := mem_map.mp hs
    refine ⟨(hget r.name).trans (by decide), fun k hk => ?_, fun k hk => ?_⟩
    all_goals
      obtain ⟨j, -, rfl⟩ := Option.map_eq_some_iff.mp (Option.mem_def.mp hk)
      exact hget j
  · obtain ⟨r, hr, rfl⟩ := getElem?_map .. ▸ hs |> Option.map_eq_some_iff.mp
    exact hp.parents i r hr p hps
  · obtain ⟨r, -, rfl⟩ := mem_map.mp ht
    exact (hget r.term).trans (by decide)
  · obtain ⟨r, hr, rfl⟩ := mem_map.mp ht
    rw [hlen.1]
    exact hp.tokens r hr p hpt
  · rw [hlen.2]
    exact lt_of_eq_of_lt (congrArg (56 * ·) (length_build_tokens ex)) htok
  · rw [hlen.1]
    exact (length_build_symbols ex).trans_lt hsym

theorem wf_withIds (hsym : ex.symbols.length ≤ 2 ^ 32) (htok : ex.tokens.length < 2 ^ 32)
    (hids : ∀ id ∈ ids, id < 2 ^ 64 - 1) : ((V2Prep.build ex).stream.withIds ids).Wf := by
  have h := storable_withIds (hsym.trans_lt (by decide)) (by omega) hids
  refine ⟨h.fits, h.parents, h.terms, h.tokParents, ?_, h.nsym⟩
  rw [(length_withIds ids _).2]
  exact (length_build_tokens ex).trans_lt htok

/-- The stored ranges are dense and every ranged traversal returns what the eager one does,
for any dictionary, and all of them succeed when it holds the stream's terms. -/
theorem ranged_traversals_agree (ex : Extraction) (hsym : ex.symbols.length ≤ 2 ^ 32)
    (htok : ex.tokens.length < 2 ^ 32) (ids : List Nat) (hids : ∀ id ∈ ids, id < 2 ^ 64 - 1)
    (file : Nat) (hfile : file ≤ maxLocal) (text : Nat → Except StoreError String) :
    let st := (V2Prep.build ex).stream.withIds ids
    let b := encode st
    (∃ lz, decodeLazy b = .ok lz ∧ lz.rangesDense = true) ∧
    (∀ i < ex.symbols.length,
      childrenRanged text file i b = some <$> childrenFallback text file i b ∧
      descendantsRanged text file i b = some <$> fileWalk text file (some i) b) ∧
    childrenRangedFile text file b = some <$> childrenFile text file b ∧
    (∀ nodes, descendantsRangedFile text file b = .ok (some nodes) ↔
      fileWalk text file none b = .ok nodes) ∧
    ((∀ id ∈ ids, ∃ t, text id = .ok t) → ids.length = (V2Prep.build ex).terms.length →
      ∃ nodes, fileWalk text file none b = .ok nodes) := by
  intro st b
  have h : st.Wf := wf_withIds hsym htok hids
  have hl : st.Laid := laid_withIds hsym ids
  have hlen : st.symbols.length = ex.symbols.length :=
    (length_withIds ids _).1.trans (length_build_symbols ex)
  have hn : st.symbols.length ≤ 4294967296 := hlen.trans_le hsym
  refine ⟨⟨_, decodeLazy_encode h.storable, rangesDense_of_laid h hl⟩, fun i hi => ?_, ?_,
    descendantsRangedFile_eq h hl hn text file hfile, fun htext hids' => ?_⟩
  · rw [← hlen] at hi
    rw [childrenRanged_eq h hl hn text file hi, childrenFallback_eq h hl hn text file hi,
      descendantsRanged_eq h hl hn text file hi, fileWalk_sym h hl hn text file hi]
    exact ⟨rfl, rfl⟩
  · rw [childrenRangedFile_eq h hl hn, childrenFile_eq h hl hn]
  · rw [fileWalk_file h hl hn]
    exact exists_mapM_ok.mpr fun it hit =>
      exists_itemNode h (readable_withIds hids' htext) file (inStream_of_mem_walk hit)

def sampleExtraction : Extraction where
  symbols := [⟨"C", .type, some "class", ⟨0, 20, 1, 0, 1, 20⟩, none⟩,
    ⟨"m", .method, none, ⟨5, 15, 1, 5, 1, 15⟩, none⟩]
  tokens := [⟨"class", .keyword, ⟨0, 5, 1, 0, 1, 5⟩⟩, ⟨"m", .identifier, ⟨5, 6, 1, 5, 1, 6⟩⟩,
    ⟨"m", .identifier, ⟨30, 31, 2, 0, 2, 1⟩⟩]
  hasErrors := false

theorem ranged_traversals_agree_sample :
    validateSpans sampleExtraction = .ok () ∧
    descendantsRanged (fun id => .ok (toString id)) 3 0
        (encode ((V2Prep.build sampleExtraction).stream.withIds [0, 1, 2, 3])) =
      some <$> fileWalk (fun id => .ok (toString id)) 3 (some 0)
        (encode ((V2Prep.build sampleExtraction).stream.withIds [0, 1, 2, 3])) :=
  ⟨by decide +kernel,
    ((ranged_traversals_agree sampleExtraction (by decide) (by decide) [0, 1, 2, 3] (by decide) 3
      (by decide) _).2.1 0 (by decide)).2⟩

def crowdedSym : SymbolDecl := ⟨"f", .function, none, ⟨0, 1, 1, 0, 1, 1⟩, none⟩

def emptyTok : TokenDecl := ⟨"", .other, ⟨0, 0, 1, 0, 1, 0⟩⟩

def crowded (k : Nat) : Extraction := ⟨[crowdedSym], List.replicate k emptyTok, false⟩

theorem insertionSort_replicate {α : Type} {r : α → α → Prop} [DecidableRel r] {a : α} (h : r a a)
    (k : Nat) : (List.replicate k a).insertionSort r = List.replicate k a := by
  induction k with
  | zero => rfl
  | succ k ih =>
    rw [replicate_succ, insertionSort_cons, ih]
    cases k with
    | zero => rfl
    | succ k => rw [replicate_succ, orderedInsert_cons, if_pos h]

theorem interleave_singleton_replicate {α β : Type} {le : α → β → Bool} {a : α} {b : β}
    (h : le a b = true) (k : Nat) :
    interleave le [a] (List.replicate k b) = .inl a :: List.replicate k (.inr b) := by
  cases k with
  | zero => rfl
  | succ k =>
    rw [replicate_succ, interleave_cons_cons, if_pos h, interleave_nil_left, map_cons,
      map_replicate, replicate_succ]

theorem validateSpans_crowded (k : Nat) : validateSpans (crowded k) = .ok () := by
  have hloop : ∀ k, (replicate k (.inr emptyTok.span : Span ⊕ Span)).foldlM checkItem [1] =
      .ok [1] := by
    intro k
    induction k with
    | zero => rfl
    | succ k ih =>
      have hstep : checkItem [1] (.inr emptyTok.span) = .ok [1] := by decide +kernel
      rw [replicate_succ, foldlM_cons, hstep, ok_bind, ih]
  have hfirst : checkItem [] (.inl crowdedSym.span) = .ok [1] := by decide +kernel
  rw [validateSpans, crowded, map_cons, map_nil, map_replicate,
    insertionSort_replicate (show tokBefore emptyTok.span emptyTok.span from le_rfl),
    show [crowdedSym.span].insertionSort symBefore = [crowdedSym.span] from rfl,
    interleave_singleton_replicate (by decide +kernel), foldlM_cons, hfirst, ok_bind,
    hloop, ok_bind]
  rfl

theorem foldl_emptyTok (k : Nat) (st : BuildState) (ho : st.opened = [(0, 1)])
    (ht : ∀ t ∈ st.tokens, t.parent = some 0) :
    let st' := (replicate k (.inr emptyTok : SymbolDecl ⊕ TokenDecl)).foldl pushItem st
    st'.symbols = st.symbols ∧ st'.tokens.length = st.tokens.length + k ∧
      ∀ t ∈ st'.tokens, t.parent = some 0 := by
  induction k generalizing st with
  | zero => exact ⟨rfl, rfl, ht⟩
  | succ k ih =>
    have hclose : closeTo emptyTok.span.start st.opened = [(0, 1)] := by
      rw [ho]
      decide
    rw [replicate_succ, foldl_cons]
    have hpar : ∀ t ∈ (pushItem st (.inr emptyTok)).tokens, t.parent = some 0 := by
      intro t htm
      rcases mem_append.mp htm with htm | htm
      · exact ht t htm
      · rw [mem_singleton.mp htm, hclose]
        rfl
    obtain ⟨h1, h2, h3⟩ := ih (pushItem st (.inr emptyTok)) hclose hpar
    refine ⟨h1, h2.trans ?_, h3⟩
    rw [pushItem, pushTok, length_append, length_singleton, Nat.add_assoc, Nat.add_comm 1]

theorem build_crowded (k : Nat) : ∃ s, (V2Prep.build (crowded k)).stream.symbols = [s] ∧
    (V2Prep.build (crowded k)).stream.tokens.length = k ∧
    ∀ t ∈ (V2Prep.build (crowded k)).stream.tokens, t.parent = some 0 := by
  have hitems : buildItems (crowded k) = .inl crowdedSym :: replicate k (.inr emptyTok) := by
    have hsort : sortedToks (crowded k) = replicate k emptyTok :=
      insertionSort_replicate (r := fun a b : TokenDecl => tokBefore a.span b.span) le_rfl k
    rw [buildItems, hsort]
    exact interleave_singleton_replicate (by decide +kernel) k
  obtain ⟨h1, h2, h3⟩ := foldl_emptyTok k (pushItem ⟨[], [], [], []⟩ (.inl crowdedSym)) (by decide)
    (fun t ht => absurd ht not_mem_nil)
  have hloop : buildLoop (crowded k) = (replicate k (.inr emptyTok)).foldl pushItem
      (pushItem ⟨[], [], [], []⟩ (.inl crowdedSym)) := by
    rw [buildLoop, hitems, foldl_cons]
  rw [← hloop] at h1 h2 h3
  exact ⟨_, h1, h2.trans (Nat.zero_add k), h3⟩

theorem rangeAccs_single (s : SymRec) (ts : List TokRec) (ht : ∀ t ∈ ts, t.parent = some 0)
    (ord : Nat) (a : RangeAcc) (ha : a.count ≠ 0 → a.first.isSome ∧ a.last.isSome) :
    ∃ b, rangeAccs [s] ord ts [a] = [b] ∧
      b.count = a.count + ts.length ∧ (b.count ≠ 0 → b.first.isSome ∧ b.last.isSome) := by
  induction ts generalizing ord a with
  | nil => exact ⟨a, rfl, rfl, ha⟩
  | cons t ts ih =>
    obtain ⟨ht, hts⟩ := forall_mem_cons.mp ht
    have hstep : ascend [s] (u32 ord) [s].length t.parent [a] = [a.touch (u32 ord)] := by
      rw [ht]
      rfl
    obtain ⟨b, hb, hcount, hsome⟩ := ih hts (ord + 1) (a.touch (u32 ord)) (fun _ => ⟨rfl, rfl⟩)
    refine ⟨b, by rw [rangeAccs, hstep, hb], ?_, hsome⟩
    rw [hcount, length_cons, ← Nat.add_assoc, Nat.add_right_comm]
    rfl

theorem ranged_traversals_crowded : validateSpans (crowded (2 ^ 32 + 1)) = .ok () ∧
    (computeRanges (V2Prep.build (crowded (2 ^ 32 + 1))).stream.symbols
      (V2Prep.build (crowded (2 ^ 32 + 1))).stream.tokens).2 = false := by
  refine ⟨validateSpans_crowded _, ?_⟩
  obtain ⟨s, hs, hlen, ht⟩ := build_crowded (2 ^ 32 + 1)
  obtain ⟨b, hb, hcount, hsome⟩ := rangeAccs_single s _ ht 0 ⟨none, none, 0⟩ (fun h => absurd rfl h)
  rw [hlen] at hcount
  obtain ⟨hf, hl⟩ := hsome (by rw [hcount]; exact Nat.succ_ne_zero _)
  obtain ⟨f, hf⟩ := Option.isSome_iff_exists.mp hf
  obtain ⟨l, hl⟩ := Option.isSome_iff_exists.mp hl
  have hdense : b.dense = false := by
    rw [RangeAcc.dense, RangeAcc.range, hf, hl, decide_eq_false_iff_not, hcount]
    have := l.isLt
    omega
  rw [computeRanges, hs]
  dsimp only [List.length_singleton, List.replicate_one]
  rw [hb, List.all_cons, hdense, Bool.false_and]

end MemoryGraph
