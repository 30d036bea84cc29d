import MemoryGraph.Store.Summary

/-! `describe` from the catalog: on the catalog of a store, the loop over the rows succeeds
and leaves for each repo the summary of its counters. -/

namespace MemoryGraph
open Lib Codec List
variable {fs : List String} {org repo : Option String} {rows : List (String × Nat)} {o r : String}

def Described (infos : Infos) (listed : String → String → Prop)
    (c : String → String → Field → Nat) : Prop :=
  ∀ o r, match infos.get (toLex (o, r)) with
    | none => ¬ listed o r ∧ ∀ a, c o r a = 0
    | some i => listed o r ∧ InfoOf o r (c o r) i

namespace Described
variable {infos infos' : Infos} {listed : String → String → Prop}
  {c : String → String → Field → Nat}

theorem empty : Described Table.empty (fun _ _ => False) (fun _ _ _ => 0) :=
  fun _ _ => ⟨not_false, fun _ => rfl⟩

theorem listed_iff (h : Described infos listed c) (o r : String) :
    listed o r ↔ ∃ i, infos.get (toLex (o, r)) = some i := by
  have hor := h o r
  cases hi : infos.get (toLex (o, r)) with
  | none =>
    rw [hi] at hor
    simp [hor.1]
  | some i =>
    rw [hi] at hor
    simp [hor.1]

theorem infoOf (h : Described infos listed c) {i : RepoInfo}
    (hi : infos.get (toLex (o, r)) = some i) : InfoOf o r (c o r) i := by
  have hor := h o r
  rw [hi] at hor
  exact hor.2

theorem getD (h : Described infos listed c) (o r : String) :
    InfoOf o r (c o r) ((infos.get (toLex (o, r))).getD (RepoInfo.new o r)) := by
  have hor := h o r
  cases hi : infos.get (toLex (o, r)) with
  | none =>
    rw [hi] at hor
    rw [funext hor.2]
    exact infoOf_new o r
  | some i =>
    rw [hi] at hor
    exact hor.2

theorem congr {listed' : String → String → Prop} {c' : String → String → Field → Nat}
    (h : Described infos listed c) (hl : ∀ o r, listed' o r ↔ listed o r)
    (hc : ∀ o r a, c' o r a = c o r a) : Described infos listed' c' := by
  obtain rfl : listed' = listed := funext fun o => funext fun r => propext (hl o r)
  obtain rfl : c' = c := funext fun o => funext fun r => funext (hc o r)
  exact h

theorem insert (h : Described infos listed c) {c' : String → String → Field → Nat} {i : RepoInfo}
    (hi : InfoOf o r (c' o r) i)
    (hother : ∀ o' r', (o', r') ≠ (o, r) → ∀ a, c' o' r' a = c o' r' a) :
    Described (infos.insert (toLex (o, r)) i) (fun o' r' => listed o' r' ∨ (o', r') = (o, r))
      c' := by
  intro o' r'
  rw [Table.get_insert]
  by_cases hor : (o', r') = (o, r)
  · cases hor
    rw [if_pos rfl]
    exact ⟨Or.inr rfl, hi⟩
  · rw [if_neg (fun e => hor (toLex.injective e).symm), funext (hother o' r' hor)]
    have hor' := h o' r'
    cases hg : infos.get (toLex (o', r')) with
    | none =>
      rw [hg] at hor'
      exact ⟨fun hl => hl.elim hor'.1 hor, hor'.2⟩
    | some j =>
      rw [hg] at hor'
      exact ⟨Or.inl hor'.1, hor'.2⟩

end Described

inductive RowKey (o r : String) : List String → Prop
  | mark : RowKey o r ["r", o, r]
  | field (a : Field) : RowKey o r (a.key o r)

theorem RowKey.cons (h : RowKey o r fs) :
    ∃ tag rest, fs = tag :: o :: r :: rest ∧ (tag = "r" ↔ fs = ["r", o, r]) := by
  cases h with
  | mark => exact ⟨"r", [], rfl, by simp⟩
  | field a =>
    obtain ⟨tag, rest, he, -, hr⟩ := a.key_cons o r
    exact ⟨tag, rest, he, fun e => absurd e hr, fun e => absurd (cons.inj (he.symm.trans e)).1 hr⟩

theorem RowKey.unique {o r o' r' : String} (h : RowKey o r fs) (h' : RowKey o' r' fs) :
    (o, r) = (o', r') := by
  obtain ⟨tag, rest, e, -⟩ := h.cons
  obtain ⟨tag', rest', e', -⟩ := h'.cons
  obtain ⟨-, rfl, rfl, -⟩ := by simpa using e.symm.trans e'
  rfl

theorem mark_ne_key (o r o' r' : String) (a : Field) : ["r", o, r] ≠ a.key o' r' := by
  obtain ⟨tag, rest, he, -, hr⟩ := a.key_cons o' r'
  rw [he]
  intro e
  exact hr (cons.inj e).1.symm

def plusRow (c : Field → Nat) (o r : String) (fs : List String) (v : Nat) : Field → Nat :=
  fun a => c a + if fs = a.key o r then v else 0

theorem plusRow_key (c : Field → Nat) (o r : String) (a : Field) (v : Nat) :
    plusRow c o r (a.key o r) v = a.plus c v := by
  funext b
  have hiff : a.key o r = b.key o r ↔ b = a :=
    ⟨fun e => ((Field.key_inj e).2.2).symm, fun e => by rw [e]⟩
  rw [plusRow, Field.plus, if_congr hiff rfl rfl]

section
variable {o r : String} {c : Field → Nat} {i : RepoInfo} {v : Nat}

theorem infoOf_language (h : InfoOf o r c i) (hv : 0 < v) {lang : String} {p : Part}
    {f : LanguageInfo → LanguageInfo} {n : Nat}
    (hf : ∀ l : LanguageInfo, l.Summarises (fun q => c (.language lang q)) →
      (f l).files = l.files + n ∧ (f l).Summarises
      (fun q => (Field.language lang p).plus c v (.language lang q))) :
    InfoOf o r ((Field.language lang p).plus c v)
      ({ i with files := i.files + n }.onLanguage lang f) := by
  obtain ⟨hfiles, hrow⟩ := hf _ (h.counts.languages lang).getD
  refine ⟨h.org, h.repo, h.openBatch, ?_, h.counts.lossy, h.counts.encodings, h.counts.classes, ?_⟩
  · change ((i.files + n : Nat) : Int) = _
    rw [Nat.cast_add, h.counts.files]
    exact (fileSum_onLanguage hfiles).symm
  · refine languageRow_onLanguage h.counts.languages ⟨hrow, p, ?_⟩ fun l hl q => ?_
    · rw [Field.plus_self]
      omega
    · exact Field.plus_of_ne c v (by simp [hl])

theorem plus_part (c : Field → Nat) {lang : String} {p q : Part} (v : Nat) (hq : q ≠ p) :
    c (.language lang q) = (Field.language lang p).plus c v (.language lang q) :=
  (Field.plus_of_ne c v (by simp [hq])).symm

theorem describeRow_field (h : InfoOf o r c i) (a : Field) (h0 : c a = 0) (hv : 0 < v) :
    ∃ i', describeRow i (a.key o r) v = .ok i' ∧ InfoOf o r (a.plus c v) i' := by
  have hs := h.counts
  have hself : v = a.plus c v a := by rw [Field.plus_self, h0, zero_add]
  rcases a with e | _ | k | ⟨lang, _ | _ | _ | k⟩
  · refine ⟨_, rfl, h.org, h.repo, h.openBatch, hs.files, hs.lossy, ?_, hs.classes, hs.languages⟩
    have hins := hs.encodings.insert hv e
    rw [h0, zero_add] at hins
    exact hins.congr fun k => by simp [Field.plus]
  · exact ⟨_, rfl, h.org, h.repo, h.openBatch, hs.files, hself, hs.encodings,
      hs.classes, hs.languages⟩
  · refine ⟨_, rfl, h.org, h.repo, h.openBatch, hs.files, hs.lossy, hs.encodings, ?_, hs.languages⟩
    have hins := hs.classes.insert hv k
    rw [h0, zero_add] at hins
    exact hins.congr fun k => by simp [Field.plus]
  · refine ⟨_, rfl, infoOf_language h hv fun l hl => ⟨?_, hself, ?_, ?_, ?_⟩⟩
    · rw [hl.files, h0, zero_add]
    · exact hl.symbols.trans (plus_part c v (by simp))
    · exact hl.tokens.trans (plus_part c v (by simp))
    · exact hl.kinds.congr fun k => (plus_part c v (by simp)).symm
  · refine ⟨_, rfl, infoOf_language h hv (n := 0) fun l hl => ⟨rfl, ?_, hself, ?_, ?_⟩⟩
    · exact hl.files.trans (plus_part c v (by simp))
    · exact hl.tokens.trans (plus_part c v (by simp))
    · exact hl.kinds.congr fun k => (plus_part c v (by simp)).symm
  · refine ⟨_, rfl, infoOf_language h hv (n := 0) fun l hl => ⟨rfl, ?_, ?_, hself, ?_⟩⟩
    · exact hl.files.trans (plus_part c v (by simp))
    · exact hl.symbols.trans (plus_part c v (by simp))
    · exact hl.kinds.congr fun k => (plus_part c v (by simp)).symm
  · refine ⟨_, rfl, infoOf_language h hv (n := 0) fun l hl => ⟨rfl, ?_, ?_, ?_, ?_⟩⟩
    · exact hl.files.trans (plus_part c v (by simp))
    · exact hl.symbols.trans (plus_part c v (by simp))
    · exact hl.tokens.trans (plus_part c v (by simp))
    · have hins := hl.kinds.insert hv k
      rw [h0, zero_add] at hins
      exact hins.congr fun k => by simp [Field.plus]

theorem describeRow_spec (h : InfoOf o r c i) (hk : RowKey o r fs)
    (h0 : ∀ a : Field, fs = a.key o r → c a = 0) (hv : 0 < v) :
    ∃ i', describeRow i fs v = .ok i' ∧ InfoOf o r (plusRow c o r fs v) i' := by
  cases hk with
  | mark =>
    refine ⟨i, rfl, ?_⟩
    have hc : plusRow c o r ["r", o, r] v = c := by
      funext a
      rw [plusRow, if_neg (mark_ne_key o r o r a), add_zero]
    rw [hc]
    exact h
  | field a =>
    rw [plusRow_key]
    exact describeRow_field h a (h0 a rfl) hv

end

def InScope (org repo : Option String) (o r : String) : Prop := (∀ x ∈ org, o = x) ∧
    ∀ x ∈ repo, r = x

instance (org repo : Option String) (o r : String) : Decidable (InScope org repo o r) :=
  inferInstanceAs (Decidable (_ ∧ _))

theorem inScope_iff :
    InScope org repo o r ↔ ¬ (org.any (fun x => o ≠ x) ∨ repo.any (fun x => r ≠ x)) := by
  cases org <;> cases repo <;> simp [InScope]

def CatRow (row : String × Nat) : Prop := 0 < row.2 ∧ ∃ o r, RowKey o r (nulSplit row.1)

def valueIn (rows : List (String × Nat)) (o r : String) (a : Field) : Nat :=
  (rows.map (fun row => if nulSplit row.1 = a.key o r then row.2 else 0)).sum

theorem valueIn_eq_zero {a : Field}
    (h : ∀ row ∈ rows, nulSplit row.1 ≠ a.key o r) : valueIn rows o r a = 0 := by
  refine sum_eq_zero fun n hn => ?_
  obtain ⟨row, hrow, rfl⟩ := mem_map.mp hn
  exact if_neg (h row hrow)

theorem valueIn_of_mem (hdiff : rows.Pairwise (fun a b => nulSplit a.1 ≠ nulSplit b.1))
    {row : String × Nat} (hrow : row ∈ rows) {a : Field} (hk : nulSplit row.1 = a.key o r) :
    valueIn rows o r a = row.2 := by
  induction rows with
  | nil => cases hrow
  | cons b rows ih =>
    obtain ⟨hne, hdiff⟩ := pairwise_cons.mp hdiff
    rw [valueIn, map_cons, sum_cons]
    change _ + valueIn rows o r a = row.2
    rcases mem_cons.mp hrow with rfl | hrow
    · rw [if_pos hk, valueIn_eq_zero fun b hb e => hne b hb (hk.trans e.symm), add_zero]
    · rw [if_neg fun e => hne row hrow (e.trans hk.symm), ih hdiff hrow, zero_add]

theorem describeStep_spec {st : Describing} {listed : String → String → Prop}
    {c : String → String → Field → Nat} (h : Described st.infos listed c) {row : String × Nat}
    (hv : 0 < row.2) (hk : RowKey o r (nulSplit row.1))
    (h0 : ∀ a : Field, nulSplit row.1 = a.key o r → c o r a = 0) :
    ∃ st', describeStep org repo st row = .ok st' ∧
      Described st'.infos (fun o' r' => listed o' r' ∨ InScope org repo o' r' ∧ (o', r') = (o, r))
        (fun o' r' a => c o' r' a + if InScope org repo o' r' ∧
          nulSplit row.1 = a.key o' r' then row.2 else 0) ∧
      ∀ o' r', (o', r') ∈ st'.seen ↔ (o', r') ∈ st.seen ∨ InScope org repo o' r' ∧
        nulSplit row.1 = ["r", o', r'] := by
  obtain ⟨tag, rest, hfs, htag⟩ := hk.cons
  -- a key names one repo only
  have hkey : ∀ {o' r' : String} {a : Field}, nulSplit row.1 = a.key o' r' → (o', r') = (o, r) := by
    intro o' r' a e
    exact (e ▸ hk).unique (RowKey.field a) |>.symm
  have hmark : ∀ {o' r' : String}, nulSplit row.1 = ["r", o', r'] → (o', r') = (o, r) := by
    intro o' r' e
    exact (e ▸ hk).unique RowKey.mark |>.symm
  by_cases hin : InScope org repo o r
  · obtain ⟨i', hi', hinfo⟩ := describeRow_spec (h.getD o r) hk h0 hv
    refine ⟨⟨st.infos.insert (toLex (o, r)) i', if tag = "r" then (o, r) :: st.seen else st.seen⟩,
      ?_, ?_, ?_⟩
    · rw [hfs] at hi'
      rw [describeStep, hfs]
      dsimp only
      rw [if_neg (inScope_iff.mp hin), hi']
      rfl
    · have hinfo' : InfoOf o r (fun a => c o r a +
          if InScope org repo o r ∧ nulSplit row.1 = a.key o r then row.2 else 0) i' := by
        simp only [hin, true_and]
        exact hinfo
      refine Described.congr (h.insert hinfo' fun o' r' hne a => ?_) ?_ fun _ _ _ => rfl
      · rw [if_neg (fun e => hne (hkey e.2)), add_zero]
      · intro o' r'
        constructor
        · rintro (hl | ⟨-, e⟩)
          · exact Or.inl hl
          · exact Or.inr e
        · rintro (hl | e)
          · exact Or.inl hl
          · cases e
            exact Or.inr ⟨hin, rfl⟩
    · intro o' r'
      by_cases ht : tag = "r"
      · have hfs' := htag.mp ht
        rw [if_pos ht, mem_cons, or_comm]
        refine or_congr_right ⟨fun e => ?_, fun e => hmark e.2⟩
        cases e
        exact ⟨hin, hfs'⟩
      · rw [if_neg ht]
        refine ⟨Or.inl, fun e => e.resolve_right fun e => ht ?_⟩
        obtain ⟨rfl, rfl⟩ := Prod.mk.inj (hmark e.2)
        exact htag.mpr e.2
  · -- the row is skipped
    have hout : ∀ {o' r' : String}, (o', r') = (o, r) → ¬ InScope org repo o' r' := by
      intro o' r' e
      cases e
      exact hin
    refine ⟨st, ?_, h.congr (fun o' r' => ?_) (fun o' r' a => ?_), fun o' r' => ?_⟩
    · rw [describeStep, hfs]
      dsimp only
      rw [if_pos (not_not.mp (fun e => hin (inScope_iff.mpr e)))]
      rfl
    · exact ⟨fun hl => hl.resolve_right fun e => hout e.2 e.1, Or.inl⟩
    · rw [if_neg (fun e => hout (hkey e.2) e.1), add_zero]
    · exact ⟨Or.inl, fun hl => hl.resolve_right fun e => hout (hmark e.2) e.1⟩

theorem describe_loop (hrow : ∀ row ∈ rows, CatRow row)
    (hdiff : rows.Pairwise (fun a b => nulSplit a.1 ≠ nulSplit b.1)) {st : Describing}
    {listed : String → String → Prop} {c : String → String → Field → Nat}
    (h : Described st.infos listed c)
    (h0 : ∀ row ∈ rows, ∀ o r, ∀ a : Field, nulSplit row.1 = a.key o r → c o r a = 0) :
    ∃ st', rows.foldlM (describeStep org repo) st = .ok st' ∧
      Described st'.infos
        (fun o r => listed o r ∨ InScope org repo o r ∧ ∃ row ∈ rows, RowKey o r (nulSplit row.1))
        (fun o r a => c o r a + if InScope org repo o r then valueIn rows o r a else 0) ∧
      ∀ o r, (o, r) ∈ st'.seen ↔
        (o, r) ∈ st.seen ∨ InScope org repo o r ∧ ∃ row ∈ rows, nulSplit row.1 = ["r", o, r] := by
  induction rows generalizing st listed c with
  | nil =>
    refine ⟨st, rfl, h.congr (fun o r => ?_) (fun o r a => ?_), fun o r => ?_⟩
    · simp
    · simp [valueIn]
    · simp
  | cons row rows ih =>
    obtain ⟨hv, o₀, r₀, hk⟩ := hrow row mem_cons_self
    obtain ⟨hne, hdiff⟩ := pairwise_cons.mp hdiff
    obtain ⟨st₁, hst₁, hd₁, hseen₁⟩ := describeStep_spec h hv hk
      (fun a e => h0 row mem_cons_self o₀ r₀ a e)
    obtain ⟨st', hst', hd', hseen'⟩ := ih (fun b hb => hrow b (.tail _ hb)) hdiff hd₁ (by
      intro b hb o r a e
      rw [h0 b (.tail _ hb) o r a e, if_neg (fun e' => hne b hb (e'.2.trans e.symm))])
    refine ⟨st', ?_, hd'.congr (fun o r => ?_) (fun o r a => ?_), fun o r => ?_⟩
    · rw [foldlM_cons, hst₁]
      exact hst'
    · have hor : (o, r) = (o₀, r₀) ↔ RowKey o r (nulSplit row.1) := by
        refine ⟨fun e => ?_, fun e => e.unique hk⟩
        cases e
        exact hk
      rw [hor]
      simp only [mem_cons, exists_eq_or_imp]
      tauto
    · simp only [valueIn, map_cons, sum_cons]
      by_cases hin : InScope org repo o r
      · simp only [hin, true_and, if_true]
        omega
      · simp [hin]
    · rw [hseen', hseen₁]
      simp only [mem_cons, exists_eq_or_imp]
      tauto

def nodeCounts (lang : String) (n : Node) : List Field :=
  match n.kind with
  | .symbol => [.language lang .symbols, .language lang (.kind (kindLabel n))]
  | .token => .language lang .tokens :: n.tokenClass.toList.map (fun c => .tokenClass c.asStr)
  | _ => []

def contentCounts (s : Scope) (es : List (Nat × String)) (f : Nat) (st : Stream) : List Field :=
  .language s.lang .files :: (s.encoding.toList.map .encoding ++ if s.lossy then [.lossy]
    else []) ++ (samplesOf es f st).flatMap (nodeCounts s.lang)

theorem nodeFields_eq (s : Scope) (n : Node) :
    s.nodeFields n = (nodeCounts s.lang n).map (Field.key s.org s.repo) := by
  rw [Scope.nodeFields, nodeCounts]
  cases n.kind <;> simp [Field.key, Function.comp_def]

theorem contentFields_eq (s : Scope) (es : List (Nat × String)) (f : Nat) (st : Stream) :
    contentFields s es f st = (contentCounts s es f st).map (Field.key s.org s.repo) := by
  have hnodes : (samplesOf es f st).flatMap s.nodeFields =
      ((samplesOf es f st).flatMap (nodeCounts s.lang)).map (Field.key s.org s.repo) := by
    rw [map_flatMap]
    exact flatMap_congr fun n _ => nodeFields_eq s n
  have hfile : s.fileFields =
      (Field.language s.lang .files :: (s.encoding.toList.map .encoding ++ if s.lossy then [.lossy]
        else [])).map (Field.key s.org s.repo) := by
    rw [Scope.fileFields]
    cases s.encoding <;> cases s.lossy <;> simp [Field.key]
  rw [contentFields, contentCounts, map_append, hnodes, hfile]

theorem count_contentFields (s : Scope) (es : List (Nat × String)) (f : Nat) (st : Stream)
    (o r : String) (a : Field) :
    (contentFields s es f st).count (a.key o r) =
      if s.org = o ∧ s.repo = r then (contentCounts s es f st).count a else 0 := by
  rw [contentFields_eq]
  split_ifs with hs
  · obtain ⟨rfl, rfl⟩ := hs
    exact count_map_of_injective _ _ (fun a b e => (Field.key_inj e).2.2) a
  · refine count_eq_zero.mpr fun hm => hs ?_
    obtain ⟨b, -, e⟩ := mem_map.mp hm
    exact ⟨(Field.key_inj e).1, (Field.key_inj e).2.1⟩

section
variable {sha256 : List UInt8 → List UInt8} {ok : Extraction → Prop} {d : Data}
  {σ : Nat → Option Stream} {es : List (Nat × String)} (h : Inv sha256 ok d σ es)
include h

theorem fieldsOf_cases (f : Nat) : fieldsOf d.nodes σ es f = [] ∨
    ∃ n st org repo repoId, d.nodes.get f = some n ∧ n.kind = .file ∧ σ f = some st ∧
      n.parent = some repoId ∧ IsRepo d.nodes org repo repoId ∧
      fieldsOf d.nodes σ es f = contentFields (scopeOf org repo n) es f st := by
  cases hs : σ f with
  | none => exact Or.inl (fieldsOf_none hs es)
  | some st =>
    obtain ⟨n, hn, hk⟩ := (h.files.streams f).mp (by rw [hs]; rfl)
    obtain ⟨org, repo, repoId, hp, hr⟩ := isRepo_of_file h.entities hn hk
    exact Or.inr ⟨n, st, org, repo, repoId, hn, hk, rfl, hp, hr, fieldsOf_file hn hp hr hs es⟩

theorem total_pos (ht : total d.nextId d.nodes σ es fs ≠ 0) :
    NulFreeAll fs ∧ ∃ o r repoId a, IsRepo d.nodes o r repoId ∧ fs = Field.key o r a := by
  obtain ⟨f, -, hf⟩ := Finset.exists_ne_zero_of_sum_ne_zero ht
  have hmem : fs ∈ fieldsOf d.nodes σ es f := count_pos_iff.mp (Nat.pos_of_ne_zero hf)
  refine ⟨(fielded_fieldsOf h f fs hmem).2.1, ?_⟩
  rcases fieldsOf_cases h f with he | ⟨n, st, org, repo, repoId, -, -, -, -, hr, he⟩
  · rw [he] at hmem
    cases hmem
  · rw [he, contentFields_eq] at hmem
    obtain ⟨a, -, ha⟩ := mem_map.mp hmem
    exact ⟨org, repo, repoId, a, hr, ha.symm⟩

variable (hc : Catalogued d σ es)
include hc

theorem catalog_row {key : String} {v : Nat} (hv : d.cat.get key = some v) :
    key = nulJoin (nulSplit key) ∧ 0 < v ∧
      ∃ o r repoId, IsRepo d.nodes o r repoId ∧ RowKey o r (nulSplit key) ∧
        ∀ a : Field, nulSplit key = a.key o r → v = total d.nextId d.nodes σ es (a.key o r) := by
  obtain ⟨fs, hne, hfree, rfl⟩ := hc.keys key v hv
  rw [nulSplit_nulJoin hne hfree]
  refine ⟨rfl, ?_⟩
  by_cases hm : IsMark d.nodes fs
  · obtain rfl : 1 = v := Option.some.inj ((hc.marks fs hm).symm.trans hv)
    obtain ⟨o, r, repoId, hr, rfl⟩ := hm
    exact ⟨one_pos, o, r, repoId, hr, RowKey.mark, fun a e => absurd e (mark_ne_key o r o r a)⟩
  · have htotal := (hc.counts fs hne hfree hm).symm.trans hv
    rw [pos] at htotal
    split_ifs at htotal with h0
    cases htotal
    obtain ⟨-, o, r, repoId, a, hr, rfl⟩ := total_pos h h0
    exact ⟨Nat.pos_of_ne_zero h0, o, r, repoId, hr, RowKey.field a, fun b e => by rw [e]⟩

theorem catalog_differ : d.cat.rows.Pairwise (fun a b => nulSplit a.1 ≠ nulSplit b.1) := by
  refine d.cat.sorted.imp_of_mem fun {a b} ha hb hlt e => ?_
  rw [Table.mem_rows_iff] at ha hb
  have hab : a.1 = b.1 :=
    (catalog_row h hc ha).1.trans ((congrArg nulJoin e).trans (catalog_row h hc hb).1.symm)
  exact absurd hlt (by rw [hab]; exact lt_irrefl _)

theorem valueIn_catalog (o r : String) (a : Field) :
    valueIn d.cat.rows o r a = total d.nextId d.nodes σ es (a.key o r) := by
  by_cases hex : ∃ row ∈ d.cat.rows, nulSplit row.1 = a.key o r
  · obtain ⟨row, hrow, hk⟩ := hex
    obtain ⟨-, -, o', r', -, -, hkey, hv⟩ := catalog_row h hc (Table.mem_rows_iff.mp hrow)
    obtain ⟨rfl, rfl⟩ := Prod.mk.inj ((hk ▸ hkey).unique (RowKey.field a))
    rw [valueIn_of_mem (catalog_differ h hc) hrow hk]
    exact hv a hk
  · rw [valueIn_eq_zero fun row hrow e => hex ⟨row, hrow, e⟩]
    -- a counter of the totals has its row
    by_contra h0
    obtain ⟨hfree, -⟩ := total_pos h (Ne.symm h0)
    obtain ⟨tag, rest, he, -, htag⟩ := a.key_cons o r
    have hne : a.key o r ≠ [] := by simp [he]
    have hmark : ¬ IsMark d.nodes (a.key o r) := fun hm => htag (by simpa [he] using hm.head)
    have hget := hc.counts _ hne hfree hmark
    rw [pos, if_neg (Ne.symm h0)] at hget
    exact hex ⟨_, Table.get_eq_some.mp hget, nulSplit_nulJoin hne hfree⟩

theorem catalog_mark {repoId : Nat} (hr : IsRepo d.nodes o r repoId) :
    ∃ row ∈ d.cat.rows, nulSplit row.1 = ["r", o, r] := by
  have hmark : IsMark d.nodes ["r", o, r] := ⟨o, r, repoId, hr, rfl⟩
  exact ⟨_, Table.get_eq_some.mp (hc.marks _ hmark),
    nulSplit_nulJoin (by simp) (hmark.nulFree h.entities)⟩

theorem catalog_listed (o r : String) :
    (∃ row ∈ d.cat.rows, RowKey o r (nulSplit row.1)) ↔ ∃ repoId, IsRepo d.nodes o r repoId := by
  constructor
  · rintro ⟨row, hrow, hk⟩
    obtain ⟨-, -, o', r', repoId, hr, hk', -⟩ := catalog_row h hc (Table.mem_rows_iff.mp hrow)
    obtain ⟨rfl, rfl⟩ := Prod.mk.inj (hk.unique hk')
    exact ⟨repoId, hr⟩
  · rintro ⟨repoId, hr⟩
    obtain ⟨row, hrow, hk⟩ := catalog_mark h hc hr
    exact ⟨row, hrow, hk ▸ RowKey.mark⟩

theorem describeIn_eq (openBatch : Option (String × String)) (org repo : Option String) :
    ∃ infos, Described infos (fun o r => InScope org repo o r ∧ ∃ repoId, IsRepo d.nodes o r repoId)
        (fun o r a => if InScope org repo o r then total d.nextId d.nodes σ es (a.key o r) else 0) ∧
      describeIn d.cat openBatch org repo = .ok
        ((markOpenBatch openBatch infos).rows.map Prod.snd) := by
  have hrow : ∀ row ∈ d.cat.rows, CatRow row := by
    intro row hrow
    obtain ⟨-, hv, o, r, -, -, hk, -⟩ := catalog_row h hc (Table.mem_rows_iff.mp hrow)
    exact ⟨hv, o, r, hk⟩
  obtain ⟨st, hst, hinfos, hseen⟩ :=
    @describe_loop org repo _ hrow (catalog_differ h hc) ⟨Table.empty, []⟩ _ _
    Described.empty fun _ _ _ _ _ _ => rfl
  simp only [false_or, zero_add, catalog_listed h hc, valueIn_catalog h hc] at hinfos
  refine ⟨st.infos, hinfos, ?_⟩
  -- every repo with a counter has its marker row
  have hall : ¬ st.infos.rows.any (fun r => ofLex r.1 ∉ st.seen) := by
    simp only [any_eq_true, decide_eq_true_eq, not_exists, not_and, not_not]
    rintro ⟨key, i⟩ hi
    obtain ⟨hin, repoId, hr⟩ :=
      (hinfos.listed_iff (ofLex key).1 (ofLex key).2).mpr ⟨i, Table.get_eq_some.mpr hi⟩
    exact (hseen _ _).mpr (Or.inr ⟨hin, catalog_mark h hc hr⟩)
  rw [describeIn, hst, ok_bind, failIf_of_not hall]
  rfl

end

end MemoryGraph
