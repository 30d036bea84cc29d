import MemoryGraph.Read.Nodes
import MemoryGraph.Store.Describe
import MemoryGraph.Store.Progress

/-! `describe` by decoding every file, and that it says what the catalog says: the loop over
the nodes leaves for each repo the summary of its files. -/

namespace MemoryGraph
open Lib Codec List Table
variable {id : Nat} {n : Node} {done : List Nat}

structure Scanning where
  orgName : Table Nat String
  repoKey : Table Nat (String × String)
  infos : Infos

def LanguageInfo.scanFile (l : LanguageInfo) (labels : List String) (ntok : Nat) : LanguageInfo :=
  let l := { l with files := l.files + 1 }
  let l := labels.foldl (fun l label =>
    { l with symbols := l.symbols + 1, symbolKinds := l.symbolKinds.bump label }) l
  { l with tokens := l.tokens + ntok }

def RepoInfo.scanFile (info : RepoInfo) (n : Node) (labels : List String) (s : Stream) : RepoInfo :=
  let info := { info with files := info.files + 1 }
  let info := match n.encoding with
    | some e => { info with encodings := info.encodings.bump e }
    | none => info
  let info := { info with lossy := info.lossy + if n.lossy then 1 else 0 }
  let info := info.onLanguage (n.language.getD "unknown") fun l => l.scanFile labels s.tokens.length
  { info with
    tokenClasses := (s.tokens.map (fun t => t.cls.asStr)).foldl Table.bump info.tokenClasses }

def scanNode (d : Data) (st : Scanning) (n : Node) : Except StoreError Scanning :=
  match n.kind with
  | .org => return { st with orgName := st.orgName.insert n.id n.name }
  | .repo =>
    let o := (n.parent.bind st.orgName.get).getD ""
    return { st with
      infos := st.infos.alter (toLex (o, n.name)) (fun i => i.getD (RepoInfo.new o n.name))
      repoKey := st.repoKey.insert n.id (o, n.name) }
  | .file =>
    match n.parent.bind st.repoKey.get with
    | none => return st
    | some key =>
      match st.infos.get (toLex key) with
      | none => .error (.panic "repo registered")
      | some info => do
        match ← d.stream n.id with
        | none => .error (.corrupt ("file " ++ toString n.id ++ " no stream"))
        | some s =>
          let labels ← (List.range s.symbols.length).mapM fun i =>
            kindLabel <$> symNode d.terms.text n.id i s.symbols
          return { st with infos := st.infos.insert (toLex key) (info.scanFile n labels s) }
  | _ => return st

def describeByScan (d : Data) (openBatch : Option (String × String)) (org repo : Option String) :
    Except StoreError (List RepoInfo) := do
  let all := (d.nodes.rows.map Prod.snd).insertionSort (fun a b => a.id ≤ b.id)
  let st ← all.foldlM (scanNode d) ⟨Table.empty, Table.empty, Table.empty⟩
  return ((markOpenBatch openBatch st.infos).rows.map Prod.snd).filter
    (fun i => org.all (fun o => i.org = o) && repo.all (fun r => i.repo = r))

def symParts (label : String) : List Part := [.symbols, .kind label]

def fileParts (labels : List String) (ntok : Nat) : List Part :=
  .files :: (labels.flatMap symParts ++ List.replicate ntok .tokens)

theorem foldl_symbols (labels : List String) {l : LanguageInfo} {c : Part → Nat}
    (h : l.Summarises c) :
    (labels.foldl
      (fun l label => { l with symbols := l.symbols + 1, symbolKinds := l.symbolKinds.bump label })
      l).Summarises (fun p => c p + (labels.flatMap symParts).count p) := by
  induction labels generalizing l c with
  | nil => exact h
  | cons k labels ih =>
    have hk : ({ l with symbols := l.symbols + 1, symbolKinds := l.symbolKinds.bump k } :
        LanguageInfo).Summarises (fun p => c p + (symParts k).count p) := by
      refine ⟨?_, ?_, ?_, ?_⟩
      · simpa [symParts] using h.files
      · simpa [symParts] using h.symbols
      · simpa [symParts] using h.tokens
      · refine (h.kinds.bump k).congr fun k' => ?_
        by_cases hk : k' = k
        · simp [symParts, hk]
        · simp [symParts, hk, Ne.symm hk]
    have hall := ih hk
    rw [foldl_cons, flatMap_cons]
    simp only [count_append, ← add_assoc]
    exact hall

theorem LanguageInfo.Summarises.scanFile {l : LanguageInfo} {c : Part → Nat} (h : l.Summarises c)
    (labels : List String) (ntok : Nat) :
    (l.scanFile labels ntok).Summarises (fun p => c p + (fileParts labels ntok).count p) := by
  have hfile : ({ l with files := l.files + 1 } : LanguageInfo).Summarises
      (fun p => c p + if p = .files then 1 else 0) :=
    ⟨by simpa using h.files, h.symbols, h.tokens, h.kinds⟩
  have hall := foldl_symbols labels hfile
  have hcount : ∀ p, (fileParts labels ntok).count p =
      (if p = .files then 1 else 0) + (labels.flatMap symParts).count p + if p =
      .tokens then ntok else 0 := by
    intro p
    rw [fileParts, count_cons, count_append, count_replicate]
    cases p <;> simp
    omega
  refine ⟨?_, ?_, ?_, ?_⟩
  · rw [hcount, ← add_assoc, ← add_assoc]
    exact hall.files
  · rw [hcount, ← add_assoc, ← add_assoc]
    exact hall.symbols
  · rw [hcount, ← add_assoc, ← add_assoc, if_pos rfl]
    exact congrArg (· + ntok) hall.tokens
  · refine hall.kinds.congr fun k => ?_
    rw [hcount, ← add_assoc, ← add_assoc]
    rfl

def fileCounts (n : Node) (labels classes : List String) : List Field :=
  n.encoding.toList.map .encoding ++ (if n.lossy then [.lossy] else []) ++
    ((fileParts labels classes.length).map (.language (n.language.getD "unknown")) ++
      classes.map .tokenClass)

theorem count_map_of_ne {α : Type} {f : α → Field} {a : Field} (h : ∀ x, f x ≠ a) (l : List α) :
    (l.map f).count a = 0 := by
  refine count_eq_zero.mpr fun hm => ?_
  obtain ⟨x, -, hx⟩ := mem_map.mp hm
  exact h x hx

section
variable (n : Node) (labels classes : List String)

theorem count_lossy : (fileCounts n labels classes).count .lossy = if n.lossy then 1 else 0 := by
  simp only [fileCounts, count_append]
  rw [count_map_of_ne (by simp), count_map_of_ne (by simp), count_map_of_ne (by simp)]
  cases n.lossy <;> simp

theorem count_encoding (e : String) :
    (fileCounts n labels classes).count (.encoding e) = if e ∈ n.encoding then 1 else 0 := by
  simp only [fileCounts, count_append]
  rw [count_map_of_ne (by simp) (fileParts _ _), count_map_of_ne (by simp) classes]
  cases n.lossy <;> cases n.encoding <;> simp [count_cons]

theorem count_tokenClass (k : String) :
    (fileCounts n labels classes).count (.tokenClass k) = classes.count k := by
  have hinj : Function.Injective Field.tokenClass := fun a b e => by simpa using e
  simp only [fileCounts, count_append]
  rw [count_map_of_ne (by simp) n.encoding.toList, count_map_of_ne (by simp) (fileParts _ _),
    count_map_of_injective _ _ hinj]
  cases n.lossy <;> simp

theorem count_language (l : String) (p : Part) :
    (fileCounts n labels classes).count (.language l p) =
    if l = n.language.getD "unknown" then (fileParts labels classes.length).count p else 0 := by
  have hinj : Function.Injective (Field.language (n.language.getD "unknown")) :=
    fun a b e => by simpa using e
  have hlossy : (if n.lossy then [Field.lossy] else []).count (.language l p) = 0 := by
    cases n.lossy <;> simp
  simp only [fileCounts, count_append]
  rw [count_map_of_ne (by simp) n.encoding.toList, count_map_of_ne (by simp) classes, hlossy]
  split_ifs with hl
  · rw [hl, count_map_of_injective _ _ hinj]
    omega
  · rw [count_map_of_ne (by simp [Ne.symm hl])]

end

section
variable {o r : String} {c : Field → Nat} {i : RepoInfo}

theorem scanFile_eq (i : RepoInfo) (n : Node) (labels : List String) (s : Stream) :
    i.scanFile n labels s = { i with
      files := i.files + 1
      encodings := n.encoding.elim i.encodings i.encodings.bump
      lossy := i.lossy + if n.lossy then 1 else 0
      languages := i.languages.alter (n.language.getD "unknown")
        (fun l => (l.getD LanguageInfo.new).scanFile labels s.tokens.length)
      tokenClasses := (s.tokens.map (fun t => t.cls.asStr)).foldl bump i.tokenClasses } := by
  rw [RepoInfo.scanFile]
  cases n.encoding <;> rfl

theorem infoOf_scanFile (h : InfoOf o r c i) (n : Node) (labels : List String) (s : Stream) :
    InfoOf o r (fun a => c a + (fileCounts n labels (s.tokens.map (fun t => t.cls.asStr))).count a)
      (i.scanFile n labels s) := by
  have hs := h.counts
  have hrow := ((hs.languages (n.language.getD "unknown")).getD).scanFile labels s.tokens.length
  have hparts : (fileParts labels s.tokens.length).count .files = 1 := by
    simp [fileParts, count_eq_zero, symParts, mem_replicate]
  rw [scanFile_eq]
  refine ⟨h.org, h.repo, h.openBatch, ?_, ?_, ?_, ?_, ?_⟩
  · have hsum := fileSum_onLanguage (t := i.languages) (f := fun l =>
      l.scanFile labels s.tokens.length) (n :=
      1) (hrow.files.trans (by rw [hparts, (hs.languages _).getD.files]))
    change ((i.files + 1 : Nat) : Int) = _
    rw [Nat.cast_add, hs.files]
    exact hsum.symm
  · rw [count_lossy, ← hs.lossy]
  · simp only [count_encoding]
    cases n.encoding with
    | none => simpa using hs.encodings
    | some e =>
      refine (hs.encodings.bump e).congr fun k => ?_
      simp [eq_comm]
  · simp only [count_tokenClass]
    exact hs.classes.bumpAll _
  · refine languageRow_onLanguage (f := fun l => l.scanFile labels s.tokens.length) hs.languages
      ⟨?_, .files, ?_⟩ fun l hl p => ?_
    · simp only [count_language, if_true, length_map]
      exact hrow
    · rw [count_language, if_pos rfl, length_map, hparts]
      omega
    · rw [count_language, if_neg hl, add_zero]

end

theorem count_fileCounts (o r : String) (n : Node) (es : List (Nat × String)) (f : Nat)
    (st : Stream) (a : Field) :
    (fileCounts n (st.symbols.map (fun r => kindLabel (symSampleOf es f r)))
      (st.tokens.map (fun t => t.cls.asStr))).count a =
      (contentCounts (scopeOf o r n) es f st).count a := by
  have htoks : ∀ (lang : String) (ts : List TokRec),
      ((ts.map (tokSample f)).flatMap (nodeCounts lang)).count a =
      (replicate ts.length (Field.language lang .tokens)).count a +
        (ts.map (fun t => Field.tokenClass t.cls.asStr)).count a := by
    intro lang ts
    induction ts with
    | nil => rfl
    | cons t ts ih =>
      simp only [map_cons, flatMap_cons, count_append, ih, length_cons, replicate_succ,
        count_cons, nodeCounts, tokSample, blank, Option.toList_some, map_nil, count_nil]
      omega
  have hsyms : ∀ (lang : String) (rs : List SymRec),
      (rs.map (symSampleOf es f)).flatMap (nodeCounts lang) =
      ((rs.map (fun r => kindLabel (symSampleOf es f r))).flatMap symParts).map
      (.language lang) := by
    intro lang rs
    rw [map_flatMap, flatMap_map, flatMap_map]
    rfl
  simp only [fileCounts, contentCounts, fileParts, samplesOf, scopeOf, count_append, count_cons,
    flatMap_append, map_cons, map_append, map_replicate, map_map, Function.comp_def,
    length_map, htoks, hsyms]
  by_cases hl : n.lossy = true
  · simp only [hl, if_true]
    omega
  · simp only [hl]
    omega

section
variable {sha256 : List UInt8 → List UInt8} {ok : Extraction → Prop} {d : Data}
  {σ : Nat → Option Stream} {es : List (Nat × String)}

/-- The nodes of the ids `done` were scanned. -/
structure Scanned (d : Data) (σ : Nat → Option Stream) (es : List (Nat × String)) (done : List Nat)
    (st : Scanning) : Prop where
  orgs : ∀ id n, id ∈ done → d.nodes.get id = some n → n.kind = .org →
    st.orgName.get id = some n.name
  repos : ∀ id o r, id ∈ done → IsRepo d.nodes o r id → st.repoKey.get id = some (o, r)
  infos : Described st.infos (fun o r => ∃ id ∈ done, IsRepo d.nodes o r id)
    (fun o r a => (done.map (fun f => (fieldsOf d.nodes σ es f).count (a.key o r))).sum)

variable (h : Inv sha256 ok d σ es)
include h

theorem labels_eq {f : Nat} {st : Stream} (hs : σ f = some st) :
    ((List.range st.ranged.length).mapM fun i => kindLabel <$> symNode d.terms.text f i st.ranged) =
      .ok (st.symbols.map (fun r => kindLabel (symSampleOf es f r))) := by
  have hmap : st.symbols.map (fun r => kindLabel (symSampleOf es f r)) =
      st.ranged.map (fun r => kindLabel (symSampleOf es f r)) :=
      (map_ranged (fun _ _ => rfl) st).symm
  have hone : ∀ i ∈ range st.ranged.length, (kindLabel <$> symNode d.terms.text f i st.ranged) =
      .ok ((st.ranged.map (fun r => kindLabel (symSampleOf es f r))).getD i "") := by
    intro i hi
    have hr := getElem?_eq_getElem (mem_range.mp hi)
    rw [symNode_eq h.content hs hr, getD_eq_getElem?_getD, getElem?_map, hr]
    rfl
  rw [mapM_ok hone, hmap]
  refine congrArg Except.ok (ext_getElem? fun i => ?_)
  by_cases hi : i < st.ranged.length
  · simp [hi]
  · simp [hi]

theorem fieldsOf_entity (hn : d.nodes.get id = some n) (hk : n.kind ≠ .file) :
    fieldsOf d.nodes σ es id = [] := by
  rcases fieldsOf_cases h id with he | ⟨m, -, -, -, -, hm, hkm, -⟩
  · exact he
  · obtain rfl := Option.mem_unique hn hm
    exact absurd hkm hk

omit h in
theorem isRepo_kind {o r : String} (hr : IsRepo d.nodes o r id)
    (hn : d.nodes.get id = some n) : n.kind = .repo := by
  obtain ⟨m, -, -, hm, hk, -⟩ := hr
  obtain rfl := Option.mem_unique hn hm
  exact hk

omit h in
theorem isRepo_unique {o r o' r' : String} (hr : IsRepo d.nodes o r id)
    (hr' : IsRepo d.nodes o' r' id) : (o, r) = (o', r') := by
  obtain ⟨n, p, m, hn, -, rfl, hp, hm, -, rfl⟩ := hr
  obtain ⟨n', p', m', hn', -, rfl, hp', hm', -, rfl⟩ := hr'
  obtain rfl := Option.mem_unique hn hn'
  obtain rfl := Option.mem_unique hp hp'
  obtain rfl := Option.mem_unique hm hm'
  rfl

theorem scanNode_file {st : Scanning} (hst : Scanned d σ es done st)
    (hn : d.nodes.get id = some n) (hk : n.kind = .file) (hparent : ∀ p ∈ n.parent, p ∈ done) :
    ∃ st', scanNode d st n = .ok st' ∧ Scanned d σ es (done ++ [id]) st' := by
  obtain ⟨o, r, repoId, hp, hr⟩ := isRepo_of_file h.entities hn hk
  obtain ⟨s, hs⟩ := Option.isSome_iff_exists.mp ((h.files.streams id).mpr ⟨n, hn, hk⟩)
  have hdone : repoId ∈ done := hparent repoId hp
  obtain ⟨info, hinfo⟩ := (hst.infos.listed_iff o r).mp ⟨repoId, hdone, hr⟩
  have hid : n.id = id := (h.entities.ids id n hn).1
  have hcount : ∀ o' r' (a : Field), (fieldsOf d.nodes σ es id).count (a.key o' r') =
      if o = o' ∧ r = r' then (contentCounts (scopeOf o r n) es id s).count a else 0 := by
    intro o' r' a
    rw [fieldsOf_file hn hp hr hs es]
    exact count_contentFields (scopeOf o r n) es id s o' r' a
  have hnew := infoOf_scanFile (hst.infos.infoOf hinfo) n
    (s.symbols.map (fun r => kindLabel (symSampleOf es id r))) s.readBack
  refine ⟨{ st with infos := st.infos.insert (toLex (o, r)) (info.scanFile n
    (s.symbols.map (fun r => kindLabel (symSampleOf es id r))) s.readBack) }, ?_, ?_, ?_, ?_⟩
  · rw [scanNode, hk]
    dsimp only
    rw [hp, Option.bind_some, hst.repos repoId o r hdone hr]
    dsimp only
    rw [hinfo, hid]
    dsimp only
    rw [stream_eq h.content, hs]
    dsimp only [Option.map_some, ok_bind]
    rw [show s.readBack.symbols = s.ranged from rfl, labels_eq h hs]
    rfl
  · intro i m hi hm hkm
    rcases mem_append.mp hi with hi | hi
    · exact hst.orgs i m hi hm hkm
    · obtain rfl := mem_singleton.mp hi
      obtain rfl := Option.mem_unique hn hm
      rw [hk] at hkm
      cases hkm
  · intro i o' r' hi hr'
    rcases mem_append.mp hi with hi | hi
    · exact hst.repos i o' r' hi hr'
    · obtain rfl := mem_singleton.mp hi
      rw [isRepo_kind hr' hn] at hk
      cases hk
  · have hc : ∀ o' r' (a : Field),
        ((done ++ [id]).map (fun f => (fieldsOf d.nodes σ es f).count (a.key o' r'))).sum =
        (done.map (fun f => (fieldsOf d.nodes σ es f).count (a.key o' r'))).sum +
          if o = o' ∧ r = r' then (contentCounts (scopeOf o r n) es id s).count a else 0 := by
      intro o' r' a
      rw [map_append, sum_append, map_singleton, sum_singleton, hcount]
    simp only [hc]
    refine Described.congr (hst.infos.insert ?_ fun o' r' hne a => ?_) (fun o' r' =>
      ?_) fun _ _ _ => rfl
    · simp only [and_self, if_true, ← count_fileCounts o r n]
      exact hnew
    · rw [if_neg fun e => hne (by rw [e.1, e.2]), add_zero]
    · constructor
      · rintro ⟨i, hi, hr'⟩
        refine Or.inl ⟨i, (mem_append.mp hi).resolve_right fun e => ?_, hr'⟩
        obtain rfl := mem_singleton.mp e
        rw [isRepo_kind hr' hn] at hk
        cases hk
      · rintro (⟨i, hi, hr'⟩ | e)
        · exact ⟨i, mem_append_left _ hi, hr'⟩
        · cases e
          exact ⟨repoId, mem_append_left _ hdone, hr⟩

theorem scanNode_repo {st : Scanning} (hst : Scanned d σ es done st)
    (hn : d.nodes.get id = some n) (hk : n.kind = .repo) (hparent : ∀ p ∈ n.parent, p ∈ done) :
    ∃ st', scanNode d st n = .ok st' ∧ Scanned d σ es (done ++ [id]) st' := by
  have hshape := h.entities.shaped id n hn
  rw [Shaped, hk] at hshape
  obtain ⟨-, orgId, m, hp, hm, hkm⟩ := hshape
  have hid : n.id = id := (h.entities.ids id n hn).1
  have hr : IsRepo d.nodes m.name n.name id := ⟨n, orgId, m, hn, hk, rfl, hp, hm, hkm, rfl⟩
  have horg := hst.orgs orgId m (hparent orgId hp) hm hkm
  refine ⟨{ st with
    infos := st.infos.alter (toLex (m.name, n.name)) (fun i => i.getD (RepoInfo.new m.name n.name))
    repoKey := st.repoKey.insert id (m.name, n.name) }, ?_, ?_, ?_, ?_⟩
  · rw [scanNode, hk]
    dsimp only
    rw [hp, Option.bind_some, horg, hid]
    rfl
  · intro i m' hi hm' hkm'
    rcases mem_append.mp hi with hi | hi
    · exact hst.orgs i m' hi hm' hkm'
    · obtain rfl := mem_singleton.mp hi
      obtain rfl := Option.mem_unique hn hm'
      rw [hk] at hkm'
      cases hkm'
  · intro i o r hi hr'
    change (st.repoKey.insert id (m.name, n.name)).get i = some (o, r)
    rw [get_insert]
    split_ifs with he
    · subst he
      rw [isRepo_unique hr hr']
    · refine hst.repos i o r ((mem_append.mp hi).resolve_right fun e => ?_) hr'
      exact he (mem_singleton.mp e).symm
  · simp only [map_append, sum_append, map_singleton, sum_singleton,
      fieldsOf_entity h hn (by rw [hk]; decide), count_nil, add_zero]
    refine (hst.infos.insert (hst.infos.getD _ _) fun _ _ _ _ => rfl).congr (fun o r =>
      ?_) fun _ _ _ => rfl
    simp only [mem_append, mem_singleton, or_and_right, exists_or, exists_eq_left]
    refine or_congr_right ⟨fun hr' => isRepo_unique hr' hr, fun e => ?_⟩
    cases e
    exact hr

theorem scanNode_org {st : Scanning} (hst : Scanned d σ es done st)
    (hn : d.nodes.get id = some n) (hk : n.kind = .org) :
    ∃ st', scanNode d st n = .ok st' ∧ Scanned d σ es (done ++ [id]) st' := by
  have hid : n.id = id := (h.entities.ids id n hn).1
  have hno : ∀ o r, ¬ IsRepo d.nodes o r id := by
    intro o r hr
    rw [isRepo_kind hr hn] at hk
    cases hk
  refine ⟨{ st with orgName := st.orgName.insert id n.name }, ?_, ?_, ?_, ?_⟩
  · rw [scanNode, hk]
    dsimp only
    rw [hid]
    rfl
  · intro i m hi hm hkm
    change (st.orgName.insert id n.name).get i = some m.name
    rw [get_insert]
    split_ifs with he
    · subst he
      rw [Option.mem_unique hn hm]
    · refine hst.orgs i m ((mem_append.mp hi).resolve_right fun e => ?_) hm hkm
      exact he (mem_singleton.mp e).symm
  · intro i o r hi hr
    refine hst.repos i o r ((mem_append.mp hi).resolve_right fun e => ?_) hr
    obtain rfl := mem_singleton.mp e
    exact hno o r hr
  · simp only [map_append, sum_append, map_singleton, sum_singleton,
      fieldsOf_entity h hn (by rw [hk]; decide), count_nil, add_zero]
    refine hst.infos.congr (fun o r => ?_) fun _ _ _ => rfl
    simp only [mem_append, mem_singleton, or_and_right, exists_or, exists_eq_left, hno, or_false]

theorem scanNode_spec {st : Scanning} (hst : Scanned d σ es done st)
    (hn : d.nodes.get id = some n) (hparent : ∀ p ∈ n.parent, p ∈ done) :
    ∃ st', scanNode d st n = .ok st' ∧ Scanned d σ es (done ++ [id]) st' := by
  have hshape := h.entities.shaped id n hn
  cases hk : n.kind with
  | org => exact scanNode_org h hst hn hk
  | repo => exact scanNode_repo h hst hn hk hparent
  | file => exact scanNode_file h hst hn hk hparent
  | symbol =>
    rw [Shaped, hk] at hshape
    exact hshape.elim
  | token =>
    rw [Shaped, hk] at hshape
    exact hshape.elim

theorem scan_loop {pre post : List (Nat × Node)} (hrows : d.nodes.rows = pre ++ post)
    {st : Scanning} (hst : Scanned d σ es (pre.map Prod.fst) st) :
    ∃ st', (post.map Prod.snd).foldlM (scanNode d) st = .ok st' ∧
      Scanned d σ es d.nodes.keys st' := by
  induction post generalizing pre st with
  | nil =>
    rw [append_nil] at hrows
    rw [Table.keys, hrows]
    exact ⟨st, rfl, hst⟩
  | cons row post ih =>
    have hn : d.nodes.get row.1 = some row.2 := by
      rw [← mem_rows_iff, hrows]
      exact mem_append_right _ mem_cons_self
    have hparent : ∀ p ∈ row.2.parent, p ∈ pre.map Prod.fst := by
      intro p hp
      have hlt := h.entities.above row.1 row.2 p hn hp
      obtain ⟨m, hm⟩ := (h.entities.shaped row.1 row.2 hn).parent_row hp
      have hmem : (p, m) ∈ pre ++ row :: post := by
        rw [← hrows]
        exact get_eq_some.mp hm
      rcases mem_append.mp hmem with hmem | hmem
      · exact mem_map_of_mem hmem
      · have hsorted := d.nodes.sorted
        rw [hrows, pairwise_append] at hsorted
        rcases mem_cons.mp hmem with rfl | hmem
        · exact absurd hlt (lt_irrefl _)
        · exact absurd ((pairwise_cons.mp hsorted.2.1).1 _ hmem) (not_lt.mpr hlt.le)
    obtain ⟨st₁, hst₁, hscan₁⟩ := scanNode_spec h hst hn hparent
    obtain ⟨st', hst', hscan'⟩ := @ih (pre ++ [row]) (by rw [hrows, append_assoc]; rfl) st₁ (by
      rw [map_append]
      exact hscan₁)
    refine ⟨st', ?_, hscan'⟩
    rw [map_cons, foldlM_cons, hst₁]
    exact hst'

theorem total_eq_keys (fs : List String) : total d.nextId d.nodes σ es fs =
    (d.nodes.keys.map (fun f => (fieldsOf d.nodes σ es f).count fs)).sum := by
  have hnodup : d.nodes.keys.Nodup := d.nodes.keys_sorted.imp ne_of_lt
  rw [total, ← sum_toFinset _ hnodup]
  symm
  refine Finset.sum_subset (fun f hf => ?_) fun f _ hf => ?_
  · obtain ⟨n, hn⟩ := mem_keys.mp (mem_toFinset.mp hf)
    exact Finset.mem_range.mpr (h.entities.ids f n hn).2.2
  · rcases fieldsOf_cases h f with he | ⟨n, -, -, -, -, hn, -⟩
    · rw [he]
      rfl
    · exact absurd (mem_toFinset.mpr (mem_keys.mpr ⟨n, hn⟩)) hf

theorem describeByScan_eq (openBatch : Option (String × String)) (org repo : Option String) :
    ∃ infos,
      Described infos (fun o r => ∃ repoId, IsRepo d.nodes o r repoId)
        (fun o r a => total d.nextId d.nodes σ es (a.key o r)) ∧
      describeByScan d openBatch org repo =
        .ok (((markOpenBatch openBatch infos).rows.map Prod.snd).filter
          (fun i => org.all (fun o => i.org = o) && repo.all (fun r => i.repo = r))) := by
  have hinit : Scanned d σ es (([] : List (Nat × Node)).map Prod.fst) ⟨empty, empty, empty⟩ :=
    ⟨fun _ _ hi => absurd hi not_mem_nil, fun _ _ _ hi => absurd hi not_mem_nil,
      Described.empty.congr (fun _ _ => by simp) fun _ _ _ => rfl⟩
  obtain ⟨st, hst, hscan⟩ := scan_loop h (nil_append _).symm hinit
  -- the rows come in the order of the ids
  have hsorted : (d.nodes.rows.map Prod.snd).Pairwise (fun a b => a.id ≤ b.id) := by
    rw [pairwise_map]
    refine d.nodes.sorted.imp_of_mem fun {a b} ha hb hlt => ?_
    rw [(h.entities.ids a.1 a.2 (mem_rows_iff.mp ha)).1,
      (h.entities.ids b.1 b.2 (mem_rows_iff.mp hb)).1]
    exact hlt.le
  refine ⟨st.infos, hscan.infos.congr (fun o r => ?_) fun o r a => total_eq_keys h _, ?_⟩
  · refine ⟨fun ⟨repoId, hr⟩ => ⟨repoId, ?_, hr⟩, fun ⟨repoId, _, hr⟩ => ⟨repoId, hr⟩⟩
    obtain ⟨n, -, -, hn, -⟩ := hr
    exact mem_keys.mpr ⟨n, hn⟩
  · rw [describeByScan, hsorted.insertionSort_eq, hst]
    rfl

end

theorem get_markOpenBatch (openBatch : Option (String × String)) (infos : Infos)
    (k : String ×ₗ String) :
    (markOpenBatch openBatch infos).get k =
      (infos.get k).map (fun i => if openBatch = some (ofLex k) then { i with openBatch := true }
        else i) := by
  cases openBatch with
  | none => simp [markOpenBatch]
  | some key =>
    have hiff : some key = some (ofLex k) ↔ toLex key = k := Option.some_inj
    rw [markOpenBatch]
    by_cases he : toLex key = k
    · subst he
      cases hk : infos.get (toLex key) with
      | none => exact hk
      | some i =>
        dsimp only
        rw [get_insert_self, Option.map_some, if_pos (hiff.mpr rfl)]
    · simp only [hiff, he, if_false, Option.map_id']
      cases infos.get (toLex key) with
      | none => rfl
      | some i => exact get_insert_of_ne _ _ he

theorem rows_describe {d : Data} {σ : Nat → Option Stream} {es : List (Nat × String)}
    {cat scan : Infos} {org repo : Option String}
    (hcat : Described cat (fun o r => InScope org repo o r ∧ ∃ repoId, IsRepo d.nodes o r repoId)
      (fun o r a => if InScope org repo o r then total d.nextId d.nodes σ es (a.key o r) else 0))
    (hscan : Described scan (fun o r => ∃ repoId, IsRepo d.nodes o r repoId)
      (fun o r a => total d.nextId d.nodes σ es (a.key o r)))
    (openBatch : Option (String × String)) :
    (markOpenBatch openBatch cat).rows.map Prod.snd =
      ((markOpenBatch openBatch scan).rows.map Prod.snd).filter
        (fun i => org.all (fun o => i.org = o) && repo.all (fun r => i.repo = r)) := by
  have hget : ∀ k : String ×ₗ String,
      cat.get k = if InScope org repo (ofLex k).1 (ofLex k).2 then scan.get k else none := by
    rintro ⟨o, r⟩
    change cat.get (toLex (o, r)) = if InScope org repo o r then scan.get (toLex (o, r)) else none
    have hlc := hcat.listed_iff o r
    have hls := hscan.listed_iff o r
    by_cases hin : InScope org repo o r
    · rw [if_pos hin]
      cases hc : cat.get (toLex (o, r)) with
      | none =>
        cases hs : scan.get (toLex (o, r)) with
        | none => rfl
        | some i => simp [hc, hin, hls.mpr ⟨i, hs⟩] at hlc
      | some i =>
        obtain ⟨-, hrepo⟩ := hlc.mpr ⟨i, hc⟩
        obtain ⟨j, hj⟩ := hls.mp hrepo
        have hi := hcat.infoOf hc
        simp only [if_pos hin] at hi
        rw [hj, hi.unique (hscan.infoOf hj)]
    · rw [if_neg hin, Option.eq_none_iff_forall_ne_some]
      intro i hi
      exact hin (hlc.mpr ⟨i, hi⟩).1
  have hmark : ∀ k, (markOpenBatch openBatch cat).get k =
      if InScope org repo (ofLex k).1 (ofLex k).2 then (markOpenBatch openBatch scan).get k
      else none := by
    intro k
    rw [get_markOpenBatch, get_markOpenBatch, hget]
    split_ifs <;> rfl
  rw [rows_eq_filter hmark, filter_map]
  refine congrArg (map Prod.snd) (filter_congr ?_)
  rintro ⟨⟨o, r⟩, i⟩ hi
  obtain ⟨j, hj, hij⟩ := Option.map_eq_some_iff.mp
    ((get_markOpenBatch openBatch scan _).symm.trans (get_eq_some.mpr hi))
  have hinfo : InfoOf o r _ j := hscan.infoOf hj
  have hnames : i.org = o ∧ i.repo = r := by
    rw [← hij]
    split_ifs
    · exact ⟨hinfo.org, hinfo.repo⟩
    · exact ⟨hinfo.org, hinfo.repo⟩
  change decide (InScope org repo o r) =
    (org.all (fun x => i.org = x) && repo.all (fun x => i.repo = x))
  rw [hnames.1, hnames.2]
  cases org <;> cases repo <;> simp [InScope]

/-- On every reachable store the catalog says what a scan of the files says, and no
transaction takes a counter below zero. -/
theorem describe_eq_scan {sha256 : List UInt8 → List UInt8} {bound : Extraction → Prop} {d : Data}
    (h : Reachable sha256 bound d) :
    (∀ (openBatch : Option (String × String)) (org repo : Option String),
      ∃ infos, describeIn d.cat openBatch org repo = .ok infos ∧
        describeByScan d openBatch org repo = .ok infos) ∧
    (∀ (org repo path language : String) (ex : Extraction) (fm : FileMeta),
      IngestInput sha256 bound d path language ex fm →
      ∀ r : IngestRun sha256 d org repo path language ex fm,
        Tally.Exact ((V2Prep.build ex).tallyNodes.foldl (fun t n => t.node r.scope n.1 n.2) r.tally)
          r.d₅.cat) ∧
    ∀ (org repo : String) (keep : List String) (dryRun : Bool) (d' : Data)
      (tally : Tally) (removed : List String),
      d.pruneFiles org repo keep dryRun = .ok (d', tally, removed) → tally.Exact d'.cat := by
  obtain ⟨σ, es, hw⟩ := reachable_whole h
  refine ⟨fun openBatch org repo => ?_, fun org repo path language ex fm hin r => ?_,
    fun org repo keep dryRun d' tally removed hp => exact_prune hw.inv hw.catalog hp⟩
  · obtain ⟨cat, hcat, hdesc⟩ := describeIn_eq hw.inv hw.catalog openBatch org repo
    obtain ⟨scan, hscan, hbyscan⟩ := describeByScan_eq hw.inv openBatch org repo
    exact ⟨_, hdesc, by rw [hbyscan, rows_describe hcat hscan]⟩
  · obtain ⟨dict, ids, es', hpre, -, hids, h5, hinv, -⟩ :=
      r.inv_ingest hw.inv hin.path hin.language hin.encoding hin.admitted hin.admitted.memory
        (hin.collisionFree hw.inv.content.dict)
    exact r.exact_ingest hw.inv hpre hids h5 hinv hw.catalog

theorem describe_eq_scan_sample :
    Reachable (fun _ => []) (fun _ => True) sampleStore ∧
      (describeIn sampleStore.cat (some ("o", "r")) none none).toOption.map
        (List.map RepoInfo.files) = some [1] ∧
      describeIn sampleStore.cat (some ("o", "r")) none none =
        describeByScan sampleStore (some ("o", "r")) none none := by
  have h : Reachable (fun _ => []) (fun _ => True) sampleStore := sampleStore_reachable trivial
  obtain ⟨infos, hcat, hscan⟩ := (describe_eq_scan h).1 (some ("o", "r")) none none
  exact ⟨h, by decide +kernel, hcat.trans hscan.symm⟩

end MemoryGraph
