import MemoryGraph.Store.Entities
import MemoryGraph.Store.Insertion

/-! File nodes, their key rows and their streams belong together; ingest keeps them so. -/

namespace MemoryGraph
open Lib Codec
variable {nodes nodes' : Table Nat Node} {σ : Nat → Option Stream}
  {sha256 : List UInt8 → List UInt8}

structure FileRows (nodes : Table Nat Node) (fileKeys : Table Nat (List UInt8))
    (σ : Nat → Option Stream) : Prop where
  streams : ∀ f, (σ f).isSome ↔ ∃ n, nodes.get f = some n ∧ n.kind = .file
  keys : ∀ f row, fileKeys.get f = some row ↔
    ∃ n, nodes.get f = some n ∧ n.kind = .file ∧ fileKeyRow n = .ok row
  fits : ∀ f n, nodes.get f = some n → n.kind = .file →
    (utf8 n.name).length < 2 ^ 63 ∧ ∀ l ∈ n.language, (utf8 l).length < 2 ^ 63

abbrev Files (d : Data) : (Nat → Option Stream) → Prop := FileRows d.nodes d.fileKeys

theorem files_empty : Files Data.empty (fun _ => none) where
  streams f := by simp [Data.empty]
  keys f row := by simp [Data.empty]
  fits f n h := by cases h

theorem FileRows.replace {keys keys' : Table Nat (List UInt8)}
    (h : FileRows nodes keys σ) {f : Nat} {st : Stream} {n : Node}
    {row : List UInt8} (hn : nodes'.get f = some n) (hk : n.kind = .file)
    (hrow : fileKeyRow n = .ok row) (hkey : keys'.get f = some row)
    (hfit : (utf8 n.name).length < 2 ^ 63 ∧ ∀ l ∈ n.language, (utf8 l).length < 2 ^ 63)
    (hother : ∀ g, g ≠ f → nodes'.get g = nodes.get g ∧ keys'.get g = keys.get g) :
    FileRows nodes' keys' (Function.update σ f (some st)) := by
  refine ⟨fun g => ?_, fun g r => ?_, fun g m hm hmk => ?_⟩
  · by_cases hg : g = f
    · subst hg
      simp [hn, hk]
    · rw [Function.update_of_ne hg, (hother g hg).1]
      exact h.streams g
  · by_cases hg : g = f
    · subst hg
      rw [hkey, hn]
      constructor
      · rintro ⟨⟩
        exact ⟨n, rfl, hk, hrow⟩
      · rintro ⟨m, hm, -, hr⟩
        cases hm
        exact congrArg some (Except.ok.inj (hrow.symm.trans hr))
    · rw [(hother g hg).1, (hother g hg).2]
      exact h.keys g r
  · by_cases hg : g = f
    · subst hg
      obtain rfl := Option.mem_unique hn hm
      exact hfit
    · rw [(hother g hg).1] at hm
      exact h.fits g m hm hmk

theorem FileRows.remove {keys keys' : Table Nat (List UInt8)}
    (h : FileRows nodes keys σ) {f : Nat} (hn : nodes'.get f = none)
    (hkey : keys'.get f = none)
    (hother : ∀ g, g ≠ f → nodes'.get g = nodes.get g ∧ keys'.get g = keys.get g) :
    FileRows nodes' keys' (Function.update σ f none) := by
  refine ⟨fun g => ?_, fun g r => ?_, fun g m hm hmk => ?_⟩
  · by_cases hg : g = f
    · subst hg
      simp [hn]
    · rw [Function.update_of_ne hg, (hother g hg).1]
      exact h.streams g
  · by_cases hg : g = f
    · subst hg
      simp [hn, hkey]
    · rw [(hother g hg).1, (hother g hg).2]
      exact h.keys g r
  · have hg : g ≠ f := by
      rintro rfl
      rw [hn] at hm
      cases hm
    rw [(hother g hg).1] at hm
    exact h.fits g m hm hmk

theorem FileRows.addOther {keys : Table Nat (List UInt8)}
    (h : FileRows nodes keys σ) {i : Nat} {n : Node} (hfree : nodes.get i = none)
    (hn : nodes'.get i = some n) (hk : n.kind ≠ .file)
    (hother : ∀ g, g ≠ i → nodes'.get g = nodes.get g) : FileRows nodes' keys σ := by
  have hiff : ∀ g m, (nodes'.get g = some m ∧ m.kind = .file) ↔
      (nodes.get g = some m ∧ m.kind = .file) := by
    intro g m
    by_cases hg : g = i
    · subst hg
      rw [hn, hfree]
      refine ⟨fun ⟨e, hm⟩ => absurd (Option.some.inj e ▸ hm) hk, fun ⟨e, _⟩ => (by cases e)⟩
    · rw [hother g hg]
  refine ⟨fun g => ?_, fun g r => ?_, fun g m hm hmk => ?_⟩
  · rw [h.streams]
    exact exists_congr fun m => (hiff g m).symm
  · rw [h.keys]
    refine exists_congr fun m => ?_
    rw [← and_assoc, ← and_assoc, hiff]
  · obtain ⟨hm, hmk⟩ := (hiff g m).mp ⟨hm, hmk⟩
    exact h.fits g m hm hmk

structure Inv (sha256 : List UInt8 → List UInt8) (ok : Extraction → Prop) (d : Data)
    (σ : Nat → Option Stream) (es : List (Nat × String)) : Prop where
  entities : Entities d
  content : Content sha256 ok d σ es
  files : Files d σ

theorem inv_empty {ok : Extraction → Prop} :
    Inv sha256 ok Data.empty (fun _ => none) [] := ⟨entities_empty, content_empty, files_empty⟩

structure IngestStart (d : Data) (org repo path language : String) (ex : Extraction) where
  d₁ : Data
  d₂ : Data
  d₃ : Data
  orgId : Nat
  repoId : Nat
  fileId : Nat
  orgExisted : Bool
  repoExisted : Bool
  existed : Bool
  checked : checkIngest org repo language ex = .ok ()
  org_eq : d.ensure none .org org none = .ok (d₁, orgId, orgExisted)
  repo_eq : d₁.ensure (some orgId) .repo repo none = .ok (d₂, repoId, repoExisted)
  file_eq : d₂.ensure (some repoId) .file (normalizePath path) (some (asciiLower language)) =
    .ok (d₃, fileId, existed)

structure IngestRun (sha256 : List UInt8 → List UInt8) (d : Data) (org repo path language : String)
    (ex : Extraction) (fm : FileMeta) extends IngestStart d org repo path language ex where
  d₄ : Data
  d₅ : Data
  tally : Tally
  row : List UInt8
  scope : Scope
  file : Node
  scope_eq : scope = ⟨org, repo, asciiLower language, fm.encoding, fm.lossy⟩
  node_eq : file = fileNode fileId repoId (normalizePath path) (asciiLower language) ex fm
  old_eq : (d₃.markRepo org repo).replaceOld existed org repo fileId
    (Tally.file Table.empty scope 1) = .ok (d₄, tally)
  row_eq : fileKeyRow file = .ok row
  put_eq : (d₄.putFile fileId file row).putContent sha256 fileId (V2Prep.build ex) = .ok d₅

def IngestRun.final {sha256 : List UInt8 → List UInt8} {d : Data} {org repo path language : String}
    {ex : Extraction} {fm : FileMeta} (r : IngestRun sha256 d org repo path language ex fm) :
    Data :=
  { r.d₅ with
    cat := ((V2Prep.build ex).tallyNodes.foldl (fun t n => t.node r.scope n.1 n.2) r.tally).apply
      r.d₅.cat }

theorem exists_ingestRun {d d' : Data} {org repo path language : String}
    {ex : Extraction} {fm : FileMeta} {stats : IngestStats}
    (h : d.ingestPrepped sha256 org repo path language ex fm = .ok (d', stats)) :
    ∃ r : IngestRun sha256 d org repo path language ex fm, d' = r.final ∧
      stats.fileId = r.fileId := by
  obtain ⟨_, hchecked, h⟩ := bind_eq_ok.mp h
  obtain ⟨⟨d₁, orgId, e₁⟩, horg, h⟩ := bind_eq_ok.mp h
  obtain ⟨⟨d₂, repoId, e₂⟩, hrepo, h⟩ := bind_eq_ok.mp h
  obtain ⟨⟨d₃, fileId, existed⟩, hfile, h⟩ := bind_eq_ok.mp h
  obtain ⟨⟨d₄, tally⟩, hold, h⟩ := bind_eq_ok.mp h
  obtain ⟨row, hrow, h⟩ := bind_eq_ok.mp h
  obtain ⟨d₅, hput, h⟩ := bind_eq_ok.mp h
  cases h
  exact ⟨⟨⟨d₁, d₂, d₃, orgId, repoId, fileId, e₁, e₂, existed, hchecked, horg, hrepo, hfile⟩, d₄,
    d₅, tally, row, _, _, rfl, rfl, hold, hrow, hput⟩, rfl, rfl⟩

theorem nulFree_of_rejectNul {what v : String} {u : Unit} (h : rejectNul what v = .ok u) :
    NulFree v :=
  failIf_eq_ok.mp h

theorem toLower_eq_nul {c : Char} (h : c.toLower = '\x00') : c = '\x00' := by
  unfold Char.toLower at h
  split_ifs at h with hu
  · have hval : c.val + ('a'.val - 'A'.val) = 0 := congrArg Char.val h
    have h1 : 65 ≤ c.val.toNat := UInt32.le_iff_toNat_le.mp hu.1
    have h2 : c.val.toNat ≤ 90 := UInt32.le_iff_toNat_le.mp hu.2
    have hnat : (c.val.toNat + 32) % 2 ^ 32 = 0 := congrArg UInt32.toNat hval
    omega
  · exact h

theorem nulFree_asciiLower {s : String} (h : NulFree s) : NulFree (asciiLower s) := by
  intro hm
  rw [asciiLower, String.toList_ofList, List.mem_map] at hm
  obtain ⟨c, hc, he⟩ := hm
  exact h (toLower_eq_nul he ▸ hc)

theorem checkIngest_spec {org repo language : String} {ex : Extraction} {u : Unit}
    (h : checkIngest org repo language ex = .ok u) :
    NulFree org ∧ NulFree repo ∧ NulFree language ∧
      ∀ sd ∈ ex.symbols, ∀ k ∈ sd.langKind, NulFree k := by
  obtain ⟨_, -, h⟩ := bind_eq_ok.mp h
  obtain ⟨_, horg, h⟩ := bind_eq_ok.mp h
  obtain ⟨_, hrepo, h⟩ := bind_eq_ok.mp h
  obtain ⟨_, hlang, h⟩ := bind_eq_ok.mp h
  obtain ⟨us, hsyms, -⟩ := bind_eq_ok.mp h
  refine ⟨nulFree_of_rejectNul horg, nulFree_of_rejectNul hrepo, nulFree_of_rejectNul hlang,
    fun sd hsd k hk => ?_⟩
  obtain ⟨v, -, hv⟩ := exists_of_forall₂ (mapM_eq_ok.mp hsyms) hsd
  obtain ⟨_, hkind, -⟩ := bind_eq_ok.mp hv
  rw [Option.mem_def.mp hk] at hkind
  exact nulFree_of_rejectNul hkind

section
variable {d d' : Data} {parent : Option Nat} {kind : NodeKind} {name : String}
  {language : Option String} {id : Nat} {existed : Bool}
  (he : d.ensure parent kind name language = .ok (d', id, existed))
include he

theorem ensure_frame : ∃ nextId nodes names children,
    d' = { d with nextId := nextId, nodes := nodes, names := names, children := children } := by
  rcases ensure_cases he with ⟨-, rfl, -⟩ | ⟨-, -, -, -, rfl⟩
  · exact ⟨_, _, _, _, rfl⟩
  · exact ⟨_, _, _, _, rfl⟩

theorem ensure_content {ok : Extraction → Prop}
    {es : List (Nat × String)} (h : Content sha256 ok d σ es) : Content sha256 ok d' σ es := by
  obtain ⟨_, _, _, _, rfl⟩ := ensure_frame he
  exact h

theorem ensure_symbols {es : List (Nat × String)} (h : Symbols d σ es) :
    Symbols d' σ es := by
  obtain ⟨_, _, _, _, rfl⟩ := ensure_frame he
  exact h

theorem ensure_other {g : Nat} (hg : g ≠ id) :
    d'.nodes.get g = d.nodes.get g ∧ d'.fileKeys.get g = d.fileKeys.get g := by
  rcases ensure_cases he with ⟨-, rfl, -⟩ | ⟨-, -, -, -, rfl⟩
  · exact ⟨rfl, rfl⟩
  · exact ⟨(addEntity_nodes ..).trans (if_neg (Ne.symm hg)), rfl⟩

theorem ensure_files (h : Entities d) (hf : Files d σ) (hk : kind ≠ .file) :
    Files d' σ := by
  rcases ensure_cases he with ⟨-, rfl, -⟩ | ⟨-, rfl, -, -, rfl⟩
  · exact hf
  · exact hf.addOther (h.get_none_of_le le_rfl) ((addEntity_nodes ..).trans (if_pos rfl)) hk
      fun g hg => (addEntity_nodes ..).trans (if_neg (Ne.symm hg))

end

namespace IngestStart
variable {sha256 : List UInt8 → List UInt8} {ok : Extraction → Prop} {d : Data}
  {org repo path language : String} {ex : Extraction} (r : IngestStart d org repo path language ex)
  {σ : Nat → Option Stream} {es : List (Nat × String)} (h : Inv sha256 ok d σ es)
include h

theorem org_spec : Entities r.d₁ ∧ Files r.d₁ σ ∧ Content sha256 ok r.d₁ σ es ∧
    ∃ n, r.d₁.nodes.get r.orgId = some n ∧ n.kind = .org ∧ n.name = org := by
  have hshape : ∀ id, Shaped d.nodes (entityNode id none .org org none) :=
    fun _ => ⟨rfl, (checkIngest_spec r.checked).1⟩
  obtain ⟨hent, n, hn, -, hk, hname⟩ := ensure_spec h.entities hshape r.org_eq
  exact ⟨hent, ensure_files r.org_eq h.entities h.files (by decide),
    ensure_content r.org_eq h.content, n, hn, hk, hname⟩

theorem repo_spec : Entities r.d₂ ∧ Files r.d₂ σ ∧ Content sha256 ok r.d₂ σ es ∧
    ∃ n, r.d₂.nodes.get r.repoId = some n ∧ n.kind = .repo ∧ n.name = repo ∧
      n.parent = some r.orgId := by
  obtain ⟨hent, hfiles, hcontent, o, ho, hok, -⟩ := r.org_spec h
  have hshape : ∀ id, Shaped r.d₁.nodes (entityNode id (some r.orgId) .repo repo none) :=
    fun _ => ⟨(checkIngest_spec r.checked).2.1, r.orgId, o, rfl, ho, hok⟩
  obtain ⟨hent', n, hn, hp, hk, hname⟩ := ensure_spec hent hshape r.repo_eq
  exact ⟨hent', ensure_files r.repo_eq hent hfiles (by decide), ensure_content r.repo_eq hcontent,
    n, hn, hk, hname, hp⟩

theorem file_spec : Entities r.d₃ ∧ Content sha256 ok r.d₃ σ es ∧
    ∃ n, r.d₃.nodes.get r.fileId = some n ∧ n.kind = .file ∧ n.name = normalizePath path ∧
      n.parent = some r.repoId := by
  obtain ⟨hent, -, hcontent, o, ho, hok, -, -⟩ := r.repo_spec h
  have hlang := nulFree_asciiLower (checkIngest_spec r.checked).2.2.1
  have hshape : ∀ id, Shaped r.d₂.nodes
      (entityNode id (some r.repoId) .file (normalizePath path) (some (asciiLower language))) :=
    fun _ => ⟨⟨_, rfl, hlang⟩, fun e he => (by cases he), r.repoId, o, rfl, ho, hok⟩
  obtain ⟨hent', n, hn, hp, hk, hname⟩ := ensure_spec hent hshape r.file_eq
  exact ⟨hent', ensure_content r.file_eq hcontent, n, hn, hk, hname, hp⟩

theorem existed_iff : (σ r.fileId).isSome ↔ r.existed = true := by
  obtain ⟨hent, hfiles, -, -⟩ := r.repo_spec h
  obtain ⟨-, -, n, hn, hk, -⟩ := r.file_spec h
  rw [hfiles.streams]
  rcases ensure_cases r.file_eq with ⟨he, heq, -⟩ | ⟨he, hid, -, -, -⟩
  · rw [heq] at hn
    exact ⟨fun _ => he, fun _ => ⟨n, hn, hk⟩⟩
  · rw [he, hid, hent.get_none_of_le le_rfl]
    simp

theorem fileId_le : r.fileId ≤ maxLocal := by
  obtain ⟨hent, -, n, hn, -⟩ := r.file_spec h
  have h1 := (hent.ids _ _ hn).2.2
  have h2 := hent.next.2
  omega

end IngestStart

namespace IngestRun
variable {sha256 : List UInt8 → List UInt8} {ok : Extraction → Prop} {d : Data}
  {org repo path language : String} {ex : Extraction} {fm : FileMeta}
  (r : IngestRun sha256 d org repo path language ex fm) {σ : Nat → Option Stream}
  {es : List (Nat × String)} (h : Inv sha256 ok d σ es)
include h

theorem old_spec :
    (σ r.fileId = none ∧ r.d₄ = r.d₃.markRepo org repo ∧
      r.tally = Tally.file Table.empty r.scope 1) ∨
    ∃ old st, r.d₃.nodes.get r.fileId = some old ∧ σ r.fileId = some st ∧
      r.d₄ = (r.d₃.markRepo org repo).dropContent es r.fileId st ∧
      r.tally = (((Tally.file Table.empty r.scope 1).file (scopeOf org repo old) (-1)).nodes
        (scopeOf org repo old) (samplesOf es r.fileId st) (-1)) := by
  obtain ⟨-, hcontent, n, hn, -⟩ := r.file_spec h
  have hiff := r.existed_iff h
  have hold := r.old_eq
  rw [Data.replaceOld] at hold
  cases hs : σ r.fileId with
  | none =>
    rw [hs] at hiff
    rw [if_neg (fun he => by simpa using hiff.mpr he)] at hold
    obtain ⟨h4, ht⟩ := Prod.mk.inj (Except.ok.inj hold)
    exact Or.inl ⟨rfl, h4.symm, ht.symm⟩
  | some st =>
    rw [hs] at hiff
    rw [if_pos (hiff.mp rfl)] at hold
    have hrow : (r.d₃.markRepo org repo).nodes.get r.fileId = some n := hn
    rw [hrow] at hold
    dsimp only at hold
    rw [removeContent_some (d := r.d₃.markRepo org repo) hcontent hs] at hold
    obtain ⟨h4, ht⟩ := Prod.mk.inj (Except.ok.inj hold)
    exact Or.inr ⟨n, st, hn, rfl, h4.symm, ht.symm⟩

theorem cleared : Content sha256 ok r.d₄ (Function.update σ r.fileId none) es ∧
    r.d₄.nodes = r.d₃.nodes ∧ r.d₄.fileKeys = r.d₃.fileKeys ∧ Entities r.d₄ := by
  obtain ⟨hent, hcontent, -⟩ := r.file_spec h
  rcases r.old_spec h with ⟨hs, h4, -⟩ | ⟨old, st, -, hs, h4, -⟩
  · rw [h4, Function.update_eq_self_iff.mpr hs.symm]
    exact ⟨hcontent, rfl, rfl, hent⟩
  · rw [h4]
    exact ⟨content_drop (d := r.d₃.markRepo org repo) hcontent hs, rfl, rfl, hent⟩

theorem cleared_symbols (hs : Symbols d σ es)
    (hlocal : ∀ g st, σ g = some st → g ≤ maxLocal ∧ st.symbols.length ≤ 4294967296) :
    Symbols r.d₄ (Function.update σ r.fileId none) es := by
  have hs₃ : Symbols r.d₃ σ es :=
    ensure_symbols r.file_eq (ensure_symbols r.repo_eq (ensure_symbols r.org_eq hs))
  rcases r.old_spec h with ⟨hnone, h4, -⟩ | ⟨old, st, -, hst, h4, -⟩
  · rw [h4, Function.update_eq_self_iff.mpr hnone.symm]
    exact hs₃
  · rw [h4]
    exact symbols_drop (d := r.d₃.markRepo org repo) hs₃ hlocal hst

theorem rows_spec (hpath : (utf8 (normalizePath path)).length < 2 ^ 63)
    (hlang : (utf8 (asciiLower language)).length < 2 ^ 63) (henc : ∀ e ∈ fm.encoding, NulFree e)
    (st : Stream) :
    Entities (r.d₄.putFile r.fileId r.file r.row) ∧
      Files (r.d₄.putFile r.fileId r.file r.row) (Function.update σ r.fileId (some st)) := by
  obtain ⟨-, hfiles, -, -⟩ := r.repo_spec h
  obtain ⟨hent, -, n, hn, hk, hname, hp⟩ := r.file_spec h
  obtain ⟨-, hnodes, hkeys, hent₄⟩ := r.cleared h
  have hn₄ : r.d₄.nodes.get r.fileId = some n := by rw [hnodes, hn]
  have hfile := r.node_eq
  constructor
  · have hshaped : Shaped r.d₄.nodes n := hent₄.shaped _ _ hn₄
    unfold Shaped at hshaped
    rw [hk] at hshaped
    obtain ⟨-, -, q, m, hq, hm⟩ := hshaped
    have hlang := nulFree_asciiLower (checkIngest_spec r.checked).2.2.1
    rw [hfile]
    refine entities_replace hent₄ hn₄ (hent₄.ids _ _ hn₄).1.symm hp.symm hk.symm hname.symm ?_
    exact ⟨⟨_, rfl, hlang⟩, henc, q, m, hp.symm.trans hq, hm⟩
  · refine hfiles.replace (Table.get_insert_self ..) (by rw [hfile]; rfl) r.row_eq
      (Table.get_insert_self ..) ?_ fun g hg => ?_
    · rw [hfile]
      exact ⟨hpath, fun l hl => by cases hl; exact hlang⟩
    · obtain ⟨h1, h2⟩ := ensure_other r.file_eq hg
      rw [Data.putFile, Table.get_insert_of_ne _ _ (Ne.symm hg),
        Table.get_insert_of_ne _ _ (Ne.symm hg), hnodes, hkeys]
      exact ⟨h1, h2⟩

theorem inv_ingest (hpath : (utf8 (normalizePath path)).length < 2 ^ 63)
    (hlang : (utf8 (asciiLower language)).length < 2 ^ 63) (henc : ∀ e ∈ fm.encoding, NulFree e)
    (hok : ok ex) (hmem : ex.InMemory)
    (hcf : CollisionFree sha256 (textsOf es ∪ {t | t ∈ ex.texts})) :
    ∃ dict ids es', es <+: es' ∧ (∀ e ∈ es', e ∈ es ∨ e.2 ∈ ex.texts) ∧
      List.Forall₂ (fun t id => (id, t) ∈ es') (V2Prep.build ex).terms ids ∧
      r.d₅ =
        (r.d₄.putFile r.fileId r.file r.row).addContent dict es' r.fileId
          ((V2Prep.build ex).stream.withIds ids)
          (postRows r.fileId ids (V2Prep.build ex).postings) ∧
      Inv sha256 ok r.final
        (Function.update σ r.fileId (some ((V2Prep.build ex).stream.withIds ids))) es' ∧
      (Symbols d σ es → (∀ g st, σ g = some st → g ≤ maxLocal ∧ st.symbols.length ≤ 4294967296) →
        Symbols r.final (Function.update σ r.fileId (some ((V2Prep.build ex).stream.withIds ids)))
          es') := by
  obtain ⟨hcontent, -, -, -⟩ := r.cleared h
  obtain ⟨dict, ids, es', hpre, hnew, hids, h5, hcontent', hsyms⟩ :=
    putContent_spec (d := r.d₄.putFile r.fileId r.file r.row) hcontent (Function.update_self ..)
      (r.fileId_le h) hok hmem (checkIngest_spec r.checked).2.2.2 hcf r.put_eq
  obtain ⟨hent, hfiles⟩ := r.rows_spec h hpath hlang henc ((V2Prep.build ex).stream.withIds ids)
  rw [Function.update_idem] at hcontent' hsyms
  refine ⟨dict, ids, es', hpre, hnew, hids, h5, ?_, fun hs hlocal =>
    hsyms (r.cleared_symbols h hs hlocal)⟩
  rw [IngestRun.final, h5]
  rw [h5] at hcontent'
  exact ⟨hent, hcontent', hfiles⟩

end IngestRun
end MemoryGraph
