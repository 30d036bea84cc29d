import MemoryGraph.Store.Determined
import MemoryGraph.Lib.Replay

/-! An ingest as a write that fills the slot of its file: over ids, names and dictionary
entries that only grow, and with everything else left as it was. -/

namespace MemoryGraph
open Lib Codec Option
variable {org repo path : String} {fid : Nat} {a : Write}

def IsFile (nodes : Table Nat Node) (org repo path : String) (fid : Nat) : Prop :=
  ∃ n repoId, nodes.get fid = some n ∧ n.kind = .file ∧ n.name = path ∧ n.parent = some repoId ∧
    IsRepo nodes org repo repoId

theorem IsFile.unique {nodes : Table Nat Node} {org org' repo repo' path path' : String}
    (hf : IsFile nodes org repo path fid) (hf' : IsFile nodes org' repo' path' fid) :
    (org, repo, path) = (org', repo', path') := by
  obtain ⟨n, repoId, hn, -, rfl, hpar, r, orgId, o, hr, -, rfl, hrp, ho, -, rfl⟩ := hf
  obtain ⟨n', repoId', hn', -, rfl, hpar', r', orgId', o', hr', -, rfl, hrp', ho', -, rfl⟩ := hf'
  obtain rfl := mem_unique hn hn'
  obtain rfl := mem_unique hpar hpar'
  obtain rfl := mem_unique hr hr'
  obtain rfl := mem_unique hrp hrp'
  obtain rfl := mem_unique ho ho'
  rfl

structure Placed (names : Table String Nat) (org repo path : String) (orgId repoId fid : Nat) :
    Prop where
  org : names.get (nameKey none .org org) = some orgId
  repo : names.get (nameKey (some orgId) .repo repo) = some repoId
  file : names.get (nameKey (some repoId) .file path) = some fid

theorem Placed.mono {names names' : Table String Nat} {orgId repoId fid : Nat}
    (h : Placed names org repo path orgId repoId fid)
    (hsub : ∀ key id, names.get key = some id → names'.get key = some id) :
    Placed names' org repo path orgId repoId fid :=
  ⟨hsub _ _ h.org, hsub _ _ h.repo, hsub _ _ h.file⟩

theorem Placed.unique {names : Table String Nat} {o o' r r' f f' : Nat}
    (h : Placed names org repo path o r f) (h' : Placed names org repo path o' r' f') :
    r = r' ∧ f = f' := by
  obtain rfl := mem_unique h.org h'.org
  obtain rfl := mem_unique h.repo h'.repo
  exact ⟨rfl, mem_unique h.file h'.file⟩

theorem fileId_eq_placed {d : Data} :
    d.fileId org repo path = some fid ↔ ∃ orgId repoId,
    Placed d.names org repo path orgId repoId fid := by
  constructor
  · intro h
    obtain ⟨repoId, hrepo, hfile⟩ := bind_eq_some_iff.mp h
    obtain ⟨orgId, horg, hrepo⟩ := bind_eq_some_iff.mp hrepo
    exact ⟨orgId, repoId, horg, hrepo, hfile⟩
  · rintro ⟨orgId, repoId, h⟩
    exact bind_eq_some_iff.mpr ⟨repoId, bind_eq_some_iff.mpr ⟨orgId, h.org, h.repo⟩, h.file⟩

section
variable {d : Data} (h : Entities d) {org repo path : String}
include h

theorem Placed.nodes {orgId repoId fid : Nat} (hp : Placed d.names org repo path orgId repoId fid) :
    IsRepo d.nodes org repo repoId ∧ ∃ n, d.nodes.get fid = some n ∧ n.kind = .file ∧
      n.name = path ∧ n.parent = some repoId := by
  have hrepo := repoId_spec h (bind_eq_some_iff.mpr ⟨orgId, hp.org, hp.repo⟩)
  obtain ⟨r, -, -, hr, -⟩ := id hrepo
  have hpos := (h.ids _ _ hr).2.1
  obtain ⟨n, hn, hkey⟩ := (h.names _ _).mp hp.file
  obtain ⟨hparent, hkind, hname⟩ := nameKey_inj hkey
  refine ⟨hrepo, n, hn, hkind.symm, hname.symm, ?_⟩
  cases hpar : n.parent with
  | none =>
    rw [hpar, getD_none, getD_some] at hparent
    omega
  | some p =>
    rw [hpar, getD_some, getD_some] at hparent
    rw [hparent]

theorem fileId_eq_some : d.fileId org repo path = some fid ↔ IsFile d.nodes org repo path fid := by
  rw [fileId_eq_placed]
  constructor
  · rintro ⟨orgId, repoId, hp⟩
    obtain ⟨hrepo, n, hn, hk, hname, hpar⟩ := hp.nodes h
    exact ⟨n, repoId, hn, hk, hname, hpar, hrepo⟩
  · rintro ⟨n, repoId, hn, hk, hname, hpar, r, orgId, o, hr, hrk, hrn, hrp, ho, hok, hon⟩
    have horg : o.parent = none := by
      have := h.shaped _ _ ho
      unfold Shaped at this
      rw [hok] at this
      exact this.1
    refine ⟨orgId, repoId, (h.names _ _).mpr ⟨o, ho, ?_⟩, (h.names _ _).mpr ⟨r, hr, ?_⟩,
      (h.names _ _).mpr ⟨n, hn, ?_⟩⟩
    · rw [horg, hok, hon]
    · rw [hrp, hrk, hrn]
    · rw [hpar, hk, hname]

theorem exists_isFile {n : Node} (hn : d.nodes.get fid = some n) (hk : n.kind = .file) :
    ∃ org repo, IsFile d.nodes org repo n.name fid := by
  obtain ⟨org, repo, repoId, hpar, hrepo⟩ := isRepo_of_file h hn hk
  exact ⟨org, repo, n, repoId, hn, hk, rfl, hpar, hrepo⟩

end

def Extraction.Indexable (ex : Extraction) : Prop := ex.symbols.length ≤ 4294967296

instance (ex : Extraction) : Decidable ex.Indexable := inferInstanceAs (Decidable (_ ≤ _))

/-- The digest of a store, which tells apart the byte strings it is ever given. -/
structure Setting where
  sha256 : List UInt8 → List UInt8
  known : Set (List UInt8)
  injOn : Set.InjOn sha256 known

structure Write where
  org : String
  repo : String
  path : String
  language : String
  ex : Extraction
  fm : FileMeta
deriving DecidableEq

/-- What is known of the arguments: they fit in memory, the spans are valid and the terms known. -/
structure Write.Fits (S : Setting) (a : Write) : Prop where
  admitted : Admitted Extraction.Indexable a.ex
  path : (utf8 (normalizePath a.path)).length < 2 ^ 63
  language : (utf8 (asciiLower a.language)).length < 2 ^ 63
  encoding : ∀ e ∈ a.fm.encoding, NulFree e
  texts : ∀ t ∈ a.ex.texts, utf8 t ∈ S.known

@[ext] structure State (S : Setting) where
  data : Data
  streams : Nat → Option Stream
  entries : List (Nat × String)
  whole : Whole S.sha256 Extraction.Indexable data streams entries
  texts : ∀ e ∈ entries, utf8 e.2 ∈ S.known

def State.empty (S : Setting) : State S :=
  ⟨Data.empty, fun _ => none, [], whole_empty, fun _ he => (by cases he)⟩

variable {S : Setting}

theorem State.collisionFree (s : State S) {ex : Extraction}
    (hex : ∀ t ∈ ex.texts, utf8 t ∈ S.known) :
    CollisionFree S.sha256 (textsOf s.entries ∪ {t | t ∈ ex.texts}) := by
  have hknown : ∀ t ∈ textsOf s.entries ∪ {t | t ∈ ex.texts}, utf8 t ∈ S.known := by
    rintro t (⟨id, ht⟩ | ht)
    · exact s.texts _ ht
    · exact hex t ht
  intro t ht u hu _ _ heq
  exact utf8_injective (S.injOn (hknown t ht) (hknown u hu) heq)

theorem State.input (s : State S) (ha : a.Fits S) :
    IngestInput S.sha256 Extraction.Indexable s.data a.path a.language a.ex a.fm := by
  refine ⟨ha.admitted, ha.path, ha.language, ha.encoding, (s.collisionFree ha.texts).mono ?_⟩
  refine Set.union_subset_union_left _ ?_
  rintro t ⟨id, ht⟩
  exact ⟨id, s.whole.inv.content.dict.text_eq.mp ht⟩

def Write.apply (a : Write) (sha256 : List UInt8 → List UInt8) (d : Data) :
    Except StoreError (Data × IngestStats) :=
  d.ingestPrepped sha256 a.org a.repo a.path a.language a.ex a.fm

def Write.node (a : Write) (repoId fid : Nat) : Node :=
  fileNode fid repoId (normalizePath a.path) (asciiLower a.language) a.ex a.fm

def Write.stream (a : Write) (ids : List Nat) : Stream := (V2Prep.build a.ex).stream.withIds ids

def Write.Ids (a : Write) (es : List (Nat × String)) (ids : List Nat) : Prop :=
  List.Forall₂ (fun t id => (id, t) ∈ es) (V2Prep.build a.ex).terms ids

/-- `s'` is `s` with the file written at `fid`. -/
structure WroteAt (s : State S) (a : Write) (s' : State S) (repoId fid : Nat) (ids : List Nat) :
    Prop where
  placed : ∃ orgId, Placed s'.data.names a.org a.repo (normalizePath a.path) orgId repoId fid
  node : s'.data.nodes.get fid = some (a.node repoId fid)
  streams : s'.streams = Function.update s.streams fid (some (a.stream ids))
  ids : a.Ids s'.entries ids
  keep : ∀ i m, i ≠ fid → s.data.nodes.get i = some m → s'.data.nodes.get i = some m
  back : ∀ i m, i ≠ fid → m.kind = .file → s'.data.nodes.get i = some m →
    s.data.nodes.get i = some m
  names : ∀ key id, s.data.names.get key = some id → s'.data.names.get key = some id
  entries : s.entries ⊆ s'.entries

structure Wrote (s : State S) (a : Write) (s' : State S) : Prop where
  fits : a.Fits S
  call : ∃ stats, a.apply S.sha256 s.data = .ok (s'.data, stats)
  checked : checkIngest a.org a.repo a.language a.ex = .ok ()
  at_file : ∃ repoId fid ids, WroteAt s a s' repoId fid ids

theorem IngestRun.final_back {sha256 : List UInt8 → List UInt8} {d : Data}
    {org repo path language : String} {ex : Extraction} {fm : FileMeta}
    (r : IngestRun sha256 d org repo path language ex fm) {i : Nat} {m : Node} (hi : i ≠ r.fileId)
    (hk : m.kind = .file) (hm : r.d₃.nodes.get i = some m) : d.nodes.get i = some m := by
  rcases ensure_back r.file_eq hm with hm | ⟨hfid, -⟩
  · rcases ensure_back r.repo_eq hm with hm | ⟨-, hkind⟩
    · rcases ensure_back r.org_eq hm with hm | ⟨-, hkind⟩
      · exact hm
      · rw [hk] at hkind
        cases hkind
    · rw [hk] at hkind
      cases hkind
  · exact absurd hfid hi

theorem wrote_of_apply (s : State S) (ha : a.Fits S) {d' : Data} {stats : IngestStats}
    (hcall : a.apply S.sha256 s.data = .ok (d', stats)) :
      ∃ s' : State S, s'.data = d' ∧ Wrote s a s' ∧ ∃ repoId ids,
        WroteAt s a s' repoId stats.fileId ids := by
  obtain ⟨r, rfl, hfid⟩ := exists_ingestRun hcall
  have hin := s.input ha
  have hinv := s.whole.inv
  obtain ⟨dict, ids, es', hpre, hnew, hids, h5, hinv', hsyms⟩ :=
    r.inv_ingest hinv hin.path hin.language hin.encoding hin.admitted hin.admitted.memory
      (hin.collisionFree hinv.content.dict)
  have hwhole : Whole S.sha256 Extraction.Indexable r.final
      (Function.update s.streams r.fileId (some (a.stream ids)))
      es' := ⟨hinv', r.catalogued_ingest hinv hpre hids h5 hinv' s.whole.catalog,
        fun hb => hsyms (s.whole.symbols hb) (s.whole.local hb)⟩
  have htexts : ∀ e ∈ es', utf8 e.2 ∈ S.known := by
    intro e he
    rcases hnew e he with he | he
    · exact s.texts e he
    · exact ha.texts _ he
  obtain ⟨hnodes, -, -⟩ := r.final_rows hinv h5
  obtain ⟨-, -, n, hn, hk, hname, hpar⟩ := r.file_spec hinv
  have hnode : r.final.nodes.get r.fileId = some (a.node r.repoId r.fileId) := by
    rw [hnodes, Table.get_insert_self, r.node_eq]
    rfl
  have hkeep : ∀ i m, i ≠ r.fileId → s.data.nodes.get i = some m →
      r.final.nodes.get i = some m := by
    intro i m hi hm
    rw [hnodes, Table.get_insert_of_ne _ _ (Ne.symm hi), r.keep hinv hm]
  have hrepo : IsRepo r.final.nodes a.org a.repo r.repoId :=
    (r.isRepo hinv).mono fun i m => r.final_keep hinv h5
  obtain ⟨orgId, repoId, hplaced⟩ := fileId_eq_placed.mp ((fileId_eq_some hinv'.entities).mpr
    ⟨_, r.repoId, hnode, rfl, rfl, rfl, hrepo⟩)
  obtain ⟨-, m, hm, -, -, hmp⟩ := hplaced.nodes hinv'.entities
  obtain rfl := mem_unique hnode hm
  obtain rfl : r.repoId = repoId := some.inj hmp
  have hat : WroteAt s a ⟨r.final, _, es', hwhole, htexts⟩ r.repoId r.fileId ids := by
    refine ⟨⟨orgId, hplaced⟩, hnode, rfl, hids, hkeep, fun i m hi hmk hm => ?_, fun key id hkey =>
      ?_, hpre.subset⟩
    · rw [hnodes, Table.get_insert_of_ne _ _ (Ne.symm hi)] at hm
      exact r.final_back hi hmk hm
    · obtain ⟨m, hm, rfl⟩ := (hinv.entities.names key id).mp hkey
      by_cases hi : id = r.fileId
      · subst hi
        obtain rfl := some.inj ((r.keep hinv hm).symm.trans hn)
        refine (hinv'.entities.names _ _).mpr ⟨_, hnode, ?_⟩
        rw [hk, hname, hpar]
        rfl
      · exact (hinv'.entities.names _ _).mpr ⟨m, hkeep id m hi hm, rfl⟩
  refine ⟨⟨r.final, _, es', hwhole, htexts⟩, rfl, ⟨ha, ⟨stats, hcall⟩, r.checked, _, _, _, hat⟩, ?_⟩
  rw [hfid]
  exact ⟨r.repoId, ids, hat⟩

@[ext] structure Base where
  nextId : Nat
  terms : Dict
  entries : List (Nat × String)
  names : Table String Nat
  above : Nat → Option Node

instance : Preorder Base where
  le b b' := b.entries ⊆ b'.entries ∧ ∀ key id, b.names.get key = some id →
    b'.names.get key = some id
  le_refl b := ⟨List.Subset.refl _, fun _ _ h => h⟩
  le_trans a b c hab hbc :=
    ⟨List.Subset.trans hab.1 hbc.1, fun key id h => hbc.2 key id (hab.2 key id h)⟩

def State.base (s : State S) : Base :=
  ⟨s.data.nextId, s.data.terms, s.entries, s.data.names, fun id =>
    (s.data.nodes.get id).filter (·.kind ≠ .file)⟩

def State.slot (s : State S) (k : String × String × String) :
    Option (Option Node × Option Stream) :=
  (s.data.fileId k.1 k.2.1 k.2.2).map fun fid => (s.data.nodes.get fid, s.streams fid)

def Write.key (a : Write) : String × String × String := (a.org, a.repo, normalizePath a.path)

/-- On this base the write needs no new name or term, and fills its slot with `v`. -/
def Write.Fills (S : Setting) (b : Base) (a : Write) (v : Option (Option Node × Option Stream)) :
    Prop :=
  a.Fits S ∧ checkIngest a.org a.repo a.language a.ex = .ok () ∧ ∃ orgId repoId fid ids,
    Placed b.names a.org a.repo (normalizePath a.path) orgId repoId fid ∧ a.Ids b.entries ids ∧
      v = some (some (a.node repoId fid), some (a.stream ids))

theorem Write.Fills.mono {b b' : Base} {v : Option (Option Node × Option Stream)} (hle : b ≤ b')
    (h : a.Fills S b v) : a.Fills S b' v := by
  obtain ⟨hfits, hchecked, orgId, repoId, fid, ids, hplaced, hids, rfl⟩ := h
  exact ⟨hfits, hchecked, orgId, repoId, fid, ids, hplaced.mono hle.2,
    hids.imp fun _ _ hm => hle.1 hm, rfl⟩

theorem Write.Fills.unique {s : State S} {v v' : Option (Option Node × Option Stream)}
    (h : a.Fills S s.base v) (h' : a.Fills S s.base v') : v = v' := by
  obtain ⟨-, -, orgId, repoId, fid, ids, hplaced, hids, rfl⟩ := h
  obtain ⟨-, -, orgId', repoId', fid', ids', hplaced', hids', rfl⟩ := h'
  obtain ⟨rfl, rfl⟩ := hplaced.unique hplaced'
  rw [ids_unique s.whole.inv.content.dict hids hids']

section
variable {s s' : State S} {a : Write}

theorem WroteAt.fileId {repoId fid : Nat} {ids : List Nat} (h : WroteAt s a s' repoId fid ids) :
    s'.data.fileId a.org a.repo (normalizePath a.path) = some fid :=
  h.placed.elim fun orgId hp => fileId_eq_placed.mpr ⟨orgId, repoId, hp⟩

theorem Wrote.filled (h : Wrote s a s') : a.Fills S s'.base (s'.slot a.key) := by
  obtain ⟨repoId, fid, ids, hat⟩ := h.at_file
  obtain ⟨orgId, hplaced⟩ := hat.placed
  refine ⟨h.fits, h.checked, orgId, repoId, fid, ids, hplaced, hat.ids, ?_⟩
  have hslot : s'.slot a.key = some (s'.data.nodes.get fid, s'.streams fid) := by
    rw [State.slot, Write.key, hat.fileId]
    rfl
  rw [hslot, hat.node, hat.streams, Function.update_self]

theorem Wrote.grows (h : Wrote s a s') : s.base ≤ s'.base := by
  obtain ⟨repoId, fid, ids, hat⟩ := h.at_file
  exact ⟨hat.entries, hat.names⟩

theorem WroteAt.isFile_iff {repoId fid : Nat} {ids : List Nat} (h : WroteAt s a s' repoId fid ids)
    {g : Nat} (hg : g ≠ fid) :
    IsFile s'.data.nodes org repo path g ↔ IsFile s.data.nodes org repo path g := by
  have hfile : ∀ {i : Nat} {m : Node}, s.data.nodes.get i = some m → m.kind ≠ .file → i ≠ fid := by
    rintro i m hm hk rfl
    obtain ⟨n, hn, hkey⟩ : ∃ n, s'.data.nodes.get i = some n ∧ nameKey m.parent m.kind m.name =
        nameKey n.parent n.kind n.name :=
      (s'.whole.inv.entities.names _ _).mp
        (h.names _ _ ((s.whole.inv.entities.names _ _).mpr ⟨m, hm, rfl⟩))
    obtain rfl := mem_unique hn h.node
    exact hk (nameKey_inj hkey).2.1
  have hkeep : ∀ i m, s.data.nodes.get i = some m → m.kind ≠ .file → s'.data.nodes.get i = some m :=
    fun i m hm hk => h.keep i m (hfile hm hk) hm
  constructor
  · rintro ⟨n, rid, hn, hk, hname, hpar, hrepo⟩
    have hn' := h.back g n hg hk hn
    -- the repo of a file that was there was there too
    obtain ⟨org', repo', rid', hpar', hrepo'⟩ := isRepo_of_file s.whole.inv.entities hn' hk
    obtain rfl := mem_unique hpar hpar'
    have heq := IsFile.unique ⟨n, rid, hn, hk, hname, hpar, hrepo⟩ ⟨n, rid, hn, hk, hname, hpar,
      hrepo'.mono hkeep⟩
    obtain ⟨rfl, rfl, -⟩ : org = org' ∧ repo = repo' ∧ path = path := by simpa using heq
    exact ⟨n, rid, hn', hk, hname, hpar, hrepo'⟩
  · rintro ⟨n, rid, hn, hk, hname, hpar, hrepo⟩
    exact ⟨n, rid, h.keep g n hg hn, hk, hname, hpar, hrepo.mono hkeep⟩

theorem Wrote.frame (h : Wrote s a s') {k : String × String × String} (hk : k ≠ a.key) :
    s'.slot k = s.slot k := by
  obtain ⟨repoId, fid, ids, hat⟩ := h.at_file
  obtain ⟨org, repo, path⟩ := k
  have hself : IsFile s'.data.nodes a.org a.repo (normalizePath a.path) fid :=
    (fileId_eq_some s'.whole.inv.entities).mp hat.fileId
  have hne : ∀ {g}, IsFile s'.data.nodes org repo path g → g ≠ fid := by
    rintro g hg rfl
    exact hk (hg.unique hself)
  have hback : ∀ {g}, s'.data.fileId org repo path = some g → g ≠ fid ∧
      s.data.fileId org repo path = some g := by
    intro g hg
    have hg := (fileId_eq_some s'.whole.inv.entities).mp hg
    exact ⟨hne hg, (fileId_eq_some s.whole.inv.entities).mpr ((hat.isFile_iff (hne hg)).mp hg)⟩
  have hforth : ∀ {g}, s.data.fileId org repo path = some g →
      s'.data.fileId org repo path = some g := by
    intro g hg
    obtain ⟨orgId, rid, hplaced⟩ := fileId_eq_placed.mp hg
    exact fileId_eq_placed.mpr ⟨orgId, rid, hplaced.mono hat.names⟩
  unfold State.slot
  cases hg : s.data.fileId org repo path with
  | none =>
    cases hg' : s'.data.fileId org repo path with
    | none => rfl
    | some g => exact absurd ((hback hg').2.symm.trans hg) (by simp)
  | some g =>
    rw [hforth hg]
    obtain ⟨hgf, -⟩ := hback (hforth hg)
    obtain ⟨n, -, hn, -⟩ := (fileId_eq_some s.whole.inv.entities).mp hg
    simp only [map_some]
    rw [hat.keep g n hgf hn, hn, hat.streams, Function.update_of_ne hgf]

theorem Write.Fills.settled {v : Option (Option Node × Option Stream)} (h : a.Fills S s.base v) :
    ∃ s' : State S, Wrote s a s' ∧ s'.base = s.base := by
  obtain ⟨hfits, hchecked, orgId, repoId, fid, ids, hplaced, hids, -⟩ := h
  have hinv := s.whole.inv
  obtain ⟨r, hstart, hterms, stats, hcall⟩ := IngestStart.exists_run_of_interned hinv
    ⟨s.data, s.data, s.data, orgId, repoId, fid, true, true, true, hchecked,
      ensure_found hplaced.org none, ensure_found hplaced.repo none, ensure_found hplaced.file _⟩
      a.fm (internAll_found hinv.content.dict hids)
  obtain ⟨s', hs', hwrote, -⟩ := wrote_of_apply s hfits hcall
  have hin := s.input hfits
  obtain ⟨_, _, _, -, -, -, h5, -⟩ := r.inv_ingest hinv hin.path hin.language
    hin.encoding hin.admitted hin.admitted.memory (hin.collisionFree hinv.content.dict)
  obtain ⟨hnodes, hnext, -⟩ := r.final_rows hinv h5
  have hd₃ : r.d₃ = s.data := congrArg IngestStart.d₃ hstart
  have hrf : r.fileId = fid := congrArg IngestStart.fileId hstart
  have hrr : r.repoId = repoId := congrArg IngestStart.repoId hstart
  rw [r.node_eq, hd₃, hrf, hrr, ← hs'] at hnodes
  rw [hd₃, ← hs'] at hnext
  rw [← hs'] at hterms
  obtain ⟨-, n, hn, hk, hname, hpar⟩ := hplaced.nodes hinv.entities
  have hget : ∀ i, i ≠ fid → s'.data.nodes.get i = s.data.nodes.get i := fun i hi => by
    rw [hnodes, Table.get_insert_of_ne _ _ (Ne.symm hi)]
  have hat : s'.data.nodes.get fid = some (a.node repoId fid) := by
    rw [hnodes, Table.get_insert_self]
    rfl
  refine ⟨s', hwrote, Base.ext hnext hterms ?_ ?_ ?_⟩
  · exact (hterms ▸ s'.whole.inv.content.dict).entries_unique hinv.content.dict
  · -- the row of the file names it as before
    refine Table.ext fun key => ext fun id => ?_
    refine (s'.whole.inv.entities.names key id).trans
      (Iff.trans ?_ (hinv.entities.names key id).symm)
    by_cases hi : id = fid
    · subst hi
      rw [hat, hn]
      simp only [some.injEq, exists_eq_left']
      rw [hpar, hk, hname]
      rfl
    · rw [hget id hi]
  · funext i
    change (s'.data.nodes.get i).filter _ = (s.data.nodes.get i).filter _
    by_cases hi : i = fid
    · rw [hi, hat, hn, filter_some, filter_some, hk]
      rfl
    · rw [hget i hi]

theorem State.streams_eq_none (s : State S) {f : Nat}
    (h : ¬ ∃ n, s.data.nodes.get f = some n ∧ n.kind = .file) : s.streams f = none := by
  rwa [← s.whole.inv.files.streams, not_isSome_iff_eq_none] at h

theorem State.eq_of_slots (hbase : s.base = s'.base) (hslot : s.slot = s'.slot) : s = s' := by
  have hnext : s.data.nextId = s'.data.nextId := congrArg Base.nextId hbase
  have hterms : s.data.terms = s'.data.terms := congrArg Base.terms hbase
  have hentries : s.entries = s'.entries := congrArg Base.entries hbase
  have hnames : s.data.names = s'.data.names := congrArg Base.names hbase
  have hfile : ∀ org repo path, s.data.fileId org repo path = s'.data.fileId org repo path := by
    intro org repo path
    unfold Data.fileId Data.repoId
    rw [hnames]
  have hrow : ∀ org repo path fid, s.data.fileId org repo path = some fid →
      s.data.nodes.get fid = s'.data.nodes.get fid ∧ s.streams fid = s'.streams fid := by
    intro org repo path fid hf
    have hk := congrFun hslot (org, repo, path)
    unfold State.slot at hk
    rw [← hfile, hf] at hk
    exact Prod.mk.inj (some.inj hk)
  have hsame : ∀ {t t' : State S}, t.base = t'.base →
      (∀ org repo path fid, t.data.fileId org repo path = some fid →
      t.data.nodes.get fid = t'.data.nodes.get fid) → ∀ i n, t.data.nodes.get i = some n →
      t'.data.nodes.get i = some n := by
    intro t t' hb hr i n hn
    by_cases hk : n.kind = .file
    · obtain ⟨org, repo, hf⟩ := exists_isFile t.whole.inv.entities hn hk
      rw [← hr org repo n.name i ((fileId_eq_some t.whole.inv.entities).mpr hf), hn]
    · have habove := congrFun (congrArg Base.above hb) i
      change (t.data.nodes.get i).filter _ = (t'.data.nodes.get i).filter _ at habove
      rw [hn, filter_some, if_pos (by simpa using hk)] at habove
      exact (filter_eq_some_iff.mp habove.symm).1
  have hnodes : s.data.nodes = s'.data.nodes := by
    refine Table.ext fun i => ext fun n =>
      ⟨hsame hbase (fun o r p f hf => (hrow o r p f hf).1) i n, ?_⟩
    exact hsame hbase.symm (fun o r p f hf => ((hrow o r p f ((hfile o r p).trans hf)).1).symm) i n
  have hstreams : s.streams = s'.streams := by
    funext f
    by_cases hf : ∃ n, s.data.nodes.get f = some n ∧ n.kind = .file
    · obtain ⟨n, hn, hk⟩ := hf
      obtain ⟨org, repo, hf⟩ := exists_isFile s.whole.inv.entities hn hk
      exact (hrow org repo n.name f ((fileId_eq_some s.whole.inv.entities).mpr hf)).2
    · rw [s.streams_eq_none hf, s'.streams_eq_none (hnodes ▸ hf)]
  have hdata : s.data = s'.data :=
    s.whole.ext (hstreams ▸ s'.whole) (fun _ hex => hex) hnext hnodes hterms
  exact State.ext hdata hstreams hentries

end

def overwriting (S : Setting) : Overwriting (State S) Write (String × String × String)
    (Option (Option Node × Option Stream)) Base where
  step := Wrote
  key := Write.key
  slot := State.slot
  base := State.base
  writes := fun b a v => a.Fills S b v
  filled := Wrote.filled
  frame := fun h hk => h.frame hk
  grows := Wrote.grows
  mono := Write.Fills.mono
  unique := Write.Fills.unique
  settled := Write.Fills.settled
  ext := State.eq_of_slots

end MemoryGraph
