import MemoryGraph.Store.Ingest

/-! Orgs, repos and files: the tables `names` and `children` index the entity rows, and
every parent is of the kind above. -/

namespace MemoryGraph
open Lib Codec Option
variable {nodes : Table Nat Node} {n : Node} {id : Nat}

theorem append_sep_inj {c : Char} {a b x y : List Char} (ha : c ∉ a) (hb : c ∉ b)
    (h : a ++ c :: x = b ++ c :: y) : a = b ∧ x = y := by
  induction a generalizing b with
  | nil =>
    cases b with
    | nil => exact ⟨rfl, (List.cons.inj h).2⟩
    | cons d b => exact absurd ((List.cons.inj h).1 ▸ (.head _)) hb
  | cons e a ih =>
    cases b with
    | nil => exact absurd ((List.cons.inj h).1 ▸ (.head _)) ha
    | cons d b =>
      obtain ⟨rfl, htail⟩ := List.cons.inj h
      obtain ⟨rfl, hx⟩ := ih (fun hm => ha (.tail _ hm))
        (fun hm => hb (.tail _ hm)) htail
      exact ⟨rfl, hx⟩

theorem nul_notMem_toString (n : Nat) : '\x00' ∉ (toString n).toList := by
  change '\x00' ∉ n.repr.toList
  rw [Nat.toList_repr]
  exact fun h => absurd (Nat.isDigit_of_mem_toDigits (by decide) (by decide) h) (by decide)

theorem nul_notMem_debug (k : NodeKind) : '\x00' ∉ k.debug.toList := by
  cases k <;> decide

theorem debug_injective : Function.Injective NodeKind.debug := by
  intro a b h
  cases a <;> cases b <;> first | rfl | (exact absurd h (by decide))

theorem toList_nameKey (parent : Option Nat) (kind : NodeKind) (name : String) :
    (nameKey parent kind name).toList = (toString (parent.getD 0)).toList ++
      '\x00' :: (kind.debug.toList ++ '\x00' :: name.toList) := by
  simp [nameKey, nulJoin, List.intercalate, List.intersperse]

theorem nameKey_inj {p q : Option Nat} {k l : NodeKind} {m n : String}
    (h : nameKey p k m = nameKey q l n) : p.getD 0 = q.getD 0 ∧ k = l ∧ m = n := by
  have hl := congrArg String.toList h
  rw [toList_nameKey, toList_nameKey] at hl
  obtain ⟨h1, hl⟩ := append_sep_inj (nul_notMem_toString _) (nul_notMem_toString _) hl
  obtain ⟨h2, h3⟩ := append_sep_inj (nul_notMem_debug k) (nul_notMem_debug l) hl
  exact ⟨Nat.repr_inj.mp (String.toList_injective h1), debug_injective (String.toList_injective h2),
    String.toList_injective h3⟩

/-- What the rows say of an entity: its parent is of the kind above, and what goes into
catalog keys has no NUL. -/
def Shaped (nodes : Table Nat Node) (n : Node) : Prop :=
  match n.kind with
  | .org => n.parent = none ∧ NulFree n.name
  | .repo => NulFree n.name ∧ ∃ o m, n.parent = some o ∧ nodes.get o = some m ∧ m.kind = .org
  | .file => (∃ l, n.language = some l ∧ NulFree l) ∧ (∀ e ∈ n.encoding, NulFree e) ∧
      ∃ r m, n.parent = some r ∧ nodes.get r = some m ∧ m.kind = .repo
  | _ => False

structure EntityRows (nextId : Nat) (nodes : Table Nat Node) (names : Table String Nat)
    (children : Multimap Nat Nat) : Prop where
  ids : ∀ id n, nodes.get id = some n → n.id = id ∧ 1 ≤ id ∧ id < nextId
  next : 1 ≤ nextId ∧ nextId ≤ maxLocal + 1
  shaped : ∀ id n, nodes.get id = some n → Shaped nodes n
  above : ∀ id n p, nodes.get id = some n → n.parent = some p → p < id
  names : ∀ key id, names.get key = some id ↔
    ∃ n, nodes.get id = some n ∧ key = nameKey n.parent n.kind n.name
  children : ∀ p c, (p, c) ∈ children.pairs ↔ ∃ n, nodes.get c = some n ∧ n.parent = some p

abbrev Entities (d : Data) : Prop := EntityRows d.nextId d.nodes d.names d.children

theorem entities_empty : Entities Data.empty where
  ids id n h := by cases h
  next := by decide
  shaped id n h := by cases h
  above id n p h := by cases h
  names key id := by simp [Data.empty]
  children p c := by simp [Data.empty]

theorem Shaped.cases (h : Shaped nodes n) :
    (n.kind = .org ∧ n.parent = none) ∨
    (n.kind = .repo ∧ ∃ o m, n.parent = some o ∧ nodes.get o = some m ∧ m.kind = .org) ∨
    (n.kind = .file ∧ ∃ r m, n.parent = some r ∧ nodes.get r = some m ∧ m.kind = .repo) := by
  unfold Shaped at h
  split at h
  · exact Or.inl ⟨‹_›, h.1⟩
  · exact Or.inr (Or.inl ⟨‹_›, h.2⟩)
  · exact Or.inr (Or.inr ⟨‹_›, h.2.2⟩)
  · exact h.elim

theorem Shaped.kind_of_parent {n m : Node} (h : Shaped nodes n) {p : Nat}
    (hp : n.parent = some p) (hm : nodes.get p = some m) :
    (m.kind = .org ∧ n.kind = .repo) ∨ (m.kind = .repo ∧ n.kind = .file) := by
  rcases h.cases with ⟨-, hnone⟩ | ⟨hk, o, m', ho, hm', hk'⟩ | ⟨hk, r, m', hr, hm', hk'⟩
  · rw [hnone] at hp
    cases hp
  · obtain rfl := mem_unique ho hp
    obtain rfl := mem_unique hm hm'
    exact Or.inl ⟨hk', hk⟩
  · obtain rfl := mem_unique hr hp
    obtain rfl := mem_unique hm hm'
    exact Or.inr ⟨hk', hk⟩

theorem Shaped.mono {nodes nodes' : Table Nat Node} (h : Shaped nodes n)
    (hkeep : ∀ id m, nodes.get id = some m → m.kind ≠ .file →
      ∃ m', nodes'.get id = some m' ∧ m'.kind = m.kind) :
    Shaped nodes' n := by
  unfold Shaped at h ⊢
  cases hk : n.kind with
  | org =>
    rw [hk] at h
    exact h
  | repo =>
    rw [hk] at h
    obtain ⟨hn, o, m, hp, ho, hm⟩ := h
    obtain ⟨m', ho', hm'⟩ := hkeep o m ho (by rw [hm]; decide)
    exact ⟨hn, o, m', hp, ho', hm'.trans hm⟩
  | file =>
    rw [hk] at h
    obtain ⟨hl, he, r, m, hp, hr, hm⟩ := h
    obtain ⟨m', hr', hm'⟩ := hkeep r m hr (by rw [hm]; decide)
    exact ⟨hl, he, r, m', hp, hr', hm'.trans hm⟩
  | symbol => rw [hk] at h; exact h
  | token => rw [hk] at h; exact h

theorem Shaped.parent_row (h : Shaped nodes n) {p : Nat}
    (hp : n.parent = some p) : ∃ m, nodes.get p = some m := by
  unfold Shaped at h
  cases hk : n.kind with
  | org =>
    rw [hk] at h
    rw [h.1] at hp
    cases hp
  | repo =>
    rw [hk] at h
    obtain ⟨-, o, m, ho, hm, -⟩ := h
    exact ⟨m, mem_unique ho hp ▸ hm⟩
  | file =>
    rw [hk] at h
    obtain ⟨-, -, r, m, hr, hm, -⟩ := h
    exact ⟨m, mem_unique hr hp ▸ hm⟩
  | symbol => rw [hk] at h; exact h.elim
  | token => rw [hk] at h; exact h.elim

def Data.addEntity (d : Data) (n : Node) : Data :=
  { d with
    nextId := n.id + 1
    nodes := d.nodes.insert n.id n
    names := d.names.insert (nameKey n.parent n.kind n.name) n.id
    children := match n.parent with
      | some p => d.children.insert p n.id
      | none => d.children }

@[simp] theorem addEntity_nextId (d : Data) (n : Node) : (d.addEntity n).nextId = n.id + 1 := rfl

@[simp] theorem addEntity_nodes (d : Data) (n : Node) (id : Nat) :
    (d.addEntity n).nodes.get id = if n.id = id then some n else d.nodes.get id :=
  Table.get_insert ..

@[simp] theorem addEntity_names (d : Data) (n : Node) (key : String) :
    (d.addEntity n).names.get key =
    if nameKey n.parent n.kind n.name = key then some n.id else d.names.get key :=
      Table.get_insert ..

@[simp] theorem addEntity_children (d : Data) (n : Node) (e : Nat × Nat) :
    e ∈ (d.addEntity n).children.pairs ↔ (n.parent = some e.1 ∧ e.2 = n.id) ∨
    e ∈ d.children.pairs := by
  rw [Data.addEntity]
  cases n.parent with
  | none => simp
  | some p =>
    rw [Multimap.mem_pairs_insert, some.injEq, Prod.ext_iff]
    exact or_congr_left (and_congr_left fun _ => eq_comm)

theorem ensure_cases {d d' : Data} {parent : Option Nat} {kind : NodeKind} {name : String}
    {language : Option String} {existed : Bool}
    (h : d.ensure parent kind name language = .ok (d', id, existed)) :
    (existed = true ∧ d' = d ∧ d.names.get (nameKey parent kind name) = some id) ∨
    (existed = false ∧ id = d.nextId ∧ d.nextId ≤ maxLocal ∧
      d.names.get (nameKey parent kind name) = none ∧
      d' = d.addEntity (entityNode id parent kind name language)) := by
  rw [Data.ensure] at h
  cases hn : d.names.get (nameKey parent kind name) with
  | some i =>
    rw [hn] at h
    obtain ⟨rfl, rfl, rfl⟩ : d = d' ∧ i = id ∧ true = existed := by simpa using h
    exact Or.inl ⟨rfl, rfl, rfl⟩
  | none =>
    rw [hn] at h
    obtain ⟨_, hroom, h⟩ := bind_eq_ok.mp h
    have hroom := not_lt.mp (failIf_eq_ok.mp hroom)
    obtain ⟨rfl, rfl, rfl⟩ : _ = d' ∧ d.nextId = id ∧ false = existed := by simpa using h
    exact Or.inr ⟨rfl, rfl, hroom, rfl, rfl⟩

section
variable {d : Data} (h : Entities d)
include h

theorem EntityRows.get_none_of_le (hid : d.nextId ≤ id) : d.nodes.get id = none := by
  rw [eq_none_iff_forall_ne_some]
  intro n hn
  exact absurd (h.ids id n hn).2.2 (not_lt.mpr hid)

theorem entities_addEntity (hid : n.id = d.nextId) (hroom : d.nextId ≤ maxLocal)
    (hshape : Shaped d.nodes n) (hfree : d.names.get (nameKey n.parent n.kind n.name) = none) :
    Entities (d.addEntity n) := by
  have hnone : d.nodes.get n.id = none := h.get_none_of_le hid.ge
  have hkeep : ∀ id m, d.nodes.get id = some m → (d.addEntity n).nodes.get id = some m := by
    intro id m hm
    rw [addEntity_nodes, if_neg (fun e => ?_), hm]
    rw [e, hm] at hnone
    cases hnone
  refine ⟨fun id m hm => ?_, ?_, fun id m hm => ?_, fun id m p hm hp => ?_, fun key id =>
    ?_, fun p c => ?_⟩
  · have := h.next.1
    rw [addEntity_nodes] at hm
    rw [addEntity_nextId]
    split_ifs at hm with he
    · cases hm
      exact ⟨he, by omega, by omega⟩
    · obtain ⟨h1, h2, h3⟩ := h.ids id m hm
      exact ⟨h1, h2, by omega⟩
  · rw [addEntity_nextId, hid]
    omega
  · have hsm : Shaped d.nodes m := by
      rw [addEntity_nodes] at hm
      split_ifs at hm with he
      · exact some.inj hm ▸ hshape
      · exact h.shaped id m hm
    exact hsm.mono fun id m hm _ => ⟨m, hkeep id m hm, rfl⟩
  · rw [addEntity_nodes] at hm
    split_ifs at hm with he
    · cases hm
      obtain ⟨q, hq⟩ := hshape.parent_row hp
      rw [← he, hid]
      exact (h.ids p q hq).2.2
    · exact h.above id m p hm hp
  · rw [addEntity_names, addEntity_nodes]
    split_ifs with hk hi hi
    · simp [← hk, hi]
    · -- the key was free
      refine ⟨fun e => absurd (some.inj e) hi, fun ⟨m, hm, hkey⟩ => ?_⟩
      have := (h.names key id).mpr ⟨m, hm, hkey⟩
      rw [← hk, hfree] at this
      cases this
    · refine ⟨fun e => ?_, fun ⟨m, hm, hkey⟩ => absurd (some.inj hm ▸ hkey).symm hk⟩
      obtain ⟨m, hm, -⟩ := (h.names key id).mp e
      rw [← hi, hnone] at hm
      cases hm
    · exact h.names key id
  · rw [addEntity_children, addEntity_nodes, h.children]
    dsimp only
    split_ifs with hi
    · have hno : ¬ ∃ m, d.nodes.get c = some m ∧ m.parent = some p := by
        rintro ⟨m, hm, -⟩
        rw [← hi, hnone] at hm
        cases hm
      simp [hno, hi]
    · simp [Ne.symm hi]

theorem entities_replace {n n' : Node} (hn : d.nodes.get id = some n) (hid : n'.id = n.id)
    (hp : n'.parent = n.parent) (hk : n'.kind = n.kind) (hname : n'.name = n.name)
    (hshape : Shaped d.nodes n') : Entities { d with nodes := d.nodes.insert id n' } := by
  have hget : ∀ i m, (d.nodes.insert id n').get i = some m → ∃ m₀, d.nodes.get i = some m₀ ∧
      m.id = m₀.id ∧ m.parent = m₀.parent ∧ m.kind = m₀.kind ∧ m.name = m₀.name := by
    intro i m hm
    rw [Table.get_insert] at hm
    split_ifs at hm with he
    · cases hm
      exact ⟨n, he ▸ hn, hid, hp, hk, hname⟩
    · exact ⟨m, hm, rfl, rfl, rfl, rfl⟩
  have hback : ∀ i m₀, d.nodes.get i = some m₀ → ∃ m, (d.nodes.insert id n').get i = some m ∧
      m.parent = m₀.parent ∧ m.kind = m₀.kind ∧ m.name = m₀.name := by
    intro i m₀ hm
    rw [Table.get_insert]
    split_ifs with he
    · subst he
      obtain rfl := mem_unique hn hm
      exact ⟨n', rfl, hp, hk, hname⟩
    · exact ⟨m₀, hm, rfl, rfl, rfl⟩
  have hmono : ∀ {m}, Shaped d.nodes m → Shaped (d.nodes.insert id n') m := fun hm =>
    hm.mono fun i m₀ h₀ _ => by
      obtain ⟨m', hm', -, hk', -⟩ := hback i m₀ h₀
      exact ⟨m', hm', hk'⟩
  refine ⟨fun i m hm => ?_, h.next, fun i m hm => ?_, fun i m p hm hpm => ?_, fun key i =>
    ?_, fun p c => ?_⟩
  · obtain ⟨m₀, h₀, hid', -⟩ := hget i m hm
    rw [hid']
    exact h.ids i m₀ h₀
  · rw [Table.get_insert] at hm
    split_ifs at hm with he
    · exact hmono (some.inj hm ▸ hshape)
    · exact hmono (h.shaped i m hm)
  · obtain ⟨m₀, h₀, -, e1, -⟩ := hget i m hm
    exact h.above i m₀ p h₀ (e1.symm.trans hpm)
  · rw [h.names]
    constructor
    · rintro ⟨m₀, h₀, hkey⟩
      obtain ⟨m, hm, e1, e2, e3⟩ := hback i m₀ h₀
      exact ⟨m, hm, by rw [hkey, e1, e2, e3]⟩
    · rintro ⟨m, hm, hkey⟩
      obtain ⟨m₀, h₀, -, e1, e2, e3⟩ := hget i m hm
      exact ⟨m₀, h₀, by rw [hkey, e1, e2, e3]⟩
  · rw [h.children]
    constructor
    · rintro ⟨m₀, h₀, hpar⟩
      obtain ⟨m, hm, e1, -⟩ := hback c m₀ h₀
      exact ⟨m, hm, e1.trans hpar⟩
    · rintro ⟨m, hm, hpar⟩
      obtain ⟨m₀, h₀, -, e1, -⟩ := hget c m hm
      exact ⟨m₀, h₀, e1.symm.trans hpar⟩

theorem entities_removeFile {id repoId : Nat} {f : Node} (hf : d.nodes.get id = some f)
    (hk : f.kind = .file) (hp : f.parent = some repoId) :
    Entities { d with
      nodes := d.nodes.remove id
      names := d.names.remove (nameKey (some repoId) .file f.name)
      children := d.children.remove repoId id } := by
  have hkey : nameKey (some repoId) .file f.name = nameKey f.parent f.kind f.name := by rw [hp, hk]
  have hget : ∀ i m, (d.nodes.remove id).get i = some m ↔ i ≠ id ∧ d.nodes.get i = some m := by
    intro i m
    rw [Table.get_remove]
    split_ifs with he
    · simp [he]
    · simp [Ne.symm he]
  refine ⟨fun i m hm => h.ids i m ((hget i m).mp hm).2, h.next, fun i m hm => ?_,
    fun i m p hm => h.above i m p ((hget i m).mp hm).2, fun key i => ?_, fun p c => ?_⟩
  · refine (h.shaped i m ((hget i m).mp hm).2).mono fun j m₀ h₀ hnf =>
      ⟨m₀, (hget j m₀).mpr ⟨?_, h₀⟩, rfl⟩
    rintro rfl
    obtain rfl := mem_unique hf h₀
    exact hnf hk
  · have hid : d.names.get (nameKey f.parent f.kind f.name) = some id :=
      (h.names _ _).mpr ⟨f, hf, rfl⟩
    rw [Table.get_remove, hkey]
    split_ifs with he
    · -- the removed key named this file only
      refine ⟨fun e => (by cases e), fun ⟨m, hm, hkm⟩ => ?_⟩
      obtain ⟨hne, hm⟩ := (hget i m).mp hm
      have hi := (h.names key i).mpr ⟨m, hm, hkm⟩
      rw [← he, hid] at hi
      exact absurd (some.inj hi).symm hne
    · rw [h.names]
      refine exists_congr fun m => ?_
      rw [hget]
      refine ⟨fun ⟨hm, hkm⟩ => ⟨⟨?_, hm⟩, hkm⟩, fun ⟨⟨_, hm⟩, hkm⟩ => ⟨hm, hkm⟩⟩
      rintro rfl
      obtain rfl := mem_unique hf hm
      exact he hkm.symm
  · rw [Multimap.mem_pairs_remove, h.children]
    constructor
    · rintro ⟨hne, m, hm, hpm⟩
      refine ⟨m, (hget c m).mpr ⟨?_, hm⟩, hpm⟩
      rintro rfl
      obtain rfl := mem_unique hf hm
      exact hne (by rw [mem_unique hpm hp])
    · rintro ⟨m, hm, hpm⟩
      obtain ⟨hne, hm⟩ := (hget c m).mp hm
      exact ⟨fun e => hne (congrArg Prod.snd e), m, hm, hpm⟩

omit h in
theorem Shaped.parent_eq {m n : Node} (hm : Shaped nodes m) (hn : Shaped nodes n)
    (hk : m.kind = n.kind) (hp : m.parent.getD 0 = n.parent.getD 0) : m.parent = n.parent := by
  unfold Shaped at hm hn
  rw [hk] at hm
  cases hkn : n.kind with
  | org =>
    rw [hkn] at hm hn
    rw [hm.1, hn.1]
  | repo =>
    rw [hkn] at hm hn
    obtain ⟨-, o, -, hmo, -⟩ := hm
    obtain ⟨-, q, -, hnq, -⟩ := hn
    rw [hmo, hnq] at hp ⊢
    exact congrArg some hp
  | file =>
    rw [hkn] at hm hn
    obtain ⟨-, -, o, -, hmo, -⟩ := hm
    obtain ⟨-, -, q, -, hnq, -⟩ := hn
    rw [hmo, hnq] at hp ⊢
    exact congrArg some hp
  | symbol => rw [hkn] at hn; exact hn.elim
  | token => rw [hkn] at hn; exact hn.elim

theorem ensure_spec {d' : Data} {parent : Option Nat} {kind : NodeKind} {name : String}
    {language : Option String} {existed : Bool}
    (hshape : ∀ id, Shaped d.nodes (entityNode id parent kind name language))
    (he : d.ensure parent kind name language = .ok (d', id, existed)) :
    Entities d' ∧ ∃ n, d'.nodes.get id = some n ∧ n.parent = parent ∧ n.kind = kind ∧
    n.name = name := by
  rcases ensure_cases he with ⟨-, rfl, hget⟩ | ⟨-, rfl, hroom, hfree, rfl⟩
  · obtain ⟨n, hn, hkey⟩ := (h.names _ _).mp hget
    obtain ⟨hp, hk, hname⟩ := nameKey_inj hkey
    exact ⟨h, n, hn, (h.shaped _ _ hn).parent_eq (hshape 0) hk.symm hp.symm, hk.symm, hname.symm⟩
  · exact ⟨entities_addEntity h rfl hroom (hshape _) hfree, _,
      (addEntity_nodes ..).trans (if_pos rfl), rfl, rfl, rfl⟩

end

def IsRepo (nodes : Table Nat Node) (org repo : String) (repoId : Nat) : Prop :=
  ∃ r orgId o, nodes.get repoId = some r ∧ r.kind = .repo ∧ r.name = repo ∧ r.parent = some orgId ∧
    nodes.get orgId = some o ∧ o.kind = .org ∧ o.name = org

theorem repoId_spec {d : Data} (h : Entities d) {org repo : String} {repoId : Nat}
    (hr : d.repoId org repo = some repoId) : IsRepo d.nodes org repo repoId := by
  obtain ⟨orgId, horg, hrepo⟩ := bind_eq_some_iff.mp hr
  obtain ⟨o, ho, hokey⟩ := (h.names _ _).mp horg
  obtain ⟨-, hok, hon⟩ := nameKey_inj hokey
  obtain ⟨r, hr, hrkey⟩ := (h.names _ _).mp hrepo
  obtain ⟨hp, hrk, hrn⟩ := nameKey_inj hrkey
  have hshaped := h.shaped _ _ hr
  unfold Shaped at hshaped
  rw [← hrk] at hshaped
  obtain ⟨-, p, -, hpar, -⟩ := hshaped
  rw [hpar] at hp
  exact ⟨r, orgId, o, hr, hrk.symm, hrn.symm, hpar.trans (congrArg some hp.symm), ho,
    hok.symm, hon.symm⟩

theorem file_of_parent {d : Data} (h : Entities d) {org repo : String} {repoId fid : Nat}
    (hr : IsRepo d.nodes org repo repoId) {f : Node} (hf : d.nodes.get fid = some f)
    (hp : f.parent = some repoId) : f.kind = .file := by
  obtain ⟨r, -, -, hrepo, hrk, -⟩ := hr
  rcases (h.shaped _ _ hf).kind_of_parent hp hrepo with ⟨horg, -⟩ | ⟨-, hfile⟩
  · rw [hrk] at horg
    cases horg
  · exact hfile

end MemoryGraph
