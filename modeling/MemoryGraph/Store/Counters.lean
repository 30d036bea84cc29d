import MemoryGraph.Store.Files

/-! The catalog counts: every counter is the number of files and records that carry its
key, summed over the stored files. Keys are lists of NUL-free fields. -/

namespace MemoryGraph
open Lib Codec List
variable {cat : Table String Nat} {F : List (List String)}

namespace Tally

def val (t : Tally) (key : String) : Int := (t.get key).getD 0

theorem val_empty (key : String) : val (Table.empty : Tally) key = 0 := rfl

theorem val_add (t : Tally) (k : String) (dl : Int) (key : String) :
    (t.add k dl).val key = t.val key + if k = key then dl else 0 := by
  rw [val, add, Table.get_alter]
  split_ifs with hk
  · rw [hk]
    rfl
  · rw [add_zero]
    rfl

theorem val_addAll (t : Tally) (ks : List String) (dl : Int) (key : String) :
    (t.addAll ks dl).val key = t.val key + dl * ks.count key := by
  induction ks generalizing t with
  | nil => simp [addAll]
  | cons k ks ih =>
    change ((t.add k dl).addAll ks dl).val key = _
    rw [ih, val_add, count_cons]
    by_cases hk : k = key
    · simp [hk]
      ring
    · simp [hk]

theorem val_nodes (t : Tally) (s : Scope) (ns : List Node) (dl : Int) (key : String) :
    (t.nodes s ns dl).val key = t.val key + dl * (ns.flatMap (nodeKeys s)).count key := by
  induction ns generalizing t with
  | nil => simp [nodes]
  | cons n ns ih =>
    change ((t.node s n dl).nodes s ns dl).val key = _
    rw [ih, node, val_addAll, flatMap_cons, count_append]
    push_cast
    ring

def bumped (old : Option Nat) (dl : Int) : Option Nat :=
  if dl = 0 then old
  else if 0 < (old.getD 0 : Int) + dl then some ((old.getD 0 : Int) + dl).toNat else none

theorem get_applyOne (cat : Table String Nat) (e : String × Int) (key : String) :
    (applyOne cat e).get key = if e.1 = key then bumped (cat.get key) e.2 else cat.get key := by
  rw [applyOne, bumped]
  dsimp only
  by_cases hk : e.1 = key
  · subst hk
    rw [if_pos rfl]
    split_ifs <;> simp
  · rw [if_neg hk]
    split_ifs <;> simp [hk]

theorem get_apply (t : Tally) (cat : Table String Nat) (key : String) :
    (t.apply cat).get key = bumped (cat.get key) (t.val key) := by
  have hloop : ∀ (rs : List (String × Int)) (cat : Table String Nat),
      rs.Pairwise (fun a b => a.1 < b.1) → (rs.foldl applyOne cat).get key = bumped (cat.get key)
      ((Table.findRow key rs).getD 0) := by
    intro rs
    induction rs with
    | nil => exact fun _ _ => rfl
    | cons e rs ih =>
      intro cat hs
      obtain ⟨hlt, hs⟩ := pairwise_cons.mp hs
      rw [foldl_cons, ih _ hs, get_applyOne, Table.findRow]
      split_ifs with hk
      · -- the key does not come again
        have hnone : Table.findRow key rs = none := by
          rw [Option.eq_none_iff_forall_ne_some]
          intro v hv
          exact absurd hk (hlt _ ((Table.findRow_eq_some hs).mp hv)).ne
        rw [hnone]
        rfl
      · rfl
  exact hloop t.rows cat t.sorted

end Tally

def NulFreeAll (fs : List String) : Prop := ∀ f ∈ fs, NulFree f

theorem nulSplit_nulJoin {fs : List String} (hne : fs ≠ []) (h : NulFreeAll fs) :
    nulSplit (nulJoin fs) = fs := by
  have hsplit : (['\x00'].intercalate (fs.map String.toList)).splitOn '\x00' =
      fs.map String.toList := by
    refine splitOn_intercalate '\x00' (fun l hl => ?_) (by simpa using hne)
    obtain ⟨f, hf, rfl⟩ := mem_map.mp hl
    exact h f hf
  rw [nulSplit, nulJoin, String.toList_ofList, hsplit, map_map]
  simp

theorem nulJoin_inj {fs gs : List String} (hf : fs ≠ []) (hg : gs ≠ []) (hfs : NulFreeAll fs)
    (hgs : NulFreeAll gs) (h : nulJoin fs = nulJoin gs) : fs = gs := by
  rw [← nulSplit_nulJoin hf hfs, ← nulSplit_nulJoin hg hgs, h]

def Scope.fileFields (s : Scope) : List (List String) :=
  ["f", s.org, s.repo, s.lang] :: (s.encoding.toList.map (fun e => ["e", s.org, s.repo, e]) ++
    if s.lossy then [["l", s.org, s.repo]] else [])

def Scope.nodeFields (s : Scope) (n : Node) : List (List String) :=
  match n.kind with
  | .symbol => [["s", s.org, s.repo, s.lang], ["k", s.org, s.repo, s.lang, kindLabel n]]
  | .token => ["t", s.org, s.repo, s.lang] ::
    n.tokenClass.toList.map (fun c => ["c", s.org, s.repo, c.asStr])
  | _ => []

theorem fileKeys_eq (s : Scope) : Tally.fileKeys s = s.fileFields.map nulJoin := by
  rw [Tally.fileKeys, Tally.encodingKeys, Scope.fileFields]
  cases s.encoding <;> cases s.lossy <;> rfl

theorem nodeKeys_eq (s : Scope) (n : Node) : Tally.nodeKeys s n = (s.nodeFields n).map nulJoin := by
  rw [Tally.nodeKeys, Scope.nodeFields]
  cases n.kind
  case token => cases n.tokenClass <;> rfl
  all_goals rfl

def contentFields (s : Scope) (es : List (Nat × String)) (f : Nat) (st : Stream) :
    List (List String) :=
  s.fileFields ++ (samplesOf es f st).flatMap s.nodeFields

def scopeAt (nodes : Table Nat Node) (n : Node) : Option Scope := do
  let r ← n.parent.bind nodes.get
  let o ← r.parent.bind nodes.get
  return scopeOf o.name r.name n

def fieldsOf (nodes : Table Nat Node) (σ : Nat → Option Stream) (es : List (Nat × String))
    (f : Nat) : List (List String) :=
  match nodes.get f, σ f with
  | some n, some st => (scopeAt nodes n).elim [] (fun s => contentFields s es f st)
  | _, _ => []

def total (nextId : Nat) (nodes : Table Nat Node) (σ : Nat → Option Stream)
    (es : List (Nat × String)) (fs : List String) : Nat := ∑ f ∈ Finset.range nextId,
    (fieldsOf nodes σ es f).count fs

def IsMark (nodes : Table Nat Node) (fs : List String) : Prop :=
  ∃ org repo id, IsRepo nodes org repo id ∧ fs = ["r", org, repo]

def pos (n : Nat) : Option Nat := if n = 0 then none else some n

structure CatalogRows (cat : Table String Nat) (nextId : Nat) (nodes : Table Nat Node)
    (σ : Nat → Option Stream) (es : List (Nat × String)) : Prop where
  marks : ∀ fs, IsMark nodes fs → cat.get (nulJoin fs) = some 1
  counts : ∀ fs, fs ≠ [] → NulFreeAll fs → ¬ IsMark nodes fs →
    cat.get (nulJoin fs) = pos (total nextId nodes σ es fs)
  keys : ∀ key v, cat.get key = some v → ∃ fs, fs ≠ [] ∧ NulFreeAll fs ∧ key = nulJoin fs

abbrev Catalogued (d : Data) : (Nat → Option Stream) → List (Nat × String) → Prop :=
  CatalogRows d.cat d.nextId d.nodes

theorem catalogued_empty : Catalogued Data.empty (fun _ => none) [] where
  marks fs := by
    rintro ⟨org, repo, id, ⟨r, _, _, hr, _⟩, _⟩
    cases hr
  counts fs _ _ _ := by
    have hzero : total Data.empty.nextId Data.empty.nodes (fun _ => none) [] fs = 0 :=
      Finset.sum_eq_zero fun f _ => rfl
    rw [hzero]
    rfl
  keys key v h := by cases h

theorem CatalogRows.congr {nextId nextId' : Nat} {nodes nodes' : Table Nat Node}
    {σ σ' : Nat → Option Stream} {es es' : List (Nat × String)}
    (h : CatalogRows cat nextId nodes σ es) (hnext : nextId' = nextId)
    (hmark : ∀ fs, IsMark nodes' fs ↔ IsMark nodes fs)
    (hfields : ∀ f, fieldsOf nodes' σ' es' f = fieldsOf nodes σ es f) :
    CatalogRows cat nextId' nodes' σ' es' := by
  have htotal : ∀ fs, total nextId' nodes' σ' es' fs = total nextId nodes σ es fs := by
    intro fs
    rw [total, total, hnext]
    exact Finset.sum_congr rfl fun f _ => by rw [hfields f]
  refine ⟨fun fs hm => h.marks fs ((hmark fs).mp hm), fun fs hne hfs hm => ?_, h.keys⟩
  rw [htotal]
  exact h.counts fs hne hfs ((not_congr (hmark fs)).mp hm)

structure Tally.Moves (t : Tally) (T T' : List String → Nat) : Prop where
  fields : ∀ fs, fs ≠ [] → NulFreeAll fs → t.val (nulJoin fs) = (T' fs : Int) - T fs
  elsewhere : ∀ key, (∀ fs, fs ≠ [] → NulFreeAll fs → key ≠ nulJoin fs) → t.val key = 0

def Fielded (F : List (List String)) : Prop := ∀ fs ∈ F, fs ≠ [] ∧ NulFreeAll fs ∧
    fs.head? ≠ some "r"

theorem count_map_nulJoin (hF : Fielded F) {fs : List String} (hne : fs ≠ [])
    (hfs : NulFreeAll fs) : (F.map nulJoin).count (nulJoin fs) = F.count fs := by
  rw [count, countP_map, count]
  refine countP_congr fun gs hgs => ?_
  simp only [Function.comp_apply, beq_iff_eq]
  exact ⟨fun h => nulJoin_inj (hF gs hgs).1 hne (hF gs hgs).2.1 hfs h, fun h => by rw [h]⟩

theorem count_map_elsewhere (hF : Fielded F) {key : String}
    (hkey : ∀ fs, fs ≠ [] → NulFreeAll fs → key ≠ nulJoin fs) : (F.map nulJoin).count key = 0 := by
  refine count_eq_zero.mpr fun hm => ?_
  obtain ⟨gs, hgs, rfl⟩ := mem_map.mp hm
  exact hkey gs (hF gs hgs).1 (hF gs hgs).2.1 rfl

namespace Tally.Moves
variable {t t' : Tally} {T T' : List String → Nat}

theorem refl (T : List String → Nat) : Tally.Moves Table.empty T T :=
  ⟨fun fs _ _ => (by rw [sub_self]; rfl), fun _ _ => rfl⟩

theorem of_diff {A B : List (List String)} (hA : Fielded A) (hB : Fielded B)
    (ht : ∀ key, t.val key = ((A.map nulJoin).count key : Int) - (B.map nulJoin).count key)
    (hT : ∀ fs, T' fs + B.count fs = T fs + A.count fs) : t.Moves T T' := by
  refine ⟨fun fs hne hfs => ?_, fun key hkey => ?_⟩
  · rw [ht, count_map_nulJoin hA hne hfs, count_map_nulJoin hB hne hfs]
    have := hT fs
    omega
  · rw [ht, count_map_elsewhere hA hkey, count_map_elsewhere hB hkey]
    rfl

theorem sub (h : t.Moves T T') (hF : Fielded F) {T'' : List String → Nat}
    (hle : ∀ fs, T'' fs + F.count fs = T' fs)
    (ht : ∀ key, t'.val key = t.val key - (F.map nulJoin).count key) : t'.Moves T T'' := by
  refine ⟨fun fs hne hfs => ?_, fun key hkey => ?_⟩
  · rw [ht, h.fields fs hne hfs, count_map_nulJoin hF hne hfs, ← hle fs]
    push_cast
    ring
  · rw [ht, h.elsewhere key hkey, count_map_elsewhere hF hkey]
    rfl

end Tally.Moves

theorem bumped_pos (a b : Nat) : Tally.bumped (pos a) ((b : Int) - a) = pos b := by
  have hget : ((pos a).getD 0 : Int) = a := by
    rw [pos]
    split_ifs with h
    · simp [h]
    · rfl
  rw [Tally.bumped, hget, add_sub_cancel]
  split_ifs with h0 hb
  · rw [show b = a by omega]
  · rw [pos, if_neg (by omega), Int.toNat_natCast]
  · rw [pos, if_pos (by omega)]

def Tally.Exact (t : Tally) (cat : Table String Nat) : Prop :=
  ∀ key, 0 ≤ ((cat.get key).getD 0 : Int) + t.val key

theorem CatalogRows.exact {nextId : Nat} {nodes : Table Nat Node}
    {σ : Nat → Option Stream} {es : List (Nat × String)} (h : CatalogRows cat nextId nodes σ es)
    {t : Tally} {T' : List String → Nat} (ht : t.Moves (total nextId nodes σ es) T')
    (hzero : ∀ fs, IsMark nodes fs → total nextId nodes σ es fs = 0) : t.Exact cat := by
  intro key
  by_cases hkey : ∃ fs, fs ≠ [] ∧ NulFreeAll fs ∧ key = nulJoin fs
  · obtain ⟨fs, hne, hfs, rfl⟩ := hkey
    rw [ht.fields fs hne hfs]
    by_cases hm : IsMark nodes fs
    · rw [hzero fs hm]
      omega
    · rw [h.counts fs hne hfs hm, pos]
      split_ifs with h0
      · rw [h0]
        simp
      · simp
  · rw [ht.elsewhere key fun fs hne hfs e => hkey ⟨fs, hne, hfs, e⟩]
    omega

theorem CatalogRows.apply {nextId nextId' : Nat} {nodes nodes' : Table Nat Node}
    {σ σ' : Nat → Option Stream} {es es' : List (Nat × String)}
    (h : CatalogRows cat nextId nodes σ es) (hmark : ∀ fs, IsMark nodes' fs ↔ IsMark nodes fs)
    (hfree : ∀ fs, IsMark nodes fs → NulFreeAll fs) {t : Tally}
    (ht : t.Moves (total nextId nodes σ es) (total nextId' nodes' σ' es'))
    (hzero : ∀ fs, IsMark nodes fs →
      total nextId nodes σ es fs = 0 ∧ total nextId' nodes' σ' es' fs = 0) :
    CatalogRows (t.apply cat) nextId' nodes' σ' es' := by
  refine ⟨fun fs hm => ?_, fun fs hne hfs hm => ?_, fun key v hv => ?_⟩
  · have hm := (hmark fs).mp hm
    have hne : fs ≠ [] := by
      obtain ⟨org, repo, id, -, rfl⟩ := hm
      exact cons_ne_nil _ _
    rw [Tally.get_apply, ht.fields fs hne (hfree fs hm), (hzero fs hm).1,
      (hzero fs hm).2, h.marks fs hm]
    rfl
  · have hm := (not_congr (hmark fs)).mp hm
    rw [Tally.get_apply, ht.fields fs hne hfs, h.counts fs hne hfs hm, bumped_pos]
  · by_contra hno
    have hkey : ∀ fs, fs ≠ [] → NulFreeAll fs → key ≠ nulJoin fs :=
      fun fs hne hfs e => hno ⟨fs, hne, hfs, e⟩
    rw [Tally.get_apply, ht.elsewhere key hkey] at hv
    exact hno (h.keys key v hv)

end MemoryGraph
