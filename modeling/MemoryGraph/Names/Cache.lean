import MemoryGraph.Lib.Utf8
import MemoryGraph.Lib.Offsets

/-! The in-memory copy of the distinct symbol names: all names in one text, with the ids of each,
built during a walk of the index and searched as one text. -/

namespace MemoryGraph.Names
open Lib Utf8 List Option
variable {c : NameCache} {rows : List Row} {needle : List Char} {before after : List Row}
  {b : NameCacheBuilder} {accepts : List Char → Bool}

structure Row where
  name : List Char
  ids : List Nat
deriving DecidableEq, Repr

structure NameCache where
  generation : Nat
  names : List Char
  -- the end offset of each name in `names`
  ends : List Nat
  -- the end offset of each name's ids in `ids`
  idEnds : List Nat
  ids : List Nat
deriving DecidableEq, Repr

def NameCache.bytes (c : NameCache) : Nat :=
  byteLen c.names + 4 * (c.ends.length + c.idEnds.length) + 8 * c.ids.length

def sliceIds (ids : List Nat) (lo hi : Nat) : Option (List Nat) :=
  if lo ≤ hi ∧ hi ≤ ids.length then some ((ids.drop lo).take (hi - lo)) else none

def NameCache.extend (c : NameCache) (i : Nat) (out : List Nat) : Option (List Nat) := do
  let lo ← startAt c.idEnds i
  let hi ← c.idEnds[i]?
  let got ← sliceIds c.ids lo hi
  return out ++ got

def NameCache.offer (c : NameCache) (accepts : List Char → Bool) (i : Nat) (name : List Char)
    (out : List Nat) : Option (List Nat) :=
  if accepts name then c.extend i out else some out

/-- The search loop; nothing stands for a panic, or for a loop that goes on beyond the fuel. -/
def NameCache.collectGo (c : NameCache) (needle : List Char) (accepts : List Char → Bool) :
    Nat → Nat → List Nat → Option (List Nat)
  | 0, _, _ => none
  | fuel + 1, pos, out => do
    let rest ← sliceFrom c.names pos
    match findStr needle rest with
    | none => return out
    | some m =>
      let i := holder c.ends (pos + m)
      if c.ends.length ≤ i then return out
      let start ← startAt c.ends i
      let stop ← c.ends[i]?
      let name ← slice c.names start stop
      let out ← c.offer accepts i name out
      -- the rest of this name is decided; an empty needle still moves
      let pos := max stop (pos + m + 1)
      if byteLen c.names < pos then return out
      c.collectGo needle accepts fuel pos out

def NameCache.collect (c : NameCache) (needle : List Char) (accepts : List Char → Bool)
    (out : List Nat) : Option (List Nat) :=
  c.collectGo needle accepts (c.ends.length + 1) 0 out

structure NameCacheBuilder where
  cache : Option NameCache
  maxBytes : Nat
deriving DecidableEq, Repr

namespace NameCacheBuilder

def new (generation maxBytes : Nat) : NameCacheBuilder :=
  ⟨some ⟨generation, [], [], [], []⟩, maxBytes⟩

def pushName (b : NameCacheBuilder) (name : List Char) : NameCacheBuilder :=
  match b.cache with
  | none => b
  | some c =>
    let names := c.names ++ name
    -- `u32::try_from`
    if byteLen names < 2 ^ 32 then
      { b with cache := some { c with names, ends := c.ends ++ [byteLen names] } }
    else { b with cache := none }

def pushId (b : NameCacheBuilder) (id : Nat) : NameCacheBuilder :=
  { b with cache := b.cache.map fun c => { c with ids := c.ids ++ [id] } }

def endName (b : NameCacheBuilder) : NameCacheBuilder :=
  match b.cache with
  | none => b
  | some c =>
    if c.ids.length < 2 ^ 32 then
      let c := { c with idEnds := c.idEnds ++ [c.ids.length] }
      if b.maxBytes < c.bytes then { b with cache := none } else { b with cache := some c }
    else { b with cache := none }

def pushRow (b : NameCacheBuilder) (row : Row) : NameCacheBuilder :=
  (row.ids.foldl pushId (b.pushName row.name)).endName

end NameCacheBuilder

abbrev nameSize (r : Row) : Nat := byteLen r.name

abbrev idSize (r : Row) : Nat := r.ids.length

structure NameCache.Holds (c : NameCache) (rows : List Row) : Prop where
  names : c.names = rows.flatMap (·.name)
  ends : c.ends = endsFrom nameSize 0 rows
  idEnds : c.idEnds = endsFrom idSize 0 rows
  ids : c.ids = rows.flatMap (·.ids)

theorem byteLen_names (rows : List Row) :
    byteLen (rows.flatMap (·.name)) = totalSize nameSize rows := by
  induction rows with
  | nil => rfl
  | cons r rows ih => rw [flatMap_cons, byteLen_append, ih, totalSize_cons]

theorem length_ids (rows : List Row) : (rows.flatMap (·.ids)).length = totalSize idSize rows := by
  induction rows with
  | nil => rfl
  | cons r rows ih => rw [flatMap_cons, length_append, ih, totalSize_cons]

structure Fits (maxBytes : Nat) (rows : List Row) : Prop where
  names : totalSize nameSize rows < 2 ^ 32
  ids : totalSize idSize rows < 2 ^ 32
  bytes : totalSize nameSize rows + 4 * (rows.length + rows.length) + 8 *
    totalSize idSize rows ≤ maxBytes

theorem Fits.of_append {maxBytes : Nat} {rows more : List Row} (h : Fits maxBytes (rows ++ more)) :
    Fits maxBytes rows := by
  obtain ⟨hn, hi, hb⟩ := h
  simp only [totalSize_append, length_append] at hn hi hb
  exact ⟨by omega, by omega, by omega⟩

theorem NameCache.Holds.bytes_eq (h : c.Holds rows) :
    c.bytes = totalSize nameSize rows + 4 * (rows.length + rows.length) + 8 *
    totalSize idSize rows := by
  rw [NameCache.bytes, h.names, h.ends, h.idEnds, h.ids, byteLen_names, length_ids, length_endsFrom,
    length_endsFrom]

namespace NameCacheBuilder

theorem foldl_pushId (ids : List Nat) (b : NameCacheBuilder) :
    ids.foldl pushId b =
      { b with cache := b.cache.map fun c => { c with ids := c.ids ++ ids } } := by
  induction ids generalizing b with
  | nil => simp
  | cons id ids ih =>
    rw [foldl_cons, ih, pushId]
    cases b.cache with
    | none => rfl
    | some c => simp

def grown (c : NameCache) (row : Row) : NameCache where
  generation := c.generation
  names := c.names ++ row.name
  ends := c.ends ++ [byteLen (c.names ++ row.name)]
  idEnds := c.idEnds ++ [(c.ids ++ row.ids).length]
  ids := c.ids ++ row.ids

theorem pushRow_none (h : b.cache = none) (row : Row) : b.pushRow row = b := by
  have hname : b.pushName row.name = b := by rw [pushName, h]
  rw [pushRow, hname, foldl_pushId, endName, h]
  exact congrArg (NameCacheBuilder.mk · b.maxBytes) h.symm

theorem pushRow_some (h : b.cache = some c) (row : Row) :
    b.pushRow row = ⟨if byteLen (c.names ++ row.name) < 2 ^ 32 ∧ (c.ids ++ row.ids).length < 2 ^
      32 ∧ (grown c row).bytes ≤ b.maxBytes then some (grown c row) else none, b.maxBytes⟩ := by
  rw [pushRow, pushName, h]
  dsimp only
  by_cases hn : byteLen (c.names ++ row.name) < 2 ^ 32
  · rw [if_pos hn, foldl_pushId, endName]
    dsimp only [map_some]
    by_cases hi : (c.ids ++ row.ids).length < 2 ^ 32
    · rw [if_pos hi]
      show (if b.maxBytes < (grown c row).bytes then _ else
          ({ b with cache := some (grown c row) })) = _
      by_cases hb : (grown c row).bytes ≤ b.maxBytes
      · rw [if_neg (Nat.not_lt.mpr hb), if_pos ⟨hn, hi, hb⟩]
      · rw [if_pos (Nat.not_le.mp hb), if_neg fun h => hb h.2.2]
    · rw [if_neg hi, if_neg fun h => hi h.2.1]
  · rw [if_neg hn, foldl_pushId, endName, if_neg fun h => hn h.1]
    rfl

theorem holds_grown (h : c.Holds rows) (row : Row) :
    (grown c row).Holds (rows ++ [row]) := by
  constructor
  · show c.names ++ row.name = _
    rw [h.names, flatMap_append, flatMap_singleton]
  · show c.ends ++ [byteLen (c.names ++ row.name)] = _
    rw [h.ends, h.names, byteLen_append, byteLen_names, endsFrom_append, Nat.zero_add]
    rfl
  · show c.idEnds ++ [(c.ids ++ row.ids).length] = _
    rw [h.idEnds, h.ids, length_append, length_ids, endsFrom_append, Nat.zero_add]
    rfl
  · show c.ids ++ row.ids = _
    rw [h.ids, flatMap_append, flatMap_singleton]

def After (generation maxBytes : Nat) (rows : List Row) (b : NameCacheBuilder) : Prop :=
  b.maxBytes = maxBytes ∧ match b.cache with
    | none => ¬ Fits maxBytes rows
    | some c => c.Holds rows ∧ c.generation = generation

theorem after_new (generation maxBytes : Nat) :
    After generation maxBytes [] (new generation maxBytes) :=
  ⟨rfl, ⟨rfl, rfl, rfl, rfl⟩, rfl⟩

theorem After.pushRow {generation maxBytes : Nat}
    (h : After generation maxBytes rows b) (row : Row) :
    After generation maxBytes (rows ++ [row]) (b.pushRow row) := by
  obtain ⟨hmax, h⟩ := h
  cases hc : b.cache with
  | none =>
    rw [hc] at h
    rw [pushRow_none hc, After, hc]
    exact ⟨hmax, fun hfits => h hfits.of_append⟩
  | some c =>
    rw [hc] at h
    have hgrown := holds_grown h.1 row
    rw [pushRow_some hc]
    refine ⟨hmax, ?_⟩
    dsimp only
    split
    next hcache =>
      intro hfits
      split at hcache
      · exact nomatch hcache
      next hnot =>
        apply hnot
        refine ⟨?_, ?_, ?_⟩
        · show byteLen (grown c row).names < 2 ^ 32
          rw [hgrown.names, byteLen_names]
          exact hfits.names
        · show (grown c row).ids.length < 2 ^ 32
          rw [hgrown.ids, length_ids]
          exact hfits.ids
        · rw [hgrown.bytes_eq, hmax]
          exact hfits.bytes
    next c' hcache =>
      obtain ⟨-, heq⟩ := ite_none_right_eq_some.mp hcache
      cases heq
      exact ⟨hgrown, h.2⟩

theorem after_foldl {generation maxBytes : Nat} (rows : List Row) :
    After generation maxBytes rows
      (rows.foldl NameCacheBuilder.pushRow (new generation maxBytes)) := by
  induction rows using reverseRecOn with
  | nil => exact after_new generation maxBytes
  | append_singleton rows row ih =>
    rw [foldl_append]
    exact ih.pushRow row

end NameCacheBuilder

def accepted (accepts : List Char → Bool) (rows : List Row) : List Nat :=
  (rows.filter fun r => accepts r.name).flatMap (·.ids)

theorem accepted_append (accepts : List Char → Bool) (xs ys : List Row) :
    accepted accepts (xs ++ ys) = accepted accepts xs ++ accepted accepts ys := by
  rw [accepted, filter_append, flatMap_append]
  rfl

theorem accepted_eq_nil
    (hacc : ∀ name, accepts name = true → needle <:+: name) (h : ∀ r ∈ rows, ¬ needle <:+: r.name) :
    accepted accepts rows = [] := by
  have hfilter : (rows.filter fun r => accepts r.name) = [] := by
    apply filter_eq_nil_iff.mpr
    intro r hr hname
    exact h r hr (hacc r.name hname)
  rw [accepted, hfilter, flatMap_nil]

theorem notMem_before (hne : needle ≠ []) {m : Nat}
    (hfirst : ∀ n, findStr needle ((before ++ after).flatMap (·.name)) = some n → m ≤ n)
    (hm : totalSize nameSize before ≤ m) {r : Row} (hr : r ∈ before) : ¬ needle <:+: r.name := by
  rintro ⟨x, y, hxy⟩
  obtain ⟨p, q, rfl⟩ := append_of_mem hr
  have htext : ((p ++ r :: q) ++ after).flatMap (·.name) =
      (p.flatMap (·.name) ++ x) ++ (needle ++ (y ++ (q ++ after).flatMap (·.name))) := by
    rw [append_assoc, cons_append, flatMap_append, flatMap_cons, ← hxy]
    simp only [append_assoc]
  obtain ⟨n, hn, hle⟩ :=
    findStr_le needle (p.flatMap (·.name) ++ x) (y ++ (q ++ after).flatMap (·.name))
  have hmn := hfirst n (htext ▸ hn)
  have hsize : nameSize r = byteLen x + byteLen needle + byteLen y := by
    rw [nameSize, ← hxy, byteLen_append, byteLen_append]
  have hpos := byteLen_pos hne
  rw [byteLen_append, byteLen_names] at hle
  rw [totalSize_append, totalSize_cons, hsize] at hm
  omega

theorem NameCache.Holds.extend {row : Row}
    (h : c.Holds (before ++ row :: after)) (out : List Nat) :
    c.extend before.length out = some (out ++ row.ids) := by
  have hids : c.ids = before.flatMap (·.ids) ++ (row.ids ++ after.flatMap (·.ids)) := by
    rw [h.ids, flatMap_append, flatMap_cons]
  have hslice : sliceIds c.ids (totalSize idSize before) (totalSize idSize before + idSize row) =
      some row.ids := by
    rw [sliceIds, hids, ← length_ids, if_pos ⟨Nat.le_add_right _ _, by simp⟩, drop_left,
      Nat.add_sub_cancel_left, take_left]
  rw [NameCache.extend, h.idEnds, startAt_endsFrom, endsFrom_getElem?]
  dsimp only [bind_eq_bind, bind_some]
  rw [hslice]
  rfl

theorem NameCache.Holds.offer {row : Row}
    (h : c.Holds (before ++ row :: after)) (accepts : List Char → Bool) (out : List Nat) :
    c.offer accepts before.length row.name out = some (out ++ accepted accepts [row]) := by
  rw [NameCache.offer, h.extend]
  cases hrow : accepts row.name <;> simp [accepted, hrow]

theorem NameCache.Holds.slice {row : Row}
    (h : c.Holds (before ++ row :: after)) :
    slice c.names (totalSize nameSize before) (totalSize nameSize before + nameSize row) =
    some row.name := by
  have hnames : c.names = before.flatMap (·.name) ++ (row.name ++ after.flatMap (·.name)) := by
    rw [h.names, flatMap_append, flatMap_cons]
  rw [hnames, ← byteLen_names, nameSize, ← byteLen_append]
  exact slice_append _ _ _

theorem NameCache.Holds.collectGo {fuel : Nat} {done todo : List Row} (h : c.Holds (done ++ todo))
    (hne : needle ≠ []) (hacc : ∀ name, accepts name = true → needle <:+: name)
    (hfuel : todo.length < fuel) (out : List Nat) :
    c.collectGo needle accepts fuel (totalSize nameSize done) out =
      some (out ++ accepted accepts todo) := by
  induction fuel generalizing done todo out with
  | zero => exact absurd hfuel (Nat.not_lt_zero _)
  | succ fuel ih =>
    have hrest : sliceFrom c.names (totalSize nameSize done) = some (todo.flatMap (·.name)) := by
      rw [h.names, flatMap_append, ← byteLen_names]
      exact sliceFrom_append _ _
    rw [NameCache.collectGo, hrest]
    dsimp only [bind_eq_bind, bind_some]
    cases hfind : findStr needle (todo.flatMap (·.name)) with
    | none =>
      have hnone : ∀ r ∈ todo, ¬ needle <:+: r.name := by
        intro r hr
        have hfirst : ∀ n, findStr needle ((todo ++ []).flatMap Row.name) = some n →
            totalSize nameSize todo ≤ n := by
          intro n hn
          rw [append_nil, hfind] at hn
          exact nomatch hn
        exact notMem_before hne hfirst le_rfl hr
      rw [accepted_eq_nil hacc hnone, append_nil]
      rfl
    | some m =>
      obtain ⟨a, b, hab, rfl⟩ := findStr_eq_some hfind
      have hlt : byteLen a < totalSize nameSize todo := by
        have hpos := byteLen_pos hne
        rw [← byteLen_names, hab, byteLen_append, byteLen_append]
        omega
      obtain ⟨skipped, row, after, rfl, hlo, hhi⟩ := exists_holder nameSize hlt
      have hskipped : ∀ r ∈ skipped, ¬ needle <:+: r.name := fun r hr =>
        notMem_before hne (fun n hn => (mem_unique hfind hn).le) hlo hr
      have hsplit : done ++ (skipped ++ row :: after) = (done ++ skipped) ++ row :: after := by
        rw [append_assoc]
      rw [hsplit] at h
      have hholder : holder c.ends (totalSize nameSize done + byteLen a) =
          (done ++ skipped).length := by
        rw [h.ends]
        apply holder_endsFrom <;> rw [totalSize_append] <;> omega
      have hstop : max (totalSize nameSize (done ++ skipped) + nameSize row)
          (totalSize nameSize done + byteLen a + 1) = totalSize nameSize
          ((done ++ skipped) ++ [row]) := by
        rw [totalSize_append, totalSize_append, totalSize_append, totalSize_cons, totalSize_nil]
        omega
      have hin : ¬ byteLen c.names < totalSize nameSize ((done ++ skipped) ++ [row]) := by
        rw [h.names, byteLen_names, totalSize_append, totalSize_append _ (done ++ skipped),
          totalSize_cons, totalSize_cons, totalSize_nil]
        omega
      have hindex : ¬ c.ends.length ≤ (done ++ skipped).length := by
        rw [h.ends, length_endsFrom]
        simp
      dsimp only
      rw [hholder, if_neg hindex, h.ends, startAt_endsFrom, endsFrom_getElem?]
      dsimp only [bind_some]
      rw [h.slice]
      dsimp only [bind_some]
      rw [h.offer]
      dsimp only [bind_some]
      rw [hstop, if_neg hin]
      have hlen : after.length < fuel := by
        rw [length_append, length_cons] at hfuel
        omega
      have hnext : c.Holds (((done ++ skipped) ++ [row]) ++ after) := by
        rw [append_assoc, singleton_append]
        exact h
      rw [ih hnext hlen, accepted_append, accepted_eq_nil hacc hskipped, nil_append, append_assoc,
        ← accepted_append, singleton_append]

theorem NameCache.Holds.collect (h : c.Holds rows)
    (hne : needle ≠ []) (hacc : ∀ name, accepts name = true → needle <:+: name)
    (out : List Nat) : c.collect needle accepts out = some (out ++ accepted accepts rows) := by
  have hfuel : rows.length < c.ends.length + 1 := by
    rw [h.ends, length_endsFrom]
    exact Nat.lt_succ_self _
  have hall : c.Holds ([] ++ rows) := h
  exact hall.collectGo hne hacc hfuel out

/-- A build over rows that fit is kept, and a search of what any build kept collects what a walk
of its rows collects. -/
theorem collect_build (generation maxBytes : Nat) (rows : List Row) :
    (Fits maxBytes rows →
      ((rows.foldl NameCacheBuilder.pushRow (.new generation maxBytes)).cache).isSome) ∧
    ∀ c, (rows.foldl NameCacheBuilder.pushRow (.new generation maxBytes)).cache = some c →
      ∀ needle accepts out, needle ≠ [] → (∀ name, accepts name = true → needle <:+: name) →
        c.collect needle accepts out =
        some (out ++ (rows.filter fun r => accepts r.name).flatMap (·.ids)) := by
  obtain ⟨-, hafter⟩ := @NameCacheBuilder.after_foldl generation maxBytes rows
  constructor
  · intro hfits
    cases hc : (rows.foldl NameCacheBuilder.pushRow (.new generation maxBytes)).cache with
    | none =>
      rw [hc] at hafter
      exact absurd hfits hafter
    | some c => rfl
  · intro c hc needle accepts out hne hacc
    rw [hc] at hafter
    exact hafter.1.collect hne hacc out

def straddledRows : List Row :=
  [⟨['x', 'a'], [1]⟩, ⟨['b', 'y'], [2]⟩, ⟨[], [3]⟩, ⟨['a', 'a', 'b'], [4, 5]⟩, ⟨['a', 'b'], [6]⟩]

theorem collect_build_straddled :
    ∃ c, (straddledRows.foldl NameCacheBuilder.pushRow (.new 7 1000)).cache = some c ∧
      c.collect ['a', 'b'] (fun name => ['a', 'b'].isSuffixOf name) [] = some [4, 5, 6] := by
  have hfits : Fits 1000 straddledRows := ⟨by decide, by decide, by decide⟩
  obtain ⟨c, hc⟩ := Option.isSome_iff_exists.mp ((collect_build 7 1000 straddledRows).1 hfits)
  refine ⟨c, hc, (collect_build 7 1000 straddledRows).2 c hc ['a', 'b'] _ [] (by decide) ?_⟩
  intro name hname
  exact (List.isSuffixOf_iff_suffix.mp hname).isInfix

end MemoryGraph.Names
