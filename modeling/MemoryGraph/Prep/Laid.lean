import MemoryGraph.Prep.Build
import MemoryGraph.Codec.Ranges

/-! The tokens under a symbol are those laid out while it was open, an interval, and siblings are
open one after the other. -/

namespace MemoryGraph
open Lib Codec List Function
variable {symbols : List SymRec} {a b : Stream} {i : Nat}

structure Codec.Stream.Laid (st : Stream) : Prop where
  parents : EarlierParents st.symbols
  tokParents : ∀ t ∈ st.tokens, ∀ p ∈ t.parent, p.val < st.symbols.length
  symStarts : st.symbols.Pairwise (fun a b => a.span.start ≤ b.span.start)
  tokStarts : st.tokens.Pairwise (fun a b => a.span.start ≤ b.span.start)
  intervals : ∃ lo hi : Nat → Nat,
    (∀ i < st.symbols.length, lo i ≤ hi i ∧ hi i ≤ st.tokens.length ∧
      ∀ ord, ord ∈ st.under i ↔ lo i ≤ ord ∧ ord < hi i) ∧
    ∀ i j s t, i < j → st.symbols[i]? = some s → st.symbols[j]? = some t → s.parent = t.parent →
      hi i ≤ lo j

def Stacked (symbols : List SymRec) : List U32 → Prop
  | [] => True
  | i :: rest => (∃ s, symbols[i.val]? = some s ∧ s.parent = rest.head?) ∧ Stacked symbols rest

theorem Stacked.suffix {stack stack' : List U32} (h : Stacked symbols stack)
    (hs : stack' <:+ stack) : Stacked symbols stack' := by
  induction stack with
  | nil => rwa [suffix_nil.mp hs]
  | cons i rest ih =>
    rcases suffix_cons_iff.mp hs with rfl | hs
    · exact h
    · exact ih h.2 hs

theorem Stacked.append {stack : List U32} (h : Stacked symbols stack)
    (x : SymRec) : Stacked (symbols ++ [x]) stack := by
  induction stack with
  | nil => trivial
  | cons i rest ih =>
    obtain ⟨⟨s, hs, hp⟩, hrest⟩ := h
    refine ⟨⟨s, ?_, hp⟩, ih hrest⟩
    rw [List.getElem?_append_left (List.getElem?_eq_some_iff.mp hs).1, hs]

theorem Stacked.encloses_iff {stack : List U32} (h : Stacked symbols stack)
    : Encloses symbols stack.head? i ↔ ∃ k ∈ stack, k.val = i := by
  induction stack with
  | nil =>
    refine ⟨fun he => ?_, fun hk => ?_⟩
    · cases he
    · simp at hk
  | cons j rest ih =>
    obtain ⟨⟨s, hs, hp⟩, hrest⟩ := h
    have hrec := ih hrest
    rw [← hp] at hrec
    simp only [head?_cons, mem_cons, exists_eq_or_imp, ← hrec]
    constructor
    · rintro (_ | ⟨hs', he⟩)
      · exact Or.inl rfl
      · rw [hs] at hs'
        cases hs'
        exact Or.inr he
    · rintro (rfl | he)
      · exact .here (List.getElem?_eq_some_iff.mp hs).1
      · exact .up hs he

theorem encloses_append (h : EarlierParents symbols) (x : SymRec)
    {cur : Option U32} (hcur : ∀ p ∈ cur, p.val < symbols.length) :
    Encloses (symbols ++ [x]) cur i ↔ Encloses symbols cur i := by
  constructor
  · intro he
    induction he with
    | here _ => exact .here (hcur _ rfl)
    | up hs _ ih =>
      have hp := hcur _ rfl
      rw [getElem?_append_left hp] at hs
      exact .up hs (ih fun q hq => (h _ _ hs q hq).trans hp)
  · intro he
    induction he with
    | here hi => exact .here (by rw [length_append]; omega)
    | up hs _ ih =>
      have hp := lt_of_getElem? hs
      exact .up (by rwa [getElem?_append_left hp]) (ih fun q hq => (h _ _ hs q hq).trans hp)

def BuildState.stack (st : BuildState) : List U32 := st.opened.map Prod.fst

def BuildState.stream (st : BuildState) : Stream := ⟨st.symbols, st.tokens⟩

/-- `lo i`..`hi i` are the tokens under symbol `i`; an open symbol still takes the next one,
and a symbol with a later sibling is closed. -/
structure BuildInv (st : BuildState) (lo hi : Nat → Nat) : Prop where
  parents : EarlierParents st.symbols
  tokParents : ∀ t ∈ st.tokens, ∀ p ∈ t.parent, p.val < st.symbols.length
  stacked : Stacked st.symbols st.stack
  bounds : ∀ i < st.symbols.length, lo i ≤ hi i ∧ hi i ≤ st.tokens.length ∧
    ∀ ord, ord ∈ st.stream.under i ↔ lo i ≤ ord ∧ ord < hi i
  opened : ∀ k ∈ st.stack, hi k.val = st.tokens.length
  siblings : ∀ i j s t, i < j → st.symbols[i]? = some s → st.symbols[j]? = some t →
    s.parent = t.parent → hi i ≤ lo j ∧ ∀ k ∈ st.stack, k.val ≠ i

theorem stack_closeTo_suffix (pos : U32) (opened : List (U32 × U32)) :
    (closeTo pos opened).map Prod.fst <:+ opened.map Prod.fst :=
  (dropWhile_suffix _).map _

theorem head_lt {stack : List U32} (h : Stacked symbols stack) :
    ∀ p ∈ stack.head?, p.val < symbols.length := by
  cases stack with
  | nil => intro p hp; cases hp
  | cons i rest =>
    rintro p ⟨⟩
    obtain ⟨s, hs, -⟩ := h.1
    exact lt_of_getElem? hs

theorem earlierParents_append (h : EarlierParents symbols) {x : SymRec}
    (hx : ∀ p ∈ x.parent, p.val < symbols.length) : EarlierParents (symbols ++ [x]) := by
  intro i s hs p hp
  rcases Nat.lt_or_ge i symbols.length with hi | hi
  · rw [getElem?_append_left hi] at hs
    exact h i s hs p hp
  · rw [getElem?_append_right hi, getElem?_singleton] at hs
    split_ifs at hs with h0
    cases hs
    have := hx p hp
    omega

theorem pushSym_inv {st : BuildState} {lo hi : Nat → Nat} (h : BuildInv st lo hi) (s : SymbolDecl)
    (hn : st.symbols.length < 4294967296) :
    BuildInv (pushSym st s) (Function.update lo st.symbols.length st.tokens.length)
      (Function.update hi st.symbols.length st.tokens.length) := by
  obtain ⟨x, hx, hsyms, hstack⟩ : ∃ x : SymRec,
      x.parent = ((closeTo s.span.start st.opened).map Prod.fst).head? ∧
      (pushSym st s).symbols = st.symbols ++ [x] ∧ (pushSym st s).stack =
        u32 st.symbols.length :: (closeTo s.span.start st.opened).map Prod.fst :=
    ⟨_, (head?_map ..).symm, rfl, rfl⟩
  have htoks : (pushSym st s).tokens = st.tokens := rfl
  have hsuf := stack_closeTo_suffix s.span.start st.opened
  generalize (closeTo s.span.start st.opened).map Prod.fst = rest at hx hstack hsuf
  have hrest : Stacked st.symbols rest := h.stacked.suffix hsuf
  have hval : (u32 st.symbols.length).val = st.symbols.length := Nat.mod_eq_of_lt hn
  have hxlt : ∀ p ∈ x.parent, p.val < st.symbols.length := hx ▸ head_lt hrest
  have hget : ∀ i, i < st.symbols.length → (st.symbols ++ [x])[i]? = st.symbols[i]? :=
    fun i hi => getElem?_append_left hi
  have hlast : (st.symbols ++ [x])[st.symbols.length]? = some x := by simp
  have hunder : ∀ i ord, ord ∈ (pushSym st s).stream.under i ↔ ord ∈ st.stream.under i := by
    intro i ord
    refine exists_congr fun t => and_congr_right fun ht => ?_
    change Encloses (pushSym st s).symbols t.parent i ↔ Encloses st.symbols t.parent i
    rw [hsyms]
    exact encloses_append h.parents x (h.tokParents t (mem_of_getElem? ht))
  have hparents : EarlierParents (st.symbols ++ [x]) := earlierParents_append h.parents hxlt
  constructor
  case parents => exact hsyms ▸ hparents
  case tokParents =>
    intro t ht p hp
    rw [hsyms, length_append]
    exact Nat.lt_add_right _ (h.tokParents t ht p hp)
  case stacked =>
    rw [hsyms, hstack]
    exact ⟨⟨x, by rw [hval]; exact hlast, hx⟩, hrest.append x⟩
  case bounds =>
    intro i hi
    rw [hsyms, length_append, length_singleton] at hi
    simp only [hunder, htoks]
    rcases Nat.lt_succ_iff_lt_or_eq.mp hi with hlt | rfl
    · simpa only [update_of_ne hlt.ne] using h.bounds i hlt
    · -- nothing is under the new symbol yet
      simp only [update_self, le_refl, true_and]
      intro ord
      refine ⟨fun ⟨t, ht, he⟩ => ?_, fun hc => by omega⟩
      cases hp : t.parent with
      | none =>
        change Encloses st.symbols t.parent _ at he
        rw [hp] at he
        cases he
      | some p =>
        have h1 := encloses_le h.parents he p hp
        have h2 := h.tokParents t (mem_of_getElem? ht) p hp
        omega
  case opened =>
    rw [hstack]
    intro k hk
    rcases mem_cons.mp hk with rfl | hk
    · rw [hval, update_self, htoks]
    · have hklt : k.val < st.symbols.length := by
        have he := hrest.encloses_iff.mpr ⟨k, hk, rfl⟩
        cases hr : rest.head? with
        | none => rw [hr] at he; cases he
        | some p =>
          rw [hr] at he
          exact (encloses_le h.parents he p rfl).trans_lt (head_lt hrest p hr)
      rw [update_of_ne hklt.ne, htoks]
      exact h.opened k (hsuf.subset hk)
  case siblings =>
    intro i j a b hij ha hb hab
    rw [hsyms] at ha hb
    have hj : j < st.symbols.length + 1 := by
      simpa using lt_of_getElem? hb
    have hi : i < st.symbols.length := by omega
    rw [hget i hi] at ha
    rw [hstack, update_of_ne hi.ne]
    rcases Nat.lt_succ_iff_lt_or_eq.mp hj with hlt | rfl
    · rw [hget j hlt] at hb
      rw [update_of_ne hlt.ne]
      obtain ⟨h1, h2⟩ := h.siblings i j a b hij ha hb hab
      refine ⟨h1, fun k hk => ?_⟩
      rcases mem_cons.mp hk with rfl | hk
      · omega
      · exact h2 k (hsuf.subset hk)
    · rw [update_self]
      rw [hlast] at hb
      cases hb
      refine ⟨(h.bounds i hi).2.1, fun k hk hki => ?_⟩
      rcases mem_cons.mp hk with rfl | hk
      · omega
      · -- an open symbol lies at or below the top, which is the parent of `i`
        have he := hrest.encloses_iff.mpr ⟨k, hk, hki⟩
        rw [← hx, ← hab] at he
        cases hp : a.parent with
        | none => rw [hp] at he; cases he
        | some p =>
          have h1 := encloses_le h.parents he p hp
          have h2 := h.parents i a ha p hp
          omega

theorem pushTok_inv {st : BuildState} {lo hi : Nat → Nat} (h : BuildInv st lo hi) (t : TokenDecl) :
    ∃ hi', BuildInv (pushTok st t) lo hi' := by
  classical
  obtain ⟨x, hx, htoks, hstack⟩ : ∃ x : TokRec,
      x.parent = ((closeTo t.span.start st.opened).map Prod.fst).head? ∧
      (pushTok st t).tokens = st.tokens ++ [x] ∧ (pushTok st t).stack =
        (closeTo t.span.start st.opened).map Prod.fst :=
    ⟨_, (head?_map ..).symm, rfl, rfl⟩
  have hsyms : (pushTok st t).symbols = st.symbols := rfl
  have hsuf := stack_closeTo_suffix t.span.start st.opened
  generalize (closeTo t.span.start st.opened).map Prod.fst = rest at hx hstack hsuf
  have hrest : Stacked st.symbols rest := h.stacked.suffix hsuf
  have hunder : ∀ i ord, ord ∈ (pushTok st t).stream.under i ↔
      ord ∈ st.stream.under i ∨ (ord = st.tokens.length ∧ ∃ k ∈ rest, k.val = i) := by
    intro i ord
    rw [← hrest.encloses_iff, ← hx]
    change (∃ u, (pushTok st t).tokens[ord]? = some u ∧ Encloses st.symbols u.parent i) ↔ _
    rw [htoks]
    constructor
    · rintro ⟨u, hu, he⟩
      rcases Nat.lt_or_ge ord st.tokens.length with hlt | hge
      · rw [getElem?_append_left hlt] at hu
        exact Or.inl ⟨u, hu, he⟩
      · rw [getElem?_append_right hge, getElem?_singleton] at hu
        split_ifs at hu with h0
        cases hu
        exact Or.inr ⟨by omega, he⟩
    · rintro (⟨u, hu, he⟩ | ⟨rfl, he⟩)
      · have hlt : ord < st.tokens.length := lt_of_getElem? hu
        exact ⟨u, by rwa [getElem?_append_left hlt], he⟩
      · exact ⟨x, by simp, he⟩
  refine ⟨fun i => if ∃ k ∈ rest, k.val = i then st.tokens.length + 1 else hi i, ?_⟩
  constructor
  case parents => exact h.parents
  case tokParents =>
    intro u hu p hp
    rw [htoks] at hu
    rcases mem_append.mp hu with hu | hu
    · exact h.tokParents u hu p hp
    · rw [mem_singleton.mp hu, hx] at hp
      exact head_lt hrest p hp
  case stacked => exact hstack ▸ hrest
  case bounds =>
    intro i hlt
    obtain ⟨h1, h2, h3⟩ := h.bounds i hlt
    simp only [hunder, htoks, length_append, length_singleton, h3]
    by_cases hopen : ∃ k ∈ rest, k.val = i
    · obtain ⟨k, hk, rfl⟩ := hopen
      have heq := h.opened k (hsuf.subset hk)
      rw [if_pos ⟨k, hk, rfl⟩]
      refine ⟨by omega, le_rfl, fun ord => ?_⟩
      constructor
      · rintro (h | ⟨rfl, -⟩) <;> omega
      · intro hc
        rcases Nat.lt_or_ge ord st.tokens.length with hlt' | hge
        · exact Or.inl ⟨hc.1, by omega⟩
        · exact Or.inr ⟨by omega, k, hk, rfl⟩
    · rw [if_neg hopen]
      refine ⟨h1, by omega, fun ord => ⟨?_, Or.inl⟩⟩
      rintro (h | ⟨-, h⟩)
      · exact h
      · exact absurd h hopen
  case opened =>
    rw [hstack]
    intro k hk
    rw [if_pos ⟨k, hk, rfl⟩, htoks, length_append, length_singleton]
  case siblings =>
    intro i j a b hij ha hb hab
    obtain ⟨h1, h2⟩ := h.siblings i j a b hij ha hb hab
    have hclosed : ∀ k ∈ rest, k.val ≠ i := fun k hk => h2 k (hsuf.subset hk)
    have hne : ¬ ∃ k ∈ rest, k.val = i := fun ⟨k, hk, hki⟩ => hclosed k hk hki
    rw [if_neg hne, hstack]
    exact ⟨h1, hclosed⟩

theorem length_pushItem (st : BuildState) (it : SymbolDecl ⊕ TokenDecl) :
    (pushItem st it).symbols.length = st.symbols.length + it.elim (fun _ => 1) (fun _ => 0) := by
  cases it with
  | inl s => simp [pushItem, pushSym]
  | inr t => rfl

theorem foldl_pushItem_inv (items : List (SymbolDecl ⊕ TokenDecl)) :
    ∀ (st : BuildState) (lo hi : Nat → Nat), BuildInv st lo hi →
      st.symbols.length + (items.filterMap Sum.getLeft?).length ≤ 4294967296 →
      ∃ lo' hi', BuildInv (items.foldl pushItem st) lo' hi' := by
  induction items with
  | nil => exact fun st lo hi h _ => ⟨lo, hi, h⟩
  | cons it items ih =>
    intro st lo hi h hlen
    cases it with
    | inl s =>
      have hlen' : st.symbols.length + ((items.filterMap Sum.getLeft?).length + 1) ≤ 4294967296 :=
        hlen
      refine ih _ _ _ (pushSym_inv h s (by omega)) ?_
      rw [length_pushItem, Sum.elim_inl]
      omega
    | inr t =>
      obtain ⟨hi', h'⟩ := pushTok_inv h t
      exact ih _ _ _ h' hlen

theorem buildInv_init : BuildInv ⟨[], [], [], []⟩ (fun _ => 0) (fun _ => 0) where
  parents := fun i s hs => by simp at hs
  tokParents := fun t ht => by simp at ht
  stacked := trivial
  bounds := fun i hi => by simp at hi
  opened := fun k hk => by simp [BuildState.stack] at hk
  siblings := fun i j s t _ hs => by simp at hs

structure SameShape (a b : Stream) : Prop where
  symbols : a.symbols.map (fun s => (s.parent, s.span)) = b.symbols.map (fun s =>
    (s.parent, s.span))
  tokens : a.tokens.map (fun t => (t.parent, t.span)) = b.tokens.map (fun t => (t.parent, t.span))

theorem SameShape.symm (h : SameShape a b) : SameShape b a := ⟨h.symbols.symm, h.tokens.symm⟩

theorem getElem?_of_map_eq {α β : Type} {f : α → β} {l m : List α} (h : l.map f = m.map f) {x : α}
    (hx : m[i]? = some x) : ∃ r, l[i]? = some r ∧ f r = f x := by
  have hi : (l.map f)[i]? = some (f x) := by
    rw [h, getElem?_map, hx]
    rfl
  exact Option.map_eq_some_iff.mp ((getElem?_map ..).symm.trans hi)

theorem SameShape.symbol (h : SameShape a b) {s : SymRec}
    (hs : b.symbols[i]? = some s) :
    ∃ r, a.symbols[i]? = some r ∧ r.parent = s.parent ∧ r.span = s.span := by
  obtain ⟨r, hr, he⟩ := getElem?_of_map_eq h.symbols hs
  exact ⟨r, hr, congrArg Prod.fst he, congrArg Prod.snd he⟩

theorem SameShape.token (h : SameShape a b) {t : TokRec}
    (ht : b.tokens[i]? = some t) :
    ∃ r, a.tokens[i]? = some r ∧ r.parent = t.parent ∧ r.span = t.span := by
  obtain ⟨r, hr, he⟩ := getElem?_of_map_eq h.tokens ht
  exact ⟨r, hr, congrArg Prod.fst he, congrArg Prod.snd he⟩

theorem SameShape.length (h : SameShape a b) :
    a.symbols.length = b.symbols.length ∧ a.tokens.length = b.tokens.length :=
  ⟨by simpa using congrArg List.length h.symbols, by simpa using congrArg List.length h.tokens⟩

theorem SameShape.encloses (h : SameShape a b) {cur : Option U32}
    (he : Encloses a.symbols cur i) : Encloses b.symbols cur i := by
  induction he with
  | here hi => exact .here (h.length.1 ▸ hi)
  | up hs _ ih =>
    obtain ⟨r, hr, hp, -⟩ := h.symm.symbol hs
    exact .up hr (hp ▸ ih)

theorem SameShape.under (h : SameShape a b) (i : Nat) : a.under i = b.under i := by
  have hsub : ∀ {a b : Stream}, SameShape a b → a.under i ⊆ b.under i := by
    rintro a b h ord ⟨t, ht, he⟩
    obtain ⟨r, hr, hp, -⟩ := h.symm.token ht
    exact ⟨r, hr, hp ▸ h.encloses he⟩
  exact Set.Subset.antisymm (hsub h) (hsub h.symm)

theorem SameShape.laid (h : SameShape a b) (ha : a.Laid) : b.Laid := by
  have hsyms : a.symbols.map (·.span.start) = b.symbols.map (·.span.start) := by
    simpa [comp_def] using congrArg (map (fun p => p.2.start)) h.symbols
  have htoks : a.tokens.map (·.span.start) = b.tokens.map (·.span.start) := by
    simpa [comp_def] using congrArg (map (fun p => p.2.start)) h.tokens
  obtain ⟨lo, hi, hb, hsib⟩ := ha.intervals
  refine ⟨fun i s hs p hp => ?_, fun t ht p hp => ?_, ?_, ?_, lo, hi, fun i hi => ?_, ?_⟩
  · obtain ⟨r, hr, hpar, -⟩ := h.symbol hs
    exact ha.parents i r hr p (hpar ▸ hp)
  · obtain ⟨i, hi⟩ := mem_iff_getElem?.mp ht
    obtain ⟨r, hr, hpar, -⟩ := h.token hi
    exact h.length.1 ▸ ha.tokParents r (mem_of_getElem? hr) p (hpar ▸ hp)
  · exact pairwise_map.mp (hsyms ▸ pairwise_map.mpr ha.symStarts)
  · exact pairwise_map.mp (htoks ▸ pairwise_map.mpr ha.tokStarts)
  · rw [← h.under, ← h.length.2]
    exact hb i (h.length.1 ▸ hi)
  · intro i j s t hij hs ht hp
    obtain ⟨r, hr, hrp, -⟩ := h.symbol hs
    obtain ⟨u, hu, hup, -⟩ := h.symbol ht
    exact hsib i j r u hij hr hu (hrp.trans (hp.trans hup.symm))

theorem sameShape_withIds (ids : List Nat) (st : Stream) : SameShape st (st.withIds ids) :=
  ⟨by simp [Stream.withIds, comp_def], by simp [Stream.withIds, comp_def]⟩

end MemoryGraph
