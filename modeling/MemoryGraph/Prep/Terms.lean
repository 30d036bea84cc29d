import MemoryGraph.Prep.Laid

/-! What the builder lays out is the extraction: record by record the sorted symbols and
tokens, their texts numbered by the list of distinct terms. -/

namespace MemoryGraph
open Lib Codec List
variable {st : BuildState} {terms terms' : List String} {ok : String → Prop} {ds : List SymbolDecl}
  {ts : List TokenDecl} {ex : Extraction}

def Numbers (terms : List String) (i : Nat) (t : String) : Prop := terms[i]? = some t

theorem Numbers.mono {i : Nat} {t : String} (h : Numbers terms i t)
    (hp : terms <+: terms') : Numbers terms' i t := by
  obtain ⟨us, rfl⟩ := hp
  rw [Numbers, List.getElem?_append_left (List.getElem?_eq_some_iff.mp h).1]
  exact h

theorem optionNumbers_mono {o : Option Nat} {t : Option String}
    (h : Option.Rel (Numbers terms) o t) (hp : terms <+: terms') :
    Option.Rel (Numbers terms') o t := by
  cases h with
  | some h => exact .some (h.mono hp)
  | none => exact .none

structure Codec.SymRec.Describes (terms : List String) (r : SymRec) (d : SymbolDecl) : Prop where
  name : Numbers terms r.name d.name
  kind : r.kind = d.kind
  langKind : Option.Rel (Numbers terms) r.langKind d.langKind
  span : r.span = d.span
  owner : Option.Rel (Numbers terms) r.owner d.owner

structure Codec.TokRec.Describes (terms : List String) (r : TokRec) (d : TokenDecl) : Prop where
  term : Numbers terms r.term d.text
  cls : r.cls = d.cls
  span : r.span = d.span

theorem Codec.SymRec.Describes.mono {r : SymRec} {d : SymbolDecl}
    (h : r.Describes terms d) (hp : terms <+: terms') : r.Describes terms' d :=
  ⟨h.name.mono hp, h.kind, optionNumbers_mono h.langKind hp, h.span, optionNumbers_mono h.owner hp⟩

theorem Codec.TokRec.Describes.mono {r : TokRec} {d : TokenDecl}
    (h : r.Describes terms d) (hp : terms <+: terms') : r.Describes terms' d :=
  ⟨h.term.mono hp, h.cls, h.span⟩

theorem internLocal_spec (t : String) (terms : List String) (hnd : terms.Nodup) :
    terms <+: (internLocal t terms).2 ∧ Numbers (internLocal t terms).2 (internLocal t terms).1 t ∧
      (internLocal t terms).2.Nodup ∧ ∀ u ∈ (internLocal t terms).2, u ∈ terms ∨ u = t := by
  rw [internLocal]
  cases h : terms.idxOf? t with
  | some i =>
    obtain ⟨hi, ht, -⟩ := idxOf?_eq_some_iff.mp h
    exact ⟨List.prefix_rfl, List.getElem?_eq_some_iff.mpr ⟨hi, ht⟩, hnd, fun u hu => Or.inl hu⟩
  | none =>
    have hnot := idxOf?_eq_none_iff.mp h
    refine ⟨prefix_append _ _, by simp [Numbers], ?_, fun u hu => by simpa using hu⟩
    rw [nodup_append]
    refine ⟨hnd, nodup_singleton _, fun a ha b hb => ?_⟩
    rw [mem_singleton.mp hb]
    exact fun e => hnot (e ▸ ha)

theorem internOption_spec (o : Option String) (terms : List String) (hnd : terms.Nodup) :
    terms <+: (internOption o terms).2 ∧
      Option.Rel (Numbers (internOption o terms).2) (internOption o terms).1 o ∧
      (internOption o terms).2.Nodup ∧ ∀ u ∈ (internOption o terms).2, u ∈ terms ∨ some u = o := by
  cases o with
  | none => exact ⟨prefix_rfl, .none, hnd, fun u hu => Or.inl hu⟩
  | some t =>
    obtain ⟨h1, h2, h3, h4⟩ := internLocal_spec t terms hnd
    exact ⟨h1, .some h2, h3, fun u hu => (h4 u hu).imp id (congrArg some)⟩

def Extraction.texts (ex : Extraction) : List String :=
  ex.symbols.flatMap (fun s => s.name :: (s.langKind.toList ++ s.owner.toList)) ++
    ex.tokens.map TokenDecl.text

/-- The loop has laid out the declarations `ds` and `ts`, and numbers only texts `ok` allows. -/
structure Spelled (ok : String → Prop) (st : BuildState) (ds : List SymbolDecl)
    (ts : List TokenDecl) : Prop where
  symbols : List.Forall₂ (SymRec.Describes st.terms) st.symbols ds
  tokens : List.Forall₂ (TokRec.Describes st.terms) st.tokens ts
  nodup : st.terms.Nodup
  texts : ∀ u ∈ st.terms, ok u

theorem Spelled.grow
    (h : Spelled ok st ds ts) {terms' : List String} (hp : st.terms <+: terms') :
    List.Forall₂ (SymRec.Describes terms') st.symbols ds ∧
      List.Forall₂ (TokRec.Describes terms') st.tokens ts :=
  ⟨h.symbols.imp fun _ _ hd => hd.mono hp, h.tokens.imp fun _ _ hd => hd.mono hp⟩

theorem pushSym_spelled
    (h : Spelled ok st ds ts) {s : SymbolDecl} (hname : ok s.name)
    (hlang : ∀ k ∈ s.langKind, ok k) (howner : ∀ o ∈ s.owner, ok o) :
    Spelled ok (pushSym st s) (ds ++ [s]) ts := by
  obtain ⟨p1, n1, d1, t1⟩ := internLocal_spec s.name st.terms h.nodup
  obtain ⟨p2, n2, d2, t2⟩ := internOption_spec s.langKind (internLocal s.name st.terms).2 d1
  obtain ⟨p3, n3, d3, t3⟩ := internOption_spec s.owner
    (internOption s.langKind (internLocal s.name st.terms).2).2 d2
  obtain ⟨hsyms, htoks⟩ := h.grow (p1.trans (p2.trans p3))
  refine ⟨?_, htoks, d3, fun u hu => ?_⟩
  · exact rel_append hsyms
      (.cons ⟨n1.mono (p2.trans p3), rfl, optionNumbers_mono n2 p3, rfl, n3⟩ .nil)
  · rcases t3 u hu with hu | hu
    · rcases t2 u hu with hu | hu
      · rcases t1 u hu with hu | rfl
        · exact h.texts u hu
        · exact hname
      · exact hlang u hu.symm
    · exact howner u hu.symm

theorem pushTok_spelled
    (h : Spelled ok st ds ts) {t : TokenDecl} (ht : ok t.text) :
    Spelled ok (pushTok st t) ds (ts ++ [t]) := by
  obtain ⟨p1, n1, d1, t1⟩ := internLocal_spec t.text st.terms h.nodup
  obtain ⟨hsyms, htoks⟩ := h.grow p1
  refine ⟨hsyms, rel_append htoks (.cons ⟨n1, rfl, rfl⟩ .nil), d1, fun u hu => ?_⟩
  rcases t1 u hu with hu | rfl
  · exact h.texts u hu
  · exact ht

theorem foldl_pushItem_spelled (ok : String → Prop) (items : List (SymbolDecl ⊕ TokenDecl)) :
    ∀ (st : BuildState) (ds : List SymbolDecl) (ts : List TokenDecl), Spelled ok st ds ts →
      (∀ s ∈ items.filterMap Sum.getLeft?, ok s.name ∧ (∀ k ∈ s.langKind, ok k) ∧ ∀ o ∈ s.owner,
      ok o) → (∀ t ∈ items.filterMap Sum.getRight?, ok t.text) →
      Spelled ok (items.foldl pushItem st) (ds ++ items.filterMap Sum.getLeft?)
        (ts ++ items.filterMap Sum.getRight?) := by
  induction items with
  | nil =>
    intro st ds ts h _ _
    simpa using h
  | cons it items ih =>
    intro st ds ts h hs ht
    cases it with
    | inl s =>
      obtain ⟨h1, h2, h3⟩ := hs s (by simp)
      have hrec := ih _ _ _ (pushSym_spelled h h1 h2 h3) (fun s' hs' =>
        hs s' (by simp at hs' ⊢; exact Or.inr hs')) (fun t' ht' => ht t' (by simpa using ht'))
      rw [append_assoc] at hrec
      exact hrec
    | inr t =>
      have hrec := ih _ _ _ (pushTok_spelled h (ht t (by simp))) (fun s' hs' =>
        hs s' (by simpa using hs')) (fun t' ht' => ht t' (by simp at ht' ⊢; exact Or.inr ht'))
      rw [append_assoc] at hrec
      exact hrec

theorem mem_sortedSyms {s : SymbolDecl} : s ∈ sortedSyms ex ↔ s ∈ ex.symbols :=
  (perm_insertionSort _ _).mem_iff

theorem mem_sortedToks {t : TokenDecl} : t ∈ sortedToks ex ↔ t ∈ ex.tokens :=
  (perm_insertionSort _ _).mem_iff

theorem build_spelled (ex : Extraction) :
    Spelled (· ∈ ex.texts) (buildLoop ex) (sortedSyms ex) (sortedToks ex) := by
  have h := foldl_pushItem_spelled (· ∈ ex.texts) (buildItems ex) ⟨[], [], [], []⟩ [] []
    ⟨.nil, .nil, nodup_nil, fun u hu => by simp at hu⟩
  rw [buildItems, (filterMap_interleave ..).1, (filterMap_interleave ..).2] at h
  refine h (fun s hs => ?_) (fun t ht => ?_)
  · have hmem := mem_sortedSyms.mp hs
    refine ⟨?_, fun k hk => ?_, fun o ho => ?_⟩
    all_goals rw [Extraction.texts, mem_append, mem_flatMap]
    · exact Or.inl ⟨s, hmem, mem_cons_self⟩
    · exact Or.inl ⟨s, hmem, by simp [Option.mem_def.mp hk]⟩
    · exact Or.inl ⟨s, hmem, by simp [Option.mem_def.mp ho]⟩
  · rw [Extraction.texts, mem_append]
    exact Or.inr (mem_map_of_mem (mem_sortedToks.mp ht))

theorem length_build_symbols (ex : Extraction) :
    (buildLoop ex).symbols.length = ex.symbols.length := by
  rw [(build_spelled ex).symbols.length_eq, sortedSyms, length_insertionSort]

theorem length_build_tokens (ex : Extraction) :
    (buildLoop ex).tokens.length = ex.tokens.length := by
  rw [(build_spelled ex).tokens.length_eq, sortedToks, length_insertionSort]

structure ParentsInv (st : BuildState) : Prop where
  opened : ∀ e ∈ st.opened, e.1.val < st.symbols.length
  parents : EarlierParents st.symbols
  tokens : ∀ t ∈ st.tokens, ∀ p ∈ t.parent, p.val < st.symbols.length

theorem ParentsInv.innermost (h : ParentsInv st) (pos : U32) :
    ∀ p ∈ (closeTo pos st.opened).head?.map Prod.fst, p.val < st.symbols.length := by
  intro p hp
  obtain ⟨e, he, rfl⟩ := Option.map_eq_some_iff.mp (Option.mem_def.mp hp)
  exact h.opened e ((dropWhile_suffix _).subset (mem_of_head? he))

theorem pushItem_parents (h : ParentsInv st) (it : SymbolDecl ⊕ TokenDecl) :
    ParentsInv (pushItem st it) := by
  cases it with
  | inl s =>
    have hlen : (pushItem st (.inl s)).symbols.length = st.symbols.length + 1 := length_append
    refine ⟨fun e he => ?_, earlierParents_append h.parents (h.innermost s.span.start),
      fun t ht p hp => ?_⟩
    · rw [hlen]
      rcases mem_cons.mp he with rfl | he
      · exact Nat.lt_succ_of_le (Nat.mod_le _ _)
      · exact (h.opened e ((dropWhile_suffix _).subset he)).trans (Nat.lt_succ_self _)
    · rw [hlen]
      exact (h.tokens t ht p hp).trans (Nat.lt_succ_self _)
  | inr t =>
    refine ⟨fun e he => h.opened e ((dropWhile_suffix _).subset he), h.parents, fun u hu p hp => ?_⟩
    rcases mem_append.mp hu with hu | hu
    · exact h.tokens u hu p hp
    · rw [mem_singleton.mp hu] at hp
      exact h.innermost t.span.start p hp

theorem build_parents (ex : Extraction) : ParentsInv (buildLoop ex) := by
  have hloop : ∀ (items : List (SymbolDecl ⊕ TokenDecl)) (st : BuildState), ParentsInv st →
      ParentsInv (items.foldl pushItem st) := by
    intro items
    induction items with
    | nil => exact fun st h => h
    | cons it items ih => exact fun st h => ih _ (pushItem_parents h it)
  refine hloop _ _ ⟨?_, ?_, ?_⟩
  · exact fun e he => absurd he not_mem_nil
  · exact fun i s hs => by simp at hs
  · exact fun t ht => absurd ht not_mem_nil

instance : Std.Total symBefore := ⟨fun a b => by
  rw [symBefore, symBefore]
  rcases lt_trichotomy a.start b.start with h | h | h
  · exact Or.inl (Or.inl h)
  · rcases le_total b.stop a.stop with h' | h'
    · exact Or.inl (Or.inr ⟨h, h'⟩)
    · exact Or.inr (Or.inr ⟨h.symm, h'⟩)
  · exact Or.inr (Or.inl h)⟩

instance : IsTrans Span symBefore := ⟨fun a b c hab hbc => by
  rcases hab with h1 | ⟨h1, h1'⟩ <;> rcases hbc with h2 | ⟨h2, h2'⟩
  · exact Or.inl (h1.trans h2)
  · exact Or.inl (h2 ▸ h1)
  · exact Or.inl (h1 ▸ h2)
  · exact Or.inr ⟨h1.trans h2, h2'.trans h1'⟩⟩

instance : Std.Total tokBefore := ⟨fun _ _ => le_total _ _⟩

instance : IsTrans Span tokBefore := ⟨fun _ _ _ => le_trans⟩

instance : Std.Total (fun a b : SymbolDecl => symBefore a.span b.span) :=
  ⟨fun a b => Std.Total.total (r := symBefore) a.span b.span⟩

instance : IsTrans SymbolDecl (fun a b => symBefore a.span b.span) :=
  ⟨fun _ _ _ => IsTrans.trans (r := symBefore) _ _ _⟩

instance : Std.Total (fun a b : TokenDecl => tokBefore a.span b.span) := ⟨fun _ _ => le_total _ _⟩

instance : IsTrans TokenDecl (fun a b => tokBefore a.span b.span) := ⟨fun _ _ _ => le_trans⟩

theorem map_eq_of_forall₂ {α β γ : Type} {R : α → β → Prop} {f : α → γ} {g : β → γ} {l : List α}
    {l' : List β} (h : List.Forall₂ R l l') (hfg : ∀ a b, R a b → f a = g b) :
    l.map f = l'.map g := by
  induction h with
  | nil => rfl
  | cons hab _ ih => rw [map_cons, map_cons, hfg _ _ hab, ih]

theorem exists_of_forall₂ {α β : Type} {R : α → β → Prop} {as : List α} {bs : List β}
    (h : List.Forall₂ R as bs) {a : α} (ha : a ∈ as) : ∃ b ∈ bs, R a b := by
  induction h with
  | nil => exact absurd ha not_mem_nil
  | @cons a' b as bs hab _ ih =>
    rcases mem_cons.mp ha with rfl | ha
    · exact ⟨b, mem_cons_self, hab⟩
    · obtain ⟨b', hb', hab'⟩ := ih ha
      exact ⟨b', mem_cons_of_mem _ hb', hab'⟩

theorem exists_forall₂ {α β : Type} {R : α → β → Prop} {as : List α} (h : ∀ a ∈ as, ∃ b, R a b) :
    ∃ bs, List.Forall₂ R as bs := by
  induction as with
  | nil => exact ⟨[], .nil⟩
  | cons a as ih =>
    obtain ⟨b, hb⟩ := h a mem_cons_self
    obtain ⟨bs, hbs⟩ := ih fun a ha => h a (.tail _ ha)
    exact ⟨b :: bs, .cons hb hbs⟩

theorem forall₂_pairwise {α β : Type} {R : α → β → Prop} {r : α → α → Prop} {s : β → β → Prop}
    (hrs : ∀ a b a' b', R a b → R a' b' → s b b' → r a a') {l : List α} {m : List β}
    (h : List.Forall₂ R l m) (hm : m.Pairwise s) : l.Pairwise r := by
  induction h with
  | nil => exact List.Pairwise.nil
  | @cons a b l m hab h ih =>
    obtain ⟨hb, hm⟩ := pairwise_cons.mp hm
    refine pairwise_cons.mpr ⟨fun a' ha' => ?_, ih hm⟩
    obtain ⟨b', hb', hR⟩ : ∃ b' ∈ m, R a' b' := by
      obtain ⟨i, hi⟩ := mem_iff_get.mp ha'
      obtain ⟨hlen, hall⟩ := forall₂_iff_get.mp h
      exact ⟨_, get_mem m ⟨i, hlen ▸ i.isLt⟩, hi ▸ hall i i.isLt _⟩
    exact hrs _ _ _ _ hab hR (hb b' hb')

theorem build_laid (h : ex.symbols.length ≤ 4294967296) :
    (V2Prep.build ex).stream.Laid := by
  have hlen : ([] : List SymRec).length + ((buildItems ex).filterMap Sum.getLeft?).length ≤
      4294967296 := by
    rw [buildItems, (filterMap_interleave ..).1, sortedSyms, length_insertionSort]
    simpa using h
  obtain ⟨lo, hi, hinv⟩ := foldl_pushItem_inv (buildItems ex) _ _ _ buildInv_init hlen
  have hsp := build_spelled ex
  refine ⟨hinv.parents, hinv.tokParents, ?_, ?_, lo, hi, hinv.bounds,
    fun i j s t hij hs ht hp => (hinv.siblings i j s t hij hs ht hp).1⟩
  · refine forall₂_pairwise (fun a b a' b' ha ha' hbb => ?_) hsp.symbols
      (pairwise_insertionSort _ _)
    rw [ha.span, ha'.span]
    exact hbb.elim le_of_lt (fun e => e.1.le)
  · refine forall₂_pairwise (fun a b a' b' ha ha' hbb => ?_) hsp.tokens (pairwise_insertionSort _ _)
    rw [ha.span, ha'.span]
    exact hbb

end MemoryGraph
