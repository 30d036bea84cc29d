import MemoryGraph.Store.Dict
import MemoryGraph.Lib.Rows

/-! The packed reverse dictionary is a list of entries in ascending id order, cut into blocks
anywhere. -/

namespace MemoryGraph
open Lib Codec List
variable {b : List (Nat × String)} {id : Nat} {entries : List (Nat × String)}
  {rev : Table Nat (List UInt8)}

structure Cut (rev : Table Nat (List UInt8)) (entries : List (Nat × String))
    (blocks : List (List (Nat × String))) : Prop where
  rows : rev.Holds (blocks.map encodeDictBlock)
  entries_eq : blocks.flatten = entries
  sizes : ∀ b ∈ blocks, b ≠ [] ∧ b.length ≤ dictBlock
  sorted : entries.Pairwise (fun a b => a.1 < b.1)
  fits : ∀ e ∈ entries, EntryFits e

def RevOf (rev : Table Nat (List UInt8)) (entries : List (Nat × String)) : Prop :=
  ∃ blocks, Cut rev entries blocks

theorem revOf_empty : RevOf Table.empty [] :=
  ⟨[], Table.Holds.empty, rfl, by simp, List.Pairwise.nil, by simp⟩

theorem RevOf.sorted (h : RevOf rev entries) :
    entries.Pairwise (fun a b => a.1 < b.1) := h.elim fun _ hc => hc.sorted

theorem blockFits_of (hlen : b.length ≤ dictBlock) (hfit : ∀ e ∈ b, EntryFits e) :
    BlockFits b := ⟨lt_of_le_of_lt hlen (by decide), hfit⟩

theorem findEntry_eq_some {es : List (Nat × String)} (h : es.Pairwise (fun a b => a.1 < b.1))
    {t : String} : findEntry es id = some t ↔ (id, t) ∈ es := by
  induction es with
  | nil => simp [findEntry]
  | cons e es ih =>
    obtain ⟨hlt, hs⟩ := pairwise_cons.mp h
    by_cases he : e.1 = id
    · have hne : (id, t) ∉ es := fun hm => absurd (hlt _ hm) (by simp [he])
      simp only [findEntry, find?_cons, he, decide_true, Option.map_some, Option.some.injEq,
        mem_cons, hne, or_false]
      rw [Prod.ext_iff]
      exact ⟨fun ht => ⟨he.symm, ht.symm⟩, fun ht => ht.2.symm⟩
    · have hne : (id, t) ≠ e := fun h => he (by rw [← h])
      simpa [findEntry, he, hne] using ih hs

theorem findEntry_eq_none {es : List (Nat × String)} (h : ∀ e ∈ es, e.1 ≠ id) :
    findEntry es id = none := by
  rw [findEntry, find?_eq_none.mpr (by simpa using h)]
  rfl

section Lookup
variable {rev : Table Nat (List UInt8)} {entries : List (Nat × String)}
  {blocks : List (List (Nat × String))} (hc : Cut rev entries blocks)
include hc

theorem Cut.blockFits (hb : b ∈ blocks) : BlockFits b :=
  blockFits_of (hc.sizes b hb).2 fun e he =>
    hc.fits e (hc.entries_eq ▸ mem_flatten.mpr ⟨b, hb, he⟩)

def startsBy (id : Nat) (b : List (Nat × String)) : Bool := b.head?.any (fun e => e.1 ≤ id)

theorem probeBlock_eq (id : Nat) {i : Nat} (hb : blocks[i]? = some b) :
    probeBlock rev id i = .ok (startsBy id b) := by
  have hmem := mem_of_getElem? hb
  have hget : rev.get i = some (encodeDictBlock b) := by rw [hc.rows i, getElem?_map, hb]; rfl
  rw [probeBlock, hget]
  cases b with
  | nil => exact absurd rfl (hc.sizes _ hmem).1
  | cons e es =>
    dsimp only
    rw [dictBlockFirstId_encode (hc.blockFits hmem), ok_bind]
    simp [startsBy]

theorem Cut.starts_sorted (id : Nat) :
    blocks.Pairwise (fun a b => startsBy id b = true → startsBy id a = true) := by
  have hs := hc.sorted
  rw [← hc.entries_eq, pairwise_flatten] at hs
  refine hs.2.imp_of_mem fun {a b} ha hb hab hstart => ?_
  cases b with
  | nil => exact absurd rfl (hc.sizes _ hb).1
  | cons f fs =>
    cases a with
    | nil => exact absurd rfl (hc.sizes _ ha).1
    | cons e es =>
      simp only [startsBy, head?_cons, Option.any_some, decide_eq_true_eq] at hstart ⊢
      exact (hab e mem_cons_self f mem_cons_self).le.trans hstart

theorem Cut.lt_of_not_startsBy (hb : b ∈ blocks)
    (hn : startsBy id b = false) : ∀ e ∈ b, e.1 ≠ id := by
  have hs := hc.sorted
  rw [← hc.entries_eq, pairwise_flatten] at hs
  have hsb := hs.1 b hb
  intro e he
  cases b with
  | nil => exact absurd he not_mem_nil
  | cons f fs =>
    simp only [startsBy, head?_cons, Option.any_some, decide_eq_false_iff_not, not_le] at hn
    rcases mem_cons.mp he with rfl | he
    · exact hn.ne'
    · exact (hn.trans (rel_of_pairwise_cons hsb he)).ne'

theorem Cut.dictRevBlock_eq (id : Nat) : dictRevBlock rev id =
    .ok (if (blocks.takeWhile (startsBy id)).length = 0 then none
      else rev.get ((blocks.takeWhile (startsBy id)).length - 1)) := by
  have hlen : rev.len = blocks.length := by rw [hc.rows.len_eq, length_map]
  have hk : (blocks.takeWhile (startsBy id)).length ≤ blocks.length :=
    (List.takeWhile_prefix _).length_le
  have hprobe : ∀ i < blocks.length, probeBlock rev id i =
      .ok (decide (i < (blocks.takeWhile (startsBy id)).length)) := by
    intro i hi
    have hb := getElem?_eq_getElem hi
    rw [probeBlock_eq hc id hb]
    cases hs : startsBy id blocks[i] with
    | true => rw [decide_eq_true ((lt_length_takeWhile (hc.starts_sorted id) hb).mpr hs)]
    | false =>
      rw [decide_eq_false fun hlt => ?_]
      exact absurd ((lt_length_takeWhile (hc.starts_sorted id) hb).mp hlt) (by simp [hs])
  rw [dictRevBlock, partitionPoint_eq hprobe (Nat.zero_le _) (hlen ▸ hk) hlen.le (by omega),
    ok_bind]
  rfl

end Lookup

theorem findEntry_append (xs ys : List (Nat × String)) (id : Nat) :
    findEntry (xs ++ ys) id = (findEntry xs id).or (findEntry ys id) := by
  rw [findEntry, find?_append, findEntry, findEntry]
  cases xs.find? (fun e => e.1 = id) <;> rfl

theorem dictRevLookup_eq
    (h : RevOf rev entries) (id : Nat) : dictRevLookup rev id = .ok (findEntry entries id) := by
  obtain ⟨blocks, hc⟩ := h
  have hs := hc.sorted
  rw [← hc.entries_eq, pairwise_flatten] at hs
  rw [dictRevLookup, hc.dictRevBlock_eq, ok_bind]
  cases hk : (blocks.takeWhile (startsBy id)).length with
  | zero =>
    -- every block starts behind `id`
    have hnone : findEntry entries id = none := by
      refine findEntry_eq_none fun e he => ?_
      rw [← hc.entries_eq] at he
      obtain ⟨b, hb, he⟩ := mem_flatten.mp he
      obtain ⟨i, hi⟩ := mem_iff_getElem?.mp hb
      refine hc.lt_of_not_startsBy hb ?_ e he
      have := lt_length_takeWhile (hc.starts_sorted id) hi
      rw [hk] at this
      simpa using this
    rw [if_pos rfl, hnone]
    rfl
  | succ j =>
    have hj : j < blocks.length := by
      have := (List.takeWhile_prefix (startsBy id) (l := blocks)).length_le
      omega
    have hb := getElem?_eq_getElem hj
    have hget : rev.get j = some (encodeDictBlock blocks[j]) := by
      rw [hc.rows j, getElem?_map, hb]
      rfl
    rw [if_neg (Nat.succ_ne_zero j), Nat.add_sub_cancel, hget]
    dsimp only
    rw [dictBlockFind_encode (hc.blockFits (getElem_mem hj))]
    congr 1
    have hsplit : entries = (blocks.take j).flatten ++
        (blocks[j] ++ (blocks.drop (j + 1)).flatten) := by
      rw [← hc.entries_eq]
      conv_lhs => rw [← take_append_drop j blocks, drop_eq_getElem_cons hj]
      rw [flatten_append, flatten_cons]
    -- earlier blocks end before this one starts, later ones start behind `id`
    have hstart := (lt_length_takeWhile (hc.starts_sorted id) hb).mp (by omega)
    have hbefore : findEntry (blocks.take j).flatten id = none := by
      refine findEntry_eq_none fun e he => ?_
      obtain ⟨a, ha, he⟩ := mem_flatten.mp he
      have hpair := hs.2
      rw [← take_append_drop j blocks, drop_eq_getElem_cons hj, pairwise_append] at hpair
      have hlt := hpair.2.2 a ha _ mem_cons_self e he
      cases hbj : blocks[j] with
      | nil => exact absurd hbj (hc.sizes _ (getElem_mem hj)).1
      | cons f fs =>
        rw [hbj] at hlt hstart
        simp only [startsBy, head?_cons, Option.any_some, decide_eq_true_eq] at hstart
        exact ((hlt f mem_cons_self).trans_le hstart).ne
    have hafter : findEntry (blocks.drop (j + 1)).flatten id = none := by
      refine findEntry_eq_none fun e he => ?_
      obtain ⟨c, hcm, he⟩ := mem_flatten.mp he
      obtain ⟨i, hi⟩ := mem_iff_getElem?.mp hcm
      rw [getElem?_drop] at hi
      have hiff := lt_length_takeWhile (hc.starts_sorted id) hi
      refine hc.lt_of_not_startsBy (mem_of_getElem? hi) (Bool.eq_false_iff.mpr fun hst => ?_) e he
      have := hiff.mpr hst
      omega
    rw [hsplit, findEntry_append, findEntry_append, hbefore, hafter]
    simp

theorem dictRevAppend_spec
    (h : RevOf rev entries) {text : String} (hlt : ∀ e ∈ entries, e.1 < id)
    (hfit : EntryFits (id, text)) :
    ∃ rev', dictRevAppend rev id text = .ok rev' ∧ RevOf rev' (entries ++ [(id, text)]) := by
  obtain ⟨blocks, hc⟩ := h
  have hsorted : (entries ++ [(id, text)]).Pairwise (fun a b => a.1 < b.1) := by
    refine pairwise_append.mpr ⟨hc.sorted, pairwise_singleton _ _, fun a ha b hb => ?_⟩
    rw [mem_singleton.mp hb]
    exact hlt a ha
  have hfits : ∀ e ∈ entries ++ [(id, text)], EntryFits e := by
    intro e he
    rcases mem_append.mp he with he | he
    · exact hc.fits e he
    · rwa [mem_singleton.mp he]
  have hnew : RevOf (rev.insert rev.len (encodeDictBlock [(id, text)]))
      (entries ++ [(id, text)]) := by
    refine ⟨blocks ++ [[(id, text)]], ?_, ?_, ?_, hsorted, hfits⟩
    · simpa using hc.rows.insert_len (encodeDictBlock [(id, text)])
    · rw [flatten_append, hc.entries_eq, flatten_singleton]
    · intro b hb
      rcases mem_append.mp hb with hb | hb
      · exact hc.sizes b hb
      · rw [mem_singleton.mp hb]
        exact ⟨cons_ne_nil _ _, Nat.succ_le_succ (Nat.zero_le 127)⟩
  have hlen : rev.len = blocks.length := by rw [hc.rows.len_eq, length_map]
  rw [dictRevAppend]
  split_ifs with h0
  · exact ⟨_, rfl, hnew⟩
  · obtain ⟨init, last, rfl⟩ : ∃ init last, blocks = init ++ [last] := by
      refine ⟨_, _, (dropLast_append_getLast (fun hnil => h0 ?_)).symm⟩
      rw [hlen, hnil]
      rfl
    have hb : last ∈ init ++ [last] := mem_append_right _ (mem_singleton_self _)
    have hblock := hc.blockFits hb
    have hget : rev.get (rev.len - 1) = some (encodeDictBlock last) := by
      rw [hc.rows, hlen]
      simp
    rw [hget]
    dsimp only
    rw [dictBlockEntryCount_encode hblock, ok_bind]
    split_ifs with hfull
    · exact ⟨_, rfl, hnew⟩
    · -- the last block has room
      rw [decodeDictBlock_encode hblock, ok_bind]
      refine ⟨_, rfl, init ++ [last ++ [(id, text)]], ?_, ?_, ?_, hsorted, hfits⟩
      · have hrows := hc.rows
        rw [map_append, map_singleton] at hrows ⊢
        exact hrows.insert_last
      · rw [← hc.entries_eq]
        simp
      · intro b hbm
        rcases mem_append.mp hbm with hbm | hbm
        · exact hc.sizes b (mem_append_left _ hbm)
        · rw [mem_singleton.mp hbm]
          refine ⟨by simp, ?_⟩
          have : ¬ dictBlock ≤ last.length := fun hle => hfull (by simp [dictBlockIsFull, hle])
          rw [length_append, length_singleton]
          omega

structure Packed (p : Packing) (entries : List (Nat × String))
    (closed : List (List (Nat × String))) : Prop where
  blocks : p.blocks = closed.map encodeDictBlock
  entries_eq : closed.flatten ++ p.current = entries
  sizes : ∀ b ∈ closed, b ≠ [] ∧ b.length ≤ dictBlock
  room : p.current.length ≤ dictBlock

theorem packed_push {p : Packing} {closed : List (List (Nat × String))}
    (h : Packed p entries closed) (e : Nat × String) :
    ∃ closed', Packed (p.push e) (entries ++ [e]) closed' := by
  rw [Packing.push]
  split_ifs with hfull
  · refine ⟨closed ++ [p.current], ?_, ?_, ?_, Nat.succ_le_succ (Nat.zero_le 127)⟩
    · simp [h.blocks]
    · rw [← h.entries_eq]
      simp
    · intro b hb
      rcases mem_append.mp hb with hb | hb
      · exact h.sizes b hb
      · rw [mem_singleton.mp hb]
        exact ⟨hfull.1, h.room⟩
  · refine ⟨closed, h.blocks, ?_, h.sizes, ?_⟩
    · rw [← h.entries_eq]
      simp
    · have hroom : p.current.length < dictBlock := by
        by_contra hge
        have hne : p.current ≠ [] := fun hnil => hge (by rw [hnil]; decide)
        exact hfull ⟨hne, by simp [dictBlockIsFull, not_lt.mp hge]⟩
      rw [length_append, length_singleton]
      exact hroom

theorem packed_foldl (es : List (Nat × String)) {p : Packing}
    {closed : List (List (Nat × String))} (h : Packed p entries closed) :
    ∃ closed', Packed (es.foldl Packing.push p) (entries ++ es) closed' := by
  induction es generalizing p entries closed with
  | nil => exact ⟨closed, by simpa using h⟩
  | cons e es ih =>
    obtain ⟨closed', h'⟩ := packed_push h e
    obtain ⟨closed'', h''⟩ := ih h'
    exact ⟨closed'', by simpa using h''⟩

theorem packDictBlocks_blocks (entries : List (Nat × String)) :
    ∃ blocks : List (List (Nat × String)), packDictBlocks entries = blocks.map encodeDictBlock ∧
      blocks.flatten = entries ∧ ∀ b ∈ blocks, b ≠ [] ∧ b.length ≤ dictBlock := by
  have hinit : Packed ⟨[], [], 0⟩ [] [] := ⟨rfl, rfl, by simp, Nat.zero_le _⟩
  obtain ⟨closed, h⟩ := packed_foldl entries hinit
  rw [nil_append] at h
  rw [packDictBlocks]
  split_ifs with hcur
  · refine ⟨closed, h.blocks, ?_, h.sizes⟩
    rw [← h.entries_eq, hcur, append_nil]
  · refine ⟨closed ++ [(entries.foldl Packing.push ⟨[], [], 0⟩).current], ?_, ?_, ?_⟩
    · rw [map_append, map_singleton, ← h.blocks]
    · rw [flatten_append, flatten_singleton]
      exact h.entries_eq
    · intro b hb
      rcases mem_append.mp hb with hb | hb
      · exact h.sizes b hb
      · rw [mem_singleton.mp hb]
        exact ⟨hcur, h.room⟩

theorem revOf_packed
    (hrev : rev.Holds (packDictBlocks entries)) (hs : entries.Pairwise (fun a b => a.1 < b.1))
    (hfit : ∀ e ∈ entries, EntryFits e) : RevOf rev entries := by
  obtain ⟨blocks, hblocks, hflat, hsizes⟩ := packDictBlocks_blocks entries
  exact ⟨blocks, hblocks ▸ hrev, hflat, hsizes, hs, hfit⟩

theorem packDictBlocks_spec (hrev : rev.Holds [])
    (hs : entries.Pairwise (fun a b => a.1 < b.1))
    (hfit : ∀ e ∈ entries, EntryFits e) : RevOf (fillRows rev (packDictBlocks entries)) entries :=
  revOf_packed (fillRows_holds hrev _) hs hfit

end MemoryGraph
