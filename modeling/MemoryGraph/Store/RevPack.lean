import MemoryGraph.Store.RevSpec

/-! Packing the reverse dictionary at once and appending entry by entry cut the same blocks. -/

namespace MemoryGraph
open Lib Codec List
variable {p : Packing} {e : Nat × String}

theorem length_putEntry (h : EntryFits e) : (putEntry e).length = dictEntryEncodedLen e.1 e.2 := by
  rw [putEntry, length_append, length_append, dictEntryEncodedLen, varintLen_eq h.1,
    varintLen_eq h.2, Nat.add_assoc]

theorem putEntries_append (xs ys : List (Nat × String)) :
    putEntries (xs ++ ys) = putEntries xs ++ putEntries ys := by
  induction xs with
  | nil => rfl
  | cons x xs ih => rw [cons_append, putEntries, putEntries, ih, append_assoc]

theorem length_putEntries_singleton (h : EntryFits e) :
    (putEntries [e]).length = dictEntryEncodedLen e.1 e.2 := by
  rw [putEntries, putEntries, append_nil, length_putEntry h]

namespace Packing

def finish (p : Packing) : List (List UInt8) :=
  if p.current = [] then p.blocks else p.blocks ++ [encodeDictBlock p.current]

structure Measured (p : Packing) : Prop where
  bodyLen : p.bodyLen = (putEntries p.current).length
  room : p.current.length ≤ dictBlock
  fits : ∀ e ∈ p.current, EntryFits e
  start : p.current = [] → p.blocks = []

theorem measured_start : Measured ⟨[], [], 0⟩ := ⟨rfl, Nat.zero_le _, by simp, fun _ => rfl⟩

theorem Measured.blockFits (h : p.Measured) : BlockFits p.current := blockFits_of h.room h.fits

theorem Measured.length_encode (h : p.Measured) :
    (encodeDictBlock p.current).length = dictBlockCountLen p.current.length + p.bodyLen := by
  rw [encodeDictBlock, length_append, dictBlockCountLen, varintLen_eq h.blockFits.count, h.bodyLen]

theorem Measured.push (h : p.Measured) (he : EntryFits e) : (p.push e).Measured := by
  rw [Packing.push]
  split_ifs with hfull
  · have hroom : [e].length ≤ dictBlock := Nat.succ_le_succ (Nat.zero_le 127)
    refine ⟨(length_putEntries_singleton he).symm, hroom, ?_, fun hnil =>
      absurd hnil (cons_ne_nil e [])⟩
    intro a ha
    rwa [mem_singleton.mp ha]
  · have hroom : p.current.length < dictBlock := by
      by_contra hge
      have hne : p.current ≠ [] := fun hnil => hge (by rw [hnil]; decide)
      exact hfull ⟨hne, by simp [dictBlockIsFull, not_lt.mp hge]⟩
    refine ⟨?_, ?_, ?_, fun hnil => absurd hnil (by simp)⟩
    · rw [putEntries_append, length_append, length_putEntries_singleton he, h.bodyLen]
    · rw [length_append, length_singleton]
      exact hroom
    · intro a ha
      rcases mem_append.mp ha with ha | ha
      · exact h.fits a ha
      · rwa [mem_singleton.mp ha]

theorem Measured.append (h : p.Measured) {rev : Table Nat (List UInt8)} (hrev : rev.Holds p.finish)
    (e : Nat × String) :
    ∃ rev', dictRevAppend rev e.1 e.2 = .ok rev' ∧ rev'.Holds (p.push e).finish := by
  rw [Packing.push]
  by_cases hcur : p.current = []
  · -- the first entry
    have hnil : p.finish = [] := by rw [finish, if_pos hcur, h.start hcur]
    have hlen : rev.len = 0 := by rw [hrev.len_eq, hnil, length_nil]
    rw [if_neg fun hfull => hfull.1 hcur, dictRevAppend, if_pos hlen]
    refine ⟨_, rfl, ?_⟩
    have hins := hrev.insert_len (encodeDictBlock [e])
    rw [hnil, nil_append] at hins
    rw [finish, if_neg (by simp), h.start hcur, hcur]
    exact hins
  · have hfin : p.finish = p.blocks ++ [encodeDictBlock p.current] := by rw [finish, if_neg hcur]
    rw [hfin] at hrev
    have hlen : rev.len = p.blocks.length + 1 := by
      rw [hrev.len_eq, length_append, length_singleton]
    have hget : rev.get (rev.len - 1) = some (encodeDictBlock p.current) := by
      rw [hrev, hlen]
      simp
    rw [dictRevAppend, if_neg (by omega), hget]
    dsimp only
    rw [dictBlockEntryCount_encode h.blockFits, ok_bind, h.length_encode]
    by_cases hfull : dictBlockIsFull (dictBlockCountLen p.current.length + p.bodyLen)
      p.current.length = true
    · rw [if_pos hfull, if_pos ⟨hcur, hfull⟩]
      refine ⟨_, rfl, ?_⟩
      rw [finish, if_neg (cons_ne_nil e [])]
      exact hrev.insert_len (encodeDictBlock [e])
    · rw [if_neg hfull, if_neg fun hboth => hfull hboth.2,
        decodeDictBlock_encode h.blockFits, ok_bind]
      refine ⟨_, rfl, ?_⟩
      rw [finish, if_neg (by simp)]
      exact hrev.insert_last

theorem Measured.appendAll (h : p.Measured) {rev : Table Nat (List UInt8)}
    (hrev : rev.Holds p.finish) {entries : List (Nat × String)}
    (hfit : ∀ e ∈ entries, EntryFits e) :
    ∃ rev', entries.foldlM (fun rev e => dictRevAppend rev e.1 e.2) rev = .ok rev' ∧
      rev'.Holds (entries.foldl Packing.push p).finish := by
  induction entries generalizing p rev with
  | nil => exact ⟨rev, rfl, hrev⟩
  | cons e entries ih =>
    obtain ⟨he, hfit⟩ := forall_mem_cons.mp hfit
    obtain ⟨rev₁, h1, hrev₁⟩ := h.append hrev e
    obtain ⟨rev₂, h2, hrev₂⟩ := ih (h.push he) hrev₁ hfit
    refine ⟨rev₂, ?_, hrev₂⟩
    rw [foldlM_cons, h1, ok_bind, h2]

end Packing

theorem packDictBlocks_appended (entries : List { e : Nat × String // EntryFits e })
    (hs : entries.Pairwise fun a b => a.val.1 < b.val.1) :
    (∃ rev, (entries.map Subtype.val).foldlM (fun rev e => dictRevAppend rev e.1 e.2) Table.empty =
      .ok rev ∧ rev.Holds (packDictBlocks (entries.map Subtype.val))) ∧
    ∀ rev : Table Nat (List UInt8), rev.Holds (packDictBlocks (entries.map Subtype.val)) →
      (∀ e ∈ entries, dictRevLookup rev e.val.1 = .ok (some e.val.2)) ∧
      ∀ id, (∀ e ∈ entries, e.val.1 ≠ id) → dictRevLookup rev id = .ok none := by
  have hfit : ∀ e ∈ entries.map Subtype.val, EntryFits e := by
    intro e he
    obtain ⟨a, -, rfl⟩ := List.mem_map.mp he
    exact a.property
  have hsorted : (entries.map Subtype.val).Pairwise (fun a b => a.1 < b.1) :=
    List.pairwise_map.mpr hs
  constructor
  · exact Packing.measured_start.appendAll Table.Holds.empty hfit
  · intro rev hrev
    have hof := revOf_packed hrev hsorted hfit
    constructor
    · intro e he
      rw [dictRevLookup_eq hof, (findEntry_eq_some hsorted).mpr (List.mem_map_of_mem he)]
    · intro id hid
      rw [dictRevLookup_eq hof, findEntry_eq_none]
      intro e he
      obtain ⟨a, ha, rfl⟩ := List.mem_map.mp he
      exact hid a ha

theorem packDictBlocks_appended_gaps : ∃ rev : Table Nat (List UInt8),
    rev.Holds (packDictBlocks [(0, "a"), (7, ""), (18446744073709551615, "b")]) ∧
      dictRevLookup rev 7 = .ok (some "") ∧ dictRevLookup rev 8 = .ok none := by
  have hall := packDictBlocks_appended [⟨(0, "a"), by decide, by decide⟩,
    ⟨(7, ""), by decide, by decide⟩, ⟨(18446744073709551615, "b"), by decide, by decide⟩]
    (by decide)
  obtain ⟨rev, -, hrev⟩ := hall.1
  obtain ⟨hfound, hnone⟩ := hall.2 rev hrev
  exact ⟨rev, hrev, hfound _ (List.mem_cons_of_mem _ List.mem_cons_self), hnone 8 (by decide)⟩

end MemoryGraph
