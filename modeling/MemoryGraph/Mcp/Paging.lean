import MemoryGraph.Schema

/-! Pages of the MCP list tools, cut by their number of items and by their bytes. -/

namespace MemoryGraph.Mcp
open List
variable {α : Type}

inductive ToolError
  | invalidParams (msg : String)
deriving DecidableEq, Repr

def defaultLimit : Nat := 50

def maxOffset : Nat := 4294967295

def maxResultBytes : Nat := 4 * 1048576

structure PageArgs where
  limit : Nat
  offset : Nat

def optUint (tool name : String) (min max : Nat) : Option Nat → Except ToolError (Option Nat)
  | none => .ok none
  | some n =>
    if min ≤ n ∧ n ≤ max then .ok (some n)
    else .error (.invalidParams
      s!"{tool}: `{name}` must be an integer from {min} to {max}, got {n}")

def page (tool : String) (maxLimit : Nat) (limit offset : Option Nat) :
    Except ToolError PageArgs := do
  let limit ← optUint tool "limit" 1 maxLimit limit
  let offset ← optUint tool "offset" 0 maxOffset offset
  return ⟨limit.getD defaultLimit, offset.getD 0⟩

structure Page (α : Type) where
  items : List α
  nextOffset : Option Nat
deriving DecidableEq, Repr

def keepGo (jsonLen : α → Nat) : (bytes i : Nat) → List α → Nat
  | _, i, [] => i
  | bytes, i, it :: items =>
    if maxResultBytes < bytes + jsonLen it + 1 ∧ 0 < i then i
    else keepGo jsonLen (bytes + jsonLen it + 1) (i + 1) items

def finish (jsonLen : α → Nat) (items : List α) (offset : Nat) (hasMore : Bool) : Page α :=
  let keep := keepGo jsonLen 0 0 items
  if keep < items.length then ⟨items.take keep, some (offset + (items.take keep).length)⟩
  else ⟨items, if hasMore then some (offset + items.length) else none⟩

def pageOf (jsonLen : α → Nat) (all : List α) (page : PageArgs) : Page α :=
  let items := (all.drop page.offset).take page.limit
  finish jsonLen items page.offset (satAdd page.offset items.length < all.length)

def fetchedPage (jsonLen : α → Nat) (rows : List α) (page : PageArgs) : Page α :=
  finish jsonLen (rows.take page.limit) page.offset (page.limit < rows.length)

def call (jsonLen : α → Nat) (tool : String) (maxLimit : Nat) (fetches : Bool) (all : List α)
    (limit offset : Option Nat) : Except ToolError (Page α) := do
  let page ← page tool maxLimit limit offset
  return if fetches then fetchedPage jsonLen ((all.drop page.offset).take (page.limit + 1)) page
    else pageOf jsonLen all page

/-- The pages a client gets that starts at an offset and follows `next_offset` until it is null. -/
inductive Follows (call : Nat → Except ToolError (Page α)) : Nat → List (Page α) → Prop
  | last {offset : Nat} {page : Page α} : call offset = .ok page → page.nextOffset = none →
    Follows call offset [page]
  | more {offset next : Nat} {page : Page α} {pages : List (Page α)} : call offset = .ok page →
    page.nextOffset = some next → Follows call next pages → Follows call offset (page :: pages)

def bytes (jsonLen : α → Nat) (items : List α) : Nat := (items.map fun it => jsonLen it + 1).sum

structure Cut (jsonLen : α → Nat) (all : List α) (limit offset : Nat) (page : Page α) : Prop where
  items : page.items <+: all.drop offset
  limit : page.items.length ≤ limit
  progress : offset < all.length → page.items ≠ []
  next : page.nextOffset = if offset + page.items.length <
    all.length then some (offset + page.items.length) else none
  fits : bytes jsonLen page.items ≤ maxResultBytes ∨ page.items.length = 1

variable {jsonLen : α → Nat} {all : List α} {maxLimit limit offset : Nat}

theorem keepGo_spec (l : List α) {b i : Nat} (hi : b ≤ maxResultBytes ∨ i = 1) :
    ∃ m ≤ l.length, keepGo jsonLen b i l = i + m ∧ (i = 0 → l ≠ [] → 0 < m) ∧
      (b + bytes jsonLen (l.take m) ≤ maxResultBytes ∨ i + m = 1) := by
  induction l generalizing b i with
  | nil => exact ⟨0, Nat.le_refl 0, rfl, fun _ h => absurd rfl h, hi⟩
  | cons it items ih =>
    rw [keepGo]
    split
    next hcut => exact ⟨0, Nat.zero_le _, rfl, fun h => absurd h hcut.2.ne', hi⟩
    next hcut =>
      obtain ⟨m, hm, hkeep, -, hfit⟩ := @ih (b + jsonLen it + 1) (i + 1) (by omega)
      refine ⟨m + 1, Nat.succ_le_succ hm, by rw [hkeep]; omega, fun _ _ => Nat.succ_pos m, ?_⟩
      rw [bytes, take_succ_cons, map_cons, sum_cons]
      rw [bytes] at hfit
      omega

theorem finish_cut (hlimit : 0 < limit) {hasMore : Bool}
    (hmore : hasMore = true ↔ offset + ((all.drop offset).take limit).length < all.length) :
    Cut jsonLen all limit offset
      (finish jsonLen ((all.drop offset).take limit) offset hasMore) := by
  have hpre : (all.drop offset).take limit <+: all.drop offset := take_prefix _ _
  have hlen : ((all.drop offset).take limit).length = min limit (all.length - offset) := by
    rw [length_take, length_drop]
  generalize (all.drop offset).take limit = items at *
  obtain ⟨m, hm, hkeep, hpos, hfit⟩ := @keepGo_spec _ jsonLen items 0 0 (Or.inl (Nat.zero_le _))
  rw [Nat.zero_add] at hkeep hfit
  rw [Nat.zero_add] at hfit
  have hne : offset < all.length → 0 < items.length := by omega
  have hpos' : offset < all.length → 0 < m := fun h => hpos rfl (ne_nil_of_length_pos (hne h))
  simp only [finish, hkeep]
  split
  next hcut =>
    have htake : (items.take m).length = m := by rw [length_take, Nat.min_eq_left hm]
    refine ⟨(List.take_prefix _ _).trans hpre, ?_, fun h => ne_nil_of_length_pos ?_, ?_, ?_⟩
    · rw [htake]
      omega
    · rw [htake]
      exact hpos' h
    · rw [htake, if_pos (by omega)]
    · rw [htake]
      exact hfit
  next hall =>
    obtain rfl : m = items.length := Nat.le_antisymm hm (not_lt.mp hall)
    rw [take_length] at hfit
    refine ⟨hpre, hlen.le.trans (Nat.min_le_left _ _), fun h =>
      ne_nil_of_length_pos (hne h), ?_, hfit⟩
    simp only [hmore]

section
variable (jsonLen : α → Nat) (tool : String) (fetches : Bool)

theorem call_ok (h : 1 ≤ limit ∧ limit ≤ maxLimit) (hoffset : offset ≤ maxOffset)
    (hall : all.length ≤ usizeMax) :
    ∃ page, call jsonLen tool maxLimit fetches all (some limit) (some offset) = .ok page ∧
      Cut jsonLen all limit offset page := by
  have hpage : page tool maxLimit (some limit) (some offset) = .ok ⟨limit, offset⟩ := by
    rw [page, optUint, if_pos h, optUint, if_pos ⟨Nat.zero_le _, hoffset⟩]
    rfl
  refine ⟨_, by rw [call, hpage]; rfl, ?_⟩
  dsimp only
  cases fetches with
  | true =>
    rw [if_pos rfl, fetchedPage, take_take, Nat.min_eq_left (Nat.le_succ limit)]
    refine finish_cut h.1 ?_
    simp only [decide_eq_true_eq, length_take, length_drop]
    omega
  | false =>
    rw [if_neg Bool.false_ne_true, pageOf]
    refine finish_cut h.1 ?_
    simp only [decide_eq_true_eq, satAdd, length_take, length_drop]
    omega

theorem call_beyond (limit : Option Nat) (h : maxOffset < offset) :
    ∃ e, call jsonLen tool maxLimit fetches all limit (some offset) = .error e := by
  have hoffset : ∃ e, optUint tool "offset" 0 maxOffset (some offset) = .error e :=
    ⟨_, if_neg (by omega)⟩
  obtain ⟨e, he⟩ := hoffset
  rw [call, page, he]
  cases optUint tool "limit" 1 maxLimit limit with
  | ok n => exact ⟨e, rfl⟩
  | error e' => exact ⟨e', rfl⟩

theorem follows_from (h : 1 ≤ limit ∧ limit ≤ maxLimit) (hall : all.length ≤ maxOffset + 1)
    (hoffset : offset ≤ maxOffset) :
    ∃ pages,
      Follows (fun offset => call jsonLen tool maxLimit fetches all (some limit) (some offset))
        offset pages ∧ pages.flatMap Page.items = all.drop offset ∧
        ∀ page ∈ pages, bytes jsonLen page.items ≤ maxResultBytes ∨ page.items.length = 1 := by
  induction hn : all.length - offset using Nat.strong_induction_on generalizing offset with
  | _ n ih =>
    obtain ⟨page, hpage, hcut⟩ := call_ok jsonLen tool fetches h hoffset (hall.trans (by decide))
    have hnext := hcut.next
    obtain ⟨rest, hrest⟩ := hcut.items
    split at hnext
    next hlt =>
      have hpos := length_pos_of_ne_nil (hcut.progress (by omega))
      obtain ⟨pages, hfollows, hitems, hfits⟩ :=
        @ih _ (by omega) (offset + page.items.length) (by omega) rfl
      refine ⟨page :: pages, .more hpage hnext hfollows, ?_, forall_mem_cons.mpr ⟨hcut.fits, hfits⟩⟩
      rw [flatMap_cons, hitems, ← drop_drop, ← hrest, drop_left]
    next hge =>
      refine ⟨[page], .last hpage hnext, ?_, forall_mem_singleton.mpr hcut.fits⟩
      have hlen := congrArg length hrest
      rw [length_append, length_drop] at hlen
      obtain rfl : rest = [] := eq_nil_of_length_eq_zero (by omega)
      rw [append_nil] at hrest
      rw [flatMap_singleton, hrest]

end

/-- A client that starts at offset 0 and follows `next_offset` gets every item of a list of at most
2^32 once and in order, in pages that fit the byte limit or have a single item. -/
theorem pages_complete (jsonLen : α → Nat) (tool : String) (maxLimit limit : Nat)
    (hlimit : 1 ≤ limit ∧ limit ≤ maxLimit) (fetches : Bool) (all : List α)
    (hall : all.length ≤ 4294967296) :
    ∃ pages, Follows (fun offset => call jsonLen tool maxLimit fetches all (some limit)
      (some offset)) 0 pages ∧ pages.flatMap Page.items = all ∧
      ∀ page ∈ pages, bytes jsonLen page.items ≤ maxResultBytes ∨ page.items.length = 1 :=
  follows_from jsonLen tool fetches hlimit hall (Nat.zero_le _)

theorem pages_complete_bytes :
    ∃ pages,
      Follows (fun offset => call id "search" 500 true [3000000, 2000000, 1] (some 2) (some offset))
        0 pages ∧
      pages.flatMap Page.items = [3000000, 2000000, 1] ∧
      ∀ page ∈ pages, bytes id page.items ≤ maxResultBytes ∨ page.items.length = 1 :=
  pages_complete id "search" 500 2 (by decide) true _ (by decide)

theorem not_follows_long (hlong : maxOffset + 1 < all.length) (hall : all.length ≤ usizeMax)
    {pages : List (Page α)} :
    ¬Follows (fun offset => call jsonLen "search" 500 true all (some 1) (some offset)) offset
      pages := by
  intro h
  induction h with
  | more _ _ _ ih => exact ih
  | @last offset page hpage hnone =>
    by_cases hoffset : offset ≤ maxOffset
    · obtain ⟨page', hpage', hcut⟩ :=
        call_ok jsonLen "search" true (by decide : 1 ≤ 1 ∧ 1 ≤ 500) hoffset hall
      obtain rfl := Except.ok.inj (hpage.symm.trans hpage')
      have hlimit := hcut.limit
      rw [hcut.next, if_pos (by omega)] at hnone
      exact nomatch hnone
    · obtain ⟨e, he⟩ := call_beyond jsonLen "search" true (some 1) (not_le.mp hoffset)
      exact nomatch hpage.symm.trans he

theorem pages_refused_long :
    ¬∃ pages, Follows
      (fun offset =>
        call (fun _ : Unit => 0) "search" 500 true (List.replicate 4294967297 ()) (some 1)
          (some offset)) 0 pages := by
  rintro ⟨pages, h⟩
  refine not_follows_long ?_ ?_ h
  · rw [List.length_replicate]
    decide
  · rw [List.length_replicate]
    decide

end MemoryGraph.Mcp
