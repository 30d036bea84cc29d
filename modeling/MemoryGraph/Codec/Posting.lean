import MemoryGraph.Codec.Varint

/-! Posting values: the token ordinals of a term in blocks of at most `postingBlock`, each with
gaps from a base of its own. -/

namespace MemoryGraph.Codec
open Lib List

def postingBlock : Nat := 128

def chunksGo {α : Type} (n : Nat) : Nat → List α → List (List α)
  | 0, _ => []
  | _ + 1, [] => []
  | fuel + 1, x :: xs => (x :: xs).take n :: chunksGo n fuel ((x :: xs).drop n)

def chunks {α : Type} (n : Nat) (xs : List α) : List (List α) := chunksGo n xs.length xs

def putGaps : Nat → List Nat → List UInt8
  | _, [] => []
  | prev, o :: os => putVarint (o - prev) ++ putGaps o os

def putBlock (chunk : List Nat) : List UInt8 :=
  putVarint chunk.length ++ (putVarint (putGaps 0 chunk).length ++ putGaps 0 chunk)

def putBlocks : List (List Nat) → List UInt8
  | [] => []
  | chunk :: rest => putBlock chunk ++ putBlocks rest

def encodePosting (ords : List Nat) : List UInt8 :=
  putVarint ords.length ++ putBlocks (chunks postingBlock ords)

def postingCount (b : List UInt8) : Except StoreError Nat := do
  let (n, _) ← varint.run ⟨b, 0⟩
  return n

def readGaps : Nat → Nat → Reader (List Nat)
  | 0, _ => return []
  | n + 1, prev => do
    let gap ← varint
    failIf (usizeMax < prev + gap) (bad "posting ordinal overflow")
    let os ← readGaps n (prev + gap)
    return (prev + gap) :: os

def blockExceeds (stop : Nat) : StoreError :=
  if usizeMax < stop then bad "posting block overflow" else bad "posting block exceeds input"

def readBlock (remaining : Nat) : Reader (List Nat) := do
  let blockLen ← varint
  failIf (blockLen = 0 ∨ remaining < blockLen) (bad "posting block length invalid")
  let blockBytes ← varint
  readSection blockBytes blockExceeds (bad "trailing bytes in posting block") (readGaps blockLen 0)

/-- The loop over the blocks; a block holds at least one ordinal, so the count is enough fuel. -/
def readBlocks : Nat → Nat → Reader (List Nat)
  | 0, _ => return []
  | fuel + 1, remaining =>
    if remaining = 0 then return []
    else do
      let block ← readBlock remaining
      let os ← readBlocks fuel (remaining - block.length)
      return block ++ os

def postingOrdinals (b : List UInt8) : Except StoreError (List Nat) := do
  let (n, c) ← varint.run ⟨b, 0⟩
  failIf (b.length < n) (bad "posting count exceeds input")
  let (ords, c') ← (readBlocks n n).run c
  failIf (c'.pos ≠ b.length) (bad "trailing bytes in posting")
  failIf (¬ ords.IsChain (· < ·)) (bad "posting ordinals not ascending")
  return ords

theorem flatten_chunksGo {α : Type} (n : Nat) (hn : 0 < n) (fuel : Nat) :
    ∀ xs : List α, xs.length ≤ fuel → (chunksGo n fuel xs).flatten = xs := by
  induction fuel with
  | zero =>
    intro xs h
    rw [eq_nil_of_length_eq_zero (Nat.le_zero.mp h)]
    rfl
  | succ fuel ih =>
    intro xs h
    cases xs with
    | nil => rfl
    | cons x xs =>
      rw [chunksGo, flatten_cons, ih _ (by simp at h ⊢; omega), take_append_drop]

theorem mem_chunksGo {α : Type} (n : Nat) (hn : 0 < n) (fuel : Nat) :
    ∀ xs c : List α, c ∈ chunksGo n fuel xs → c ≠ [] ∧ c.length ≤ n ∧ c <:+: xs := by
  induction fuel with
  | zero => exact fun _ _ hc => absurd hc (by simp [chunksGo])
  | succ fuel ih =>
    intro xs c hc
    cases xs with
    | nil => exact absurd hc (by simp [chunksGo])
    | cons x xs =>
      rw [chunksGo, mem_cons] at hc
      rcases hc with rfl | hc
      · refine ⟨fun he => ?_, length_take_le _ _, (List.take_prefix _ _).isInfix⟩
        have := congrArg length he
        simp at this
        omega
      · obtain ⟨h1, h2, h3⟩ := ih _ c hc
        exact ⟨h1, h2, h3.trans (drop_suffix _ _).isInfix⟩

theorem reads_gaps (os : List Nat) : ∀ prev : Nat, (prev :: os).Pairwise (· ≤ ·) →
    (∀ o ∈ os, o ≤ usizeMax) → Reads (readGaps os.length prev) (putGaps prev os) os := by
  induction os with
  | nil => exact fun _ _ _ => Reads.pure _
  | cons o os ih =>
    intro prev hs hmax
    obtain ⟨hle, hs'⟩ := pairwise_cons.mp hs
    have ho := hmax o mem_cons_self
    have hsum : prev + (o - prev) = o := Nat.add_sub_cancel' (hle o mem_cons_self)
    have hd : o - prev < 2 ^ 64 := by
      have : usizeMax < 2 ^ 64 := by decide
      omega
    have hrec := ih o hs' (fun p hp => hmax p (.tail _ hp))
    refine (reads_varint hd).bind ?_
    simp only [hsum]
    exact (Reads.guard (not_lt.mpr ho)).bind (hrec.bind_nil (Reads.pure _))

theorem length_putGaps (prev : Nat) (os : List Nat) :
    os.length ≤ (putGaps prev os).length ∧ (putGaps prev os).length ≤ 10 * os.length := by
  induction os generalizing prev with
  | nil => simp [putGaps]
  | cons o os ih =>
    have h1 := length_putVarint (o - prev)
    have h2 := ih o
    simp only [putGaps, length_append, length_cons]
    omega

theorem reads_block {chunk : List Nat} {remaining : Nat} (h0 : chunk ≠ [])
    (hle : chunk.length ≤ remaining) (h128 : chunk.length ≤ postingBlock)
    (hs : chunk.Pairwise (· ≤ ·)) (hmax : ∀ o ∈ chunk, o ≤ usizeMax) :
    Reads (readBlock remaining) (putBlock chunk) chunk := by
  have hlen := length_putGaps 0 chunk
  rw [postingBlock] at h128
  refine (reads_varint (by omega)).bind ((Reads.guard ?_).bind ((reads_varint (by omega)).bind
    (reads_readSection (reads_gaps chunk 0 ?_ hmax) _ _)))
  · rintro (h | h)
    · exact h0 (eq_nil_of_length_eq_zero h)
    · omega
  · exact pairwise_cons.mpr ⟨fun _ _ => Nat.zero_le _, hs⟩

theorem reads_blocks (cs : List (List Nat)) : ∀ (fuel : Nat), cs.flatten.length ≤ fuel →
    (∀ c ∈ cs, c ≠ [] ∧ c.length ≤ postingBlock ∧ c.Pairwise (· ≤ ·) ∧ ∀ o ∈ c, o ≤ usizeMax) →
    Reads (readBlocks fuel cs.flatten.length) (putBlocks cs) cs.flatten := by
  induction cs with
  | nil =>
    intro fuel _ _
    cases fuel <;> exact Reads.pure _
  | cons c cs ih =>
    intro fuel hfuel hall
    obtain ⟨h0, h128, hs, hmax⟩ := hall c mem_cons_self
    have hpos := length_pos_of_ne_nil h0
    rw [flatten_cons, length_append] at hfuel ⊢
    obtain ⟨fuel, rfl⟩ := Nat.exists_eq_add_one_of_ne_zero (by omega : fuel ≠ 0)
    have hrec := ih fuel (by omega) (fun c' hc' => hall c' (.tail _ hc'))
    rw [readBlocks, if_neg (by omega)]
    refine (reads_block h0 (Nat.le_add_right _ _) h128 hs hmax).bind ?_
    rw [Nat.add_sub_cancel_left]
    exact hrec.bind_nil (Reads.pure _)

theorem length_putBlocks (cs : List (List Nat)) : cs.flatten.length ≤ (putBlocks cs).length := by
  induction cs with
  | nil => simp
  | cons c cs ih =>
    have := (length_putGaps 0 c).1
    simp only [flatten_cons, putBlocks, putBlock, length_append]
    omega

theorem postingCount_encode {ords : List Nat} (h : ords.length < 2 ^ 64) :
    postingCount (encodePosting ords) = .ok ords.length := by
  have hrun := (reads_varint h).run_at (b := encodePosting ords) [] _ rfl
  rw [postingCount, show (⟨encodePosting ords, 0⟩ : Cursor) =
    ⟨encodePosting ords, [].length⟩ from rfl, hrun]
  rfl

theorem postingOrdinals_encode {ords : List Nat} (h : ords.length < 2 ^ 64)
    (hs : ords.Pairwise (· < ·)) (hmax : ∀ o ∈ ords, o ≤ usizeMax) :
    postingOrdinals (encodePosting ords) = .ok ords := by
  have hflat : (chunks postingBlock ords).flatten = ords :=
    flatten_chunksGo _ (by decide) _ _ le_rfl
  have hread := reads_blocks (chunks postingBlock ords) ords.length (by rw [hflat]) (fun c hc => by
    obtain ⟨h1, h2, h3⟩ := mem_chunksGo _ (by decide) _ _ _ hc
    exact ⟨h1, h2, (hs.imp le_of_lt).sublist h3.sublist, fun o ho => hmax o (h3.subset ho)⟩)
  rw [hflat] at hread
  have hrun1 : varint.run ⟨encodePosting ords, 0⟩ =
      .ok (ords.length, ⟨encodePosting ords, 0 + (putVarint ords.length).length⟩) :=
    (reads_varint h).run_at [] _ rfl
  have hrun2 : (readBlocks ords.length ords.length).run
      ⟨encodePosting ords, 0 + (putVarint ords.length).length⟩ = .ok (ords, ⟨encodePosting ords,
        (putVarint ords.length).length + (putBlocks (chunks postingBlock ords)).length⟩) := by
    rw [Nat.zero_add]
    exact hread.run_at _ [] (by rw [append_nil]; rfl)
  have hcount : ¬ (encodePosting ords).length < ords.length := by
    have hl := length_putBlocks (chunks postingBlock ords)
    rw [hflat] at hl
    rw [encodePosting, length_append]
    omega
  have hpos : ¬ (putVarint ords.length).length + (putBlocks (chunks postingBlock ords)).length ≠
      (encodePosting ords).length := by
    rw [encodePosting, length_append]
    exact not_not.mpr rfl
  have hasc : ¬ ¬ ords.IsChain (· < ·) := not_not.mpr hs.isChain
  simp only [postingOrdinals, hrun1, ok_bind, failIf_of_not hcount, pure_eq_ok, hrun2,
    failIf_of_not hpos, failIf_of_not hasc]

end MemoryGraph.Codec
