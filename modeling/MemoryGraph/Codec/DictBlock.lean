import MemoryGraph.Codec.Varint
import MemoryGraph.Lib.Text

/-! Blocks of the packed reverse dictionary, `(term id, text)` entries in ascending id
order, and the compact key row of a file. -/

namespace MemoryGraph.Codec
open Lib List
variable {es : List (Nat × String)}

def dictBlock : Nat := 128

def bitLen (v : Nat) : Nat := if v = 0 then 0 else v.log2 + 1

def varintLen (v : Nat) : Nat := (max (bitLen v) 1 + 6) / 7

def putEntry (e : Nat × String) : List UInt8 :=
  putVarint e.1 ++ (putVarint (utf8 e.2).length ++ utf8 e.2)

def putEntries : List (Nat × String) → List UInt8
  | [] => []
  | e :: es => putEntry e ++ putEntries es

def encodeDictBlock (entries : List (Nat × String)) : List UInt8 :=
  putVarint entries.length ++ putEntries entries

def dictEntryEncodedLen (id : Nat) (text : String) : Nat :=
  varintLen id + varintLen (utf8 text).length + (utf8 text).length

def dictBlockCountLen (n : Nat) : Nat := varintLen n

def dictBlockEntryCount (b : List UInt8) : Except StoreError Nat := do
  let (n, _) ← varint.run ⟨b, 0⟩
  return n

def readEntry : Reader (Nat × String) := do
  let id ← varint
  let len ← varint
  let bytes ← takeBytes len (bad "dict entry exceeds input")
  match fromUtf8 bytes with
  | some text => return (id, text)
  | none => throw (bad "dict entry is not valid UTF-8")

variable {σ : Type}

def foldEntries (f : σ → Nat × String → σ) : Nat → σ → Reader σ
  | 0, s => return s
  | n + 1, s => do
    let e ← readEntry
    foldEntries f n (f s e)

def walkDictBlock (f : σ → Nat × String → σ) (init : σ) (b : List UInt8) : Except StoreError σ := do
  let (n, c) ← varint.run ⟨b, 0⟩
  failIf (b.length < n) (bad "dict block count exceeds input")
  let (s, c') ← (foldEntries f n init).run c
  failIf (c'.pos ≠ b.length) (bad "trailing bytes in dict block")
  return s

def decodeDictBlock (b : List UInt8) : Except StoreError (List (Nat × String)) :=
  walkDictBlock (fun es e => es ++ [e]) [] b

def dictBlockFind (b : List UInt8) (id : Nat) : Except StoreError (Option String) :=
  walkDictBlock (fun found e => if found.isNone ∧ e.1 = id then some e.2 else found) none b

def dictBlockFirstId (b : List UInt8) : Except StoreError (Option Nat) := do
  let (n, c) ← varint.run ⟨b, 0⟩
  if n = 0 then return none
  else do
    let (id, _) ← varint.run c
    return some id

structure FileKey where
  parent : Nat
  language : Option String
  name : String
deriving DecidableEq, Repr

def encodeFileKey (k : FileKey) : List UInt8 :=
  putVarint k.parent ++ ((match k.language with
    | none => [0]
    | some l => putVarint ((utf8 l).length + 1) ++ utf8 l) ++ utf8 k.name)

def badKey (what : String) : StoreError := .corrupt ("file key: " ++ what)

def readLanguage : Reader (Option String) := do
  let n ← varint
  if n = 0 then
    return none
  let bytes ← takeBytes (n - 1) (badKey "truncated language")
  match fromUtf8 bytes with
  | some l => return some l
  | none => throw (badKey "language not UTF-8")

def decodeFileKey (b : List UInt8) : Except StoreError FileKey := do
  let (parent, c) ← varint.run ⟨b, 0⟩
  let (language, c') ← readLanguage.run c
  match fromUtf8 (b.drop c'.pos) with
  | some name => return { parent, language, name }
  | none => throw (badKey "path not UTF-8")

theorem bitLen_le {v n : Nat} (h : v < 2 ^ n) : bitLen v ≤ n := by
  rw [bitLen]
  split_ifs with h0
  · exact Nat.zero_le n
  · rw [Nat.log2_eq_log_two]
    exact (Nat.log_lt_iff_lt_pow (by decide) h0).mpr h

theorem bitLen_shiftRight {v : Nat} (h : 128 ≤ v) :
    bitLen v = bitLen (v >>> 7) + 7 ∧ 1 ≤ bitLen (v >>> 7) := by
  have hdiv : v >>> 7 = v / 2 ^ 7 := Nat.shiftRight_eq_div_pow v 7
  have hpos : v / 2 ^ 7 ≠ 0 := by
    have := Nat.div_le_div_right (c := 128) h
    omega
  have hlog : 7 ≤ Nat.log 2 v := Nat.le_log_of_pow_le (by decide) h
  rw [hdiv, bitLen, bitLen, if_neg (by omega), if_neg hpos, Nat.log2_eq_log_two,
    Nat.log2_eq_log_two, Nat.log_div_base_pow]
  omega

theorem length_putVarintGo_eq (fuel : Nat) :
    ∀ v < 2 ^ (7 * (fuel + 1)), (putVarintGo fuel v).length = varintLen v := by
  induction fuel with
  | zero =>
    intro v hv
    have := bitLen_le hv
    rw [putVarintGo, varintLen, length_singleton]
    omega
  | succ fuel ih =>
    intro v hv
    rw [putVarintGo, varintLen]
    split_ifs with hbig
    · obtain ⟨hlen, hpos⟩ := bitLen_shiftRight hbig
      have hsmall : v >>> 7 < 2 ^ (7 * (fuel + 1)) := by
        rw [Nat.shiftRight_eq_div_pow, Nat.div_lt_iff_lt_mul (by decide), ← Nat.pow_add]
        exact hv
      rw [length_cons, ih _ hsmall, varintLen, hlen]
      omega
    · have hv7 : v < 2 ^ 7 := Nat.lt_of_not_le hbig
      have := bitLen_le hv7
      rw [length_singleton]
      omega

theorem varintLen_eq {v : Nat} (h : v < 2 ^ 64) : varintLen v = (putVarint v).length :=
  (length_putVarintGo_eq 9 v (h.trans (by decide))).symm

/-- Ids are `u64`, and no text is as long as the address space. -/
def EntryFits (e : Nat × String) : Prop := e.1 < 2 ^ 64 ∧ (utf8 e.2).length < 2 ^ 64

theorem reads_entry {e : Nat × String} (h : EntryFits e) : Reads readEntry (putEntry e) e := by
  refine (reads_varint h.1).bind ((reads_varint h.2).bind ((reads_takeBytes _ _).bind_nil ?_))
  simp only [fromUtf8_utf8]
  exact Reads.pure _

theorem reads_foldEntries (f : σ → Nat × String → σ) (es : List (Nat × String)) :
    ∀ s : σ, (∀ e ∈ es, EntryFits e) →
      Reads (foldEntries f es.length s) (putEntries es) (es.foldl f s) := by
  induction es with
  | nil => exact fun _ _ => Reads.pure _
  | cons e es ih =>
    intro s h
    exact (reads_entry (h e mem_cons_self)).bind
      (ih (f s e) (fun e' he' => h e' (.tail _ he')))

theorem length_putEntries (es : List (Nat × String)) : es.length ≤ (putEntries es).length := by
  induction es with
  | nil => simp
  | cons e es ih =>
    have := (length_putVarint e.1).1
    simp only [putEntries, putEntry, length_append, length_cons]
    omega

structure BlockFits (es : List (Nat × String)) : Prop where
  count : es.length < 2 ^ 64
  entries : ∀ e ∈ es, EntryFits e

theorem run_count (h : BlockFits es) :
    varint.run ⟨encodeDictBlock es, 0⟩ =
      .ok (es.length, ⟨encodeDictBlock es, 0 + (putVarint es.length).length⟩) :=
  (reads_varint h.count).run_at [] _ rfl

theorem walkDictBlock_encode (h : BlockFits es) (f : σ → Nat × String → σ)
    (init : σ) : walkDictBlock f init (encodeDictBlock es) = .ok (es.foldl f init) := by
  have hrun : (foldEntries f es.length init).run
      ⟨encodeDictBlock es, 0 + (putVarint es.length).length⟩ = .ok (es.foldl f init,
        ⟨encodeDictBlock es, (putVarint es.length).length + (putEntries es).length⟩) := by
    rw [Nat.zero_add]
    exact (reads_foldEntries f es init h.entries).run_at _ [] (by rw [append_nil]; rfl)
  have hcount : ¬ (encodeDictBlock es).length < es.length := by
    have := length_putEntries es
    rw [encodeDictBlock, length_append]
    omega
  have hpos : ¬ (putVarint es.length).length + (putEntries es).length ≠
      (encodeDictBlock es).length := by
    rw [encodeDictBlock, length_append]
    exact not_not.mpr rfl
  simp only [walkDictBlock, run_count h, ok_bind, failIf_of_not hcount, pure_eq_ok, hrun,
    failIf_of_not hpos]

theorem decodeDictBlock_encode (h : BlockFits es) :
    decodeDictBlock (encodeDictBlock es) = .ok es := by
  have hfold : ∀ acc : List (Nat × String), es.foldl (fun es e => es ++ [e]) acc = acc ++ es := by
    induction es with
    | nil => simp
    | cons e es ih =>
      intro acc
      rw [foldl_cons, ih ⟨(Nat.lt_succ_self _).trans h.count,
        fun e' he' => h.entries e' (.tail _ he')⟩]
      simp
  rw [decodeDictBlock, walkDictBlock_encode h, hfold, nil_append]

def findEntry (es : List (Nat × String)) (id : Nat) : Option String :=
  (es.find? (fun e => e.1 = id)).map Prod.snd

theorem dictBlockFind_encode (h : BlockFits es) (id : Nat) :
    dictBlockFind (encodeDictBlock es) id = .ok (findEntry es id) := by
  have hfound : ∀ (es : List (Nat × String)) (t : String),
      es.foldl (fun found e => if found.isNone ∧ e.1 = id then some e.2 else found)
      (some t) = some t := by
    intro es t
    induction es with
    | nil => rfl
    | cons e es ih => simpa using ih
  have hfold : es.foldl (fun found e => if found.isNone ∧ e.1 = id then some e.2 else found) none =
      findEntry es id := by
    clear h
    induction es with
    | nil => rfl
    | cons e es ih =>
      by_cases he : e.1 = id
      · rw [foldl_cons, if_pos ⟨rfl, he⟩, hfound]
        simp [findEntry, he]
      · simpa [findEntry, he] using ih
  rw [dictBlockFind, walkDictBlock_encode h, hfold]

theorem dictBlockEntryCount_encode (h : BlockFits es) :
    dictBlockEntryCount (encodeDictBlock es) = .ok es.length := by
  rw [dictBlockEntryCount, run_count h]
  rfl

theorem dictBlockFirstId_encode {e : Nat × String} (h : BlockFits (e :: es)) :
    dictBlockFirstId (encodeDictBlock (e :: es)) = .ok (some e.1) := by
  have hrun : varint.run ⟨encodeDictBlock (e :: es), 0 + (putVarint (e :: es).length).length⟩ =
      .ok (e.1, ⟨encodeDictBlock (e :: es),
        (putVarint (e :: es).length).length + (putVarint e.1).length⟩) := by
    rw [Nat.zero_add]
    refine (reads_varint (h.entries e mem_cons_self).1).run_at _
      ((putVarint (utf8 e.2).length ++ utf8 e.2) ++ putEntries es) ?_
    simp only [encodeDictBlock, putEntries, putEntry, append_assoc]
  rw [dictBlockFirstId, run_count h, ok_bind]
  simp only [length_cons, Nat.add_one_ne_zero, if_false] at hrun ⊢
  rw [hrun]
  rfl

structure FileKey.Fits (k : FileKey) : Prop where
  parent : k.parent < 2 ^ 64
  language : ∀ l ∈ k.language, (utf8 l).length < 2 ^ 64 - 1

theorem decodeFileKey_encode {k : FileKey} (h : k.Fits) :
    decodeFileKey (encodeFileKey k) = .ok k := by
  obtain ⟨parent, language, name⟩ := k
  obtain ⟨hparent, hlang⟩ := h
  have hread : ∃ bs, encodeFileKey ⟨parent, language, name⟩ = putVarint parent ++
      (bs ++ utf8 name) ∧ Reads readLanguage bs language := by
    cases language with
    | none => exact ⟨putVarint 0, rfl, (reads_varint (by decide)).bind_nil (Reads.pure _)⟩
    | some l =>
      have hl := hlang l rfl
      refine ⟨putVarint ((utf8 l).length + 1) ++ utf8 l, rfl,
        (reads_varint (v := (utf8 l).length + 1) (by omega)).bind ?_⟩
      simp only [Nat.add_one_ne_zero, if_false, Nat.add_sub_cancel]
      refine (reads_takeBytes _ _).bind_nil ?_
      simp only [fromUtf8_utf8]
      exact Reads.pure _
  obtain ⟨bs, henc, hread⟩ := hread
  have hrun1 : varint.run ⟨encodeFileKey ⟨parent, language, name⟩, 0⟩ = .ok (parent,
      ⟨encodeFileKey ⟨parent, language, name⟩, 0 + (putVarint parent).length⟩) :=
    (reads_varint hparent).run_at [] _ rfl
  have hrun2 : readLanguage.run ⟨encodeFileKey ⟨parent, language, name⟩,
      0 + (putVarint parent).length⟩ =
      .ok (language, ⟨encodeFileKey ⟨parent, language, name⟩, (putVarint parent).length +
        bs.length⟩) := by
    rw [Nat.zero_add]
    exact hread.run_at _ _ henc
  have hdrop : (encodeFileKey ⟨parent, language, name⟩).drop
      ((putVarint parent).length + bs.length) = utf8 name := by
    rw [henc, ← length_append, ← append_assoc, drop_left]
  simp only [decodeFileKey, hrun1, ok_bind, hrun2, hdrop, fromUtf8_utf8, pure_eq_ok]

end MemoryGraph.Codec
