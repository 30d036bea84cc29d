import MemoryGraph.Batch.Decode
import MemoryGraph.Lib.Text

/-! Decoding without a mark and without a hint: nothing is replaced, text has no NUL, and UTF-8
stays as it is. -/

namespace MemoryGraph
open Lib List
variable {bytes : List UInt8} {e : Encoding}

theorem zero_mem_utf8 {s : String} (h : '\x00' ∈ s.toList) : 0 ∈ utf8 s := by
  rw [utf8_eq_flatMap]
  exact mem_flatMap.mpr ⟨'\x00', h, by decide⟩

namespace Codecs

/-- What is assumed of the decoders: `str::from_utf8` is the standard one, a strict decoder
refuses or agrees with the replacing one without a replacement, windows-1252 maps every byte,
and a legacy decoder yields U+0000 only from a NUL byte. The detector is any function. -/
structure Assumed (c : Codecs) : Prop where
  fromUtf8 : c.fromUtf8 = Lib.fromUtf8
  strict : ∀ e bytes text, c.strict e bytes = some text → c.decode e bytes = (text, false)
  windows1252 : ∀ bytes, (c.decode .windows1252 bytes).2 = false
  nul : ∀ e bytes, e.isDetectable = true → '\x00' ∈ (c.decode e bytes).1.toList → 0 ∈ bytes

def HasJisEscape (bytes : List UInt8) : Prop :=
  [0x1b, 0x24, 0x40] <:+: bytes ∨ [0x1b, 0x24, 0x42] <:+: bytes

variable {c : Codecs}

theorem candidate_eq_some {units high low n : Nat} {e e' : Encoding}
    (h : c.candidate bytes units high low e = some (n, e')) :
    e' = e ∧ ∃ text, c.strict e bytes = some text ∧ '\x00' ∉ text.toList := by
  rw [candidate] at h
  split_ifs at h
  split at h
  · exact nomatch h
  next text htext =>
    split_ifs at h with hclean
    cases h
    refine ⟨rfl, text, htext, ?_⟩
    intro hm
    apply hclean
    rw [any_eq_true]
    exact ⟨'\x00', hm, by decide⟩

theorem sniffUtf16_eq_some (h : c.sniffUtf16 bytes = some e) :
    ∃ text, c.strict e bytes = some text ∧ '\x00' ∉ text.toList := by
  rw [sniffUtf16] at h
  split_ifs at h
  dsimp only at h
  split at h
  next l b hl hb =>
    obtain ⟨hle, hltext⟩ := candidate_eq_some hl
    obtain ⟨hbe, hbtext⟩ := candidate_eq_some hb
    split at h
    · rw [← Option.some.inj h, hbe]
      exact hbtext
    · rw [← Option.some.inj h, hle]
      exact hltext
  next l hl _ =>
    obtain ⟨hle, hltext⟩ := candidate_eq_some hl
    rw [← Option.some.inj h, hle]
    exact hltext
  next b _ hb =>
    obtain ⟨hbe, hbtext⟩ := candidate_eq_some hb
    rw [← Option.some.inj h, hbe]
    exact hbtext
  next => exact nomatch h

theorem candidate_eq_none {units low : Nat} (hvalid : c.fromUtf8 bytes ≠ none)
    (hunits : 0 < units) : c.candidate bytes units 0 low e = none := by
  rw [candidate, if_pos]
  left
  rintro (hascii | ⟨hcjk, -⟩)
  · omega
  · exact hvalid hcjk

theorem mem_of_mem_everyOther {b : UInt8} (h : b ∈ everyOther bytes) : b ∈ bytes := by
  induction bytes using everyOther.induct with
  | case1 => exact h
  | case2 a => exact h
  | case3 a x bs ih =>
    rw [everyOther] at h
    obtain rfl | h := mem_cons.mp h
    · exact mem_cons_self
    · exact mem_cons_of_mem _ (.tail _ (ih h))

theorem sniffUtf16_eq_none (hvalid : c.fromUtf8 bytes ≠ none) (hnul : 0 ∉ bytes) :
    c.sniffUtf16 bytes = none := by
  rw [sniffUtf16]
  have hsize : min bytes.length utf16SniffWindow ≤ bytes.length := min_le_left _ _
  generalize min bytes.length utf16SniffWindow = size at hsize ⊢
  dsimp only
  split
  · rfl
  next hne =>
    have hcount : ∀ window, (∀ b ∈ window, b ∈ bytes) → (everyOther window).count 0 = 0 := by
      intro window hsub
      apply count_eq_zero_of_not_mem
      intro hm
      exact hnul (hsub 0 (mem_of_mem_everyOther hm))
    have hwindow : ∀ b ∈ bytes.take (size - size % 2), b ∈ bytes := fun b hb => mem_of_mem_take hb
    have hodd : ∀ b ∈ (bytes.take (size - size % 2)).drop 1, b ∈ bytes :=
      fun b hb => hwindow b (mem_of_mem_drop hb)
    have hunits : 0 < (bytes.take (size - size % 2)).length / 2 := by
      -- the window has an even length, and some byte
      have hpos := length_pos_of_ne_nil hne
      rw [length_take] at hpos ⊢
      omega
    rw [hcount _ hwindow, hcount _ hodd, candidate_eq_none hvalid hunits,
      candidate_eq_none hvalid hunits]

theorem infix_of_mem_windows {x y z : UInt8}
    (h : (x, y, z) ∈ bytes.zip ((bytes.drop 1).zip (bytes.drop 2))) : [x, y, z] <:+: bytes := by
  induction bytes with
  | nil => exact absurd h not_mem_nil
  | cons a bytes ih =>
    match bytes with
    | [] => exact absurd h not_mem_nil
    | [_] => exact absurd h not_mem_nil
    | b :: d :: bytes =>
      obtain heq | h := mem_cons.mp h
      · obtain ⟨rfl, htail⟩ := Prod.mk.inj heq
        cases htail
        exact ⟨[], bytes, rfl⟩
      · exact (ih h).trans (suffix_cons a _).isInfix

theorem looksLikeIso2022Jp_eq_true (h : looksLikeIso2022Jp bytes = true) :
    HasJisEscape bytes := by
  rw [looksLikeIso2022Jp, Bool.and_eq_true, any_eq_true] at h
  obtain ⟨-, ⟨x, y, z⟩, hmem, hw⟩ := h
  have hinfix := infix_of_mem_windows hmem
  simp only [Bool.and_eq_true, Bool.or_eq_true, decide_eq_true_eq] at hw
  obtain ⟨⟨rfl, rfl⟩, rfl | rfl⟩ := hw
  · exact .inl hinfix
  · exact .inr hinfix

theorem isDetectable_windows1252 : Encoding.windows1252.isDetectable = true := by decide +kernel

theorem isDetectable_iso2022JP : Encoding.iso2022JP.isDetectable = true := by decide +kernel

structure Clean (d : Decoded) (bytes : List UInt8) : Prop where
  lossy : d.lossy = false
  nul : 0 ∉ bytes → '\x00' ∉ d.text.toList

theorem Assumed.clean_strict (hc : c.Assumed) {text : String}
    (he : e.isDetectable = true) (h : c.strict e bytes = some text) :
    Clean ⟨text, e, false⟩ bytes where
  lossy := rfl
  nul hzero hm := by
    have hdecode := hc.strict e bytes text h
    apply hzero
    apply hc.nul e bytes he
    rw [hdecode]
    exact hm

theorem Assumed.clean_windows1252 (hc : c.Assumed) (bytes : List UInt8) :
    Clean (c.decodeWith .windows1252 bytes) bytes where
  lossy := hc.windows1252 bytes
  nul hzero hm := hzero (hc.nul _ bytes isDetectable_windows1252 hm)

theorem Assumed.clean_detected (hc : c.Assumed) (bytes : List UInt8) :
    Clean (c.decodeDetected bytes) bytes := by
  rw [decodeDetected]
  split
  next text htext =>
    refine ⟨rfl, ?_⟩
    intro hzero hm
    rw [hc.fromUtf8] at htext
    apply hzero
    rw [← utf8_of_fromUtf8 htext]
    exact zero_mem_utf8 hm
  next =>
    split
    next he =>
      split
      next text htext => exact hc.clean_strict he htext
      next => exact hc.clean_windows1252 bytes
    next => exact hc.clean_windows1252 bytes

theorem Assumed.clean_unsniffed (hc : c.Assumed) (h : c.sniffUtf16 bytes = none) :
    Clean (c.decodeUnhinted bytes) bytes := by
  rw [decodeUnhinted, h]
  dsimp only
  split
  next =>
    split
    next text htext => exact hc.clean_strict isDetectable_iso2022JP htext
    next => exact hc.clean_detected bytes
  next => exact hc.clean_detected bytes

theorem decodeSource_none (hbom : c.forBom bytes = none) :
    c.decodeSource bytes none = c.decodeUnhinted bytes := by
  rw [decodeSource, hbom]
  rfl

/-- Without a mark and without a hint decoding is never lossy; the text of a file that is not
binary has no U+0000; and valid UTF-8 without NULs and without a JIS X 0208 designation is
returned as it is. -/
theorem decodeSource_unmarked {c : Codecs} (hc : c.Assumed) {bytes : List UInt8}
    (hbom : c.forBom bytes = none) :
    (c.decodeSource bytes none).lossy = false ∧
      (c.isBinaryWithHint bytes none = false → '\x00' ∉ (c.decodeSource bytes none).text.toList) ∧
      ∀ text : String, utf8 text = bytes → 0 ∉ bytes → ¬HasJisEscape bytes →
        c.decodeSource bytes none = ⟨text, .utf8, false⟩ := by
  rw [decodeSource_none hbom]
  refine ⟨?_, ?_, ?_⟩
  · cases h : c.sniffUtf16 bytes with
    | some e =>
      obtain ⟨text, htext, -⟩ := sniffUtf16_eq_some h
      rw [decodeUnhinted, h]
      show (c.decode e bytes).2 = false
      rw [hc.strict e bytes text htext]
    | none => exact (hc.clean_unsniffed h).lossy
  · intro hbinary
    cases h : c.sniffUtf16 bytes with
    | some e =>
      obtain ⟨text, htext, hclean⟩ := sniffUtf16_eq_some h
      rw [decodeUnhinted, h]
      show '\x00' ∉ (c.decode e bytes).1.toList
      rw [hc.strict e bytes text htext]
      exact hclean
    | none =>
      -- the sniff is what `is_binary` asks too, so there is no NUL byte
      apply (hc.clean_unsniffed h).nul
      intro hzero
      rw [isBinaryWithHint, hbom, h, List.contains_iff_mem.mpr hzero] at hbinary
      exact Bool.false_ne_true hbinary.symm
  · intro text htext hnul hjis
    have hfrom : c.fromUtf8 bytes = some text := by
      rw [hc.fromUtf8, ← htext, fromUtf8_utf8]
    have hsniff := sniffUtf16_eq_none (by rw [hfrom]; exact Option.some_ne_none text) hnul
    have hiso : ¬looksLikeIso2022Jp bytes = true := fun h => hjis (looksLikeIso2022Jp_eq_true h)
    rw [decodeUnhinted, hsniff]
    dsimp only
    rw [if_neg hiso, decodeDetected, hfrom]

def latin : Codecs where
  forBom _ := none
  decode _ bytes := (String.ofList (bytes.map fun b => Char.ofNat b.toNat), false)
  strict e bytes := if e.isDetectable then some (String.ofList (bytes.map fun b =>
    Char.ofNat b.toNat)) else none
  fromUtf8 := Lib.fromUtf8
  guess _ := .windows1252

theorem latin_assumed : latin.Assumed where
  fromUtf8 := rfl
  strict e bytes text h := by
    rw [latin] at h
    dsimp only at h
    split at h
    · rw [← Option.some.inj h]
      rfl
    · exact nomatch h
  windows1252 _ := rfl
  nul e bytes _ h := by
    have hmem : '\x00' ∈ (String.ofList (bytes.map fun b => Char.ofNat b.toNat)).toList := h
    rw [String.toList_ofList] at hmem
    obtain ⟨b, hb, hzero⟩ := mem_map.mp hmem
    have hall : ∀ i : Fin 256, Char.ofNat i.val = '\x00' → i = 0 := by decide +kernel
    have hb0 := hall ⟨b.toNat, b.toNat_lt⟩ hzero
    have : b = 0 := UInt8.toNat_inj.mp (congrArg Fin.val hb0)
    exact this ▸ hb

theorem decodeSource_unmarked_latin :
    (latin.decodeSource [0xe9] none).lossy = false ∧
      latin.decodeSource (utf8 "é") none = ⟨"é", .utf8, false⟩ :=
  ⟨(decodeSource_unmarked latin_assumed rfl).1,
    (decodeSource_unmarked latin_assumed rfl).2.2 "é" rfl (by decide +kernel)
    (by unfold HasJisEscape; decide +kernel)⟩

end Codecs
end MemoryGraph
