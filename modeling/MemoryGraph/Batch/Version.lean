import MemoryGraph.Batch.Reach

/-! The extractor version read back out of a fingerprint. -/

namespace MemoryGraph
open Lib Codec List

def stripFront (p s : List Char) : Option (List Char) :=
  if p.isPrefixOf s then some (s.drop p.length) else none

def stripBack (p s : List Char) : Option (List Char) :=
  if p.isSuffixOf s then some (s.take (s.length - p.length)) else none

def splitOnce (c : Char) : List Char → Option (List Char × List Char)
  | [] => none
  | d :: s => if d = c then some ([], s) else (splitOnce c s).map fun r => (d :: r.1, r.2)

def rsplitOnce (p : List Char) : List Char → Option (List Char × List Char)
  | [] => none
  | d :: s =>
    match rsplitOnce p s with
    | some (a, b) => some (d :: a, b)
    | none => if p.isPrefixOf (d :: s) then some ([], (d :: s).drop p.length) else none

theorem stripFront_append (p s : List Char) : stripFront p (p ++ s) = some s := by
  rw [stripFront, if_pos (List.isPrefixOf_iff_prefix.mpr (prefix_append p s)), drop_left]

theorem stripBack_append (p s : List Char) : stripBack p (s ++ p) = some s := by
  rw [stripBack, if_pos (isSuffixOf_iff_suffix.mpr (suffix_append s p)), length_append,
    Nat.add_sub_cancel, take_left]

theorem stripBack_eq_some {p s r : List Char} (h : stripBack p s = some r) : s = r ++ p := by
  rw [stripBack] at h
  split at h
  next hs =>
    obtain ⟨t, rfl⟩ := isSuffixOf_iff_suffix.mp hs
    rw [length_append, Nat.add_sub_cancel, take_left] at h
    rw [← Option.some.inj h]
  next => exact nomatch h

theorem splitOnce_append {c : Char} {a b : List Char} (h : c ∉ a) :
    splitOnce c (a ++ c :: b) = some (a, b) := by
  induction a with
  | nil => rw [nil_append, splitOnce, if_pos rfl]
  | cons d a ih =>
    have hd : d ≠ c := fun e => h (e ▸ mem_cons_self)
    rw [cons_append, splitOnce, if_neg hd, ih fun hm => h (.tail _ hm), Option.map_some]

theorem rsplitOnce_eq_none {c : Char} {p s : List Char} (h : c ∉ s) :
    rsplitOnce (c :: p) s = none := by
  induction s with
  | nil => rfl
  | cons d s ih =>
    have hd : ¬(c :: p).isPrefixOf (d :: s) = true := by
      intro hp
      obtain ⟨t, ht⟩ := isPrefixOf_iff_prefix.mp hp
      exact h ((cons.inj ht).1 ▸ mem_cons_self)
    rw [rsplitOnce, ih fun hm => h (.tail _ hm)]
    dsimp only
    rw [if_neg hd]

theorem rsplitOnce_append {c : Char} {p b : List Char} (hp : c ∉ p) (hb : c ∉ b) (a : List Char) :
    rsplitOnce (c :: p) (a ++ (c :: p ++ b)) = some (a, b) := by
  induction a with
  | nil =>
    have hrest : c ∉ p ++ b := fun hm => (mem_append.mp hm).elim hp hb
    rw [nil_append, cons_append, rsplitOnce, rsplitOnce_eq_none hrest]
    dsimp only
    rw [← cons_append, if_pos (List.isPrefixOf_iff_prefix.mpr (prefix_append _ b)), drop_left]
  | cons d a ih => rw [cons_append, rsplitOnce, ih]

theorem rsplitOnce_eq_some {p s a b : List Char} (h : rsplitOnce p s = some (a, b)) :
    s = a ++ (p ++ b) := by
  induction s generalizing a with
  | nil => exact nomatch h
  | cons d s ih =>
    rw [rsplitOnce] at h
    split at h
    next a' b' hs =>
      cases h
      rw [ih hs]
      rfl
    next =>
      split at h
      next hp =>
        cases h
        obtain ⟨t, ht⟩ := isPrefixOf_iff_prefix.mp hp
        rw [← ht, drop_left]
        rfl
      next => exact nomatch h

def shaMark : List Char := ['s', 'h', 'a', '2', '5', '6', ':']

def formatMark : List Char := ['|', '1']

def encodingMark : List Char := ['|', 'e', 'n', 'c', '=']

def lossyMark : List Char := ['+', 'l', 'o', 's', 's', 'y']

def wellFormedSuffix (tail : List Char) : Bool :=
  match rsplitOnce ['@'] tail with
  | none => false
  | some (name, version) =>
    let name := (stripBack lossyMark name).getD name
    !name.isEmpty && !name.any (fun c => c == '|' || c == '@') && !version.isEmpty &&
      version.all Char.isDigit

def stripEncodingSuffix (fp : List Char) : List Char :=
  match rsplitOnce encodingMark fp with
  | none => fp
  | some (before, tail) => if wellFormedSuffix tail then before else fp

def fingerprintExtractorVersion (fp lang : String) : Option String := do
  let rest ← stripFront shaMark (stripEncodingSuffix fp.toList)
  let (_, rest) ← splitOnce '|' rest
  let rest ← stripFront (asciiLower lang).toList rest
  let rest ← stripFront ['|'] rest
  let version ← stripBack formatMark rest
  return String.ofList version

def baseText (digest : List UInt8) (lang version : String) : List Char :=
  shaMark ++ (digest.flatMap hexByte ++ '|' :: ((asciiLower lang).toList ++
    '|' :: (version.toList ++ formatMark)))

def encodingText (e : Encoding) (lossy : Bool) : List Char :=
  (e.name.toList ++ if lossy then lossyMark else []) ++ '@' :: ['1']

theorem fingerprint_eq_base (x : Indexer) (bytes : List UInt8) (lang : String) (e : Encoding)
    (lossy : Bool) :
    (x.fingerprint bytes lang e lossy).toList =
      baseText (x.sha256 bytes) lang (x.registry.version lang) ++
        if toldDecoding e lossy then encodingMark ++ encodingText e lossy else [] := by
  have hdecoding : '|' :: decodingField e lossy = encodingMark ++ encodingText e lossy := by
    cases lossy <;> simp [decodingField, encodingText, encodingMark, lossyMark]
  rw [toList_fingerprint, hdecoding, baseText]
  simp [shaMark, formatMark]

theorem stripEncodingSuffix_base (s : List Char) :
    stripEncodingSuffix (s ++ formatMark) = s ++ formatMark := by
  rw [stripEncodingSuffix]
  split
  next => rfl
  next before tail hsplit =>
    rw [if_neg]
    intro hwell
    have hbar : '|' ∈ tail := by
      have hcut := rsplitOnce_eq_some hsplit
      have hrev := congrArg reverse hcut
      rw [reverse_append, reverse_append, reverse_append] at hrev
      match htail : tail.reverse with
      | [] =>
        rw [htail] at hrev
        exact absurd (cons.inj hrev).1 (by decide)
      | [c] =>
        rw [htail] at hrev
        exact absurd (cons.inj (cons.inj hrev).2).1 (by decide)
      | c :: d :: r =>
        rw [htail] at hrev
        have hd : '|' = d := (cons.inj (cons.inj hrev).2).1
        rw [← mem_reverse, htail, hd]
        exact mem_cons_of_mem _ mem_cons_self
    rw [wellFormedSuffix] at hwell
    split at hwell
    next => exact Bool.false_ne_true hwell
    next name version hat =>
      simp only [Bool.and_eq_true, Bool.not_eq_true', all_eq_true] at hwell
      obtain ⟨⟨⟨-, hname⟩, -⟩, hversion⟩ := hwell
      rw [rsplitOnce_eq_some hat] at hbar
      have hclean : '|' ∉ (stripBack lossyMark name).getD name := by
        intro hm
        rw [any_eq_false] at hname
        exact hname '|' hm rfl
      have hbar' : '|' ∈ name := by
        obtain hm | hm := mem_append.mp hbar
        · exact hm
        · obtain hm | hm := mem_cons.mp hm
          · exact absurd hm (by decide)
          · exact absurd (hversion '|' hm) (by decide)
      cases hlossy : stripBack lossyMark name with
      | none =>
        rw [hlossy] at hclean
        exact hclean hbar'
      | some r =>
        rw [hlossy] at hclean
        rw [stripBack_eq_some hlossy] at hbar'
        obtain hm | hm := mem_append.mp hbar'
        · exact hclean hm
        · exact absurd hm (by decide)

theorem wellFormedSuffix_encodingText (e : Encoding) (lossy : Bool) :
    wellFormedSuffix (encodingText e lossy) = true := by
  have hsplit : rsplitOnce ['@'] (encodingText e lossy) =
      some (e.name.toList ++ if lossy then lossyMark else [], ['1']) := by
    rw [encodingText]
    exact rsplitOnce_append (by decide) (by decide) _
  -- a name has no `+`, so only the mark that was put there is taken off
  have hname : (stripBack lossyMark (e.name.toList ++ if lossy then lossyMark else [])).getD
      (e.name.toList ++ if lossy then lossyMark else []) = e.name.toList := by
    cases lossy with
    | true => rw [if_pos rfl, stripBack_append, Option.getD_some]
    | false =>
      rw [if_neg Bool.false_ne_true, append_nil]
      cases hstrip : stripBack lossyMark e.name.toList with
      | none => rw [Option.getD_none]
      | some r =>
        have hplus : '+' ∈ e.name.toList := by
          rw [stripBack_eq_some hstrip]
          exact mem_append_right r (by decide)
        exact absurd hplus (e.plain _ (by decide))
  have hclean : e.name.toList.any (fun c => c == '|' || c == '@') = false := by
    rw [any_eq_false]
    intro c hc
    simp only [Bool.or_eq_true, beq_iff_eq]
    rintro (rfl | rfl) <;> exact e.plain _ (by decide) hc
  have hne : e.name.toList ≠ [] := fun h => e.named (String.toList_eq_nil_iff.mp h)
  rw [wellFormedSuffix, hsplit]
  dsimp only
  rw [hname, hclean, isEmpty_eq_false_iff.mpr hne]
  decide

theorem stripEncodingSuffix_encoding (s : List Char) (e : Encoding) (lossy : Bool) :
    stripEncodingSuffix (s ++ (encodingMark ++ encodingText e lossy)) = s := by
  have hbar : '|' ∉ e.name.toList := e.plain _ (by decide)
  have hfield : '|' ∉ encodingText e lossy := by
    cases lossy <;> simp [encodingText, lossyMark, hbar]
  have hsplit : rsplitOnce encodingMark (s ++ (encodingMark ++ encodingText e lossy)) =
      some (s, encodingText e lossy) :=
    rsplitOnce_append (c := '|') (p := ['e', 'n', 'c', '=']) (by decide) hfield s
  rw [stripEncodingSuffix, hsplit]
  dsimp only
  rw [if_pos (wellFormedSuffix_encodingText e lossy)]

theorem version_of_base {fp : String} {digest : List UInt8} {lang lang' version : String}
    (hstrip : stripEncodingSuffix fp.toList = baseText digest lang version)
    (hlang : asciiLower lang' = asciiLower lang) :
    fingerprintExtractorVersion fp lang' = some version := by
  have hhex : '|' ∉ digest.flatMap hexByte := notMem_hex (by decide) digest
  rw [fingerprintExtractorVersion, hstrip, baseText, stripFront_append, hlang]
  dsimp only [Option.bind_eq_bind, Option.bind_some]
  rw [splitOnce_append hhex]
  dsimp only [Option.bind_some]
  rw [stripFront_append]
  dsimp only [Option.bind_some]
  rw [show '|' :: (version.toList ++ formatMark) = ['|'] ++ (version.toList ++ formatMark) from rfl,
    stripFront_append]
  dsimp only [Option.bind_some]
  rw [stripBack_append]
  dsimp only [Option.bind_some]
  rw [String.ofList_toList]
  rfl

theorem baseText_eq_snoc (digest : List UInt8) (lang version : String) :
    ∃ s, baseText digest lang version = s ++ formatMark :=
  ⟨shaMark ++ (digest.flatMap hexByte ++ '|' ::
    ((asciiLower lang).toList ++ '|' :: version.toList)), by
    simp [baseText]⟩

/-- The version is read back from the fingerprint of any file. -/
theorem extractorVersion_of_fingerprint (x : Indexer) (bytes : List UInt8) {lang lang' : String}
    (e : Encoding) (lossy : Bool) (hlang : asciiLower lang' = asciiLower lang) :
    fingerprintExtractorVersion (x.fingerprint bytes lang e lossy) lang' =
      some (x.registry.version lang) := by
  refine @version_of_base _ (x.sha256 bytes) lang lang' _ ?_ hlang
  rw [fingerprint_eq_base]
  split
  next => exact stripEncodingSuffix_encoding _ e lossy
  next =>
    obtain ⟨s, hs⟩ := baseText_eq_snoc (x.sha256 bytes) lang (x.registry.version lang)
    rw [List.append_nil, hs, stripEncodingSuffix_base]

theorem extractorVersion_of_fingerprint_barred :
    fingerprintExtractorVersion (Indexer.fingerprint { sampleIndexer with
        registry := { sampleRegistry with fallbackVersion := "2|enc=x@1" } }
      [0xab] "A|B" .utf16LE true) "a|b" = some "2|enc=x@1" :=
  extractorVersion_of_fingerprint _ [0xab] .utf16LE true (by decide)

end MemoryGraph
