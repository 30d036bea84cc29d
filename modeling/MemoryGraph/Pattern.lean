import MemoryGraph.Schema
import MemoryGraph.Path
import MemoryGraph.Lib.Utf8

/-! The symbol-name pattern language: markers at both ends, escapes of a star, and that every
name and every needle can be written. -/

namespace MemoryGraph
open Lib Utf8 List
variable {s : List Char}

inductive SymbolPattern where
  | Exact (name : String)
  | Prefix (name : String)
  | Infix (needle : String)
  | Suffix (needle : String)
deriving DecidableEq, Repr

namespace SymbolPattern

def folded : SymbolPattern → SymbolPattern
  | Exact s => Exact (asciiLower s)
  | Prefix s => Prefix (asciiLower s)
  | Infix s => Infix (asciiLower s)
  | Suffix s => Suffix (asciiLower s)

def matchesName (p : SymbolPattern) (name : List Char) : Bool :=
  match p with
  | Exact s => name = s.toList
  | Prefix s => s.toList.isPrefixOf name
  | Infix s => s.toList <:+: name
  | Suffix s => s.toList.isSuffixOf name

def needle : SymbolPattern → Option (List Char)
  | Infix s => some s.toList
  | Suffix s => some s.toList
  | _ => none

theorem infix_of_matchesName {p : SymbolPattern} {n name : List Char} (hn : p.needle = some n)
    (h : p.matchesName name = true) : n <:+: name := by
  cases p with
  | Exact s => exact nomatch hn
  | Prefix s => exact nomatch hn
  | Infix s =>
    cases hn
    exact of_decide_eq_true h
  | Suffix s =>
    cases hn
    exact (isSuffixOf_iff_suffix.mp h).isInfix

end SymbolPattern

namespace Pattern

def minNeedleBytes : Nat := 2

def maxNeedleBytes : Nat := 256

def leading : List Char → Bool × Bool × List Char
  | '\\' :: '*' :: r => (false, true, r)
  | '*' :: r => (true, false, r)
  | r => (false, false, r)

def trailing (s : List Char) : Bool × Bool × List Char :=
  match s.reverse with
  | '*' :: '\\' :: r => (false, true, r.reverse)
  | '*' :: r => (true, false, r.reverse)
  | _ => (false, false, s)

/-- The body of a needle: `\*` is a star, a bare star is refused. -/
def unescape : List Char → Option (List Char)
  | [] => some []
  | '\\' :: '*' :: s => (unescape s).map ('*' :: ·)
  | '*' :: _ => none
  | c :: s => (unescape s).map (c :: ·)

def star (literal : Bool) : List Char := if literal then ['*'] else []

def checkNeedle (marker : Bool) (needle : List Char) : Except StoreError SymbolPattern :=
  let what := if marker then "infix" else "suffix"
  if needle = [] then .error (.rejected ("the " ++ what ++ " needle is empty"))
  else if byteLen needle < minNeedleBytes then
    .error (.rejected (what ++ " needle needs at least " ++ toString minNeedleBytes ++ " bytes"))
  else if maxNeedleBytes < byteLen needle then
    .error (.rejected (what ++ " needle is longer than " ++ toString maxNeedleBytes ++ " bytes"))
  else .ok (if marker then .Infix (String.ofList needle) else .Suffix (String.ofList needle))

def parse (input : List Char) : Except StoreError SymbolPattern :=
  if input = [] then .error (.rejected "empty symbol pattern (use `*` to list all symbols)")
  else if input = ['*'] then .ok (.Prefix "")
  else if ['*', '*'].isSuffixOf input then
    .error (.rejected ("pattern ending in `**` is ambiguous: use `prefix*` for a prefix, " ++
      "`*needle*` for a name containing `needle` (no `*` inside it), or " ++
      "`name\\*` for a literal `*`"))
  else
    let (leadMarker, leadLiteral, rest) := leading input
    let (trailMarker, trailLiteral, body) := trailing rest
    if !leadMarker then
      let name := String.ofList (star leadLiteral ++ (body ++ star trailLiteral))
      .ok (if trailMarker then .Prefix name else .Exact name)
    else
      match unescape body with
      | none => .error (.rejected ("unescaped `*` inside an infix or suffix needle " ++
          "(only `*needle*` and `*needle` are supported; write `\\*` for a literal `*`)"))
      | some needle => checkNeedle trailMarker (needle ++ star trailLiteral)

end Pattern

def parseSymbolPattern (input : String) : Except StoreError SymbolPattern :=
  Pattern.parse input.toList

namespace Pattern

def escapeBack (s : List Char) : List Char := if s.getLast? = some '*' then s.dropLast ++
    ['\\', '*'] else s

def escapeEnds : List Char → List Char
  | '*' :: s => '\\' :: '*' :: escapeBack s
  | s => escapeBack s

def escapeStars (s : List Char) : List Char := s.flatMap fun c =>
    if c = '*' then ['\\', '*'] else [c]

theorem escapeBack_snoc (s : List Char) : escapeBack (s ++ ['*']) = s ++ ['\\', '*'] := by
  rw [escapeBack, getLast?_concat, if_pos rfl, dropLast_concat]

theorem trailing_literal (s : List Char) : trailing (s ++ ['\\', '*']) = (false, true, s) := by
  simp [trailing]

theorem trailing_plain (h : s.getLast? ≠ some '*') : trailing s = (false, false, s) := by
  rw [trailing]
  rw [← head?_reverse] at h
  split
  next heq => exact absurd (by rw [heq]; rfl) h
  next heq => exact absurd (by rw [heq]; rfl) h
  next => rfl

theorem trailing_marker (h : s.getLast? ≠ some '\\') :
    trailing (s ++ ['*']) = (true, false, s) := by
  rw [trailing, reverse_append]
  rw [← head?_reverse] at h
  split
  next r heq =>
    have hcons : s.reverse = '\\' :: r := (cons.inj heq).2
    exact absurd (by rw [hcons]; rfl) h
  next r _ heq =>
    have hcons : s.reverse = r := (cons.inj heq).2
    rw [← hcons, reverse_reverse]
  next h1 h2 => exact absurd rfl (h2 s.reverse)

theorem trailing_escapeBack (s : List Char) :
    ∃ body literal, trailing (escapeBack s) = (false, literal, body) ∧
      body ++ star literal = s := by
  by_cases h : s.getLast? = some '*'
  · obtain ⟨t, rfl⟩ := getLast?_eq_some_iff.mp h
    exact ⟨t, true, by rw [escapeBack_snoc, trailing_literal], rfl⟩
  · refine ⟨s, false, ?_, append_nil s⟩
    rw [escapeBack, if_neg h, trailing_plain h]

theorem not_suffix_of_getLast (h : s.getLast? ≠ some '*') : ['*', '*'].isSuffixOf s = false := by
  apply Bool.eq_false_iff.mpr
  intro hs
  obtain ⟨t, rfl⟩ := isSuffixOf_iff_suffix.mp hs
  exact h (by simp)

theorem not_suffix_of_snoc (h : s.getLast? ≠ some '*') :
    ['*', '*'].isSuffixOf (s ++ ['*']) = false := by
  apply Bool.eq_false_iff.mpr
  intro hs
  obtain ⟨t, ht⟩ := isSuffixOf_iff_suffix.mp hs
  have hcut : t ++ ['*'] = s := append_cancel_right (by simpa using ht)
  exact h (by rw [← hcut, getLast?_concat])

theorem not_suffix_literal (s : List Char) : ['*', '*'].isSuffixOf (s ++ ['\\', '*']) = false := by
  have := not_suffix_of_snoc (s := s ++ ['\\']) (by simp)
  rwa [append_assoc] at this

theorem not_suffix_escapeBack (pre : List Char) (hs : s ≠ []) :
    ['*', '*'].isSuffixOf (pre ++ escapeBack s) = false := by
  by_cases h : s.getLast? = some '*'
  · obtain ⟨t, rfl⟩ := getLast?_eq_some_iff.mp h
    rw [escapeBack_snoc, ← append_assoc]
    exact not_suffix_literal _
  · rw [escapeBack, if_neg h]
    apply not_suffix_of_getLast
    rwa [getLast?_append_of_ne_nil _ hs]

theorem parse_name {input rest body : List Char} {lead trail marker : Bool} (hne : input ≠ [])
    (hstar : input ≠ ['*']) (hdouble : ['*', '*'].isSuffixOf input = false)
    (hlead : leading input = (false, lead, rest)) (htrail : trailing rest = (marker, trail, body)) :
    parse input = .ok (if marker then .Prefix (String.ofList (star lead ++ (body ++ star trail)))
      else .Exact (String.ofList (star lead ++ (body ++ star trail)))) := by
  rw [parse, if_neg hne, if_neg hstar, if_neg (by rw [hdouble]; exact Bool.false_ne_true), hlead]
  dsimp only
  rw [htrail]
  rfl

theorem leading_plain (hstar : s.head? ≠ some '*') (hesc : ¬['\\', '*'] <+: s) :
    leading s = (false, false, s) := by
  rw [leading.eq_def]
  split
  next r => exact absurd ⟨r, rfl⟩ hesc
  next => exact absurd rfl hstar
  next => rfl

theorem escapeEnds_plain (hstar : s.head? ≠ some '*') : escapeEnds s = escapeBack s := by
  rw [escapeEnds.eq_def]
  split
  next => exact absurd rfl hstar
  next => rfl

theorem front_escapeBack (hne : s ≠ []) (hstar : s.head? ≠ some '*') (hesc : ¬['\\', '*'] <+: s) :
    (escapeBack s).head? ≠ some '*' ∧ ¬['\\', '*'] <+: escapeBack s ∧ escapeBack s ≠ [] := by
  by_cases h : s.getLast? = some '*'
  · obtain ⟨t, rfl⟩ := getLast?_eq_some_iff.mp h
    rw [escapeBack_snoc]
    cases t with
    | nil => exact absurd rfl hstar
    | cons c t =>
      refine ⟨hstar, ?_, cons_ne_nil _ _⟩
      rintro ⟨r, hr⟩
      obtain ⟨rfl, htail⟩ := cons.inj hr
      cases t with
      | nil => exact absurd (cons.inj htail).1 (by decide)
      | cons d t =>
        cases htail
        exact hesc ⟨t ++ ['*'], rfl⟩
  · rw [escapeBack, if_neg h]
    exact ⟨hstar, hesc, hne⟩

theorem parse_escapeEnds {name : List Char} (hne : name ≠ []) (hesc : ¬['\\', '*'] <+: name) :
    parse (escapeEnds name) = .ok (.Exact (String.ofList name)) := by
  by_cases hstar : name.head? = some '*'
  · obtain ⟨s, rfl⟩ := head?_eq_some_iff.mp hstar
    obtain ⟨body, literal, htrail, hs⟩ := trailing_escapeBack s
    have hdouble : ['*', '*'].isSuffixOf ('\\' :: '*' :: escapeBack s) = false := by
      by_cases hnil : s = []
      · subst hnil
        rfl
      · exact not_suffix_escapeBack ['\\', '*'] hnil
    have hparse := parse_name (cons_ne_nil _ _) (by simp) hdouble rfl htrail
    rw [hs] at hparse
    exact hparse
  · obtain ⟨hstar', hesc', hne'⟩ := front_escapeBack hne hstar hesc
    obtain ⟨body, literal, htrail, hs⟩ := trailing_escapeBack name
    rw [escapeEnds_plain hstar]
    have hone : escapeBack name ≠ ['*'] := by
      intro h
      rw [h] at hstar'
      exact hstar' rfl
    have hparse := parse_name hne' hone (not_suffix_escapeBack [] hne)
      (leading_plain hstar' hesc') htrail
    rw [hs] at hparse
    exact hparse

theorem parse_escapeEnds_marker {name : List Char} (hne : name ≠ []) (hesc : ¬['\\', '*'] <+: name)
    (hlast : name.getLast? ≠ some '*' ∧ name.getLast? ≠ some '\\') :
    parse (escapeEnds name ++ ['*']) = .ok (.Prefix (String.ofList name)) := by
  by_cases hstar : name.head? = some '*'
  · obtain ⟨s, rfl⟩ := head?_eq_some_iff.mp hstar
    have hs : s ≠ [] := by
      rintro rfl
      exact hlast.1 rfl
    have hcons : ∀ c, ('*' :: s).getLast? = some c ↔ s.getLast? = some c := by
      intro c
      rw [getLast?_cons_of_ne_nil hs]
    have hplain : s.getLast? ≠ some '*' := fun h => hlast.1 ((hcons _).mpr h)
    have hback : s.getLast? ≠ some '\\' := fun h => hlast.2 ((hcons _).mpr h)
    rw [escapeEnds, escapeBack, if_neg hplain]
    have hdouble : ['*', '*'].isSuffixOf ('\\' :: '*' :: s ++ ['*']) = false := by
      apply not_suffix_of_snoc
      rwa [getLast?_cons_of_ne_nil (cons_ne_nil _ _), getLast?_cons_of_ne_nil hs]
    have hparse := parse_name (cons_ne_nil _ _) (by simp) hdouble rfl (trailing_marker hback)
    simpa [star] using hparse
  · rw [escapeEnds_plain hstar, escapeBack, if_neg hlast.1]
    obtain ⟨c, s, rfl⟩ := exists_cons_of_ne_nil hne
    have hesc' : ¬['\\', '*'] <+: (c :: s) ++ ['*'] := by
      rintro ⟨r, hr⟩
      obtain ⟨rfl, htail⟩ := cons.inj hr
      cases s with
      | nil => exact hlast.2 rfl
      | cons d s =>
        cases htail
        exact hesc ⟨s, rfl⟩
    have hparse := parse_name (cons_ne_nil _ _) (by simp) (not_suffix_of_snoc hlast.1)
      (leading_plain (s := (c :: s) ++ ['*']) hstar hesc') (trailing_marker hlast.2)
    simpa [star] using hparse

theorem head_escapeStars (s : List Char) : (escapeStars s).head? ≠ some '*' := by
  cases s with
  | nil => simp [escapeStars]
  | cons c s =>
    rw [escapeStars, flatMap_cons]
    split
    next => simp
    next hc => simpa using hc

theorem unescape_escapeStars (s : List Char) : unescape (escapeStars s) = some s := by
  induction s with
  | nil => rfl
  | cons c s ih =>
    have hcons : escapeStars (c :: s) = (if c = '*' then ['\\', '*'] else [c]) ++ escapeStars s :=
      rfl
    rw [hcons]
    split
    next hc =>
      rw [hc]
      show (unescape (escapeStars s)).map ('*' :: ·) = _
      rw [ih]
      rfl
    next hc =>
      have hhead := head_escapeStars s
      rw [singleton_append, unescape.eq_def]
      split
      next heq => exact absurd heq (cons_ne_nil _ _)
      next r heq =>
        rw [(cons.inj heq).2] at hhead
        exact absurd rfl hhead
      next r heq => exact absurd (cons.inj heq).1 hc
      next d r _ _ heq =>
        cases heq
        rw [ih]
        rfl

theorem escapeStars_append (s t : List Char) :
    escapeStars (s ++ t) = escapeStars s ++ escapeStars t :=
  flatMap_append

theorem escapeStars_last (hne : s ≠ []) :
    (∃ t, s = t ++ ['*'] ∧ escapeStars s = escapeStars t ++ ['\\', '*']) ∨
      (s.getLast? ≠ some '*' ∧ (escapeStars s).getLast? = s.getLast?) := by
  obtain ⟨t, c, rfl⟩ := (eq_nil_or_concat s).resolve_left hne
  rw [concat_eq_append, escapeStars_append]
  by_cases hc : c = '*'
  · subst hc
    exact .inl ⟨t, rfl, rfl⟩
  · refine .inr ⟨by simpa using hc, ?_⟩
    have hone : escapeStars [c] = [c] := by simp [escapeStars, hc]
    rw [hone, getLast?_concat, getLast?_concat]

theorem parse_needle {rest body needle : List Char} {trail marker : Bool} (hne : rest ≠ [])
    (hdouble : ['*', '*'].isSuffixOf ('*' :: rest) = false)
    (htrail : trailing rest = (marker, trail, body)) (hbody : unescape body = some needle)
    (hlen : minNeedleBytes ≤ byteLen (needle ++ star trail))
    (hmax : byteLen (needle ++ star trail) ≤ maxNeedleBytes) :
    parse ('*' :: rest) = .ok (if marker then .Infix (String.ofList (needle ++ star trail))
      else .Suffix (String.ofList (needle ++ star trail))) := by
  have hlead : leading ('*' :: rest) = (true, false, rest) := by
    rw [leading.eq_def]
    rfl
  have hneedle : needle ++ star trail ≠ [] := by
    intro h
    rw [h] at hlen
    exact absurd hlen (by decide)
  rw [parse, if_neg (cons_ne_nil _ _), if_neg (by simpa using hne),
    if_neg (by rw [hdouble]; exact Bool.false_ne_true), hlead]
  dsimp only
  rw [htrail]
  dsimp only
  rw [hbody]
  show checkNeedle marker _ = _
  rw [checkNeedle, if_neg hneedle, if_neg (Nat.not_lt.mpr hlen), if_neg (Nat.not_lt.mpr hmax)]

theorem parse_escapeStars {needle : List Char} (hlen : minNeedleBytes ≤ byteLen needle)
    (hmax : byteLen needle ≤ maxNeedleBytes) :
    parse ('*' :: escapeStars needle) = .ok (.Suffix (String.ofList needle)) := by
  have hne : needle ≠ [] := by
    rintro rfl
    exact absurd hlen (by decide)
  obtain ⟨t, rfl, hesc⟩ | ⟨hlast, hesc⟩ := escapeStars_last hne
  · rw [hesc]
    exact parse_needle (by simp) (not_suffix_literal ('*' :: escapeStars t)) (trailing_literal _)
      (unescape_escapeStars t) hlen hmax
  · rw [← hesc] at hlast
    have hrest : escapeStars needle ≠ [] := by
      intro h
      rw [h, getLast?_nil] at hesc
      exact hne (getLast?_eq_none_iff.mp hesc.symm)
    have hdouble : ['*', '*'].isSuffixOf ('*' :: escapeStars needle) = false := by
      apply not_suffix_of_getLast
      rwa [getLast?_cons_of_ne_nil hrest]
    have hparse := parse_needle hrest hdouble (trailing_plain hlast) (unescape_escapeStars needle)
      (by simpa [star] using hlen) (by simpa [star] using hmax)
    simpa [star] using hparse

theorem parse_escapeStars_marker {needle : List Char} (hlen : minNeedleBytes ≤ byteLen needle)
    (hmax : byteLen needle ≤ maxNeedleBytes) (hstar : needle.getLast? ≠ some '*')
    (hback : needle.getLast? ≠ some '\\') :
    parse ('*' :: (escapeStars needle ++ ['*'])) = .ok (.Infix (String.ofList needle)) := by
  have hne : needle ≠ [] := by
    rintro rfl
    exact absurd hlen (by decide)
  obtain ⟨t, rfl, -⟩ | ⟨-, hesc⟩ := escapeStars_last hne
  · exact absurd (getLast?_concat ..) hstar
  · rw [← hesc] at hstar hback
    have hrest : escapeStars needle ≠ [] := by
      intro h
      rw [h, getLast?_nil] at hesc
      exact hne (getLast?_eq_none_iff.mp hesc.symm)
    have hdouble : ['*', '*'].isSuffixOf ('*' :: (escapeStars needle ++ ['*'])) = false := by
      apply not_suffix_of_snoc (s := '*' :: escapeStars needle)
      rwa [getLast?_cons_of_ne_nil hrest]
    have hparse := parse_needle (by simp) hdouble (trailing_marker hback)
      (unescape_escapeStars needle) (by simpa [star] using hlen) (by simpa [star] using hmax)
    simpa [star] using hparse

theorem checkNeedle_bounds {marker : Bool} {needle : List Char} {p : SymbolPattern}
    (h : checkNeedle marker needle = .ok p) :
    minNeedleBytes ≤ byteLen needle ∧ byteLen needle ≤ maxNeedleBytes ∧
      p = if marker then .Infix (String.ofList needle) else .Suffix (String.ofList needle) := by
  rw [checkNeedle] at h
  split at h
  · exact nomatch h
  split at h
  · exact nomatch h
  next hmin =>
  split at h
  · exact nomatch h
  next hmax => exact ⟨Nat.not_lt.mp hmin, Nat.not_lt.mp hmax, (Except.ok.inj h).symm⟩

theorem parse_bounds {input : List Char} {needle : String}
    (h : parse input = .ok (.Infix needle) ∨ parse input = .ok (.Suffix needle)) :
    minNeedleBytes ≤ byteLen needle.toList ∧ byteLen needle.toList ≤ maxNeedleBytes := by
  obtain ⟨p, hp, hneedle⟩ : ∃ p, parse input = .ok p ∧
    (p = .Infix needle ∨ p = .Suffix needle) := by
    obtain h | h := h
    · exact ⟨_, h, .inl rfl⟩
    · exact ⟨_, h, .inr rfl⟩
  rw [parse] at hp
  split at hp
  · exact nomatch hp
  split at hp
  · cases hp
    exact absurd hneedle (by simp)
  split at hp
  · exact nomatch hp
  dsimp only at hp
  split at hp
  · cases hp
    split at hneedle <;> exact absurd hneedle (by simp)
  split at hp
  · exact nomatch hp
  next body _ =>
    obtain ⟨hmin, hmax, rfl⟩ := checkNeedle_bounds hp
    obtain rfl : needle = String.ofList (body ++ star (trailing (leading input).2.2).2.1) := by
      split at hneedle <;> simpa [eq_comm] using hneedle
    rw [String.toList_ofList]
    exact ⟨hmin, hmax⟩

end Pattern

open Pattern in
/-- The escapes are complete: every name that does not itself begin with `\*` and every needle
of an allowed length can be written, and no other needle is accepted. -/
theorem parseSymbolPattern_complete :
    (∀ name : List Char, name ≠ [] → ¬['\\', '*'] <+: name →
      parseSymbolPattern (String.ofList (escapeEnds name)) = .ok (.Exact (String.ofList name)) ∧
        (name.getLast? ≠ some '*' → name.getLast? ≠ some '\\' →
          parseSymbolPattern (String.ofList (escapeEnds name ++ ['*'])) =
            .ok (.Prefix (String.ofList name)))) ∧
      (∀ needle : List Char, 2 ≤ byteLen needle → byteLen needle ≤ 256 →
        parseSymbolPattern (String.ofList ('*' :: escapeStars needle)) =
          .ok (.Suffix (String.ofList needle)) ∧
          (needle.getLast? ≠ some '*' → needle.getLast? ≠ some '\\' →
            parseSymbolPattern (String.ofList ('*' :: (escapeStars needle ++ ['*']))) =
              .ok (.Infix (String.ofList needle)))) ∧
      ∀ input needle : String, parseSymbolPattern input = .ok (.Infix needle) ∨
        parseSymbolPattern input = .ok (.Suffix needle) →
        2 ≤ byteLen needle.toList ∧ byteLen needle.toList ≤ 256 := by
  simp only [parseSymbolPattern, String.toList_ofList]
  refine ⟨?_, ?_, ?_⟩
  · intro name hne hesc
    exact ⟨parse_escapeEnds hne hesc, fun hstar hback =>
      parse_escapeEnds_marker hne hesc ⟨hstar, hback⟩⟩
  · intro needle hmin hmax
    exact ⟨parse_escapeStars hmin hmax, parse_escapeStars_marker hmin hmax⟩
  · intro input needle h
    exact parse_bounds h

open Pattern in
theorem parseSymbolPattern_complete_star :
    parseSymbolPattern "\\*" = .ok (.Exact "*") ∧
      parseSymbolPattern "*\\\\*" = .ok (.Suffix "\\*") :=
  ⟨(parseSymbolPattern_complete.1 ['*'] (by decide) (by decide)).1,
    (parseSymbolPattern_complete.2.1 ['\\', '*'] (by decide) (by decide)).1⟩

end MemoryGraph
