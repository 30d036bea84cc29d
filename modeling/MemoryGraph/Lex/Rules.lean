import MemoryGraph.Lex.Cuts
import MemoryGraph.Lex.Lexer

/-! Every rule is sound: it does not panic, and its length is a character boundary beyond the
start. -/

namespace MemoryGraph.Lex
open Lib Utf8 List Option
variable {cls : TokenClass} {cond : Here → Modes → Bool} {h : Here}

def Here.Ok (h : Here) : Prop := (∃ s, h.rest = h.c :: s) ∧ h.c ≠ '\n'

def Modes.Ok (md : Modes) : Prop := ∀ q, md.m.pending = some q → q.utf8Size = 1

def Rule.Sound (r : Rule) : Prop := ∀ (h : Here) (md : Modes), h.Ok → md.Ok →
  ∃ md' t, r h md = some (md', t) ∧ md'.Ok ∧ ∀ n cls, t = some (n, cls) → PosCut h.rest n

theorem Here.Ok.ne_nil (hok : h.Ok) : h.rest ≠ [] := by
  obtain ⟨s, hs⟩ := hok.1
  rw [hs]
  exact cons_ne_nil _ _

theorem Rule.pass {m : Modes} (hm : m.Ok) {r : Checked (Modes × Option (Nat × TokenClass))}
    (hr : r = some (m, none)) :
    ∃ md' t, r = some (md', t) ∧ md'.Ok ∧ ∀ n cls, t = some (n, cls) → PosCut h.rest n :=
  ⟨m, none, hr, hm, nofun⟩

theorem Rule.take {m : Modes} (hm : m.Ok) {n : Nat} (hn : PosCut h.rest n)
    {r : Checked (Modes × Option (Nat × TokenClass))} (hr : r = some (m, some (n, cls))) :
    ∃ md' t, r = some (md', t) ∧ md'.Ok ∧ ∀ n cls, t = some (n, cls) → PosCut h.rest n := by
  refine ⟨m, _, hr, hm, ?_⟩
  intro n' cls' heq
  cases heq
  exact hn

theorem ruleIf_sound {len : Here → Checked (Option Nat)}
    (hlen : ∀ h md, h.Ok → cond h md = true → Fits h.rest (len h)) :
    (ruleIf cond len cls).Sound := by
  intro h md hok hmd
  rw [ruleIf]
  split
  next hc =>
    obtain ⟨n, hn, hcut⟩ := hlen h md hok hc
    rw [hn, map_some]
    cases n with
    | none => exact Rule.pass hmd rfl
    | some k => exact Rule.take hmd (hcut k rfl) rfl
  next => exact Rule.pass hmd rfl

theorem ruleIf_sound_at {f : List Char → Checked (Option Nat)}
    {d : Char} (hcond : ∀ h md, cond h md = true → h.c = d)
    (hlen : ∀ s, Fits (d :: s) (f (d :: s))) : (ruleIf cond (fun h => f h.rest) cls).Sound := by
  apply ruleIf_sound
  intro h md hok hc
  obtain ⟨s, hs⟩ := hok.1
  rw [hs, hcond h md hc]
  exact hlen s

theorem ruleIf_sound_start {f : List Char → Checked (Option Nat)}
    {p : String} (hcond : ∀ h md, cond h md = true → startsWith h.rest p = true)
    (hlen : ∀ t, Fits (p.toList ++ t) (f (p.toList ++ t))) :
    (ruleIf cond (fun h => f h.rest) cls).Sound := by
  apply ruleIf_sound
  intro h md hok hc
  obtain ⟨t, ht⟩ := startsWith_eq_true (hcond h md hc)
  rw [ht]
  exact hlen t

theorem fits_map_some {rest : List Char} {r : Checked Nat} (h : ∃ n, r = some n ∧ PosCut rest n) :
    Fits rest (r.map some) := by
  obtain ⟨n, rfl, hn⟩ := h
  exact Fits.some hn

theorem toEol_cut {c : Char} (s : List Char) (h : c ≠ '\n') : PosCut (c :: s) (toEol (c :: s)) := by
  rw [toEol]
  apply PosCut.of_getD (cons_ne_nil c s)
  intro n hn
  rw [findChar, if_neg (by simpa using h)] at hn
  obtain ⟨m, hm, rfl⟩ := map_eq_some_iff.mp hn
  obtain ⟨a, d, b, rfl, rfl, -, -⟩ := findChar_eq_some hm
  exact PosCut.cons ⟨a, d :: b, rfl, rfl⟩ c

theorem findStr_after {o p t : List Char} (hne : o ++ t ≠ []) (hn₀ : p ≠ []) :
    PosCut (o ++ t) (((findStr p t).map (· + (byteLen o + byteLen p))).getD
      (byteLen (o ++ t))) := by
  apply PosCut.of_getD hne
  intro n hn
  obtain ⟨k, hk, rfl⟩ := map_eq_some_iff.mp hn
  obtain ⟨a, b, rfl, rfl⟩ := findStr_eq_some hk
  have hpos := byteLen_pos hn₀
  refine ⟨by omega, o ++ (a ++ p), b, by simp, ?_⟩
  rw [byteLen_append, byteLen_append]
  ring

theorem findChar_after {q : Char} (hq : q.utf8Size = 1) (s : List Char) {d : Nat}
    (hd : PosCut (q :: s) d) : PosCut (q :: s) (((findChar (· == q) s).map (· + 2)).getD d) := by
  cases h : findChar (· == q) s with
  | none => exact hd
  | some n =>
    obtain ⟨a, c, b, rfl, rfl, hc, -⟩ := findChar_eq_some h
    obtain rfl : c = q := by simpa using hc
    show PosCut _ (byteLen a + 2)
    refine ⟨by omega, c :: (a ++ [c]), b, by simp, ?_⟩
    rw [byteLen_cons, byteLen_append, byteLen_cons, byteLen_nil, hq]
    ring

section
variable (u : Unicode) (o : TokenizerOptions)

theorem tagRule_sound : (tagRule o).Sound := by
  intro h md hok hmd
  obtain ⟨s, hs⟩ := hok.1
  rw [tagRule]
  cases hserver : if o.aspx then aspxLen h.rest else none with
  | some r =>
    obtain ⟨n, cls⟩ := r
    have hlen : aspxLen h.rest = some (n, cls) := by
      split_ifs at hserver
      exact hserver
    refine Rule.take (m := { md with
      m := if cls = .punctuation then { md.m with code := startsWith h.rest "<%" } else md.m })
      ?_ (aspxLen_cut hlen) rfl
    intro q hq
    apply hmd q
    dsimp only at hq
    split at hq
    · exact hq
    · exact hq
  | none =>
    dsimp only
    cases hpending : if md.markup o then md.m.pending else none with
    | none => exact Rule.pass hmd rfl
    | some q =>
      have hq : q.utf8Size = 1 := by
        split_ifs at hpending
        exact hmd q hpending
      -- the text does not start with a server tag here
      have hne : (o.aspx && startsWith (h.c :: s) "<%") = false := by
        rw [← hs]
        cases ho : o.aspx with
        | false => rfl
        | true =>
          rw [if_pos ho, aspxLen] at hserver
          split_ifs at hserver with _ _ hno
          simpa using hno
      have hcut := attrValueLen_resumed hq hne
      rw [← hs] at hcut
      refine ⟨_, _, rfl, ?_, ?_⟩
      · intro q' hq'
        dsimp only at hq'
        split_ifs at hq'
        rw [← some.inj hq']
        exact hq
      · intro n cls heq
        cases heq
        exact hcut

theorem htmlCommentRule_sound : (htmlCommentRule o).Sound := by
  refine ruleIf_sound_start (p := "<!--") (f := fun rest => (sliceFrom rest 2).map fun t =>
    some (((findStr "-->".toList t).map (· + 5)).getD (byteLen rest)))
    (fun h md hc => (Bool.and_eq_true_iff.mp hc).2) ?_
  intro t
  have htwo : sliceFrom ("<!--".toList ++ t) 2 = some ("--".toList ++ t) :=
    sliceFrom_append ['<', '!'] ("--".toList ++ t)
  rw [htwo]
  exact Fits.some (findStr_after (o := ['<', '!']) (p := "-->".toList) (t := "--".toList ++ t)
    (cons_ne_nil _ _) (cons_ne_nil _ _))

theorem lineCommentRule_sound : (lineCommentRule u o).Sound := by
  apply ruleIf_sound
  intro h md hok _
  obtain ⟨s, hs⟩ := hok.1
  rw [hs]
  exact Fits.some (toEol_cut s hok.2)

theorem nestedRule_sound {a b : Char × Char} (ha : a.1.utf8Size = 1 ∧ a.2.utf8Size = 1)
    (hb : b.1.utf8Size = 1 ∧ b.2.utf8Size = 1) :
    (ruleIf cond (fun h => some (some (nestedLen h.rest a b))) cls).Sound := by
  apply ruleIf_sound
  intro h md hok _
  exact Fits.some (nestedLen_cut ha hb hok.ne_nil)

theorem haskellBlockRule_sound : (haskellBlockRule o).Sound :=
  nestedRule_sound ⟨rfl, rfl⟩ ⟨rfl, rfl⟩

theorem mlBlockRule_sound : (mlBlockRule o).Sound := nestedRule_sound ⟨rfl, rfl⟩ ⟨rfl, rfl⟩

theorem rustBlockRule_sound : (rustBlockRule o).Sound := nestedRule_sound ⟨rfl, rfl⟩ ⟨rfl, rfl⟩

theorem slashCommentRule_sound : (slashCommentRule o).Sound := by
  intro h md hok hmd
  obtain ⟨s, hs⟩ := hok.1
  have heol : PosCut h.rest (toEol h.rest) := by
    rw [hs]
    exact toEol_cut s hok.2
  rw [slashCommentRule]
  split
  next hc =>
    dsimp only
    split
    next =>
      obtain ⟨a, b, hab, hlen, hto, -⟩ := sliceTo_of_cut heol.2
      rw [hto, map_some]
      refine Rule.take hmd ?_ rfl
      cases hfind : findStr "%>".toList a with
      | none => exact heol
      | some n =>
        obtain ⟨x, y, rfl, rfl⟩ := findStr_eq_some hfind
        -- the text starts with a slash, so the delimiter is not in front
        have hx : x ≠ [] := by
          rintro rfl
          obtain ⟨t, ht⟩ := startsWith_eq_true (Bool.and_eq_true_iff.mp hc).2
          rw [hab] at ht
          exact absurd (cons.inj ht).1 (by decide)
        rw [hab]
        exact ⟨byteLen_pos hx, x, "%>".toList ++ y ++ b, by simp, rfl⟩
    next => exact Rule.take hmd heol rfl
  next => exact Rule.pass hmd rfl

theorem blockRule_sound : (blockRule o).Sound := by
  refine ruleIf_sound_start (p := "/*") (f := fun rest => (sliceFrom rest 2).map fun t =>
    some (((findStr "*/".toList t).map (· + 4)).getD (byteLen rest))) ?_ ?_
  · intro h md hc
    exact (Bool.and_eq_true_iff.mp (Bool.and_eq_true_iff.mp hc).1).1
  · intro t
    have htwo : sliceFrom ("/*".toList ++ t) 2 = some t := sliceFrom_append ['/', '*'] t
    rw [htwo]
    exact Fits.some (findStr_after (o := ['/', '*']) (p := "*/".toList)
      (cons_ne_nil _ _) (cons_ne_nil _ _))

theorem eq_of_and_beq {b : Bool} {c d : Char} (h : (b && c == d) = true) : c = d :=
  eq_of_beq (Bool.and_eq_true_iff.mp h).2

theorem shellVarRule_sound : (shellVarRule o).Sound :=
  ruleIf_sound_at (fun _ _ hc => eq_of_and_beq hc) shellVarLen_fits

theorem heredocRule_sound : (heredocRule o).Sound := by
  intro h md hok hmd
  rw [heredocRule]
  split
  next =>
    obtain ⟨r, hr, hcut⟩ := heredocMarker_cut h.rest
    rw [hr, map_some]
    cases r with
    | none => exact Rule.pass hmd rfl
    | some m =>
      exact Rule.take (m := { md with heredocs := md.heredocs ++ [m.2] }) hmd (hcut m rfl) rfl
  next => exact Rule.pass hmd rfl

theorem ansiRule_sound : (ansiRule o).Sound := by
  refine ruleIf_sound_start (p := "$'") (f := fun rest => (sliceFrom rest 1).map fun r =>
    some (1 + quotedLen r '\'')) (fun h md hc => (Bool.and_eq_true_iff.mp hc).2) ?_
  intro t
  have hone : sliceFrom ("$'".toList ++ t) 1 = some ('\'' :: t) := sliceFrom_one rfl _
  rw [hone]
  exact Fits.some ((quotedLen_cut '\'' t '\'').shift ['$'])

theorem rawQuoteRule_sound {q : Char} (hq : q.utf8Size = 1)
    (hcond : ∀ h md, cond h md = true → h.c = q) {default : List Char → Nat}
    (hdefault : ∀ s, q ≠ '\n' → PosCut (q :: s) (default (q :: s))) :
    (ruleIf cond (fun h => (sliceFrom h.rest 1).map fun t =>
      some (((findChar (· == q) t).map (· + 2)).getD (default h.rest))) cls).Sound := by
  apply ruleIf_sound
  intro h md hok hc
  obtain ⟨s, hs⟩ := hok.1
  have hcq := hcond h md hc
  rw [hs, hcq, sliceFrom_one hq]
  exact Fits.some (findChar_after hq s (hdefault s (hcq ▸ hok.2)))

theorem shellSingleRule_sound : (shellSingleRule o).Sound := by
  apply rawQuoteRule_sound (q := '\'') rfl
  · intro h md hc
    exact eq_of_and_beq (Bool.and_eq_true_iff.mp hc).1
  · intro s hn
    exact ⟨lineLen_pos s hn, lineLen_cut _⟩

theorem backtickRule_sound : (backtickRule o).Sound := by
  apply rawQuoteRule_sound (q := '\x60') rfl
  · intro h md hc
    exact eq_of_and_beq (Bool.and_eq_true_iff.mp hc).1
  · intro s _
    exact PosCut.full (cons_ne_nil _ _)

theorem tripleRule_sound : (tripleRule o).Sound := by
  apply ruleIf_sound
  intro h md _ _
  exact ⟨_, rfl, fun k hk => tripleQuotedLen_cut hk⟩

theorem doubledRule_sound {q : Char} (hq : q.utf8Size = 1)
    (hcond : ∀ h md, cond h md = true → h.c = q) :
    (ruleIf cond (fun h => (doubledLen h.rest).map some) cls).Sound :=
  ruleIf_sound_at (f := fun rest => (doubledLen rest).map some) hcond
    fun s => fits_map_some (doubledLen_cut hq s)

theorem sqlStringRule_sound : (sqlStringRule o).Sound :=
  doubledRule_sound (q := '\'') rfl fun _ _ hc => eq_of_and_beq hc

theorem sqlNameRule_sound : (sqlNameRule o).Sound :=
  doubledRule_sound (q := '"') rfl fun _ _ hc => eq_of_and_beq hc

theorem sqlBracketRule_sound : (sqlBracketRule u o).Sound :=
  ruleIf_sound_at (fun _ _ hc => eq_of_and_beq hc) (sqlBracketLen_fits u)

theorem rustLiteralRule_sound : (rustLiteralRule o).Sound := by
  apply ruleIf_sound
  intro h md hok _
  obtain ⟨s, hs⟩ := hok.1
  rw [hs]
  exact prefixedLiteralLen_fits h.c s

theorem csharpRule_sound : (csharpRule o).Sound :=
  ruleIf_sound fun h _ _ _ => csharpLiteralLen_fits h.rest

theorem pythonRule_sound : (pythonRule o).Sound :=
  ruleIf_sound fun h _ _ _ => pythonPrefixedLen_fits h.rest o.singleQuoteStrings

theorem rRawRule_sound : (rRawRule o).Sound := by
  intro h md hok hmd
  rw [rRawRule]
  split
  next =>
    cases hlen : rRawLen h.rest with
    | error e => exact Rule.pass (m := { md with rRawOff := true }) hmd rfl
    | ok n =>
      cases n with
      | none => exact Rule.pass hmd rfl
      | some k => exact Rule.take hmd (rRawLen_cut hlen) rfl
  next => exact Rule.pass hmd rfl

theorem identRule_sound : (identRule u o).Sound := by
  intro h md hok hmd
  obtain ⟨s, hs⟩ := hok.1
  rw [identRule]
  split
  next hc =>
    refine Rule.take hmd ?_ rfl
    rw [hs]
    exact identLen_cut hc s _ _ _
  next => exact Rule.pass hmd rfl

theorem numberRule_sound : (numberRule u).Sound := by
  apply ruleIf_sound
  intro h md hok hc
  obtain ⟨s, hs⟩ := hok.1
  rw [hs]
  exact fits_map_some (numberLen_cut hc s)

theorem markupQuoteRule_sound : (markupQuoteRule o).Sound := by
  intro h md hok hmd
  obtain ⟨s, hs⟩ := hok.1
  rw [markupQuoteRule]
  split
  next hc =>
    have hone : h.c.utf8Size = 1 := by
      obtain ⟨-, hq⟩ := Bool.and_eq_true_iff.mp hc
      rw [Bool.or_eq_true_iff, Bool.or_eq_true_iff] at hq
      obtain (hq | hq) | hq := hq
      · rw [eq_of_beq hq]
        rfl
      · rw [eq_of_beq hq]
        rfl
      · rw [eq_of_beq hq]
        rfl
    split
    next =>
      have hcut := attrValueLen_cut hone h.c s o.aspx
      rw [← hs] at hcut
      refine Rule.take (m := { md with m := { md.m with
        pending := if (attrValueLen h.rest h.c 1 o.aspx).2 then md.m.pending else some h.c } }) ?_
        hcut rfl
      intro q hq
      dsimp only at hq
      split at hq
      · exact hmd q hq
      · rw [← some.inj hq]
        exact hone
    next =>
      refine Rule.take hmd ?_ rfl
      rw [hs]
      exact ⟨Nat.one_pos, cut_one hone s⟩
  next => exact Rule.pass hmd rfl

theorem doubledQuoteRule_sound : (doubledQuoteRule o).Sound := by
  refine ruleIf_sound_at (d := '\'') (f := fun rest =>
    (sliceTo rest (lineLen rest)).bind fun l => (doubledLen l).map some) ?_ ?_
  · intro h md hc
    exact eq_of_beq (Bool.and_eq_true_iff.mp hc).1
  · intro s
    obtain ⟨a, b, hab, hlen, hto, -⟩ := sliceTo_of_cut (lineLen_cut ('\'' :: s))
    have hne : a ≠ [] := by
      rintro rfl
      exact absurd hlen (lineLen_pos s (by decide)).ne
    obtain ⟨d, t, rfl⟩ := exists_cons_of_ne_nil hne
    obtain ⟨rfl, -⟩ := cons.inj hab
    rw [hto, bind_some, hab]
    obtain ⟨n, hn, hcut⟩ := doubledLen_cut (c := '\'') rfl t
    exact fits_map_some ⟨n, hn, hcut.extend b⟩

theorem singleQuoteRule_sound : (singleQuoteRule o).Sound :=
  ruleIf_sound_at (d := '\'') (f := fun rest => (singleQuotedLen rest).map some)
    (fun _ _ hc => eq_of_beq (Bool.and_eq_true_iff.mp hc).1)
    fun s => fits_map_some (singleQuotedLen_cut s (by decide))

theorem shellDqRule_sound : (shellDqRule o).Sound := by
  intro h md hok hmd
  rw [shellDqRule]
  split
  next =>
    cases hlen : shellDqLen h.rest with
    | error e => exact Rule.pass (m := { md with shellNestOff := true }) hmd rfl
    | ok n =>
      cases n with
      | none => exact Rule.pass hmd rfl
      | some k => exact Rule.take hmd (shellDqLen_cut hlen) rfl
  next => exact Rule.pass hmd rfl

theorem quoteRule_sound : quoteRule.Sound := by
  apply ruleIf_sound
  intro h md hok _
  obtain ⟨s, hs⟩ := hok.1
  rw [hs]
  exact Fits.some (quotedLen_cut h.c s h.c)

theorem regexRule_sound : (regexRule o).Sound := by
  apply ruleIf_sound
  intro h md hok _
  obtain ⟨s, hs⟩ := hok.1
  rw [hs]
  exact ⟨_, rfl, fun k hk => regexLen_cut hk⟩

theorem rules_sound : ∀ r ∈ rules u o, r.Sound := by
  simp only [rules, forall_mem_cons, not_mem_nil, false_imp_iff, implies_true, and_true]
  exact ⟨tagRule_sound o, htmlCommentRule_sound o, lineCommentRule_sound u o,
    haskellBlockRule_sound o, mlBlockRule_sound o, slashCommentRule_sound o, rustBlockRule_sound o,
    blockRule_sound o, shellVarRule_sound o, heredocRule_sound o, ansiRule_sound o,
    shellSingleRule_sound o, tripleRule_sound o, backtickRule_sound o, sqlStringRule_sound o,
    sqlNameRule_sound o, sqlBracketRule_sound u o, rustLiteralRule_sound o, csharpRule_sound o,
    pythonRule_sound o, rRawRule_sound o, identRule_sound u o,
    numberRule_sound u, markupQuoteRule_sound o, doubledQuoteRule_sound o, singleQuoteRule_sound o,
    shellDqRule_sound o, quoteRule_sound, regexRule_sound o⟩

theorem firstRule_sound {rs : List Rule} (hrs : ∀ r ∈ rs, r.Sound) : (firstRule rs).Sound := by
  intro h md hok hmd
  induction rs generalizing md with
  | nil => exact Rule.pass hmd rfl
  | cons r rs ih =>
    obtain ⟨md', t, hr, hmd', hcut⟩ := hrs r (mem_cons_self ..) h md hok hmd
    rw [firstRule, hr, bind_some]
    cases t with
    | none => exact ih (fun r hr => hrs r (.tail _ hr)) md' hmd'
    | some t => exact ⟨md', some t, rfl, hmd', hcut⟩

theorem lexeme_sound {md : Modes} (hok : h.Ok) (hmd : md.Ok) :
    ∃ md' n cls, lexeme u o h md = some (md', n, cls) ∧ md'.Ok ∧ PosCut h.rest n := by
  obtain ⟨md', t, hr, hmd', hcut⟩ := firstRule_sound (rules_sound u o) h md hok hmd
  rw [lexeme, hr, map_some]
  cases t with
  | some t => exact ⟨md', t.1, t.2, rfl, hmd', hcut t.1 t.2 rfl⟩
  | none =>
    obtain ⟨s, hs⟩ := hok.1
    refine ⟨md', _, _, rfl, hmd', ?_⟩
    rw [hs]
    exact PosCut.char h.c s

theorem track_ok {markup : Bool} {len : Nat} {md : Modes} (hmd : md.Ok) :
    (track u o h markup len md).Ok := by
  have hpending : (track u o h markup len md).m.pending = md.m.pending := by
    unfold track
    dsimp only
    split_ifs <;> rfl
  intro q hq
  rw [hpending] at hq
  exact hmd q hq

end

end MemoryGraph.Lex
