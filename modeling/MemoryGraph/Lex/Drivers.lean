import MemoryGraph.Lex.Coverage

/-! The drivers: fixed columns line by line, data sections, and the whole of `tokenize_with`. -/

namespace MemoryGraph.Lex
open Lib Utf8 List Option

namespace Lexer

theorem nthColumn_cut {s : List Char} {n p r : Nat} (h : nthColumn s n p = some r) :
    ∃ k, r = p + k ∧ Cut s k := by
  induction s generalizing n p with
  | nil => exact nomatch h
  | cons c s ih =>
    rw [nthColumn.eq_def] at h
    dsimp only at h
    split at h
    · obtain ⟨k, rfl, hk⟩ := ih h
      exact ⟨c.utf8Size + k, by ring, hk.cons c⟩
    split at h
    · cases h
      exact ⟨0, rfl, Cut.zero _⟩
    · obtain ⟨k, rfl, hk⟩ := ih h
      exact ⟨c.utf8Size + k, by ring, hk.cons c⟩

theorem nthColumn_mono {s : List Char} {n m p r : Nat} (hnm : n ≤ m)
    (h : nthColumn s m p = some r) : ∃ r', nthColumn s n p = some r' ∧ r' ≤ r := by
  induction s generalizing n m p with
  | nil => exact nomatch h
  | cons c s ih =>
    rw [nthColumn.eq_def] at h ⊢
    dsimp only at h ⊢
    by_cases hc : c = '\ufeff'
    · rw [if_pos hc] at h ⊢
      exact ih hnm h
    · rw [if_neg hc] at h ⊢
      cases m with
      | zero =>
        obtain rfl := Nat.le_zero.mp hnm
        exact ⟨r, h, le_rfl⟩
      | succ m =>
        cases n with
        | zero =>
          obtain ⟨k, rfl, -⟩ := nthColumn_cut h
          exact ⟨p, rfl, by omega⟩
        | succ n => exact ih (Nat.le_of_succ_le_succ hnm) h

structure Columns (src : List Char) (ls ce : Nat) (colAt : Nat → Nat) : Prop where
  cut : ∀ n, Cut src (colAt n)
  le : ∀ n, colAt n ≤ ce
  ge : ∀ n, ls ≤ colAt n
  mono : ∀ {n m}, n ≤ m → colAt n ≤ colAt m
  stop : Cut src ce

theorem columns_of_line {src text : List Char} {ls ce : Nat} (hls : Cut src ls) (hce : Cut src ce)
    (hle : ls ≤ ce) (htext : slice src ls ce = some text) :
    Columns src ls ce fun n => (nthColumn text (n - 1) 0).elim ce (ls + ·) := by
  obtain ⟨a, t, b, rfl, rfl, rfl, ht⟩ := hls.between hce hle
  obtain rfl := mem_unique ht htext
  have hcol : ∀ n r, nthColumn t n 0 = some r → Cut t r := by
    intro n r h
    obtain ⟨k, rfl, hk⟩ := nthColumn_cut h
    rwa [Nat.zero_add]
  have hbound : ∀ n r, nthColumn t n 0 = some r → byteLen a + r ≤ byteLen (a ++ t) := by
    intro n r h
    have := (hcol n r h).le
    rw [byteLen_append]
    omega
  constructor
  · intro n
    cases h : nthColumn t (n - 1) 0 with
    | none => exact hce
    | some r => exact ((hcol _ r h).extend b).shift a
  · intro n
    cases h : nthColumn t (n - 1) 0 with
    | none => exact le_rfl
    | some r => exact hbound _ r h
  · intro n
    cases h : nthColumn t (n - 1) 0 with
    | none => exact hle
    | some r => exact Nat.le_add_right _ _
  · intro n m hnm
    cases h : nthColumn t (m - 1) 0 with
    | none =>
      cases h' : nthColumn t (n - 1) 0 with
      | none => exact le_rfl
      | some r => exact hbound _ r h'
    | some r =>
      obtain ⟨r', hr', hle'⟩ := nthColumn_mono (Nat.sub_le_sub_right hnm 1) h
      rw [hr']
      exact Nat.add_le_add_left hle' _
  · exact hce

section
variable {u : Unicode} {o : TokenizerOptions} {src : List Char} {lx : Lexer} {ls ce p : Nat}
  {colAt : Nat → Nat} {layout : FixedLayout}

theorem advTo_runTo (o : TokenizerOptions) (h : Covered u src p lx) {q : Nat} (hq : Cut src q)
    (hle : p ≤ q) :
    ∃ lx₁ lx', lx.advTo src p = some lx₁ ∧ lx₁.runTo src u o q = some lx' ∧
      Covered u src q lx' := by
  obtain ⟨lx₁, hadv, hok₁, hi₁, -⟩ := advTo_covered h
  obtain ⟨lx', hrun, hok', rfl⟩ := runTo_ok o hok₁ hq (hi₁ ▸ hle)
  exact ⟨lx₁, lx', hadv, hrun, hok'.covered⟩

theorem indicator_covered (o : TokenizerOptions) (layout : FixedLayout) (h : Covered u src p lx)
    {q : Nat} (hq : Cut src q) (hle : p ≤ q) :
    ∃ lx', lx.indicator src u o layout p q = some lx' ∧
      Covered u src (if layout = .cobol then q else p) lx' := by
  rw [indicator]
  split
  next =>
    obtain ⟨lx₁, lx₂, hadv, hrun, hcov⟩ := advTo_runTo o h hq hle
    rw [hadv, bind_some]
    exact ⟨lx₂, hrun, hcov⟩
  next => exact ⟨lx, rfl, h⟩

theorem fixedCode_covered (o : TokenizerOptions) (layout : FixedLayout)
    (hcol : Columns src ls ce colAt) (h : Covered u src p lx) (hp : p ≤ colAt 8) :
    ∃ lx', lx.fixedCode src u o layout colAt ce p = some lx' ∧ Covered u src ce lx' := by
  obtain ⟨-, ind, -, -, -, -, hind⟩ := h.2.right.between (hcol.cut 8) hp
  rw [fixedCode, hind]
  dsimp only [bind_eq_bind, bind_some]
  split
  next => exact trimmed_covered h hcol.stop (hp.trans (hcol.le 8)) .comment
  next =>
    have harea : colAt 8 ≤ colAt ((columns layout).2.2 + 1) := by
      apply hcol.mono
      cases layout <;> decide
    have hle : (if layout = .cobol then colAt 8 else p) ≤ colAt ((columns layout).2.2 + 1) := by
      split
      · exact harea
      · exact hp.trans harea
    obtain ⟨lx₁, hind₁, hcov₁⟩ := indicator_covered o layout h (hcol.cut 8) hp
    obtain ⟨lx₂, lx₃, hadv, hrun, hcov₃⟩ := advTo_runTo o hcov₁ (hcol.cut _) hle
    rw [hind₁, bind_some, hadv, bind_some, hrun, bind_some]
    exact trimmed_covered hcov₃ hcol.stop (hcol.le _) .comment

theorem fixedArea_covered (o : TokenizerOptions) (layout : FixedLayout)
    (hcol : Columns src ls ce colAt) (h : Covered u src (colAt ((columns layout).1 + 1)) lx) :
    ∃ lx', lx.fixedArea src u o layout colAt ce (colAt ((columns layout).1 + 1)) = some lx' ∧
      Covered u src ce lx' := by
  rw [fixedArea]
  split
  next =>
    have hform : colAt ((columns layout).1 + 1) ≤ colAt ((columns layout).1 + 2) :=
      hcol.mono (Nat.le_succ _)
    have h8 : colAt ((columns layout).1 + 2) ≤ colAt 8 := by
      apply hcol.mono
      cases layout <;> decide
    obtain ⟨lx₁, lx₂, hadv, hrun, hcov₂⟩ := advTo_runTo o h (hcol.cut _) hform
    dsimp only [bind_eq_bind]
    rw [hadv, bind_some, hrun, bind_some]
    exact fixedCode_covered o layout hcol hcov₂ h8
  next =>
    apply fixedCode_covered o layout hcol h
    apply hcol.mono
    cases layout <;> decide

def LineStart (src : List Char) (n : Nat) : Prop :=
  ∃ a b, src = a ++ b ∧ byteLen a = n ∧ (a = [] ∨ b = [] ∨ ∃ x, a = x ++ ['\n'])

theorem LineStart.cut {n : Nat} (h : LineStart src n) : Cut src n := by
  obtain ⟨a, b, hsrc, ha, -⟩ := h
  exact ⟨a, b, hsrc, ha⟩

theorem lineStart_end (src : List Char) : LineStart src (byteLen src) :=
  ⟨src, [], (append_nil src).symm, rfl, .inr (.inl rfl)⟩

theorem line_le {limit : Nat} {pre tail : List Char} (hlimit : LineStart (pre ++ tail) limit)
    (hlt : byteLen pre < limit) :
    min ((findChar (· == '\n') tail).elim (byteLen (pre ++ tail)) (byteLen pre + ·) + 1)
      (byteLen (pre ++ tail)) ≤ limit := by
  obtain ⟨a, b, hab, rfl, hline⟩ := hlimit
  obtain ⟨pre', t, b', hsrc, hpre', hat, -⟩ :=
    Cut.between ⟨pre, tail, rfl, rfl⟩ ⟨a, b, hab, rfl⟩ hlt.le
  obtain ⟨rfl, rfl⟩ := append_inj_of_byteLen hsrc hpre'.symm
  obtain rfl | rfl | ⟨x, rfl⟩ := hline
  · exact absurd hlt (Nat.not_lt_zero _)
  · rw [hab, append_nil]
    exact min_le_right _ _
  · -- the break before the limit is behind the lexer
    have hne : t ≠ [] := by
      rintro rfl
      rw [append_nil] at hat
      omega
    obtain ⟨y, d, rfl⟩ := eq_nil_or_concat t |>.resolve_left hne
    rw [concat_eq_append] at *
    obtain ⟨heq, -⟩ := append_inj_of_byteLen (a := pre ++ (y ++ [d])) (b := b')
      (by simpa using hab) hat
    rw [← append_assoc] at heq
    obtain ⟨-, hd⟩ := append_inj' heq rfl
    obtain rfl := (cons.inj hd).1
    obtain ⟨n, hn, hle⟩ := findChar_le (p := (· == '\n')) (c := '\n') rfl y b'
    rw [append_assoc, singleton_append, hn]
    apply (min_le_left _ _).trans
    rw [← hat]
    simp only [elim_some, byteLen_append, byteLen_cons, byteLen_nil]
    have : '\n'.utf8Size = 1 := rfl
    omega

theorem fixedLine_ok (o : TokenizerOptions) (layout : FixedLayout) (h : Ok u src lx) {limit : Nat}
    (hlimit : LineStart src limit) (hlt : lx.i < limit) :
    ∃ lx', lx.fixedLine src u o layout = some lx' ∧ Ok u src lx' ∧ lx.i < lx'.i ∧
      lx'.i ≤ limit := by
  obtain ⟨pre, tail, rfl, hat⟩ := id h
  have htail : sliceFrom (pre ++ tail) lx.i = some tail := hat.i ▸ sliceFrom_append pre tail
  obtain ⟨line, rest, rfl, hle, hrest, -⟩ := @line_split tail _ _ (byteLen_append pre tail).symm
  have hbound := line_le hlimit (hat.i ▸ hlt)
  have hline : slice (pre ++ (line ++ rest)) lx.i (byteLen pre + byteLen line) = some line := by
    rw [hat.i, ← byteLen_append]
    exact slice_append pre line rest
  have hstop : Cut (pre ++ (line ++ rest)) (byteLen pre + byteLen line) :=
    ⟨pre ++ line, rest, by rw [append_assoc], byteLen_append _ _⟩
  rw [hle] at hbound
  rw [fixedLine, htail]
  dsimp only [bind_eq_bind, bind_some]
  rw [hat.i] at hline ⊢
  rw [hle, hline, bind_some]
  -- the code ends before a carriage return, which is a gap
  set ce := if line.getLast? = some '\r' then byteLen pre + byteLen line - 1 else byteLen pre +
    byteLen line with hce
  have hcr : Gap u (pre ++ (line ++ rest)) ce (byteLen pre + byteLen line) ∧ byteLen pre ≤ ce := by
    rw [hce]
    split
    next hlast =>
      obtain ⟨x, rfl⟩ := getLast?_eq_some_iff.mp hlast
      have hone : byteLen ['\r'] = 1 := rfl
      rw [byteLen_append, hone]
      refine ⟨⟨pre ++ x, ['\r'], rest, by simp, ?_, ?_, ?_⟩, by omega⟩
      · rw [byteLen_append]
        omega
      · rw [byteLen_append, byteLen_append, hone]
        omega
      · intro c hc
        rw [mem_singleton.mp hc]
        rfl
    next => exact ⟨Gap.refl hstop, Nat.le_add_right _ _⟩
  obtain ⟨-, text, -, -, -, -, htext⟩ :=
    (hat.i ▸ h.cut : Cut _ (byteLen pre)).between hcr.1.left hcr.2
  rw [htext, bind_some]
  have hcol := columns_of_line (hat.i ▸ h.cut) hcr.1.left hcr.2 htext
  set colAt := fun n => (nthColumn text (n - 1) 0).elim ce (byteLen pre + ·)
  have hcov : Covered u (pre ++ (line ++ rest)) (byteLen pre) lx := hat.i ▸ h.covered
  obtain ⟨lx₁, htrim, hcov₁⟩ :=
    trimmed_covered hcov (hcol.cut ((columns layout).1 + 1)) (hcol.ge _) .comment
  obtain ⟨lx₂, harea, hcov₂⟩ := fixedArea_covered o layout hcol hcov₁
  rw [htrim, bind_some, harea, bind_some]
  -- then over the line break, if there is one
  have hnext : Gap u (pre ++ (line ++ rest)) (byteLen pre + byteLen line)
      (min (byteLen pre + byteLen line + 1) (byteLen (pre ++ (line ++ rest)))) := by
    obtain rfl | ⟨y, rfl⟩ := hrest
    · rw [append_nil, byteLen_append, min_eq_right (Nat.le_succ _), ← byteLen_append]
      exact Gap.refl (Cut.full _)
    · have hone : '\n'.utf8Size = 1 := rfl
      refine ⟨pre ++ line, ['\n'], y, by simp, byteLen_append _ _, ?_, ?_⟩
      · simp only [byteLen_append, byteLen_cons, byteLen_nil, hone]
        omega
      · intro c hc
        rw [mem_singleton.mp hc]
        exact isGap_newline u
  obtain ⟨lx₃, hadv, hok₃, hi₃, -⟩ := advTo_covered ⟨hcov₂.1, hcov₂.2.trans (hcr.1.trans hnext)⟩
  refine ⟨lx₃, hadv, hok₃, ?_, ?_⟩
  · -- the source does not end at the start of the line
    have hend := hlimit.cut.le
    rw [hi₃]
    rw [hat.i] at hlt
    obtain rfl | ⟨y, rfl⟩ := hrest
    · rw [append_nil, byteLen_append] at hend ⊢
      omega
    · simp only [byteLen_append, byteLen_cons] at hend ⊢
      have : '\n'.utf8Size = 1 := rfl
      omega
  · rw [hi₃]
    exact hbound

theorem fixed_ok (o : TokenizerOptions) (layout : FixedLayout) {limit : Nat}
    (hlimit : LineStart src limit) {fuel : Nat} (h : Ok u src lx) (hle : lx.i ≤ limit)
    (hfuel : limit - lx.i < fuel) :
    ∃ lx', fixed src u o layout limit fuel lx = some lx' ∧ Ok u src lx' ∧ lx'.i = limit := by
  induction fuel generalizing lx with
  | zero => exact absurd hfuel (Nat.not_lt_zero _)
  | succ fuel ih =>
    rw [fixed]
    split
    next hlt =>
      obtain ⟨lx₁, hline, hok₁, hlt₁, hle₁⟩ := fixedLine_ok o layout h hlimit hlt
      obtain ⟨lx₂, hfixed, hok₂, hi₂⟩ := ih hok₁ hle₁ (by omega)
      exact ⟨lx₂, by rw [hline, bind_some, hfixed], hok₂, hi₂⟩
    next hlt => exact ⟨lx, rfl, h, by omega⟩

theorem splitInclusive_spec (s : List Char) :
    (splitInclusive s).flatten = s ∧ ∀ l ∈ (splitInclusive s).dropLast, ∃ x, l = x ++ ['\n'] := by
  induction s with
  | nil => exact ⟨rfl, nofun⟩
  | cons c s ih =>
    rw [splitInclusive]
    split
    next hc =>
      subst hc
      refine ⟨by rw [flatten_cons, ih.1]; rfl, ?_⟩
      intro l hl
      cases hls : splitInclusive s with
      | nil =>
        rw [hls] at hl
        exact absurd hl (not_mem_nil)
      | cons l' ls =>
        rw [hls] at hl ih
        obtain rfl | hl := mem_cons.mp hl
        · exact ⟨[], rfl⟩
        · exact ih.2 l hl
    next =>
      cases hls : splitInclusive s with
      | nil =>
        rw [hls] at ih
        have hs : s = [] := ih.1.symm
        subst hs
        exact ⟨rfl, nofun⟩
      | cons l' ls =>
        rw [hls] at ih
        refine ⟨congrArg (c :: ·) ih.1, ?_⟩
        intro l hl
        cases ls with
        | nil => exact absurd hl (not_mem_nil)
        | cons l'' ls =>
          obtain rfl | hl := mem_cons.mp hl
          · obtain ⟨x, hx⟩ := ih.2 l' (mem_cons_self ..)
            exact ⟨c :: x, by rw [hx]; rfl⟩
          · exact ih.2 l (.tail _ hl)

theorem rpgDataGo_lineStart {free : Bool} {ls : List (List Char)} {n : Nat} {a : List Char}
    (hls : ∀ l ∈ ls.dropLast, ∃ x, l = x ++ ['\n']) (ha : a = [] ∨ ∃ x, a = x ++ ['\n']) {r : Nat}
    (h : rpgDataGo free ls n (byteLen a) = some r) : LineStart (a ++ ls.flatten) r := by
  induction ls generalizing n a with
  | nil => exact nomatch h
  | cons line ls ih =>
    rw [rpgDataGo] at h
    generalize (isRpgDataMarker (if n = 0 then stripBom line else line) free && !(n == 0 && free)) =
      marker at h
    split at h
    next =>
      cases h
      exact ⟨a, _, rfl, rfl, ha.imp_right .inr⟩
    next =>
      cases ls with
      | nil => exact nomatch h
      | cons l ls =>
        obtain ⟨x, hx⟩ := hls line (mem_cons_self ..)
        rw [← byteLen_append] at h
        have := ih (fun l hl => hls l (.tail _ hl))
          (.inr ⟨a ++ x, by rw [hx, append_assoc]⟩) h
        rwa [append_assoc, ← flatten_cons] at this

theorem rpgDataStart_lineStart (u : Unicode) (src : List Char) :
    LineStart src (rpgDataStart u src) := by
  obtain ⟨hflat, hlines⟩ := splitInclusive_spec src
  rw [rpgDataStart]
  cases h : rpgDataGo (isFreeRpg u src) (splitInclusive src) 0 0 with
  | none => exact lineStart_end src
  | some r =>
    have := rpgDataGo_lineStart (a := []) hlines (.inl rfl) h
    rwa [nil_append, hflat] at this

theorem dataGo_covered (free : Bool) {ls : List (List Char)} {a : List Char} {start : Nat}
    (hsrc : src = a ++ ls.flatten) (hle : start ≤ byteLen a) (h : Covered u src start lx) :
    ∃ lx', dataGo src u free ls start (byteLen a) lx = some lx' ∧
      Covered u src (byteLen src) lx' := by
  induction ls generalizing a start lx with
  | nil => exact trimmed_covered h (Cut.full src) (h.2.right.le) .literal
  | cons line ls ih =>
    have hsrc' : src = (a ++ line) ++ ls.flatten := by rw [hsrc, flatten_cons, append_assoc]
    rw [dataGo, ← byteLen_append]
    split
    next =>
      obtain ⟨lx₁, htrim, hcov₁⟩ := trimmed_covered h ⟨a, _, hsrc, rfl⟩ hle .literal
      rw [htrim, bind_some]
      exact ih hsrc' (by rw [byteLen_append]; exact Nat.le_add_right _ _) hcov₁
    next => exact ih hsrc' (by rw [byteLen_append]; omega) h

theorem dataSections_covered (h : Ok u src lx) :
    ∃ lx', lx.dataSections src u lx.i = some lx' ∧ Covered u src (byteLen src) lx' := by
  obtain ⟨pre, post, hsrc, hat⟩ := id h
  have htail : sliceFrom src lx.i = some post := by
    rw [hsrc, hat.i]
    exact sliceFrom_append pre post
  rw [dataSections, htail, bind_some]
  have := dataGo_covered (isFreeRpg u src) (a := pre)
    (show src = pre ++ (splitInclusive post).flatten by rw [hsrc, (splitInclusive_spec post).1])
    hat.i.le h.covered
  rwa [← hat.i] at this

theorem code_ok (u : Unicode) (o : TokenizerOptions) {stop : Nat} (hstop : LineStart src stop) :
    ∃ lx, code src u o stop = some lx ∧ Ok u src lx ∧ lx.i = stop := by
  have hrun := runTo_ok o (new_ok u src) hstop.cut (Nat.zero_le stop)
  rw [code]
  split
  next layout _ =>
    split
    next => exact hrun
    next =>
      apply fixed_ok o layout hstop (new_ok u src) (Nat.zero_le stop)
      have := hstop.cut.le
      omega
  next => exact hrun

theorem Covered.lexed (h : Covered u src (byteLen src) lx) : Lexed u src lx.out := by
  obtain ⟨⟨pre, post, hsrc, hat⟩, a, g, b, rfl, ha, hlen, hg⟩ := h
  obtain ⟨rfl, -⟩ := append_inj_of_byteLen hsrc (ha.trans hat.i)
  have hb : b = [] := by
    apply eq_nil_of_byteLen_eq_zero
    simp only [byteLen_append] at hlen
    omega
  rw [hb, append_nil]
  exact hat.lexed.gaps hg

end

end Lexer

open Lexer in
theorem tokenizeWith_lexed (u : Unicode) (src : String) (o : TokenizerOptions) :
    ∃ toks, tokenizeWith u src o = some toks ∧ Lexed u src.toList toks := by
  rw [tokenizeWith]
  generalize src.toList = s
  have hstop : LineStart s (if o.rpgCompileTimeData then rpgDataStart u s else byteLen s) := by
    split
    · exact rpgDataStart_lineStart u s
    · exact lineStart_end s
  generalize (if o.rpgCompileTimeData then rpgDataStart u s else byteLen s) = stop at hstop ⊢
  obtain ⟨lx, hlx, hok, rfl⟩ := code_ok u o hstop
  rw [hlx, bind_some]
  split
  next =>
    obtain ⟨lx', hdata, hcov⟩ := dataSections_covered hok
    rw [hdata]
    exact ⟨lx'.out, rfl, hcov.lexed⟩
  next hend =>
    have hi : lx.i = byteLen s := Nat.le_antisymm hok.cut.le (Nat.not_lt.mp hend)
    exact ⟨lx.out, rfl, (hi ▸ hok.covered : Covered u s (byteLen s) lx).lexed⟩

end MemoryGraph.Lex
