import MemoryGraph.Lex.Drivers

/-! Lines and columns by counting, and what the tokens of a source are: in order, each the
slice at its span, with gaps between them. -/

namespace MemoryGraph.Lex
open Lib Utf8 List
variable {src : List Char} {t : TokenDecl} {pre text post : List Char} {toks : List TokenDecl}

def lineAfter (pre : List Char) : Nat := pre.count '\n' + 1

def colAfter (pre : List Char) : Nat := (pre.rtakeWhile (· ≠ '\n')).countP (· ≠ '\ufeff') + 1

theorem u32_succ (n : Nat) : u32 n + 1 = u32 (n + 1) := by
  apply Fin.ext
  simp only [u32, Fin.ofNat, Fin.val_add, Fin.val_one]
  exact Nat.mod_add_mod n _ 1

theorem lineAfter_concat (pre : List Char) (c : Char) :
    lineAfter (pre ++ [c]) = if c = '\n' then lineAfter pre + 1 else lineAfter pre := by
  rw [lineAfter, count_append, count_singleton, lineAfter]
  by_cases hc : c = '\n'
  · rw [if_pos hc, if_pos (beq_iff_eq.mpr hc)]
  · rw [if_neg hc, if_neg (by simpa using hc)]

theorem colAfter_concat (pre : List Char) (c : Char) :
    colAfter (pre ++ [c]) =
      if c = '\n' then 1 else if c = '\ufeff' then colAfter pre else colAfter pre + 1 := by
  rw [colAfter]
  by_cases hc : c = '\n'
  · rw [if_pos hc, rtakeWhile_concat_neg _ _ _ (by simpa using hc)]
    rfl
  · rw [if_neg hc, rtakeWhile_concat_pos _ _ _ (by simpa using hc), countP_append, colAfter]
    by_cases hb : c = '\ufeff'
    · rw [if_pos hb, hb]
      rfl
    · rw [if_neg hb, countP_singleton, if_pos (by simpa using hb)]

theorem posAfter_eq (pre : List Char) :
    posAfter pre = (u32 (lineAfter pre), u32 (colAfter pre)) := by
  induction pre using reverseRecOn with
  | nil => rfl
  | append_singleton pre c ih =>
    rw [posAfter, foldl_append, ← posAfter, ih, lineAfter_concat, colAfter_concat]
    show Lexer.advance _ c = _
    rw [Lexer.advance]
    by_cases hc : c = '\n'
    · rw [if_pos hc, if_pos hc, if_pos hc, u32_succ]
      rfl
    · rw [if_neg hc, if_neg hc, if_neg hc]
      by_cases hb : c = '\ufeff'
      · rw [if_pos hb, if_pos hb]
      · rw [if_neg hb, if_neg hb, u32_succ]

theorem lineAfter_le (pre : List Char) : lineAfter pre ≤ byteLen pre + 1 :=
  Nat.succ_le_succ ((count_le_length).trans (length_le_byteLen pre))

theorem colAfter_le (pre : List Char) : colAfter pre ≤ byteLen pre + 1 := by
  have hsuffix := (rtakeWhile_suffix (fun c => decide (c ≠ '\n')) pre).length_le
  exact Nat.succ_le_succ ((countP_le_length.trans hsuffix).trans (length_le_byteLen pre))

/-- A token in its place: the text between `pre` and `post`, with lines and columns by counting. -/
structure Placed (src : List Char) (t : TokenDecl) (pre text post : List Char) : Prop where
  split : src = pre ++ (text ++ post)
  ne_nil : text ≠ []
  text_eq : t.text = String.ofList text
  start : t.span.start.val = byteLen pre
  stop : t.span.stop.val = byteLen (pre ++ text)
  startLine : t.span.startLine.val = lineAfter pre
  startCol : t.span.startCol.val = colAfter pre
  endLine : t.span.endLine.val = lineAfter (pre ++ text)
  endCol : t.span.endCol.val = colAfter (pre ++ text)

structure Located (src : List Char) (t : TokenDecl) (pre text post : List Char) : Prop where
  split : src = pre ++ (text ++ post)
  ne_nil : text ≠ []
  text_eq : t.text = String.ofList text
  start : t.span.start.val = byteLen pre
  stop : t.span.stop.val = byteLen (pre ++ text)
  startPos : (t.span.startLine, t.span.startCol) = posAfter pre
  endPos : (t.span.endLine, t.span.endCol) = posAfter (pre ++ text)

/-- The tokens of a source: each in its place, in order without overlap, and a character outside
all of them is whitespace or a byte order mark. -/
structure Covers (u : Unicode) (src : List Char) (toks : List TokenDecl) : Prop where
  placed : ∀ t ∈ toks, ∃ pre text post, Placed src t pre text post
  ordered : toks.Pairwise fun a b => a.span.stop ≤ b.span.start
  gaps : ∀ pre c post, src = pre ++ c :: post →
    (∀ t ∈ toks, ¬(t.span.start.val ≤ byteLen pre ∧ byteLen pre < t.span.stop.val)) →
      u.isWhitespace c = true ∨ c = '\ufeff'

structure Tiles (u : Unicode) (src : List Char) (toks : List TokenDecl) : Prop where
  located : ∀ t ∈ toks, ∃ pre text post, Located src t pre text post
  ordered : toks.Pairwise fun a b => a.span.stop ≤ b.span.start
  gaps : ∀ pre c post, src = pre ++ c :: post →
    (∀ t ∈ toks, ¬(t.span.start.val ≤ byteLen pre ∧ byteLen pre < t.span.stop.val)) →
      u.isWhitespace c = true ∨ c = '\ufeff'

/-- The line and the column after a text are in `u32`. -/
def CountsFit (pre : List Char) : Prop := lineAfter pre < 4294967296 ∧ colAfter pre < 4294967296

theorem countsFit_of_byteLen (h : byteLen pre + 1 < 4294967296) : CountsFit pre :=
  ⟨(lineAfter_le pre).trans_lt h, (colAfter_le pre).trans_lt h⟩

theorem Located.slice_eq (h : Located src t pre text post) :
    slice src t.span.start t.span.stop = some t.text.toList := by
  rw [h.start, h.stop, h.split, slice_append, h.text_eq, String.toList_ofList]

theorem Located.extend (h : Located src t pre text post) (rest : List Char) :
    Located (src ++ rest) t pre text (post ++ rest) :=
  { h with split := by rw [h.split, append_assoc, append_assoc] }

theorem Located.stop_le (h : Located src t pre text post) : t.span.stop.val ≤ byteLen src := by
  rw [h.stop, h.split]
  simp only [byteLen_append]
  omega

theorem u32_val (n : U32) : u32 n.val = n := Fin.ofNat_val_eq_self n

theorem val_u32 {n : Nat} (h : n < 4294967296) : (u32 n).val = n := Nat.mod_eq_of_lt h

theorem located_tokenAt {pre text : List Char} (cls : TokenClass) (ht : text ≠ [])
    (hlen : byteLen (pre ++ text) < 4294967296) :
    Located (pre ++ text) (tokenAt pre text cls) pre text [] := by
  have hle : byteLen pre ≤ byteLen (pre ++ text) := by
    rw [byteLen_append]
    exact Nat.le_add_right _ _
  exact ⟨by rw [append_nil], ht, rfl, val_u32 (by omega), val_u32 hlen, rfl, rfl⟩

theorem Lexed.tiles {u : Unicode} (h : Lexed u src toks) (hlen : byteLen src < 4294967296) :
    Tiles u src toks := by
  induction h with
  | nil => exact ⟨nofun, .nil, fun pre c post hsrc => absurd hsrc (by simp)⟩
  | @gap pre out c hpre hc ih =>
    rw [byteLen_append] at hlen
    have htiles := ih (by omega)
    refine ⟨?_, htiles.ordered, ?_⟩
    · intro t ht
      obtain ⟨a, text, b, hp⟩ := htiles.located t ht
      exact ⟨a, text, b ++ [c], hp.extend [c]⟩
    · intro a d b hsrc hout
      obtain rfl | ⟨b, y, rfl⟩ := eq_nil_or_concat b
      · obtain ⟨-, hd⟩ := append_inj' hsrc rfl
        rw [← (cons.inj hd).1]
        simpa [Unicode.isGap] using hc
      · rw [concat_eq_append, ← cons_append, ← append_assoc] at hsrc
        exact htiles.gaps a d b (append_inj' hsrc rfl).1 hout
  | @token pre text out cls hpre ht ih =>
    have htiles := ih (by rw [byteLen_append] at hlen; omega)
    have hlast := located_tokenAt cls ht hlen
    refine ⟨?_, ?_, ?_⟩
    · intro t ht
      obtain ht | ht := mem_append.mp ht
      · obtain ⟨a, x, b, hp⟩ := htiles.located t ht
        exact ⟨a, x, b ++ text, hp.extend text⟩
      · rw [mem_singleton.mp ht]
        exact ⟨pre, text, [], hlast⟩
    · rw [pairwise_append]
      refine ⟨htiles.ordered, pairwise_singleton _ _, ?_⟩
      intro a ha b hb
      obtain ⟨x, y, z, hp⟩ := htiles.located a ha
      rw [mem_singleton.mp hb, Fin.le_def, hlast.start]
      exact hp.stop_le
    · intro a d b hsrc hout
      -- a character of the last token is not outside of it
      have hlt : byteLen a < byteLen pre := by
        by_contra hge
        apply hout _ (mem_append_right _ (mem_singleton_self _))
        rw [hlast.start, hlast.stop, hsrc, byteLen_append, byteLen_cons]
        have := d.utf8Size_pos
        omega
      obtain ⟨a', t, b', hsplit, ha', hat, -⟩ :=
        Cut.between ⟨a, d :: b, hsrc, rfl⟩ ⟨pre, text, rfl, rfl⟩ hlt.le
      obtain ⟨rfl, htb⟩ := append_inj_of_byteLen (hsrc.symm.trans hsplit) ha'.symm
      rw [hsplit, ← append_assoc] at hsrc
      obtain ⟨hpre', -⟩ := append_inj_of_byteLen (hsplit.trans (append_assoc _ _ _).symm) hat.symm
      cases t with
      | nil =>
        rw [append_nil] at hat
        omega
      | cons e t =>
        cases htb
        apply htiles.gaps a d t hpre'
        intro t' ht'
        exact hout t' (mem_append_left _ ht')

theorem Located.placed (h : Located src t pre text post) (hlen : byteLen src < 4294967296)
    (hfit : CountsFit (pre ++ text)) : Placed src t pre text post := by
  have hpre : CountsFit pre := by
    have htext : 0 < byteLen text := Nat.pos_of_ne_zero fun h0 =>
      h.ne_nil (eq_nil_of_byteLen_eq_zero h0)
    have hsplit := congrArg byteLen h.split
    rw [byteLen_append, byteLen_append] at hsplit
    exact countsFit_of_byteLen (by omega)
  have hstart := h.startPos
  have hend := h.endPos
  rw [posAfter_eq, Prod.mk.injEq] at hstart hend
  refine ⟨h.split, h.ne_nil, h.text_eq, h.start, h.stop, ?_, ?_, ?_, ?_⟩
  · rw [hstart.1, val_u32 hpre.1]
  · rw [hstart.2, val_u32 hpre.2]
  · rw [hend.1, val_u32 hfit.1]
  · rw [hend.2, val_u32 hfit.2]

theorem Placed.located (h : Placed src t pre text post) : Located src t pre text post := by
  refine ⟨h.split, h.ne_nil, h.text_eq, h.start, h.stop, ?_, ?_⟩
  · rw [posAfter_eq, ← h.startLine, ← h.startCol, u32_val, u32_val]
  · rw [posAfter_eq, ← h.endLine, ← h.endCol, u32_val, u32_val]

theorem Located.eq_append (h : Located src t pre text post)
    (hstop : t.span.stop.val = byteLen src) : src = pre ++ text := by
  have hsplit := congrArg byteLen h.split
  rw [← append_assoc, byteLen_append, ← h.stop, hstop] at hsplit
  have hpost : post = [] := eq_nil_of_byteLen_eq_zero (by omega)
  rw [h.split, hpost, append_nil]

theorem Placed.countsFit (h : Placed src t pre text post) (hstop : t.span.stop.val = byteLen src) :
    CountsFit src := by
  rw [h.located.eq_append hstop, CountsFit, ← h.endLine, ← h.endCol]
  exact ⟨Fin.isLt _, Fin.isLt _⟩

theorem Tiles.covers_iff {u : Unicode} (h : Tiles u src toks) (hlen : byteLen src < 4294967296) :
    Covers u src toks ↔ CountsFit src ∨ ∀ t ∈ toks, t.span.stop.val < byteLen src := by
  constructor
  · intro hcov
    by_cases hend : ∀ t ∈ toks, t.span.stop.val < byteLen src
    · exact .inr hend
    · push Not at hend
      obtain ⟨t, ht, hge⟩ := hend
      obtain ⟨pre, text, post, hp⟩ := h.located t ht
      obtain ⟨_, _, _, hplaced⟩ := hcov.placed t ht
      exact .inl (hplaced.countsFit (hp.stop_le.antisymm hge))
  · intro hfit
    refine ⟨fun t ht => ?_, h.ordered, h.gaps⟩
    obtain ⟨pre, text, post, hp⟩ := h.located t ht
    refine ⟨pre, text, post, hp.placed hlen ?_⟩
    by_cases hstop : t.span.stop.val < byteLen src
    · rw [hp.stop] at hstop
      exact countsFit_of_byteLen (by omega)
    · -- the token reaches the end
      rw [← hp.eq_append (hp.stop_le.antisymm (Nat.not_lt.mp hstop))]
      exact hfit.resolve_right fun hall => hstop (hall t ht)

theorem Lexed.covers {u : Unicode} (h : Lexed u src toks) (hlen : byteLen src + 1 < 4294967296) :
    Covers u src toks :=
  ((h.tiles (by omega)).covers_iff (by omega)).mpr (.inl (countsFit_of_byteLen hlen))

theorem Covers.tiles {u : Unicode} (h : Covers u src toks) : Tiles u src toks := by
  refine ⟨fun t ht => ?_, h.ordered, h.gaps⟩
  obtain ⟨pre, text, post, hp⟩ := h.placed t ht
  exact ⟨pre, text, post, hp.located⟩

theorem byteLen_replicate (n : Nat) : byteLen (List.replicate n 'a') = n := by
  induction n with
  | zero => rfl
  | succ n ih =>
    rw [replicate_succ, byteLen_cons, ih]
    exact Nat.add_comm 1 n

end MemoryGraph.Lex
