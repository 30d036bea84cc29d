import MemoryGraph.Lex.Rules

/-! What the lexer has put out covers the text behind it. Every step of the drivers keeps that and
moves forward. -/

namespace MemoryGraph.Lex
open Lib Utf8 List Option

def posAfter (pre : List Char) : U32 × U32 := pre.foldl Lexer.advance (1, 1)

def tokenAt (pre text : List Char) (cls : TokenClass) : TokenDecl :=
  { text := String.ofList text, cls := cls
    span := ⟨u32 (byteLen pre), u32 (byteLen (pre ++ text)), (posAfter pre).1, (posAfter pre).2,
      (posAfter (pre ++ text)).1, (posAfter (pre ++ text)).2⟩ }

/-- The tokens of a text, read from the left: gaps between them, none empty. -/
inductive Lexed (u : Unicode) : List Char → List TokenDecl → Prop
  | nil : Lexed u [] []
  | gap {pre : List Char} {out : List TokenDecl} {c : Char} :
    Lexed u pre out → u.isGap c = true → Lexed u (pre ++ [c]) out
  | token {pre text : List Char} {out : List TokenDecl} {cls : TokenClass} :
    Lexed u pre out → text ≠ [] → Lexed u (pre ++ text) (out ++ [tokenAt pre text cls])

theorem Lexed.gaps {u : Unicode} {pre : List Char} {out : List TokenDecl} (h : Lexed u pre out)
    {g : List Char} (hg : ∀ c ∈ g, u.isGap c = true) : Lexed u (pre ++ g) out := by
  induction g generalizing pre with
  | nil => rwa [append_nil]
  | cons c g ih =>
    have hc := h.gap (hg c (mem_cons_self ..))
    have := ih hc fun d hd => hg d (.tail _ hd)
    rwa [append_assoc] at this

def Gap (u : Unicode) (src : List Char) (p q : Nat) : Prop :=
  ∃ a g b, src = a ++ (g ++ b) ∧ byteLen a = p ∧ byteLen (a ++ g) = q ∧ ∀ c ∈ g, u.isGap c = true

section
variable {u : Unicode} {src : List Char} {p q r : Nat}

theorem Gap.refl (h : Cut src p) : Gap u src p p := by
  obtain ⟨a, b, rfl, rfl⟩ := h
  exact ⟨a, [], b, rfl, rfl, by rw [append_nil], nofun⟩

theorem Gap.left (h : Gap u src p q) : Cut src p := by
  obtain ⟨a, g, b, rfl, rfl, -, -⟩ := h
  exact ⟨a, g ++ b, rfl, rfl⟩

theorem Gap.right (h : Gap u src p q) : Cut src q := by
  obtain ⟨a, g, b, rfl, -, rfl, -⟩ := h
  exact ⟨a ++ g, b, by rw [append_assoc], rfl⟩

theorem Gap.trans (h : Gap u src p q) (h' : Gap u src q r) : Gap u src p r := by
  obtain ⟨a, g, b, rfl, rfl, rfl, hg⟩ := h
  obtain ⟨a', g', b', hsrc, ha', rfl, hg'⟩ := h'
  rw [← append_assoc] at hsrc
  obtain ⟨rfl, rfl⟩ := append_inj_of_byteLen hsrc ha'.symm
  refine ⟨a, g ++ g', b', by simp, rfl, by simp, ?_⟩
  intro c hc
  exact (mem_append.mp hc).elim (hg c) (hg' c)

theorem Gap.of_split {a g b : List Char} (hg : ∀ c ∈ g, u.isGap c = true) :
    Gap u (a ++ (g ++ b)) (byteLen a) (byteLen (a ++ g)) := ⟨a, g, b, rfl, rfl, rfl, hg⟩

end

namespace Lexer

structure At (u : Unicode) (pre : List Char) (lx : Lexer) : Prop where
  i : lx.i = byteLen pre
  line : lx.line = (posAfter pre).1
  col : lx.col = (posAfter pre).2
  lexed : Lexed u pre lx.out
  modes : lx.modes.Ok

def Ok (u : Unicode) (src : List Char) (lx : Lexer) : Prop :=
  ∃ pre post, src = pre ++ post ∧ At u pre lx

/-- What is out covers the text before `p`, up to which only gaps are left. -/
def Covered (u : Unicode) (src : List Char) (p : Nat) (lx : Lexer) : Prop := Ok u src lx ∧
    Gap u src lx.i p

theorem new_ok (u : Unicode) (src : List Char) : Ok u src new :=
  ⟨[], src, rfl, rfl, rfl, rfl, .nil, nofun⟩

section
variable {u : Unicode} {o : TokenizerOptions} {src : List Char} {lx : Lexer} {p q limit : Nat}

theorem Ok.cut (h : Ok u src lx) : Cut src lx.i := by
  obtain ⟨pre, post, hsrc, hat⟩ := h
  exact ⟨pre, post, hsrc, hat.i.symm⟩

theorem Ok.covered (h : Ok u src lx) : Covered u src lx.i lx := ⟨h, Gap.refl h.cut⟩

theorem Ok.split (h : Ok u src lx) (hq : Cut src q) (hle : lx.i ≤ q) :
    ∃ pre t post, src = pre ++ (t ++ post) ∧ At u pre lx ∧ byteLen (pre ++ t) = q := by
  obtain ⟨a, t, b, hsrc, ha, hat, -⟩ := h.cut.between hq hle
  obtain ⟨pre, post, hsrc', hpre⟩ := h
  obtain ⟨rfl, -⟩ := append_inj_of_byteLen (hsrc.symm.trans hsrc') (ha.trans hpre.i)
  exact ⟨a, t, b, hsrc, hpre, hat⟩

theorem advTo_eq {pre g post : List Char} (h : At u pre lx) :
    lx.advTo (pre ++ (g ++ post)) (byteLen (pre ++ g)) = some { lx with
      i := byteLen (pre ++ g), line := (posAfter (pre ++ g)).1, col :=
  (posAfter (pre ++ g)).2 } := by
  have hpos : g.foldl advance (lx.line, lx.col) = posAfter (pre ++ g) := by
    rw [h.line, h.col, posAfter, posAfter, foldl_append]
  rw [advTo, h.i, slice_append, map_some, hpos]

theorem advTo_covered (h : Covered u src p lx) :
    ∃ lx', lx.advTo src p = some lx' ∧ Ok u src lx' ∧ lx'.i = p ∧ lx'.modes = lx.modes := by
  obtain ⟨⟨pre, post, hsrc, hat⟩, a, g, b, rfl, ha, rfl, hg⟩ := h
  obtain ⟨rfl, rfl⟩ := append_inj_of_byteLen hsrc (ha.trans hat.i)
  refine ⟨_, advTo_eq hat, ?_, rfl, rfl⟩
  exact ⟨a ++ g, b, by rw [append_assoc], rfl, rfl, rfl, hat.lexed.gaps hg, hat.modes⟩

theorem push_eq {pre t post : List Char} (h : At u pre lx) (cls : TokenClass) :
    lx.push (pre ++ (t ++ post)) (byteLen (pre ++ t)) cls = some { lx with
      i := byteLen (pre ++ t), line := (posAfter (pre ++ t)).1, col := (posAfter (pre ++ t)).2
      out := lx.out ++ [tokenAt pre t cls] } := by
  have hslice : slice (pre ++ (t ++ post)) lx.i (byteLen (pre ++ t)) = some t := by
    rw [h.i, slice_append]
  rw [push, advTo_eq h, hslice, tokenAt, ← h.i, ← h.line, ← h.col]
  rfl

theorem push_ok (h : Ok u src lx) (hq : Cut src q) (hlt : lx.i < q) (cls : TokenClass) :
    ∃ lx', lx.push src q cls = some lx' ∧ Ok u src lx' ∧ lx'.i = q := by
  obtain ⟨pre, t, post, rfl, hat, rfl⟩ := h.split hq hlt.le
  have ht : t ≠ [] := by
    rintro rfl
    rw [append_nil, hat.i] at hlt
    exact Nat.lt_irrefl _ hlt
  refine ⟨_, push_eq hat cls, ?_, rfl⟩
  exact ⟨pre ++ t, post, by rw [append_assoc], rfl, rfl, rfl, hat.lexed.token ht, hat.modes⟩

theorem trimmed_covered (h : Covered u src p lx) (hq : Cut src q) (hle : p ≤ q) (cls : TokenClass) :
    ∃ lx', lx.trimmed src u p q cls = some lx' ∧ Covered u src q lx' := by
  obtain ⟨a, s, b, hsrc, ha, haq, hslice⟩ := h.2.right.between hq hle
  have hs : s = s.takeWhile u.isGap ++ s.dropWhile u.isGap := takeWhile_append_dropWhile.symm
  set g := s.takeWhile u.isGap with hg
  set t := s.dropWhile u.isGap with ht
  set m := t.rdropWhile u.isGap with hm
  have htm : t = m ++ t.rtakeWhile u.isGap := (rdropWhile_append_rtakeWhile).symm
  have hgap : ∀ c ∈ g, u.isGap c = true := fun c hc => mem_takeWhile_imp hc
  have hgap' : ∀ c ∈ t.rtakeWhile u.isGap, u.isGap c = true := fun c hc => mem_rtakeWhile_imp hc
  set g' := t.rtakeWhile u.isGap with hg'
  have hsplit : src = a ++ (g ++ (m ++ (g' ++ b))) := by
    rw [hsrc, hs, htm]
    simp only [append_assoc]
  have hfirst : q - byteLen t = byteLen (a ++ g) := by
    rw [← haq, hs]
    simp only [byteLen_append]
    omega
  have hlast : byteLen (a ++ g) + byteLen m = byteLen (a ++ g ++ m) := (byteLen_append _ _).symm
  have hstop : q = byteLen (a ++ g ++ m ++ g') := by
    rw [← haq, hs, htm]
    simp only [append_assoc]
  have hfront : Gap u src p (byteLen (a ++ g)) := by
    rw [hsplit, ← ha]
    exact Gap.of_split hgap
  have hback : Gap u src (byteLen (a ++ g ++ m)) q := by
    rw [hsplit, hstop]
    have := Gap.of_split (a := a ++ g ++ m) (b := b) hgap'
    simpa only [append_assoc] using this
  rw [trimmed, hslice]
  dsimp only [bind_eq_bind, bind_some]
  rw [← ht, ← hm, hfirst, hlast]
  split
  next hlt =>
    obtain ⟨lx₁, hadv, hok, hi, -⟩ := advTo_covered ⟨h.1, h.2.trans hfront⟩
    obtain ⟨lx₂, hpush, hok', hi'⟩ := push_ok hok hback.left (by rw [hi]; exact hlt) cls
    refine ⟨lx₂, ?_, hok', by rw [hi']; exact hback⟩
    rw [hadv, bind_some, hpush]
  next hlt =>
    -- nothing but gaps
    have hnil : m = [] := by
      apply eq_nil_of_byteLen_eq_zero
      rw [← hlast] at hlt
      omega
    rw [hnil, append_nil] at hback
    exact ⟨lx, rfl, h.1, h.2.trans (hfront.trans hback)⟩

theorem line_split {body : List Char} {p limit : Nat} (hlimit : p + byteLen body = limit) :
    ∃ line rest, body = line ++ rest ∧
      (findChar (· == '\n') body).elim limit (p + ·) = p + byteLen line ∧
      (rest = [] ∨ ∃ y, rest = '\n' :: y) ∧ '\n' ∉ line := by
  cases h : findChar (· == '\n') body with
  | none =>
    exact ⟨body, [], (append_nil body).symm, hlimit.symm, .inl rfl,
      fun hin => by simpa using findChar_eq_none h _ hin⟩
  | some k =>
    obtain ⟨x, c, y, rfl, rfl, hc, hnone⟩ := findChar_eq_some h
    obtain rfl := eq_of_beq hc
    exact ⟨x, _, rfl, rfl, .inr ⟨y, rfl⟩, fun hin => by simpa using hnone _ hin⟩

theorem heredocEnd_cut (delim : List Char) (strip : Bool) (hlimit : Cut src limit) {fuel p : Nat}
    (hp : Cut src p) (hle : p ≤ limit) (hfuel : limit - p < fuel) :
    ∃ n, heredocEnd src delim strip limit fuel p = some n ∧ Cut src n ∧ p ≤ n ∧ n ≤ limit := by
  induction fuel generalizing p with
  | zero => exact absurd hfuel (Nat.not_lt_zero _)
  | succ fuel ih =>
    rw [heredocEnd]
    split
    next hlt =>
      obtain ⟨a, body, b, hsrc, ha, hab, hbody⟩ := hp.between hlimit hle
      rw [byteLen_append, ha] at hab
      obtain ⟨line, rest, rfl, hle', hrest, -⟩ := line_split hab
      have hline : slice src p (p + byteLen line) = some line := by
        have := slice_append a line (rest ++ b)
        rwa [byteLen_append, ha, ← append_assoc line, ← hsrc] at this
      rw [hbody]
      dsimp only [bind_eq_bind, bind_some]
      rw [hle', hline, bind_some]
      -- a carriage return is no part of the terminator
      obtain ⟨tail, htail⟩ :
        ∃ tail, line = (if line.getLast? = some '\r' then line.dropLast else line) ++ tail := by
        split
        next hcr =>
          obtain ⟨x, hx⟩ := getLast?_eq_some_iff.mp hcr
          exact ⟨['\r'], by rw [hx, dropLast_concat]⟩
        next => exact ⟨[], (append_nil line).symm⟩
      set content := if line.getLast? = some '\r' then line.dropLast else line with hcontent
      by_cases hterm : (if strip then content.dropWhile (· == '\t') else content) = delim
      · rw [if_pos hterm]
        have hlen := congrArg byteLen htail
        rw [byteLen_append] at hlen hab
        refine ⟨_, rfl, ⟨a ++ content, tail ++ (rest ++ b), ?_, ?_⟩, by omega, by omega⟩
        · rw [hsrc]
          conv_lhs => rw [htail]
          simp only [append_assoc]
        · rw [byteLen_append, ha]
      · rw [if_neg hterm]
        obtain rfl | ⟨y, rfl⟩ := hrest
        · -- the last line: the next turn is beyond the limit
          rw [append_nil] at hab
          obtain ⟨fuel, rfl⟩ := Nat.exists_eq_add_of_le' (show 1 ≤ fuel by omega)
          refine ⟨limit, ?_, hlimit, hle, le_rfl⟩
          have hbeyond : ¬p + byteLen line + 1 < limit := by omega
          rw [heredocEnd, if_neg hbeyond]
          rfl
        · have hone : byteLen ('\n' :: y) = 1 + byteLen y := rfl
          rw [byteLen_append, hone] at hab
          have hnext : Cut src (p + byteLen line + 1) := by
            refine ⟨a ++ (line ++ ['\n']), y ++ b, ?_, ?_⟩
            · rw [hsrc]
              simp only [append_assoc, cons_append, nil_append]
            · rw [byteLen_append, byteLen_append, ha, ← Nat.add_assoc]
              rfl
          obtain ⟨n, hn, hcut, hpn, hnl⟩ := ih hnext (by omega) (by omega)
          exact ⟨n, hn, hcut, by omega, hnl⟩
    next => exact ⟨limit, rfl, hlimit, hle, le_rfl⟩

theorem isGap_newline (u : Unicode) : u.isGap '\n' = true := rfl

theorem first_gap {s : List Char} (hp : Cut src p) (hq : Cut src q) (hle : p ≤ q)
    (hs : slice src p q = some s) :
    let first := (findChar (fun c => !u.isGap c) s).elim q (p + ·)
    Gap u src p first ∧ first ≤ q := by
  obtain ⟨a, t, b, rfl, rfl, rfl, ht⟩ := hp.between hq hle
  obtain rfl := mem_unique ht hs
  cases hfind : findChar (fun c => !u.isGap c) t with
  | none =>
    refine ⟨Gap.of_split fun c hc => ?_, le_rfl⟩
    simpa using findChar_eq_none hfind c hc
  | some k =>
    obtain ⟨x, c, y, rfl, rfl, -, hx⟩ := findChar_eq_some hfind
    have hgap : Gap u (a ++ (x ++ (c :: y ++ b))) (byteLen a) (byteLen (a ++ x)) :=
      Gap.of_split fun d hd => by simpa using hx d hd
    rw [byteLen_append] at hgap
    simp only [elim_some, append_assoc, cons_append, byteLen_append, byteLen_cons] at hgap ⊢
    exact ⟨hgap, by omega⟩

theorem heredocBody_ok {stop : Nat} (h : Ok u src lx) (hstop : Cut src stop) (hle : lx.i ≤ stop) :
    ∃ lx', lx.heredocBody src u stop = some lx' ∧ Ok u src lx' ∧ lx'.i = stop := by
  obtain ⟨-, body, -, -, -, -, hbody⟩ := h.cut.between hstop hle
  obtain ⟨hgap, hfirst⟩ := first_gap (u := u) h.cut hstop hle hbody
  rw [heredocBody, hbody]
  dsimp only [bind_eq_bind, bind_some]
  split
  next hlt =>
    obtain ⟨lx₁, hadv, hok₁, hi₁, -⟩ := advTo_covered ⟨h, hgap⟩
    rw [hadv, bind_some]
    exact push_ok hok₁ hstop (by rw [hi₁]; exact hlt) .literal
  next hlt =>
    have hall : Gap u src lx.i stop := (Nat.le_antisymm hfirst (Nat.not_lt.mp hlt)) ▸ hgap
    obtain ⟨lx₁, hadv, hok₁, hi₁, -⟩ := advTo_covered ⟨h, hall⟩
    exact ⟨lx₁, hadv, hok₁, hi₁⟩

theorem heredocBodies_ok {ds : List (List Char × Bool)} (h : Ok u src lx) (hlimit : Cut src limit)
    (hle : lx.i ≤ limit) :
    ∃ lx', heredocBodies src u limit ds lx = some lx' ∧ Ok u src lx' ∧ lx.i ≤ lx'.i ∧
      lx'.i ≤ limit := by
  induction ds generalizing lx with
  | nil => exact ⟨lx, rfl, h, le_rfl, hle⟩
  | cons d ds ih =>
    rw [heredocBodies]
    split
    next => exact ⟨lx, rfl, h, le_rfl, hle⟩
    next =>
      obtain ⟨stop, hstop, hcut, hge, hstopLe⟩ :=
        heredocEnd_cut d.1 d.2 hlimit h.cut hle (show limit - lx.i < limit + 1 by omega)
      obtain ⟨lx₁, hbody, hok₁, hi₁⟩ := heredocBody_ok h hcut hge
      rw [hstop]
      dsimp only [bind_eq_bind, bind_some]
      rw [hbody, bind_some]
      obtain ⟨a, after, b, hsrc, ha, hlen, hafter⟩ := hok₁.cut.between hlimit (by omega)
      rw [hafter, bind_some]
      split
      next => exact ⟨lx₁, rfl, hok₁, by omega, by omega⟩
      next nl hnl =>
        obtain ⟨x, c, y, rfl, rfl, hc, -⟩ := findChar_eq_some hnl
        obtain rfl := eq_of_beq hc
        have hblank : slice src lx₁.i (lx₁.i + byteLen x) = some x := by
          rw [hsrc, ← ha, ← byteLen_append, append_assoc x]
          exact slice_append a x _
        rw [hblank, bind_some]
        split
        next hall =>
          have hskip : Gap u src lx₁.i (lx₁.i + byteLen x + 1) := by
            refine ⟨a, x ++ ['\n'], y ++ b, ?_, ha, ?_, ?_⟩
            · rw [hsrc]
              simp only [append_assoc, cons_append, nil_append]
            · rw [byteLen_append, byteLen_append, ha, ← Nat.add_assoc]
              rfl
            · intro c hc
              obtain hc | hc := mem_append.mp hc
              · exact all_eq_true.mp hall c hc
              · rw [mem_singleton.mp hc]
                exact isGap_newline u
          obtain ⟨lx₂, hadv, hok₂, hi₂, -⟩ := advTo_covered ⟨hok₁, hskip⟩
          have hle₂ : lx₂.i ≤ limit := by
            rw [hi₂, ← hlen, ← ha]
            simp only [byteLen_append, byteLen_cons]
            have : '\n'.utf8Size = 1 := rfl
            omega
          obtain ⟨lx₃, hrest, hok₃, hge₃, hle₃⟩ := ih hok₂ hle₂
          refine ⟨lx₃, ?_, hok₃, by omega, hle₃⟩
          rw [hadv, bind_some, hrest]
        next => exact ⟨lx₁, rfl, hok₁, by omega, by omega⟩

theorem turn_ok (h : Ok u src lx) (hlimit : Cut src limit) (hlt : lx.i < limit) :
    ∃ lx', lx.turn src u o limit = some lx' ∧ Ok u src lx' ∧ lx.i < lx'.i ∧ lx'.i ≤ limit := by
  obtain ⟨pre, t, post, hsrc, hat, hlen⟩ := h.split hlimit hlt.le
  have ht : t ≠ [] := by
    rintro rfl
    rw [append_nil, ← hat.i] at hlen
    omega
  obtain ⟨c, s, rfl⟩ := exists_cons_of_ne_nil ht
  have htail : sliceFrom src lx.i = some (c :: (s ++ post)) := by
    rw [hsrc, hat.i]
    exact sliceFrom_append pre _
  have hchar : byteLen (pre ++ [c]) = lx.i + c.utf8Size := by
    rw [byteLen_append, hat.i]
    rfl
  have hsize := c.utf8Size_pos
  rw [turn, htail]
  dsimp only [bind_eq_bind, bind_some]
  split
  next hc =>
    have hgap : Gap u src lx.i (lx.i + c.utf8Size) := by
      rw [hsrc, ← hchar, hat.i]
      exact Gap.of_split (g := [c]) fun d hd => by rw [mem_singleton.mp hd]; exact hc
    obtain ⟨lx₁, hadv, hok₁, hi₁, -⟩ := advTo_covered ⟨h, hgap⟩
    have hle₁ : lx₁.i ≤ limit := by
      rw [hi₁, ← hlen, byteLen_append, byteLen_cons, hat.i]
      omega
    rw [hadv, bind_some]
    split
    next =>
      -- the queue of heredocs is emptied first
      have hok₁' : Ok u src { lx₁ with modes := { lx₁.modes with heredocs := [] } } := by
        obtain ⟨pre₁, post₁, hsrc₁, hat₁⟩ := hok₁
        exact ⟨pre₁, post₁, hsrc₁, hat₁.i, hat₁.line, hat₁.col, hat₁.lexed, hat₁.modes⟩
      obtain ⟨lx₂, hbodies, hok₂, hge, hle₂⟩ := heredocBodies_ok hok₁' hlimit hle₁
      exact ⟨lx₂, hbodies, hok₂, by have : lx₁.i ≤ lx₂.i := hge; omega, hle₂⟩
    next => exact ⟨lx₁, rfl, hok₁, by omega, hle₁⟩
  next hc =>
    have hrest : slice src lx.i limit = some (c :: s) := by
      rw [hsrc, hat.i, ← hlen]
      exact slice_append pre (c :: s) post
    have hbefore : sliceTo src lx.i = some pre := by
      rw [hsrc, hat.i]
      exact sliceTo_append pre _
    rw [hrest, bind_some, hbefore, bind_some]
    set here : Here :=
      { c := c, rest := c :: s, prevChar := pre.getLast?, prev := lx.out.getLast?,
        lineStart := lx.atLineStart }
    have hhere : here.Ok := by
      refine ⟨⟨s, rfl⟩, ?_⟩
      rintro rfl
      exact hc (isGap_newline u)
    obtain ⟨md, n, cls, hlex, hmd, hpos, hcut⟩ := lexeme_sound u o hhere hat.modes
    rw [hlex, bind_some]
    have hok₁ : Ok u src { lx with modes := track u o here (lx.modes.markup o) n md } :=
      ⟨pre, (c :: s) ++ post, hsrc, hat.i, hat.line, hat.col, hat.lexed, track_ok u o hmd⟩
    have hstop : Cut src (lx.i + n) := by
      rw [hsrc, hat.i]
      exact (hcut.extend post).shift pre
    obtain ⟨lx₂, hpush, hok₂, hi₂⟩ := push_ok hok₁ hstop (Nat.lt_add_of_pos_right hpos) cls
    refine ⟨lx₂, hpush, hok₂, by omega, ?_⟩
    have hle : n ≤ byteLen (c :: s) := hcut.le
    rw [hi₂, ← hlen, byteLen_append, hat.i]
    omega

theorem run_ok (hlimit : Cut src limit) {fuel : Nat} (h : Ok u src lx) (hle : lx.i ≤ limit)
    (hfuel : limit - lx.i < fuel) :
    ∃ lx', run src u o limit fuel lx = some lx' ∧ Ok u src lx' ∧ lx'.i = limit := by
  induction fuel generalizing lx with
  | zero => exact absurd hfuel (Nat.not_lt_zero _)
  | succ fuel ih =>
    rw [run]
    split
    next hlt =>
      obtain ⟨lx₁, hturn, hok₁, hlt₁, hle₁⟩ := turn_ok (o := o) h hlimit hlt
      obtain ⟨lx₂, hrun, hok₂, hi₂⟩ := ih hok₁ hle₁ (by omega)
      exact ⟨lx₂, by rw [hturn, bind_some, hrun], hok₂, hi₂⟩
    next hlt => exact ⟨lx, rfl, h, by omega⟩

theorem runTo_ok (o : TokenizerOptions) (h : Ok u src lx) (hlimit : Cut src limit)
    (hle : lx.i ≤ limit) :
    ∃ lx', lx.runTo src u o limit = some lx' ∧ Ok u src lx' ∧ lx'.i = limit := by
  apply run_ok hlimit h hle
  have := hlimit.le
  omega

end

end Lexer

end MemoryGraph.Lex
