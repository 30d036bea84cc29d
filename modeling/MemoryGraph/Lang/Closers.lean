import MemoryGraph.Lang.Scan

/-! Closers of brackets and of keyword blocks: a scan from an opener keeps the closers it waits
for, the tables keep those of all openers on one stack. -/

namespace MemoryGraph.Lang
open Lib List Option

/-- Which tokens open, which close, and which closer an opener waits for. -/
structure Pairing (κ : Type) where
  opener : TokenDecl → Option κ
  closer : TokenDecl → Bool
  fits : κ → TokenDecl → Bool

namespace Pairing
variable {κ : Type} (d : Pairing κ)

def closeGo : List TokenDecl → (i : Nat) → List κ → Option Nat
  | [], _, _ => none
  | t :: ts, i, stack =>
    if isTrivia t then closeGo ts (i + 1) stack
    else match d.opener t with
      | some k => closeGo ts (i + 1) (k :: stack)
      | none =>
        if d.closer t then
          match stack with
          | [] => none
          | k :: stack =>
              if d.fits k t then (if stack.isEmpty then some i else closeGo ts (i + 1) stack)
                else none
        else closeGo ts (i + 1) stack

def closeFrom (tokens : List TokenDecl) (o : Nat) : Option Nat := do
  let first ← tokens[o]?
  if (d.opener first).isNone || isTrivia first then none else d.closeGo (tokens.drop o) o []

def tableStep (st : List (Nat × κ) × List (Option Nat)) (x : TokenDecl × Nat) :
    List (Nat × κ) × List (Option Nat) :=
  if isTrivia x.1 then st
  else match d.opener x.1 with
    | some k => ((x.2, k) :: st.1, st.2)
    | none =>
      if d.closer x.1 then
        match st.1 with
        | (o, k) :: stack => if d.fits k x.1 then (stack, st.2.set o (some x.2)) else ([], st.2)
        | [] => ([], st.2)
      else st

def table (tokens : List TokenDecl) : List (Option Nat) :=
  (tokens.zipIdx.foldl (d.tableStep) ([], List.replicate tokens.length none)).2

/-- The table before token `i`, when `ts` are left: the scan from an opener on the stack has come as
far with the closers above it, and every other entry before `i` is what that scan returns. -/
structure TableInv (answer : Nat → Option Nat) (ts : List TokenDecl) (i : Nat)
    (st : List (Nat × κ) × List (Option Nat)) : Prop where
  length : st.2.length = i + ts.length
  opened : ∀ e ∈ st.1, e.1 < i
  waits : ∀ j e, st.1[j]? = some e → answer e.1 = d.closeGo ts i ((st.1.take (j + 1)).map Prod.snd)
  known : ∀ o < i + ts.length, st.2[o]? = some (answer o) ∨ st.2[o]? = some none ∧
    (i ≤ o ∨ o ∈ st.1.map Prod.fst)

variable {d} {answer : Nat → Option Nat} {t : TokenDecl} {ts : List TokenDecl} {i : Nat}
  {st : List (Nat × κ) × List (Option Nat)}

section
variable (ks : List κ)

theorem closeGo_trivia (h : isTrivia t) : d.closeGo (t :: ts) i ks = d.closeGo ts (i + 1) ks := by
  rw [closeGo.eq_def]
  exact if_pos h

theorem closeGo_opener (h : ¬isTrivia t) {k : κ} (hk : d.opener t = some k) :
    d.closeGo (t :: ts) i ks = d.closeGo ts (i + 1) (k :: ks) := by
  rw [closeGo.eq_def]
  dsimp only
  rw [if_neg h, hk]

theorem closeGo_other (h : ¬isTrivia t) (hk : d.opener t = none) (hc : ¬d.closer t) :
    d.closeGo (t :: ts) i ks = d.closeGo ts (i + 1) ks := by
  rw [closeGo.eq_def]
  dsimp only
  rw [if_neg h, hk]
  exact if_neg hc

theorem closeGo_closer (h : ¬isTrivia t) (hk : d.opener t = none) (hc : d.closer t) (k : κ) :
    d.closeGo (t :: ts) i (k :: ks) =
      if d.fits k t then (if ks.isEmpty then some i else d.closeGo ts (i + 1) ks) else none := by
  rw [closeGo.eq_def]
  dsimp only
  rw [if_neg h, hk]
  exact if_pos hc

end

theorem closeGo_unopened (h : ¬isTrivia t) (hk : d.opener t = none) (hc : d.closer t) :
    d.closeGo (t :: ts) i [] = none := by
  rw [closeGo.eq_def]
  dsimp only
  rw [if_neg h, hk]
  exact if_pos hc

theorem closeGo_lt (ts : List TokenDecl) :
    ∀ {i x : Nat} {stack : List κ}, d.closeGo ts i stack = some x → x < i + ts.length := by
  induction ts with
  | nil => exact nofun
  | cons t ts ih =>
    intro i x stack h
    have hlater : ∀ {stack}, d.closeGo ts (i + 1) stack = some x → x < i + (t :: ts).length := by
      intro stack h
      have := ih h
      rw [length_cons]
      omega
    rw [closeGo.eq_def] at h
    dsimp only at h
    split at h
    · exact hlater h
    split at h
    · exact hlater h
    split at h
    · split at h
      · exact nomatch h
      split_ifs at h
      · rw [← some.inj h]
        exact Nat.lt_add_of_pos_right (Nat.succ_pos _)
      · exact hlater h
    · exact hlater h

theorem TableInv.next (h : TableInv d answer (t :: ts) i st) {stack : List (Nat × κ)}
    (hopened : ∀ e ∈ stack, e.1 < i + 1)
    (hwaits : ∀ j e, stack[j]? = some e →
      answer e.1 = d.closeGo ts (i + 1) ((stack.take (j + 1)).map Prod.snd))
    (hi : answer i = none ∨ i ∈ stack.map Prod.fst)
    (hgone : ∀ e ∈ st.1, st.2[e.1]? = some (answer e.1) ∨ e.1 ∈ stack.map Prod.fst) :
    TableInv d answer ts (i + 1) (stack, st.2) := by
  have hlen : i + (t :: ts).length = i + 1 + ts.length := by
    rw [length_cons]
    omega
  refine ⟨h.length.trans hlen, hopened, hwaits, fun o ho => ?_⟩
  rcases h.known o (hlen ▸ ho) with hknown | ⟨hnone, hle | hin⟩
  · exact .inl hknown
  · rcases hle.lt_or_eq with hlt | rfl
    · exact .inr ⟨hnone, .inl hlt⟩
    · rcases hi with hi | hin
      · exact .inl (by rw [hnone, hi])
      · exact .inr ⟨hnone, .inr hin⟩
  · obtain ⟨e, he, rfl⟩ := mem_map.mp hin
    exact (hgone e he).imp_right fun hin => ⟨hnone, .inr hin⟩

theorem TableInv.answered (h : TableInv d answer ts i st) {o : Nat} (ho : o < i + ts.length) :
    TableInv d answer ts i (st.1, st.2.set o (answer o)) := by
  refine ⟨by rw [length_set, h.length], h.opened, h.waits, fun x hx => ?_⟩
  rw [getElem?_set]
  split_ifs with heq hlt
  · exact .inl (by rw [heq])
  · exact absurd (h.length ▸ ho) hlt
  · exact h.known x hx

theorem tableStep_inv (h : TableInv d answer (t :: ts) i st)
    (hi : answer i = if (d.opener t).isNone || isTrivia t then none else d.closeGo (t :: ts) i []) :
    TableInv d answer ts (i + 1) (d.tableStep st (t, i)) := by
  have hopened : ∀ e ∈ st.1, e.1 < i + 1 := fun e he => (h.opened e he).trans (Nat.lt_succ_self i)
  have hpass : answer i = none → (∀ ks, d.closeGo (t :: ts) i ks = d.closeGo ts (i + 1) ks) →
      TableInv d answer ts (i + 1) st := fun hnone hgo =>
    h.next hopened (fun j e he => by rw [h.waits j e he, hgo]) (.inl hnone) fun e he =>
      .inr (mem_map_of_mem he)
  unfold tableStep
  by_cases htrivia : isTrivia t
  · rw [if_pos htrivia]
    exact hpass (by rw [hi, htrivia, Bool.or_true, if_pos rfl]) fun ks => closeGo_trivia ks htrivia
  rw [if_neg htrivia]
  cases hopener : d.opener t with
  | some k =>
    refine h.next (forall_mem_cons.mpr ⟨Nat.lt_succ_self i, hopened⟩) (fun j e he => ?_)
      (.inr mem_cons_self) fun e he => .inr (.tail _ (mem_map_of_mem he))
    cases j with
    | zero =>
      cases he
      rw [hi, hopener, isNone_some, Bool.false_or, if_neg htrivia, closeGo_opener _ htrivia hopener]
      rfl
    | succ j => rw [h.waits j e he, closeGo_opener _ htrivia hopener, take_succ_cons, map_cons]
  | none =>
    have hnone : answer i = none := by rw [hi, hopener, isNone_none, Bool.true_or, if_pos rfl]
    dsimp only
    by_cases hcloser : d.closer t
    swap
    · rw [if_neg hcloser]
      exact hpass hnone fun ks => closeGo_other ks htrivia hopener hcloser
    rw [if_pos hcloser]
    obtain ⟨stack, out⟩ := st
    cases stack with
    | nil => exact h.next nofun nofun (.inl hnone) nofun
    | cons e stack =>
      obtain ⟨o, k⟩ := e
      dsimp only
      by_cases hfits : d.fits k t
      · -- the innermost opener is closed here, and the scans from the others go on
        have ho : answer o = some i := by
          rw [h.waits 0 (o, k) rfl, take_one, head?_cons, toList_some, map_singleton,
            closeGo_closer _ htrivia hopener hcloser, if_pos hfits]
          rfl
        rw [if_pos hfits, ← ho]
        have hlt : o < i + (t :: ts).length :=
          (h.opened (o, k) mem_cons_self).trans_le (Nat.le_add_right _ _)
        have hset : (out.set o (answer o))[o]? = some (answer o) :=
          getElem?_set_self (h.length ▸ hlt)
        refine (h.answered hlt).next (fun e he => hopened e (.tail _ he)) (fun j e he => ?_)
          (.inl hnone) (forall_mem_cons.mpr ⟨.inl hset, fun e he => .inr (mem_map_of_mem he)⟩)
        rw [h.waits (j + 1) e he, take_succ_cons, map_cons,
          closeGo_closer _ htrivia hopener hcloser, if_pos hfits, if_neg]
        cases stack with
        | nil => exact nomatch he
        | cons e' stack => exact Bool.false_ne_true
      · rw [if_neg hfits]
        refine h.next nofun nofun (.inl hnone) fun e he => .inl ?_
        obtain ⟨j, hj⟩ := mem_iff_getElem?.mp he
        have hfails : answer e.1 = none := by
          rw [h.waits j e hj, take_succ_cons, map_cons, closeGo_closer _ htrivia hopener hcloser,
            if_neg hfits]
        rcases h.known e.1 ((h.opened e he).trans_le
          (Nat.le_add_right _ _)) with hknown | ⟨hblank, -⟩
        · exact hknown
        · rw [hfails]
          exact hblank

theorem table_inv (tokens : List TokenDecl) : TableInv d (d.closeFrom tokens) [] tokens.length
    (tokens.zipIdx.foldl (d.tableStep) ([], List.replicate tokens.length none)) := by
  have hfold : ∀ (ts pre : List TokenDecl) (st : List (Nat × κ) × List (Option Nat)),
      tokens = pre ++ ts → TableInv d (d.closeFrom tokens) ts pre.length st →
      TableInv d (d.closeFrom tokens) [] tokens.length
        ((ts.zipIdx pre.length).foldl (d.tableStep) st) := by
    intro ts
    induction ts with
    | nil =>
      intro pre st hsplit h
      have hlen : tokens.length = pre.length := by rw [hsplit, append_nil]
      rw [hlen]
      exact h
    | cons t ts ih =>
      intro pre st hsplit h
      have hstep := tableStep_inv h (by
        rw [closeFrom, hsplit, getElem?_append_right le_rfl, Nat.sub_self, drop_left]
        rfl)
      have hlen : (pre ++ [t]).length = pre.length + 1 := length_append
      rw [zipIdx_cons, foldl_cons, ← hlen]
      exact ih (pre ++ [t]) _ (by rw [hsplit, append_assoc]; rfl) (hlen ▸ hstep)
  refine hfold tokens [] _ rfl
    ⟨by rw [length_replicate, length_nil, Nat.zero_add], nofun, nofun, fun x hx => .inr ?_⟩
  rw [length_nil, Nat.zero_add] at hx
  exact ⟨by rw [getElem?_replicate, if_pos hx], .inl (Nat.zero_le x)⟩

theorem length_table (tokens : List TokenDecl) : (d.table tokens).length = tokens.length :=
  (table_inv tokens).length

theorem table_eq (tokens : List TokenDecl) {o : Nat} (ho : o < tokens.length) :
    (d.table tokens)[o]? = some (d.closeFrom tokens o) := by
  rcases (table_inv tokens).known o ho with hknown | ⟨hnone, hle | hin⟩
  · exact hknown
  · exact absurd ho (not_lt.mpr hle)
  · -- still open at the end
    obtain ⟨e, he, rfl⟩ := mem_map.mp hin
    obtain ⟨j, hj⟩ := mem_iff_getElem?.mp he
    rw [(table_inv tokens).waits j e hj]
    exact hnone

theorem closeGo_map {κ' : Type} {d' : Pairing κ'} (f : κ → κ')
    (hopener : ∀ t, d'.opener t = (d.opener t).map f) (hcloser : d'.closer = d.closer)
    (hfits : ∀ k, d'.fits (f k) = d.fits k) (ts : List TokenDecl) :
    ∀ (i : Nat) (stack : List κ), d'.closeGo ts i (stack.map f) = d.closeGo ts i stack := by
  induction ts with
  | nil => exact fun _ _ => rfl
  | cons t ts ih =>
    intro i stack
    by_cases htrivia : isTrivia t
    · rw [closeGo_trivia _ htrivia, closeGo_trivia _ htrivia, ih]
    cases hk : d.opener t with
    | some k =>
      rw [closeGo_opener _ htrivia (k := f k) (by rw [hopener, hk, map_some]),
        closeGo_opener _ htrivia hk, ← map_cons, ih]
    | none =>
      have hk' : d'.opener t = none := by rw [hopener, hk, map_none]
      by_cases hc : d.closer t
      · have hc' : d'.closer t := hcloser ▸ hc
        cases stack with
        | nil => rw [map_nil, closeGo_unopened htrivia hk' hc', closeGo_unopened htrivia hk hc]
        | cons k stack =>
          rw [map_cons, closeGo_closer _ htrivia hk' hc', closeGo_closer _ htrivia hk hc, ih,
            isEmpty_map, hfits]
      · rw [closeGo_other _ htrivia hk' (hcloser ▸ hc), closeGo_other _ htrivia hk hc, ih]

end Pairing
open Pairing

def brackets : Pairing String where
  opener t := closerFor t.text
  closer := closesBracket
  fits want t := want = t.text

def matchingClose (tokens : List TokenDecl) (o : Nat) : Option Nat := brackets.closeFrom tokens o

def closeTable (tokens : List TokenDecl) : List (Option Nat) := brackets.table tokens

def codePos (n : Nat) (code : List Nat) : Option (List (Option Nat)) :=
  code.zipIdx.foldlM (fun pos x => if x.1 < pos.length then some (pos.set x.1 (some x.2)) else none)
    (List.replicate n none)

def codeCloseTable (tokens : List TokenDecl) (code : List Nat) : Option (List (Option Nat)) := do
  let pos ← codePos tokens.length code
  code.mapM fun i => do
    match ← (closeTable tokens)[i]? with
    | some close => pos[close]?
    | none => some none

def CodeAt (code : List Nat) (close r : Option Nat) : Prop :=
  (∀ c, r = some c → ∃ x, close = some x ∧ code[c]? = some x) ∧
    (r = none → ∀ x, close = some x → x ∉ code)

structure PosOf (n : Nat) (code done : List Nat) (pos : List (Option Nat)) : Prop where
  length : pos.length = n
  entry : ∀ x < n, ∃ r, pos[x]? = some r ∧ (∀ c, r = some c → code[c]? = some x) ∧
    (r = none → x ∉ done)

theorem codePos_ends {n : Nat} {code : List Nat} (h : ∀ i ∈ code, i < n) :
    Ends (codePos n code) (PosOf n code code) := by
  have hfold : ∀ (rest done : List Nat) (pos : List (Option Nat)), code = done ++ rest →
      PosOf n code done pos → Ends ((rest.zipIdx done.length).foldlM
        (fun pos x => if x.1 < pos.length then some (pos.set x.1 (some x.2)) else none) pos)
        (PosOf n code code) := by
    intro rest
    induction rest with
    | nil =>
      intro done pos hsplit hpos
      rw [append_nil] at hsplit
      exact .pure (by rwa [← hsplit] at hpos)
    | cons i rest ih =>
      intro done pos hsplit hpos
      have hi : i < pos.length :=
        hpos.length ▸ h i (by rw [hsplit]; exact mem_append_right _ mem_cons_self)
      have hnext : (done ++ [i]).length = done.length + 1 := length_append
      rw [zipIdx_cons, foldlM_cons, if_pos hi, ← hnext]
      refine ih (done ++ [i]) _ (by rw [hsplit, append_assoc]; rfl)
        ⟨by rw [length_set, hpos.length], fun x hx => ?_⟩
      rw [getElem?_set]
      split_ifs with heq
      · refine ⟨_, rfl, fun c hc => ?_, nofun⟩
        rw [← some.inj hc, hsplit, ← heq, getElem?_append_right le_rfl, Nat.sub_self]
        rfl
      · obtain ⟨r, hr, hat, hout⟩ := hpos.entry x hx
        refine ⟨r, hr, hat, fun hnone hin => ?_⟩
        rcases mem_append.mp hin with hin | hin
        · exact hout hnone hin
        · exact heq (mem_singleton.mp hin).symm
  refine hfold code [] (replicate n none) rfl ⟨length_replicate, fun x hx => ?_⟩
  exact ⟨none, by rw [getElem?_replicate, if_pos hx], nofun, fun _ => not_mem_nil⟩

theorem matchingClose_lt {tokens : List TokenDecl} {o x : Nat}
    (h : matchingClose tokens o = some x) : x < tokens.length := by
  obtain ⟨first, hfirst, h⟩ := bind_eq_some_iff.mp h
  split_ifs at h
  have hlt := closeGo_lt _ h
  have ho := lt_of_getElem? hfirst
  rw [length_drop] at hlt
  omega

theorem codeCloseTable_ends (tokens : List TokenDecl) {code : List Nat}
    (h : ∀ i ∈ code, i < tokens.length) :
    Ends (codeCloseTable tokens code)
      (List.Forall₂ (fun i r => CodeAt code (matchingClose tokens i) r) code) := by
  apply (codePos_ends h).bind
  intro pos hpos
  apply Ends.forall₂
  intro i hi
  have hentry : (closeTable tokens)[i]? = some (matchingClose tokens i) := table_eq tokens (h i hi)
  rw [hentry, bind_eq_bind, bind_some]
  cases hclose : matchingClose tokens i with
  | none => exact .pure ⟨nofun, fun _ => nofun⟩
  | some x =>
    obtain ⟨r, hr, hat, hout⟩ := hpos.entry x (matchingClose_lt hclose)
    exact ⟨r, hr, fun c hc => ⟨x, rfl, hat c hc⟩, fun hnone y hy => some.inj hy ▸ hout hnone⟩

def keywordEq (ignoreCase : Bool) (a b : String) : Bool :=
  if ignoreCase then a.toLower = b.toLower else a = b

def keywords (pairs : List (String × String)) (ignoreCase : Bool) : Pairing String where
  opener t := (pairs.find? fun p => keywordEq ignoreCase t.text p.1).map Prod.snd
  closer t := pairs.any fun p => keywordEq ignoreCase t.text p.2
  fits want t := keywordEq ignoreCase t.text want

def keywordBlock (tokens : List TokenDecl) (o : Nat) (pairs : List (String × String))
    (ignoreCase : Bool) : Option Nat :=
  (keywords pairs ignoreCase).closeFrom tokens o

def keywordIndex (pairs : List (String × String)) (ignoreCase : Bool) :
    Pairing (Fin pairs.length) where
  opener t := pairs.findFinIdx? fun p => keywordEq ignoreCase t.text p.1
  closer t := pairs.any fun p => keywordEq ignoreCase t.text p.2
  fits k t := keywordEq ignoreCase t.text (pairs.get k).2

def keywordCloseTable (tokens : List TokenDecl) (pairs : List (String × String))
    (ignoreCase : Bool) : List (Option Nat) :=
  (keywordIndex pairs ignoreCase).table tokens

theorem keywordBlock_eq (tokens : List TokenDecl) (o : Nat) (pairs : List (String × String))
    (ignoreCase : Bool) :
    keywordBlock tokens o pairs ignoreCase =
    (keywordIndex pairs ignoreCase).closeFrom tokens o := by
  have hopener : ∀ t, (keywords pairs ignoreCase).opener t =
      ((keywordIndex pairs ignoreCase).opener t).map fun k => (pairs.get k).2 := by
    intro t
    show (pairs.find? _).map Prod.snd = (pairs.findFinIdx? _).map _
    rw [find?_eq_map_findFinIdx?_getElem, Option.map_map]
    rfl
  unfold keywordBlock closeFrom
  simp only [hopener, isNone_map]
  cases tokens[o]? with
  | none => rfl
  | some first =>
    have hgo := closeGo_map (fun k => (pairs.get k).2) hopener rfl (fun _ => rfl)
      (tokens.drop o) o []
    rw [map_nil] at hgo
    rw [bind_eq_bind, bind_some, bind_some, hgo]

/-- Every table has the answers of the scans it replaces. -/
theorem tables_eq_scans (tokens : List TokenDecl) :
    ((closeTable tokens).length = tokens.length ∧ ∀ i < tokens.length, (closeTable tokens)[i]? =
    some (matchingClose tokens i)) ∧
    (∀ code : List Nat, (∀ i ∈ code, i < tokens.length) → ∃ out, codeCloseTable tokens code =
      some out ∧ List.Forall₂ (fun i r => CodeAt code (matchingClose tokens i) r) code out) ∧
    ∀ pairs ignoreCase, (keywordCloseTable tokens pairs ignoreCase).length = tokens.length ∧
      ∀ i < tokens.length, (keywordCloseTable tokens pairs ignoreCase)[i]? =
        some (keywordBlock tokens i pairs ignoreCase) := by
  refine ⟨⟨length_table tokens, fun i hi => table_eq tokens hi⟩, fun code hcode =>
    codeCloseTable_ends tokens hcode, fun pairs ignoreCase => ⟨length_table tokens, fun i hi => ?_⟩⟩
  rw [keywordBlock_eq]
  exact table_eq tokens hi

def worded (texts : List String) : List TokenDecl := texts.map fun t =>
    ⟨t, .other, ⟨0, 0, 0, 0, 0, 0⟩⟩

theorem tables_eq_scans_mixed :
    closeTable (worded ["(", "[", ")", "("]) = [none, none, none, none] ∧
    (closeTable (worded ["(", "[", ")", "("]))[0]? =
      some (matchingClose (worded ["(", "[", ")", "("]) 0) ∧
    (∃ out, codeCloseTable (worded ["(", ")", "x"]) [0, 2] = some out ∧
      List.Forall₂ (fun i r => CodeAt [0, 2] (matchingClose (worded ["(", ")", "x"]) i) r) [0, 2]
        out) ∧
    (keywordCloseTable (worded ["do", "if", "END", "end"]) [("do", "end"), ("if", "end"),
      ("do", "od")] true)[0]? =
      some (keywordBlock (worded ["do", "if", "END", "end"]) 0 [("do", "end"), ("if", "end"),
        ("do", "od")] true) :=
  ⟨by decide, (tables_eq_scans _).1.2 0 (by decide), (tables_eq_scans _).2.1 [0, 2] (by decide),
    ((tables_eq_scans _).2.2 _ _).2 0 (by decide)⟩

end MemoryGraph.Lang
