import MemoryGraph.Lang.Scan

/-! Assembly by lines: the words of a line, the events it stands for, and which events count. -/

namespace MemoryGraph.Lang.Asm
open Lib List

def plainData : List String :=
  ["db", "dw", "dd", "dq", "dt", "do", "dy", "dz", "ddq", "resb", "resw", "resd", "resq", "rest",
    "reso", "resy", "resz", "times", "incbin", ".byte", ".2byte", ".4byte", ".8byte", ".word",
    ".hword", ".short", ".int", ".long", ".quad", ".octa", ".ascii", ".asciz", ".string",
    ".string8", ".string16", ".zero", ".space", ".skip", ".fill", ".float", ".single",
    ".double", ".dc", ".dcb", ".ds", ".incbin", ".uleb128", ".sleb128"]

def sizeWords : List String :=
  ["byte", "sbyte", "word", "sword", "dword", "sdword", "fword", "qword", "tbyte", "real4", "real8",
    "real10", "oword", "xmmword", "ymmword", "zmmword"]

def data (w : String) : Bool := plainData.contains w || sizeWords.contains w

def directives : List String :=
  ["align", "alignb", "bits", "default", "extern", "extrn", "externdef", "global", "public",
    "assume", "include", "includelib", "option", "org", "end", "even", "cpu", "use16", "use32",
    "use64", "absolute", "common", "static", "proto", "title", "subtitle", "page", "invoke"]

def sectionWords : List String :=
  [".text", ".data", ".bss", ".rodata", ".code", ".const", ".data?", ".fardata",
    ".fardata?", ".stack"]

def masmRepeat : List String := ["rept", "repeat", "irp", "irpc", "for", "forc", "while"]

inductive Block
  | proc | macros | segment | struct | struc
deriving DecidableEq, Repr

inductive Ev
  | label (name : String)
  | dataLabel (name : String)
  | constant (name lang : String)
  | sect (name : String)
  | opened (block : Block) (name : Option String)
  | closed (block : Block)
  | promote (name : String) (function : Option Bool)
  | data
  | instr
deriving DecidableEq, Repr

structure E where
  ev : Ev
  first : Nat
  last : Nat

structure Item where
  text : String
  lo : Nat
  hi : Nat
  word : Bool
  col : U32
  stop : U32

def wordish (t : TokenDecl) : Bool :=
  match t.cls with
  | .identifier | .keyword => true
  | .literal => t.text.toList.head?.any Char.isDigit
  | _ => [".", "$", "@", "?", "%"].contains t.text

def addItem (out : List Item) (x : TokenDecl × Nat) : List Item :=
  let new : Item := ⟨x.1.text, x.2, x.2, wordish x.1, x.1.span.startCol, x.1.span.stop⟩
  match out with
  | [] => [new]
  | last :: before =>
    if wordish x.1 && last.word && last.stop == x.1.span.start then
      { last with text := last.text ++ x.1.text, hi := x.2, stop := x.1.span.stop } :: before
    else new :: last :: before

def items (idx : List (TokenDecl × Nat)) : List Item := (idx.foldl addItem []).reverse

def startsWith (s p : String) : Bool := p.toList.isPrefixOf s.toList

def isLocal (name : String) : Bool :=
  ([".", "%", "@@", "Ltmp", "LBB", "LCPI", "Lfunc_", "Lloh", "Lset", "Lexception", "LJTI", "Lcst",
    "L_"].any (startsWith name)) || name.toList.head?.any Char.isDigit

def label (x : Item) (last : Nat) (r : List E × List Item) : List E × List Item :=
  (if isLocal x.text then r.1 else ⟨.label x.text, x.lo, last⟩ :: r.1, r.2)

def labels : List Item → List E × List Item
  | x :: y :: z :: rest =>
    if x.word && y.text == ":" then
      if z.text == ":" then label x z.hi (labels rest) else label x y.hi (labels (z :: rest))
    else ([], x :: y :: z :: rest)
  | [x, y] => if x.word && y.text == ":" then label x y.hi ([], []) else ([], [x, y])
  | it => ([], it)

def nameOf (it : List Item) : Option String := (it.head?.filter Item.word).map Item.text

def named (x : Item) (w0 w1 : String) (inStruct : Bool) : Option Ev :=
  match w1 with
  | "proc" => some (.opened .proc (some x.text))
  | "endp" => some (.closed .proc)
  | "macro" => some (.opened .macros (some x.text))
  | "segment" => some (.opened .segment (some x.text))
  | "ends" => some (.closed .segment)
  | "struct" | "struc" | "union" => some (.opened .struct (some x.text))
  | "equ" | "textequ" => some (.constant x.text "equ")
  | _ =>
    if w1 = "label" ∧ !isLocal w0 then some (.label x.text)
    else if data w1 && !data w0 && !isLocal w0 &&
      (!sizeWords.contains w1 || inStruct || x.col == 1) then some (.dataLabel x.text)
    else none

def promotedType (rest : List Item) : Option Bool :=
  let has := fun w : String => rest.any fun r =>
    r.text.toLower.toList.dropWhile (fun c => c == '@' || c == '%' || c == '#') == w.toList
  if has "function" || has "stt_func" then some true
  else if has "object" || has "stt_object" then some false
  else none

def statement (x : Item) (tail : List Item) (inStruct masm : Bool) : List Ev :=
  let w0 := x.text.toLower
  let name1 := nameOf tail
  if ["section", "segment", ".section"].contains w0 && name1.isSome then [.sect (name1.getD "")]
  else if sectionWords.contains w0 then [.sect x.text]
  else if ["global", ".globl", ".global", "public", "globl"].contains w0 then
    (tail.zip (x :: tail)).filterMap fun (y, prev) =>
      if y.word && prev.text != ":" then some (.promote y.text none) else none
  else if w0 = ".type" then
    (name1.bind fun n => (promotedType (tail.drop 1)).map fun f => Ev.promote n (some f)).toList
  else if [".set", ".equ", ".equiv", ".eqv"].contains w0 then (name1.map fun n =>
    .constant n "equ").toList
  else if ["%define", "%xdefine", "%idefine", "%assign", "%iassign"].contains w0 then
    (name1.map fun n => .constant n "define").toList
  else if [".macro", "%macro", "%imacro"].contains w0 then [.opened .macros name1]
  else if [".endm", ".endmacro", "%endmacro", "endm"].contains w0 then [.closed .macros]
  else if masm && masmRepeat.contains w0 then [.opened .macros none]
  else if w0 = "struc" then [.opened .struc name1]
  else if w0 = "endstruc" then [.closed .struc]
  else if tail.head?.any fun y => y.text == "=" then [.constant x.text "equ"]
  else match name1.bind fun w1 => named x w0 w1.toLower inStruct with
    | some ev => [ev]
    | none =>
      if data w0 then [.data]
      else if startsWith w0 "." || startsWith w0 "%" || directives.contains w0 then []
      else [.instr]

def asConstant (lineLast : Nat) (e : E) : E :=
  match e.ev with
  | .label n => ⟨.constant n "equ", e.first, lineLast⟩
  | _ => e

def parseLine (it : List Item) (lineLast : Nat) (inStruct masm : Bool) : List E :=
  match labels it with
  | (ls, []) => ls
  | (ls, x :: tail) =>
    if !x.word then ls
    else if x.text.toLower = "equ" then ls.dropLast ++ ls.getLast?.toList.map (asConstant lineLast)
    else ls ++ (statement x tail inStruct masm).map fun ev => ⟨ev, x.lo, lineLast⟩

/-- Open macro bodies (true for a repeat block), procedures and records, innermost first. -/
structure EvState where
  macros : List Bool := []
  procDepth : Nat := 0
  records : List Block := []

def keepCode (st : EvState) : Ev → EvState × Bool
  | .opened .proc _ => ({ st with procDepth := st.procDepth + 1 }, true)
  | .opened b _ => ({ st with records := b :: st.records }, true)
  | .closed .segment =>
    ({ st with
      records := if st.records.head?.any fun b => b = .segment ∨ b = .struct then st.records.tail
        else st.records }, true)
  | .closed .struc =>
    ({ st with records := if st.records.head? = some .struc then st.records.tail else st.records },
      true)
  | .closed .proc => ({ st with procDepth := st.procDepth - 1 }, true)
  | .label _ | .dataLabel _ => (st, st.procDepth == 0)
  | _ => (st, true)

def keepOne (st : EvState) (ev : Ev) : EvState × Bool :=
  match ev, st.macros with
  | .opened .macros n, _ => ({ st with macros := n.isNone :: st.macros }, true)
  | .closed .macros, _ :: macros => ({ st with macros := macros }, true)
  | ev, [] => keepCode st ev
  | _, _ :: _ => (st, false)

def endsRepeat : Ev → Bool
  | .opened .proc _ | .opened .segment _ | .sect _ => true
  | _ => false

def keep (st : EvState) (e : E) : EvState × List E :=
  let popped := if endsRepeat e.ev then st.macros.takeWhile id else []
  let r := keepOne { st with macros := st.macros.drop popped.length } e.ev
  (r.1, (popped.map fun _ => ⟨.closed .macros, e.first, e.first⟩) ++ if r.2 then [e] else [])

def keepAll : List E → EvState → EvState × List E
  | [], st => (st, [])
  | e :: es, st =>
    let r := keep st e
    let rest := keepAll es r.1
    (rest.1, r.2 ++ rest.2)

def eventsGo (masm : Bool) : List (List (TokenDecl × Nat)) → EvState → List E
  | [], _ => []
  | run :: runs, st =>
    let idx := run.filter fun t => t.1.cls ≠ .comment
    match idx.getLast? with
    | none => eventsGo masm runs st
    | some last =>
      let inStruct := st.records.head?.any fun b => b = .struct ∨ b = .struc
      let r := keepAll (parseLine (items idx) last.2 inStruct masm) st
      r.2 ++ eventsGo masm runs r.1

def isMasm (tokens : List TokenDecl) : Bool :=
  (tokens.zip (none :: tokens.map some)).any fun (t, prev) =>
    t.cls = .identifier && t.text.toLower == "endm" && !(prev.any fun p =>
      p.text == "." && p.span.stop == t.span.start)

def events (tokens : List TokenDecl) : List E :=
  eventsGo (isMasm tokens) (tokens.zipIdx.splitBy fun a b =>
    a.1.span.startLine == b.1.span.startLine) {}

structure Evs (lo hi : Nat) (evs : List E) : Prop where
  within : ∀ e ∈ evs, lo ≤ e.first ∧ e.first ≤ e.last ∧ e.last < hi
  sorted : evs.Pairwise fun a b => a.first ≤ b.first

section
variable {lo hi : Nat} {es es' : List E}

theorem Evs.nil : Evs lo hi [] := ⟨nofun, .nil⟩

theorem Evs.append (h : Evs lo hi es) (mid : Nat) (h' : Evs mid hi es')
    (hmid : ∀ e ∈ es, e.first ≤ mid) (hlo : lo ≤ mid) : Evs lo hi (es ++ es') := by
  constructor
  · intro e he
    rcases mem_append.mp he with he | he
    · exact h.within e he
    · have := h'.within e he
      omega
  · refine pairwise_append.mpr ⟨h.sorted, h'.sorted, fun a ha b hb => ?_⟩
    exact (hmid a ha).trans (h'.within b hb).1

theorem Evs.cons (h : Evs lo hi es) {e : E} (hle : e.first ≤ e.last) (hhi : e.last < hi)
    (hlo : e.first ≤ lo) : Evs e.first hi (e :: es) := by
  refine ⟨forall_mem_cons.mpr ⟨⟨le_rfl, hle, hhi⟩, fun x hx => ?_⟩,
    pairwise_cons.mpr ⟨fun x hx => ?_, h.sorted⟩⟩
  · have := h.within x hx
    omega
  · exact hlo.trans (h.within x hx).1

theorem Evs.mono (h : Evs lo hi es) {lo' hi' : Nat} (hlo : lo' ≤ lo) (hhi : hi ≤ hi') :
    Evs lo' hi' es := by
  refine ⟨fun e he => ?_, h.sorted⟩
  have := h.within e he
  omega

theorem Evs.single {e : E} (hlo : lo ≤ e.first) (hle : e.first ≤ e.last) (hhi : e.last < hi) :
    Evs lo hi [e] :=
  ⟨fun _ hx => mem_singleton.mp hx ▸ ⟨hlo, hle, hhi⟩, pairwise_singleton _ _⟩

structure Items (lo hi : Nat) (it : List Item) : Prop where
  within : ∀ x ∈ it, lo ≤ x.lo ∧ x.lo ≤ x.hi ∧ x.hi < hi
  sorted : it.Pairwise fun a b => a.hi ≤ b.lo

theorem Items.tail {x : Item} {it : List Item} (h : Items lo hi (x :: it)) : Items x.hi hi it := by
  obtain ⟨hx, hit⟩ := pairwise_cons.mp h.sorted
  exact ⟨fun y hy => ⟨hx y hy, (h.within y (.tail _ hy)).2⟩, hit⟩

theorem addItem_within {out : List Item} {x : TokenDecl × Nat} (hout : Items lo hi out.reverse)
    (hx : lo ≤ x.2 ∧ x.2 < hi) (hlast : ∀ y ∈ out, y.hi ≤ x.2) :
    Items lo hi (addItem out x).reverse ∧ ∀ y ∈ addItem out x, y.hi ≤ x.2 := by
  have hnew : ∀ new : Item, new.lo = x.2 → new.hi = x.2 →
      Items lo hi (new :: out).reverse ∧ ∀ y ∈ new :: out, y.hi ≤ x.2 := by
    intro new hlo hhi
    have hp := pairwise_reverse.mp hout.sorted
    refine ⟨⟨fun y hy => ?_,
      pairwise_reverse.mpr (pairwise_cons.mpr ⟨fun y hy => hlo ▸ hlast y hy, hp⟩)⟩,
      forall_mem_cons.mpr ⟨hhi.le, hlast⟩⟩
    rcases mem_cons.mp (mem_reverse.mp hy) with rfl | hy
    · omega
    · exact hout.within y (mem_reverse.mpr hy)
  unfold addItem
  split
  · exact hnew _ rfl rfl
  · next last before =>
    split_ifs
    · -- a longer word in the place of the last
      have hw := hout.within last (mem_reverse.mpr mem_cons_self)
      have hl := hlast last mem_cons_self
      obtain ⟨hp, hbefore⟩ := pairwise_cons.mp (pairwise_reverse.mp hout.sorted)
      refine ⟨⟨fun y hy => ?_, pairwise_reverse.mpr (pairwise_cons.mpr ⟨hp, hbefore⟩)⟩,
        forall_mem_cons.mpr ⟨le_rfl, fun y hy => hlast y (.tail _ hy)⟩⟩
      rcases mem_cons.mp (mem_reverse.mp hy) with rfl | hy
      · exact ⟨hw.1, hw.2.1.trans hl, hx.2⟩
      · exact hout.within y (mem_reverse.mpr (.tail _ hy))
    · exact hnew _ rfl rfl

theorem items_within {idx : List (TokenDecl × Nat)} (hidx : ∀ x ∈ idx, lo ≤ x.2 ∧ x.2 < hi)
    (hsorted : idx.Pairwise fun a b => a.2 < b.2) : Items lo hi (items idx) := by
  have hfold : ∀ (idx : List (TokenDecl × Nat)) (out : List Item),
      (∀ x ∈ idx, lo ≤ x.2 ∧ x.2 < hi) → idx.Pairwise (fun a b => a.2 < b.2) →
      Items lo hi out.reverse → (∀ x ∈ idx, ∀ y ∈ out, y.hi ≤ x.2) →
      Items lo hi (idx.foldl addItem out).reverse := by
    intro idx
    induction idx with
    | nil => exact fun out _ _ hout _ => hout
    | cons x idx ih =>
      intro out hidx hsorted hout hlast
      obtain ⟨hx, hidx⟩ := forall_mem_cons.mp hidx
      obtain ⟨hxs, hsorted⟩ := pairwise_cons.mp hsorted
      obtain ⟨hout', hlast'⟩ := addItem_within hout hx (hlast x mem_cons_self)
      exact ih _ hidx hsorted hout' fun z hz y hy => (hlast' y hy).trans (hxs z hz).le
  exact hfold idx [] hidx hsorted ⟨nofun, .nil⟩ (fun _ _ => nofun)

def Split (lo hi : Nat) (r : List E × List Item) : Prop :=
  ∃ mid, lo ≤ mid ∧ Evs lo hi r.1 ∧ (∀ e ∈ r.1, e.first ≤ mid) ∧ Items mid hi r.2

theorem Split.label {x : Item} {last : Nat} {r : List E × List Item} (h : Split last hi r)
    (hlo : lo ≤ x.lo) (hle : x.lo ≤ last) (hhi : last < hi) : Split lo hi (label x last r) := by
  obtain ⟨mid, hmid, hevs, hfirst, hitems⟩ := h
  unfold Asm.label
  split_ifs
  · exact ⟨mid, by omega, hevs.mono (by omega) le_rfl, hfirst, hitems⟩
  · have hcons := hevs.cons (e := ⟨.label x.text, x.lo, last⟩) hle hhi hle
    exact ⟨mid, by omega, hcons.mono hlo le_rfl,
      forall_mem_cons.mpr ⟨hle.trans hmid, hfirst⟩, hitems⟩

theorem labels_split (it : List Item) : ∀ {lo : Nat}, Items lo hi it → Split lo hi (labels it) := by
  induction it using labels.induct with
  | case1 x y z rest hcond hz ih =>
    intro lo h
    have hx := h.within x mem_cons_self
    have hy := h.tail.within y mem_cons_self
    have hz' := h.tail.tail.within z mem_cons_self
    rw [labels, if_pos hcond, if_pos hz]
    exact (ih h.tail.tail.tail).label hx.1 (by omega) hz'.2.2
  | case2 x y z rest hcond hz ih =>
    intro lo h
    have hx := h.within x mem_cons_self
    have hy := h.tail.within y mem_cons_self
    rw [labels, if_pos hcond, if_neg hz]
    exact (ih h.tail.tail).label hx.1 (by omega) hy.2.2
  | case3 x y z rest hcond =>
    intro lo h
    rw [labels, if_neg hcond]
    exact ⟨lo, le_rfl, Evs.nil, nofun, h⟩
  | case4 x y hcond =>
    intro lo h
    have hx := h.within x mem_cons_self
    have hy := h.tail.within y mem_cons_self
    rw [labels, if_pos hcond]
    exact Split.label ⟨y.hi, le_rfl, Evs.nil, nofun, ⟨nofun, .nil⟩⟩ hx.1 (by omega) hy.2.2
  | case5 x y hcond =>
    intro lo h
    rw [labels, if_neg hcond]
    exact ⟨lo, le_rfl, Evs.nil, nofun, h⟩
  | case6 it h₁ h₂ =>
    intro lo h
    rw [labels]
    · exact ⟨lo, le_rfl, Evs.nil, nofun, h⟩
    · exact h₁
    · exact h₂

theorem parseLine_evs {it : List Item} {lineLast : Nat} (h : Items lo (lineLast + 1) it)
    (inStruct masm : Bool) : Evs lo (lineLast + 1) (parseLine it lineLast inStruct masm) := by
  obtain ⟨mid, hmid, hevs, hfirst, hitems⟩ := labels_split it h
  unfold parseLine
  split
  · next ls heq =>
    rw [heq] at hevs
    exact hevs
  · next ls x tail heq =>
    rw [heq] at hevs hfirst hitems
    have hx := hitems.within x mem_cons_self
    split_ifs
    · exact hevs
    · rcases eq_nil_or_concat ls with rfl | ⟨init, l, rfl⟩
      · exact Evs.nil
      · rw [concat_eq_append] at hevs ⊢
        obtain ⟨hinit, -, hl⟩ := pairwise_append.mp hevs.sorted
        have hw := hevs.within l (mem_append_right _ (mem_singleton_self l))
        rw [dropLast_concat, getLast?_concat]
        refine Evs.append ⟨fun e he => hevs.within e (mem_append_left _ he), hinit⟩ l.first ?_
          (fun e he => hl e he l (mem_singleton_self l)) hw.1
        show Evs l.first (lineLast + 1) [asConstant lineLast l]
        unfold asConstant
        split
        · exact Evs.single le_rfl (by simp only; omega) (Nat.lt_succ_self _)
        · exact Evs.single le_rfl hw.2.1 hw.2.2
    · refine hevs.append mid ⟨fun e he => ?_, ?_⟩ hfirst hmid
      · obtain ⟨ev, -, rfl⟩ := mem_map.mp he
        exact ⟨hx.1, by simp only; omega, Nat.lt_succ_self _⟩
      · exact pairwise_map.mpr (pairwise_of_forall fun _ _ => le_rfl)

theorem keepAll_evs {es : List E} :
    ∀ {lo : Nat}, Evs lo hi es → ∀ st : EvState, Evs lo hi (keepAll es st).2 := by
  induction es with
  | nil => exact fun _ _ => Evs.nil
  | cons e es ih =>
    intro lo h st
    obtain ⟨he, hes⟩ := pairwise_cons.mp h.sorted
    have hw := h.within e mem_cons_self
    have hrest : Evs e.first hi es := ⟨fun x hx => ⟨he x hx, (h.within x (.tail _ hx)).2⟩, hes⟩
    -- what one event adds starts where it does
    have hone : ∀ x ∈ (keep st e).2, x.first = e.first ∧ e.first ≤ x.last ∧ x.last ≤ e.last := by
      intro x hx
      rcases mem_append.mp hx with hx | hx
      · obtain ⟨_, -, rfl⟩ := mem_map.mp hx
        exact ⟨rfl, le_rfl, hw.2.1⟩
      · obtain ⟨-, hx⟩ := mem_ite_nil_right.mp hx
        rw [mem_singleton.mp hx]
        exact ⟨rfl, hw.2.1, le_rfl⟩
    rw [keepAll]
    refine Evs.append ⟨fun x hx => ?_, ?_⟩ e.first (ih hrest _) (fun x hx => (hone x hx).1.le) hw.1
    · have := hone x hx
      omega
    · exact pairwise_of_forall_mem_list fun a ha b hb => by rw [(hone a ha).1, (hone b hb).1]

theorem eventsGo_evs (masm : Bool) (runs : List (List (TokenDecl × Nat))) : ∀ {lo : Nat},
    (∀ x ∈ runs.flatten, lo ≤ x.2 ∧ x.2 < hi) → runs.flatten.Pairwise (fun a b => a.2 < b.2) →
    ∀ st : EvState, Evs lo hi (eventsGo masm runs st) := by
  induction runs with
  | nil => exact fun _ _ _ => Evs.nil
  | cons run runs ih =>
    intro lo hin hsorted st
    rw [flatten_cons] at hin hsorted
    obtain ⟨hrun, hruns, hafter⟩ := pairwise_append.mp hsorted
    have hin' : ∀ x ∈ runs.flatten, lo ≤ x.2 ∧ x.2 < hi := fun x hx => hin x (mem_append_right _ hx)
    unfold eventsGo
    dsimp only
    split
    · exact ih hin' hruns st
    · next last hlast =>
      have hmem : last ∈ run := mem_of_mem_filter (mem_of_getLast? hlast)
      have hlt := hin last (mem_append_left _ hmem)
      have hline := (hrun.sublist (filter_sublist (p := fun t => decide (t.1.cls ≠ .comment))))
      have hitems : Items lo (last.2 + 1) (items (run.filter fun t => t.1.cls ≠ .comment)) := by
        refine items_within (fun x hx => ⟨(hin x (mem_append_left _ (mem_of_mem_filter hx))).1, ?_⟩)
          hline
        obtain ⟨init, hinit⟩ := getLast?_eq_some_iff.mp hlast
        rw [hinit] at hx hline
        rcases mem_append.mp hx with hx | hx
        · exact Nat.lt_succ_of_lt
            ((pairwise_append.mp hline).2.2 x hx last (mem_singleton_self last))
        · rw [mem_singleton.mp hx]
          exact Nat.lt_succ_self _
      have hevs := keepAll_evs (parseLine_evs hitems (st.records.head?.any fun b => b = .struct ∨
        b = .struc) masm) st
      refine (hevs.mono le_rfl hlt.2).append (last.2 + 1)
        (ih (fun x hx => ⟨?_, (hin' x hx).2⟩) hruns _) (fun e he => ?_) (by omega)
      · exact hafter last hmem x hx
      · have := hevs.within e he
        omega

theorem events_evs (tokens : List TokenDecl) : Evs 0 tokens.length (events tokens) := by
  apply eventsGo_evs
  · intro x hx
    rw [flatten_splitBy] at hx
    exact ⟨Nat.zero_le _, snd_lt_of_mem_zipIdx hx⟩
  · rw [flatten_splitBy, ← pairwise_map (f := Prod.snd), zipIdx_map_snd]
    exact pairwise_lt_range'

end

end MemoryGraph.Lang.Asm
