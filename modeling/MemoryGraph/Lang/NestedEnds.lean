import MemoryGraph.Lib.Scanning

/-! Ends of nested lists. The scan from an opener takes the same path inside any other scan, so a
kept answer can stand for it. -/

namespace MemoryGraph.Lang.NestedEnds
open Lib

inductive Step
  | opens
  | closes
  | stop
  | skip (close : Option Nat)
  | other
deriving DecidableEq, Repr

/-- What a scan with a nesting counter does at position `c`: end, or go on from a position. -/
def move (step : Nat → Step) (hi c depth : Nat) : Option Nat ⊕ Nat × Nat :=
  if hi ≤ c then .inl none
  else match step c with
    | .opens => .inr (c + 1, depth + 1)
    | .closes =>
      match depth with
      | 0 => .inl none
      | 1 => .inl (some c)
      | depth + 2 => .inr (c + 1, depth + 1)
    | .stop | .skip none => .inl none
    | .skip (some close) => .inr (close + 1, depth)
    | .other => .inr (c + 1, depth)

def scanGo (step : Nat → Step) (hi : Nat) : (fuel c depth : Nat) → Option (Option Nat)
  | 0, _, _ => none
  | fuel + 1, c, depth =>
    match move step hi c depth with
    | .inl r => some r
    | .inr (c, depth) => scanGo step hi fuel c depth

def scan (step : Nat → Nat → Step) (o hi : Nat) : Option (Option Nat) := scanGo (step hi) hi
    (hi - o + 1) o 0

abbrev Memo := List ((Nat × Nat) × Option Nat)

def findGo (step : Nat → Step) (hi : Nat) (memo : Memo) (o : Nat) :
    (fuel c : Nat) → (stack : List Nat) → (found : List (Nat × Nat)) →
      Option (Option Nat × List Nat × List (Nat × Nat))
  | 0, _, _, _ => none
  | fuel + 1, c, stack, found =>
    if hi ≤ c then some (none, stack, found)
    else match step c with
      | .opens =>
        match if c = o then none else memo.lookup (c, hi) with
        | some (some close) => findGo step hi memo o fuel (close + 1) stack found
        | some none => some (none, stack, found)
        | none => findGo step hi memo o fuel (c + 1) (c :: stack) found
      | .closes =>
        match stack with
        | [] => some (none, [], found)
        | x :: stack =>
          if stack.isEmpty then some (some c, [], found ++ [(x, c)])
          else findGo step hi memo o fuel (c + 1) stack (found ++ [(x, c)])
      | .stop | .skip none => some (none, stack, found)
      | .skip (some close) => findGo step hi memo o fuel (close + 1) stack found
      | .other => findGo step hi memo o fuel (c + 1) stack found

def Memo.insertAll (memo : Memo) (rows : Memo) : Memo :=
  rows.foldl (fun memo row => row :: memo) memo

def find (step : Nat → Nat → Step) (memo : Memo) (o hi : Nat) : Option (Option Nat × Memo) :=
  match memo.lookup (o, hi) with
  | some r => some (r, memo)
  | none => do
    let (r, stack, found) ← findGo (step hi) hi memo o (hi - o + 1) o [] []
    let memo := memo.insertAll (found.map fun e => ((e.1, hi), some e.2))
    return (r, memo.insertAll (stack.map fun x => ((x, hi), none)))

def lookups (step : Nat → Nat → Step) : List (Nat × Nat) → Memo → Option (List (Option Nat))
  | [], _ => some []
  | q :: qs, memo => do
    let (r, memo) ← find step memo q.1 q.2
    let rs ← lookups step qs memo
    return r :: rs

inductive Scans (step : Nat → Step) (hi : Nat) : (c depth : Nat) → Option Nat → Prop
  | last {c depth : Nat} {r : Option Nat} : move step hi c depth = .inl r → Scans step hi c depth r
  | next {c depth : Nat} {q : Nat × Nat} {r : Option Nat} :
    move step hi c depth = .inr q → Scans step hi q.1 q.2 r → Scans step hi c depth r

def Forward (step : Nat → Step) : Prop := ∀ c close, step c = .skip (some close) → c ≤ close

section
variable {step : Nat → Step} {hi c d e fuel : Nat} {r : Option Nat}

theorem Scans.unique (h : Scans step hi c d r) {r' : Option Nat} (h' : Scans step hi c d r') :
    r = r' := by
  induction h with
  | last hm =>
    cases h' with
    | last hm' => exact Sum.inl.inj (hm.symm.trans hm')
    | next hm' _ => exact nomatch hm.symm.trans hm'
  | next hm _ ih =>
    cases h' with
    | last hm' => exact nomatch hm.symm.trans hm'
    | next hm' h' =>
      obtain rfl := Sum.inr.inj (hm.symm.trans hm')
      exact ih h'

theorem move_cases (hf : Forward step) (hi c : Nat) :
    (∀ d, move step hi c (d + 1) = .inl none) ∨ c < hi ∧
    ((∃ c' > c, ∀ d, move step hi c (d + 1) = .inr (c', d + 1)) ∨
      (∀ d, move step hi c (d + 1) = .inr (c + 1, d + 2)) ∨ move step hi c 1 = .inl (some c) ∧
      ∀ d, move step hi c (d + 2) = .inr (c + 1, d + 1)) := by
  unfold move
  by_cases hc : hi ≤ c
  · exact .inl fun d => if_pos hc
  simp only [if_neg hc]
  have hlt := not_le.mp hc
  cases hstep : step c with
  | opens => exact .inr ⟨hlt, .inr (.inl fun d => rfl)⟩
  | closes => exact .inr ⟨hlt, .inr (.inr ⟨rfl, fun d => rfl⟩)⟩
  | stop => exact .inl fun d => rfl
  | skip close =>
    cases close with
    | none => exact .inl fun d => rfl
    | some close =>
      exact .inr ⟨hlt, .inl ⟨close + 1, Nat.lt_succ_of_le (hf c close hstep), fun d => rfl⟩⟩
  | other => exact .inr ⟨hlt, .inl ⟨c + 1, Nat.lt_succ_self c, fun d => rfl⟩⟩

theorem scanGo_ends (hf : Forward step) (h : hi - c < fuel) :
    Ends (scanGo step hi fuel c (d + 1)) (Scans step hi c (d + 1)) := by
  induction fuel generalizing c d with
  | zero => exact absurd h (Nat.not_lt_zero _)
  | succ fuel ih =>
    rw [scanGo]
    have hnext : ∀ {c' d'}, c < hi → c < c' → move step hi c (d + 1) = .inr (c', d' + 1) →
        Ends (scanGo step hi fuel c' (d' + 1)) (Scans step hi c (d + 1)) := fun hlt hlt' hm =>
      (ih (by omega)).mono fun r hr => .next hm hr
    rcases move_cases hf hi c with hm | ⟨hlt, ⟨c', hc', hm⟩ | hm | ⟨hm, hm'⟩⟩
    · rw [hm]
      exact .pure (.last (hm d))
    · rw [hm]
      exact hnext hlt hc' (hm d)
    · rw [hm]
      exact hnext hlt (Nat.lt_succ_self c) (hm d)
    · cases d with
      | zero =>
        rw [hm]
        exact .pure (.last hm)
      | succ d =>
        rw [hm']
        exact hnext hlt (Nat.lt_succ_self c) (hm' d)

theorem Scans.under (hf : Forward step) (h : Scans step hi c (d + 1) r) : (∀ p ∈ r, c ≤ p) ∧
    (r = none → Scans step hi c (e + 1 + (d + 1)) none) ∧
    ∀ p ∈ r, ∀ r', Scans step hi (p + 1) (e + 1) r' → Scans step hi c (e + 1 + (d + 1)) r' := by
  generalize hd : d + 1 = depth at h
  induction h generalizing d with
  | @last c depth r hm =>
    subst hd
    rcases move_cases hf hi c with hall | ⟨-, ⟨c', -, hall⟩ | hall | ⟨hone, hall⟩⟩
    · obtain rfl := Sum.inl.inj ((hall d).symm.trans hm)
      exact ⟨nofun, fun _ => .last (hall (e + 1 + d)), nofun⟩
    · exact nomatch (hall d).symm.trans hm
    · exact nomatch (hall d).symm.trans hm
    · cases d with
      | zero =>
        obtain rfl := Sum.inl.inj (hone.symm.trans hm)
        refine ⟨fun p hp => (Option.some.inj hp).le, nofun, fun p hp r' hr' => ?_⟩
        cases hp
        exact .next (hall e) hr'
      | succ d => exact nomatch (hall d).symm.trans hm
  | @next c depth q r hm hrest ih =>
    subst hd
    have hlift : ∀ {c' d'}, q = (c', d' + 1) → c ≤ c' → move step hi c (e + 1 + (d + 1)) =
        .inr (c', e + 1 + (d' + 1)) → (∀ p ∈ r, c ≤ p) ∧
        (r = none → Scans step hi c (e + 1 + (d + 1)) none) ∧
        ∀ p ∈ r, ∀ r', Scans step hi (p + 1) (e + 1) r' → Scans step hi c (e + 1 + (d + 1)) r' := by
      rintro c' d' rfl hle hmove
      obtain ⟨hbound, hnone, hsome⟩ := ih rfl
      exact ⟨fun p hp => hle.trans (hbound p hp), fun h => .next hmove (hnone h), fun p hp r' hr' =>
        .next hmove (hsome p hp r' hr')⟩
    rcases move_cases hf hi c with hall | ⟨-, ⟨c', hc', hall⟩ | hall | ⟨hone, hall⟩⟩
    · exact nomatch (hall d).symm.trans hm
    · exact hlift (Sum.inr.inj (hm.symm.trans (hall d))) hc'.le (hall (e + 1 + d))
    · exact hlift (Sum.inr.inj (hm.symm.trans (hall d))) (Nat.le_succ c) (hall (e + 1 + d))
    · cases d with
      | zero => exact nomatch hone.symm.trans hm
      | succ d =>
        exact hlift (Sum.inr.inj (hm.symm.trans (hall d))) (Nat.le_succ c) (hall (e + 1 + d))

def Waits (step : Nat → Step) (hi c : Nat) (stack : List Nat) : Prop :=
  ∀ m x, stack[m]? = some x → ∀ r, Scans step hi c (m + 1) r → Scans step hi (x + 1) 1 r

structure Answered (step : Nat → Step) (hi o : Nat)
    (out : Option Nat × List Nat × List (Nat × Nat)) : Prop where
  result : Scans step hi (o + 1) 1 out.1
  failed : ∀ x ∈ out.2.1, Scans step hi (x + 1) 1 none
  found : ∀ x ∈ out.2.2, Scans step hi (x.1 + 1) 1 (some x.2)

theorem findGo_ends (hf : Forward step) {memo : Memo} {o : Nat}
    (hmemo : ∀ x r, memo.lookup (x, hi) = some r → Scans step hi (x + 1) 1 r) (fuel : Nat) :
    ∀ {c stack found}, hi - c < fuel → stack.getLast? = some o → Waits step hi c stack →
      (∀ x ∈ found, Scans step hi (x.1 + 1) 1 (some x.2)) →
      Ends (findGo step hi memo o fuel c stack found) (Answered step hi o) := by
  induction fuel with
  | zero => exact fun h => absurd h (Nat.not_lt_zero _)
  | succ fuel ih =>
    intro c stack found hfuel hlast hwaits hfound
    have hfail : (∀ m, Scans step hi c (m + 1) none) →
        Ends (some (none, stack, found)) (Answered step hi o) := by
      intro hnone
      have hall : ∀ x ∈ stack, Scans step hi (x + 1) 1 none := by
        intro x hx
        obtain ⟨m, hm⟩ := List.mem_iff_getElem?.mp hx
        exact hwaits m x hm none (hnone m)
      exact .pure ⟨hall o (List.mem_of_getLast? hlast), hall, hfound⟩
    have hgo : ∀ {c'}, c < hi → c < c' →
        (∀ m r, Scans step hi c' (m + 1) r → Scans step hi c (m + 1) r) →
        Ends (findGo step hi memo o fuel c' stack found) (Answered step hi o) :=
        fun hlt hlt' hscan =>
      ih (by omega) hlast (fun m x hx r hr => hwaits m x hx r (hscan m r hr)) hfound
    rw [findGo.eq_def]
    dsimp only
    by_cases hc : hi ≤ c
    · rw [if_pos hc]
      exact hfail fun m => .last (if_pos hc)
    have hlt := not_le.mp hc
    have hmove : ∀ d, move step hi c d = _ := fun d => if_neg hc
    rw [if_neg hc]
    cases hstep : step c with
    | stop => exact hfail fun m => .last (by rw [hmove, hstep])
    | other => exact hgo hlt (Nat.lt_succ_self c) fun m r hr => .next (by rw [hmove, hstep]) hr
    | skip close =>
      cases close with
      | none => exact hfail fun m => .last (by rw [hmove, hstep])
      | some close =>
        exact hgo hlt (Nat.lt_succ_of_le (hf c close hstep)) fun m r hr =>
          .next (by rw [hmove, hstep]) hr
    | closes =>
      cases stack with
      | nil => exact nomatch hlast
      | cons x stack =>
        have hx : Scans step hi (x + 1) 1 (some c) :=
          hwaits 0 x rfl _ (.last (by rw [hmove, hstep]))
        have hfound' : ∀ y ∈ found ++ [(x, c)], Scans step hi (y.1 + 1) 1 (some y.2) :=
          List.forall_mem_append.mpr ⟨hfound, List.forall_mem_singleton.mpr hx⟩
        dsimp only
        cases stack with
        | nil =>
          cases hlast
          exact .pure ⟨hx, nofun, hfound'⟩
        | cons y stack =>
          refine ih (by omega) hlast (fun m z hz r hr => ?_) hfound'
          exact hwaits (m + 1) z hz r (.next (by rw [hmove, hstep]) hr)
    | opens =>
      have hopen : ∀ m r, Scans step hi (c + 1) (m + 2) r →
          Scans step hi c (m + 1) r := fun m r hr =>
        .next (by rw [hmove, hstep]) hr
      dsimp only
      cases hknown : if c = o then none else memo.lookup (c, hi) with
      | none =>
        refine ih (by omega) (by rw [List.getLast?_cons, hlast]; rfl) (fun m x hx r hr => ?_) hfound
        cases m with
        | zero =>
          cases hx
          exact hr
        | succ m => exact hwaits m x hx r (hopen m r hr)
      | some known =>
        have hanswer : Scans step hi (c + 1) 1 known := by
          split_ifs at hknown
          exact hmemo c known hknown
        cases known with
        | none => exact hfail fun m => hopen m none ((hanswer.under hf).2.1 rfl)
        | some close =>
          have hle := (hanswer.under hf (e := 0)).1 close rfl
          exact hgo hlt (by omega) fun m r hr => hopen m r ((hanswer.under hf).2.2 close rfl r hr)

end

def Right (step : Nat → Nat → Step) (memo : Memo) : Prop :=
  ∀ x hi r, memo.lookup (x, hi) = some r → Scans (step hi) hi (x + 1) 1 r

section
variable {step : Nat → Nat → Step} {memo : Memo}

theorem Right.insertAll (h : Right step memo) {rows : Memo}
    (hrows : ∀ row ∈ rows, Scans (step row.1.2) row.1.2 (row.1.1 + 1) 1 row.2) :
    Right step (memo.insertAll rows) := by
  induction rows generalizing memo with
  | nil => exact h
  | cons row rows ih =>
    obtain ⟨hrow, hrows⟩ := List.forall_mem_cons.mp hrows
    refine ih (fun x hi r hr => ?_) hrows
    rw [List.lookup_cons] at hr
    split at hr
    · next heq =>
      rw [← eq_of_beq heq] at hrow
      exact Option.some.inj hr ▸ hrow
    · exact h x hi r hr

theorem scan_eq (hf : ∀ hi, Forward (step hi)) {o hi : Nat} (ho : o < hi → step hi o = .opens)
    {r : Option Nat} (h : Scans (step hi) hi (o + 1) 1 r) : scan step o hi = some r := by
  rw [scan, scanGo]
  by_cases hle : hi ≤ o
  · obtain rfl := h.unique (.last (if_pos (Nat.le_succ_of_le hle)))
    rw [move, if_pos hle]
  · have hlt := not_le.mp hle
    obtain ⟨r', hr', hscans⟩ := scanGo_ends (d := 0) (hf hi) (show hi - (o + 1) < hi - o by omega)
    rw [move, if_neg hle, ho hlt, h.unique hscans]
    exact hr'

theorem find_ends (hf : ∀ hi, Forward (step hi)) (hmemo : Right step memo) {o hi : Nat}
    (ho : o < hi → step hi o = .opens) :
    Ends (find step memo o hi) fun out => scan step o hi = some out.1 ∧ Right step out.2 := by
  rw [find]
  cases hknown : memo.lookup (o, hi) with
  | some r => exact .pure ⟨scan_eq hf ho (hmemo o hi r hknown), hmemo⟩
  | none =>
    have hloop : Ends (findGo (step hi) hi memo o (hi - o + 1) o [] [])
        (Answered (step hi) hi o) := by
      rw [findGo.eq_def]
      dsimp only
      by_cases hle : hi ≤ o
      · rw [if_pos hle]
        exact .pure ⟨.last (if_pos (Nat.le_succ_of_le hle)), nofun, nofun⟩
      · rw [if_neg hle, ho (not_le.mp hle)]
        dsimp only
        rw [if_pos rfl]
        refine findGo_ends (hf hi) (fun x r hr => hmemo x hi r hr) _ (by omega) rfl
          (fun m x hx r hr => ?_) nofun
        cases m with
        | zero =>
          cases hx
          exact hr
        | succ m => exact nomatch hx
    apply hloop.bind
    rintro ⟨r, stack, found⟩ hanswered
    refine .pure ⟨scan_eq hf ho hanswered.result, (hmemo.insertAll ?_).insertAll ?_⟩
    · exact List.forall_mem_map.mpr hanswered.found
    · exact List.forall_mem_map.mpr hanswered.failed

theorem lookups_ends (hf : ∀ hi, Forward (step hi)) (qs : List (Nat × Nat))
    (hqs : ∀ q ∈ qs, q.1 < q.2 → step q.2 q.1 = .opens) :
    ∀ {memo}, Right step memo →
      Ends (lookups step qs memo) fun rs => qs.mapM (fun q => scan step q.1 q.2) = some rs := by
  induction qs with
  | nil => exact fun _ => .pure rfl
  | cons q qs ih =>
    intro memo hmemo
    obtain ⟨hq, hqs⟩ := List.forall_mem_cons.mp hqs
    apply (find_ends hf hmemo hq).bind
    rintro ⟨r, memo'⟩ ⟨hr, hmemo'⟩
    apply (ih hqs hmemo').bind
    intro rs hrs
    refine .pure ?_
    rw [List.mapM_cons, hr, hrs]
    rfl

end

/-- Lookups of openers on one instance return what fresh scans return, if skips go forward. -/
theorem lookups_eq_scans (step : Nat → Nat → Step) (hf : ∀ hi, Forward (step hi))
    (qs : List (Nat × Nat)) (hqs : ∀ q ∈ qs, q.1 < q.2 → step q.2 q.1 = .opens) :
    ∃ rs, lookups step qs [] = some rs ∧ qs.mapM (fun q => scan step q.1 q.2) = some rs :=
  lookups_ends hf qs hqs fun _ _ _ h => nomatch h

def angles : Nat → Nat → Step
  | _, 0 | _, 1 => .opens
  | _, 2 => .skip (some 4)
  | _, 5 => .closes
  | _, _ => .other

theorem lookups_eq_scans_angles :
    lookups angles [(1, 6), (0, 6), (1, 5), (1, 6)] [] = some [some 5, none, none, some 5] ∧
    ∃ rs, lookups angles [(1, 6), (0, 6), (1, 5), (1, 6)] [] = some rs ∧
      [(1, 6), (0, 6), (1, 5), (1, 6)].mapM (fun q => scan angles q.1 q.2) = some rs := by
  refine ⟨by decide, lookups_eq_scans angles (fun hi c close h => ?_) _ (by decide)⟩
  match c with
  | 0 | 1 | 3 | 4 | 5 | _ + 6 => exact nomatch h
  | 2 =>
    obtain rfl := Option.some.inj (Step.skip.inj h)
    decide

end MemoryGraph.Lang.NestedEnds
