import MemoryGraph.Path

/-! Normal forms of paths: what they look like, and that normalizing goes along with joining. -/

namespace MemoryGraph
open List
variable {abs : Bool} {parts : List (List Char)} {a b : String}

def components (s : List Char) : List (List Char) :=
  let rel := if s.head? = some '/' then s.drop 1 else s
  if rel = [] then [] else rel.splitOn '/'

/-- No `\`, no empty or `.` component, and `..` only as a leading run of a relative path. -/
structure NormalForm (s : List Char) : Prop where
  backslash : '\\' ∉ s
  component : ∀ c ∈ components s, c ≠ [] ∧ c ≠ ['.']
  front : ∀ xs ys, components s = xs ++ ['.', '.'] :: ys → s.head? ≠ some '/' ∧
    ∀ p ∈ xs, p = ['.', '.']

def isAbs (path : String) : Bool := (slashed path).head? = some '/'

def normalParts (path : String) : List (List Char) := ((slashed path).splitOn '/').foldl
    (pushPart (isAbs path)) []

theorem normalizePath_eq (path : String) :
    normalizePath path = String.ofList (joinParts (isAbs path) (normalParts path)) := by
  simp [normalizePath, joinParts, isAbs, normalParts]

theorem splitOn_slashed_clean {path : String} :
    ∀ c ∈ (slashed path).splitOn '/', '/' ∉ c ∧ '\\' ∉ c := by
  intro c hc
  constructor
  · intro hm
    exact (mem_of_splitOn hc hm).1 rfl
  · intro hm
    exact not_mem_slashed path (mem_of_splitOn hc hm).2

theorem cleanParts_nil (abs : Bool) : CleanParts abs [] := ⟨by simp, by simp⟩

theorem normalParts_clean (path : String) : CleanParts (isAbs path) (normalParts path) :=
  foldl_pushPart_keeps (cleanParts_nil _) splitOn_slashed_clean

theorem intercalate_eq_nil (h : ∀ p ∈ parts, p ≠ []) (hnil : ['/'].intercalate parts = []) :
    parts = [] := by
  cases parts with
  | nil => rfl
  | cons p parts =>
    have hp := h p mem_cons_self
    cases parts <;> simp_all

theorem components_joinParts (h : CleanParts abs parts) :
    components (joinParts abs parts) = parts := by
  have hrel : (if (joinParts abs parts).head? = some '/' then (joinParts abs parts).drop 1
      else joinParts abs parts) = ['/'].intercalate parts := by
    cases abs with
    | true => rw [if_pos ((head_joinParts h).mpr rfl)]; rfl
    | false =>
      rw [if_neg fun hhead => Bool.false_ne_true ((head_joinParts h).mp hhead)]
      rfl
  rw [components, hrel]
  split
  next hnil => exact (intercalate_eq_nil (fun p hp => (h.part p hp).1) hnil).symm
  next hne =>
    apply splitOn_intercalate '/' fun l hl => (h.part l hl).2.2.1
    rintro rfl
    exact hne rfl

theorem normalForm_joinParts (h : CleanParts abs parts) :
    NormalForm (joinParts abs parts) where
  backslash := by
    have hslashed := slashed_joinParts h
    intro hm
    rw [← hslashed] at hm
    exact not_mem_slashed _ hm
  component := by
    rw [components_joinParts h]
    intro c hc
    exact ⟨(h.part c hc).1, (h.part c hc).2.1⟩
  front := by
    rw [components_joinParts h]
    intro xs ys hsplit
    obtain ⟨hrel, hall⟩ := h.front xs ys hsplit
    refine ⟨?_, hall⟩
    intro hhead
    rw [(head_joinParts h).mp hhead] at hrel
    exact Bool.false_ne_true hrel.symm

theorem pushPart_name {c : List Char} (hne : c ≠ [] ∧ c ≠ ['.'])
    (hdots : c ≠ ['.', '.']) : pushPart abs parts c = parts ++ [c] := by
  rw [pushPart, if_neg (fun e => e.elim hne.1 hne.2), if_neg hdots]

theorem foldl_pushPart_step {parts start : List (List Char)} (h : CleanParts false parts)
    (c : List Char) :
    (pushPart false parts c).foldl (pushPart abs) start =
      pushPart abs (parts.foldl (pushPart abs) start) c := by
  have hsnoc : (parts ++ [c]).foldl (pushPart abs) start =
      pushPart abs (parts.foldl (pushPart abs) start) c := by
    rw [foldl_append]
    rfl
  by_cases hskip : c = [] ∨ c = ['.']
  · rw [pushPart, if_pos hskip, pushPart, if_pos hskip]
  by_cases hdots : c = ['.', '.']
  · subst hdots
    by_cases hpop : parts.getLast?.any (fun p => p ≠ ['.', '.']) = true
    · obtain ⟨p, hp, hname⟩ := Option.any_eq_true _ _ |>.mp hpop
      have hparts := dropLast_append_getLast? p hp
      have hclean := h.part p (mem_of_mem_getLast? hp)
      have hpush : parts.foldl (pushPart abs) start = parts.dropLast.foldl (pushPart abs)
          start ++ [p] := by
        conv_lhs => rw [← hparts]
        rw [foldl_append]
        exact pushPart_name ⟨hclean.1, hclean.2.1⟩ (by simpa using hname)
      rw [pushPart, if_neg hskip, if_pos rfl, if_pos hpop, hpush, pushPart, if_neg hskip,
        if_pos rfl, if_pos, dropLast_concat]
      rw [getLast?_concat]
      exact hname
    · rw [← hsnoc, pushPart, if_neg hskip, if_pos rfl, if_neg hpop]
      rfl
  · rw [← hsnoc, pushPart_name ⟨fun e => hskip (.inl e), fun e => hskip (.inr e)⟩ hdots]

theorem foldl_pushPart_normal {cs start : List (List Char)} (hcs : ∀ c ∈ cs, '/' ∉ c ∧ '\\' ∉ c) :
    (cs.foldl (pushPart false) []).foldl (pushPart abs) start = cs.foldl (pushPart abs) start := by
  induction cs using reverseRecOn with
  | nil => rfl
  | append_singleton cs c ih =>
    have hleft : ∀ d ∈ cs, '/' ∉ d ∧ '\\' ∉ d := fun d hd => hcs d (mem_append_left _ hd)
    have hclean := foldl_pushPart_keeps (cleanParts_nil false) hleft
    rw [foldl_append, foldl_append, ← ih hleft]
    exact foldl_pushPart_step hclean c

theorem splitOn_append_slash (xs ys : List Char) :
    (xs ++ '/' :: ys).splitOn '/' = xs.splitOn '/' ++ ys.splitOn '/' := by
  induction xs with
  | nil => simp [splitOn_cons_eq_if_modifyHead]
  | cons c xs ih =>
    rw [cons_append, splitOn_cons_eq_if_modifyHead, splitOn_cons_eq_if_modifyHead, ih]
    split
    next => rfl
    next =>
      obtain ⟨head, tail, hsplit⟩ := exists_cons_of_ne_nil (splitOn_ne_nil '/' xs)
      rw [hsplit]
      rfl

theorem slashed_join (a b : String) : slashed (a ++ "/" ++ b) = slashed a ++ '/' :: slashed b := by
  simp [slashed]

theorem isAbs_join (ha : a ≠ "") : isAbs (a ++ "/" ++ b) = isAbs a := by
  have hne : slashed a ≠ [] := by
    intro hnil
    exact ha (String.toList_eq_nil_iff.mp (map_eq_nil_iff.mp hnil))
  obtain ⟨c, s, hs⟩ := exists_cons_of_ne_nil hne
  rw [isAbs, isAbs, slashed_join, hs]
  rfl

theorem normalParts_join (ha : a ≠ "") :
    normalParts (a ++ "/" ++ b) =
      ((slashed b).splitOn '/').foldl (pushPart (isAbs a)) (normalParts a) := by
  rw [normalParts, isAbs_join ha, slashed_join, splitOn_append_slash, foldl_append, normalParts]

theorem foldl_splitOn_join {parts start : List (List Char)} (h : CleanParts false parts) :
    ((joinParts false parts).splitOn '/').foldl (pushPart abs) start =
      parts.foldl (pushPart abs) start := by
  cases hp : parts with
  | nil => simp [joinParts, pushPart]
  | cons p ps =>
    rw [← hp]
    congr 1
    exact splitOn_intercalate '/' (fun l hl => (h.part l hl).2.2.1) (by simp [hp])

theorem isAbs_normalizePath (path : String) : isAbs (normalizePath path) = isAbs path := by
  have hclean := normalParts_clean path
  rw [isAbs, normalizePath_eq, slashed_joinParts hclean]
  cases h : isAbs path with
  | true =>
    rw [h] at hclean
    exact decide_eq_true ((head_joinParts hclean).mpr rfl)
  | false =>
    rw [h] at hclean
    exact decide_eq_false fun hhead => Bool.false_ne_true ((head_joinParts hclean).mp hhead)

theorem normalParts_normalizePath (path : String) :
    normalParts (normalizePath path) = normalParts path := by
  have hclean := normalParts_clean path
  rw [normalParts, isAbs_normalizePath, normalizePath_eq, slashed_joinParts hclean]
  exact foldl_splitOn_joinParts hclean

theorem normalizePath_join (ha : normalizePath a ≠ "") (hb : isAbs b = false) :
    normalizePath (a ++ "/" ++ b) = normalizePath (normalizePath a ++ "/" ++ normalizePath b) := by
  have hane : a ≠ "" := by
    rintro rfl
    exact ha (by decide +kernel)
  have hclean := normalParts_clean b
  rw [hb] at hclean
  have hparts : normalParts (a ++ "/" ++ b) =
      normalParts (normalizePath a ++ "/" ++ normalizePath b) := by
    rw [normalParts_join hane, normalParts_join ha, isAbs_normalizePath, normalParts_normalizePath,
      normalizePath_eq b, hb, slashed_joinParts hclean, foldl_splitOn_join hclean]
    have hb' : normalParts b = ((slashed b).splitOn '/').foldl (pushPart false) [] := by
      rw [normalParts, hb]
    rw [hb', foldl_pushPart_normal splitOn_slashed_clean]
  rw [normalizePath_eq, normalizePath_eq (normalizePath a ++ "/" ++ normalizePath b), hparts,
    isAbs_join hane, isAbs_join ha, isAbs_normalizePath]

theorem isAbs_eq_false {b : String} (hslash : b.toList.head? ≠ some '/')
    (hback : b.toList.head? ≠ some '\\') : isAbs b = false := by
  apply decide_eq_false
  rw [slashed, head?_map]
  intro h
  obtain ⟨c, hc, hslashed⟩ := Option.map_eq_some_iff.mp h
  split at hslashed
  next hb => exact hback (hb ▸ hc)
  next => exact hslash (hslashed ▸ hc)

/-- Normalizing is idempotent, gives normal forms, and goes along with joining a relative path. -/
theorem normalizePath_laws :
    (∀ p, normalizePath (normalizePath p) = normalizePath p) ∧
      (∀ p, NormalForm (normalizePath p).toList) ∧
      ∀ a b : String, normalizePath a ≠ "" → b.toList.head? ≠ some '/' →
        b.toList.head? ≠ some '\\' →
        normalizePath (a ++ "/" ++ b) =
          normalizePath (normalizePath a ++ "/" ++ normalizePath b) := by
  refine ⟨normalizePath_idem, ?_, ?_⟩
  · intro p
    rw [normalizePath_eq, String.toList_ofList]
    exact normalForm_joinParts (normalParts_clean p)
  · intro a b ha hslash hback
    exact normalizePath_join ha (isAbs_eq_false hslash hback)

theorem normalizePath_laws_climbing :
    normalizePath "p" ≠ "" ∧ normalizePath ("p" ++ "/" ++ "x/../../q") =
      normalizePath (normalizePath "p" ++ "/" ++ normalizePath "x/../../q") := by
  have hne : normalizePath "p" ≠ "" := by decide +kernel
  exact ⟨hne, normalizePath_laws.2.2 "p" "x/../../q" hne (by decide) (by decide)⟩

end MemoryGraph
