import MemoryGraph.Schema

/-! Paths as file identity. -/

namespace MemoryGraph
open List
variable {abs : Bool} {parts : List (List Char)} {c : List Char}

def pushPart (abs : Bool) (parts : List (List Char)) (c : List Char) : List (List Char) :=
  if c = [] ∨ c = ['.'] then parts
  else if c = ['.', '.'] then
    if parts.getLast?.any (fun p => p ≠ ['.', '.']) then parts.dropLast
    else if abs then parts
    else parts ++ [c]
  else parts ++ [c]

def slashed (path : String) : List Char := path.toList.map (fun c => if c = '\\' then '/' else c)

def normalizePath (path : String) : String :=
  let abs := (slashed path).head? = some '/'
  let parts := ((slashed path).splitOn '/').foldl (pushPart abs) []
  String.ofList ((if abs then ['/'] else []) ++ ['/'].intercalate parts)

example : normalizePath "x\\.././/a/./b.rs" = "a/b.rs" := by decide +kernel

example : normalizePath "/../a.rs" = "/a.rs" ∧
    normalizePath "../a.rs" = "../a.rs" := by decide +kernel

def asciiLower (s : String) : String := String.ofList (s.toList.map Char.toLower)

/-- What the loop of `normalize_path` keeps: no empty or `.` part, no separator in a part,
`..` only at the front of a relative path. -/
structure CleanParts (abs : Bool) (parts : List (List Char)) : Prop where
  part : ∀ p ∈ parts, p ≠ [] ∧ p ≠ ['.'] ∧ '/' ∉ p ∧ '\\' ∉ p
  front : ∀ xs ys, parts = xs ++ ['.', '.'] :: ys → abs = false ∧ ∀ p ∈ xs, p = ['.', '.']

theorem CleanParts.left {parts rest : List (List Char)} (h : CleanParts abs (parts ++ rest)) :
    CleanParts abs parts where
  part p hp := h.part p (mem_append_left _ hp)
  front xs ys he := h.front xs (ys ++ rest) (by rw [he]; simp)

theorem cleanParts_snoc (h : CleanParts abs parts)
    (hc : c ≠ [] ∧ c ≠ ['.'] ∧ '/' ∉ c ∧ '\\' ∉ c)
    (hdots : c = ['.', '.'] → abs = false ∧ ∀ p ∈ parts, p = ['.', '.']) :
    CleanParts abs (parts ++ [c]) where
  part p hp := by
    rcases mem_append.mp hp with hp | hp
    · exact h.part p hp
    · rw [mem_singleton.mp hp]
      exact hc
  front xs ys he := by
    rcases eq_nil_or_concat ys with rfl | ⟨zs, z, rfl⟩
    · obtain ⟨rfl, hlast⟩ := append_inj' he rfl
      exact hdots (by simpa using hlast)
    · have he' : parts ++ [c] = (xs ++ ['.', '.'] :: zs) ++ [z] := by simpa using he
      obtain ⟨hparts, -⟩ := append_inj' he' rfl
      exact h.front xs zs hparts

theorem cleanParts_pushPart (h : CleanParts abs parts)
    (hc : '/' ∉ c ∧ '\\' ∉ c) : CleanParts abs (pushPart abs parts c) := by
  unfold pushPart
  split_ifs with hskip hdots hpop habs
  · exact h
  · obtain ⟨p, hp, -⟩ := Option.any_eq_true _ _ |>.mp hpop
    rw [← dropLast_append_getLast? p hp] at h
    exact h.left
  · exact h
  · -- the last part is `..`, and then so are all before it
    refine cleanParts_snoc h ⟨fun e => hskip (.inl e), fun e => hskip (.inr e), hc⟩ fun _ =>
      ⟨by simpa using habs, ?_⟩
    cases hlast : parts.getLast? with
    | none =>
      rw [getLast?_eq_none_iff.mp hlast]
      simp
    | some p =>
      obtain rfl : p = ['.', '.'] := by simpa [hlast] using hpop
      have hparts := dropLast_append_getLast? _ hlast
      obtain ⟨-, hall⟩ := h.front parts.dropLast [] hparts.symm
      intro q hq
      rw [← hparts] at hq
      rcases mem_append.mp hq with hq | hq
      · exact hall q hq
      · exact mem_singleton.mp hq
  · exact cleanParts_snoc h ⟨fun e => hskip (.inl e), fun e => hskip (.inr e), hc⟩ fun e =>
      absurd e hdots

theorem pushPart_clean (h : CleanParts abs (parts ++ [c])) :
    pushPart abs parts c = parts ++ [c] := by
  have hc := h.part c (by simp)
  unfold pushPart
  rw [if_neg (fun e => e.elim hc.1 hc.2.1)]
  split_ifs with hdots hpop habs
  · obtain ⟨-, hall⟩ := h.front parts [] (by rw [hdots])
    obtain ⟨p, hp, hne⟩ := Option.any_eq_true _ _ |>.mp hpop
    exact absurd (hall p (mem_of_mem_getLast? hp)) (by simpa using hne)
  · obtain ⟨hrel, -⟩ := h.front parts [] (by rw [hdots])
    exact absurd (hrel.symm.trans habs) (by decide)
  · rfl
  · rfl

theorem foldl_pushPart_clean (h : CleanParts abs parts) :
    parts.foldl (pushPart abs) [] = parts := by
  induction parts using reverseRecOn with
  | nil => rfl
  | append_singleton parts c ih =>
    rw [foldl_append, ih h.left]
    exact pushPart_clean h

theorem foldl_pushPart_keeps {cs parts : List (List Char)} (h : CleanParts abs parts)
    (hcs : ∀ c ∈ cs, '/' ∉ c ∧ '\\' ∉ c) : CleanParts abs (cs.foldl (pushPart abs) parts) := by
  induction cs generalizing parts with
  | nil => exact h
  | cons c cs ih =>
    exact ih (cleanParts_pushPart h (hcs c mem_cons_self)) fun d hd => hcs d (.tail _ hd)

theorem not_mem_slashed (path : String) : '\\' ∉ slashed path := by
  intro h
  obtain ⟨c, -, hc⟩ := mem_map.mp h
  split_ifs at hc with hs
  · exact absurd hc (by decide)
  · exact hs hc

def joinParts (abs : Bool) (parts : List (List Char)) : List Char :=
  (if abs then ['/'] else []) ++ ['/'].intercalate parts

theorem mem_intercalate {c : Char} (h : c ∈ ['/'].intercalate parts) :
    c = '/' ∨ ∃ p ∈ parts, c ∈ p := by
  induction parts with
  | nil => simp at h
  | cons p parts ih =>
    cases parts with
    | nil => exact .inr ⟨p, by simp, by simpa using h⟩
    | cons q parts =>
      rw [intercalate_cons_cons] at h
      rcases mem_append.mp h with h | h
      · rcases mem_append.mp h with h | h
        · exact .inr ⟨p, mem_cons_self, h⟩
        · exact .inl (mem_singleton.mp h)
      · rcases ih h with rfl | ⟨r, hr, hc⟩
        · exact .inl rfl
        · exact .inr ⟨r, mem_cons_of_mem _ hr, hc⟩

theorem slashed_joinParts (h : CleanParts abs parts) :
    slashed (String.ofList (joinParts abs parts)) = joinParts abs parts := by
  have hno : ∀ c ∈ joinParts abs parts, c ≠ '\\' := by
    rintro c hm rfl
    rcases mem_append.mp hm with hm | hm
    · cases abs <;> simp at hm
    · rcases mem_intercalate hm with he | ⟨p, hp, hc⟩
      · exact absurd he (by decide)
      · exact (h.part p hp).2.2.2 hc
  rw [slashed, String.toList_ofList]
  exact (map_congr_left fun c hc => if_neg (hno c hc)).trans (map_id _)

theorem head_joinParts (h : CleanParts abs parts) :
    (joinParts abs parts).head? = some '/' ↔ abs = true := by
  cases abs with
  | true => simp [joinParts]
  | false =>
    cases parts with
    | nil => simp [joinParts]
    | cons p parts =>
      obtain ⟨hne, -, hslash, -⟩ := h.part p mem_cons_self
      obtain ⟨c, cs, rfl⟩ := exists_cons_of_ne_nil hne
      have hc : c ≠ '/' := fun e => hslash (e ▸ mem_cons_self)
      cases parts <;> simp [joinParts, hc]

theorem foldl_splitOn_joinParts (h : CleanParts abs parts) :
    ((joinParts abs parts).splitOn '/').foldl (pushPart abs) [] = parts := by
  have hinner : ((['/'].intercalate parts).splitOn '/').foldl (pushPart abs) [] = parts := by
    cases hp : parts with
    | nil => simp [pushPart]
    | cons p ps =>
      rw [← hp, splitOn_intercalate '/' (fun l hl => (h.part l hl).2.2.1) (by simp [hp])]
      exact foldl_pushPart_clean h
  cases abs with
  | false => exact hinner
  | true => simpa [joinParts, pushPart, splitOn_cons_eq_if_modifyHead] using hinner

theorem mem_of_splitOn {xs l : List Char} {c : Char} (hl : l ∈ xs.splitOn '/') (hc : c ∈ l) :
    c ≠ '/' ∧ c ∈ xs := by
  induction xs generalizing l with
  | nil =>
    rw [splitOn_nil, mem_singleton] at hl
    rw [hl] at hc
    cases hc
  | cons a xs ih =>
    rw [splitOn_cons_eq_if_modifyHead] at hl
    split_ifs at hl with ha
    · rcases mem_cons.mp hl with rfl | hl
      · cases hc
      · exact ⟨(ih hl hc).1, mem_cons_of_mem _ (ih hl hc).2⟩
    · obtain ⟨head, tail, hsplit⟩ := exists_cons_of_ne_nil (splitOn_ne_nil '/' xs)
      rw [hsplit, modifyHead_cons] at hl
      have hin : ∀ {m}, m ∈ head :: tail → c ∈ m → c ≠ '/' ∧ c ∈ a :: xs := fun hm hcm =>
        ⟨(ih (hsplit ▸ hm) hcm).1, mem_cons_of_mem _ (ih (hsplit ▸ hm) hcm).2⟩
      rcases mem_cons.mp hl with rfl | hl
      · rcases mem_cons.mp hc with rfl | hc
        · exact ⟨by simpa using ha, mem_cons_self⟩
        · exact hin mem_cons_self hc
      · exact hin (.tail _ hl) hc

theorem normalizePath_idem (path : String) :
    normalizePath (normalizePath path) = normalizePath path := by
  have hjoin : ∀ p : String,
      normalizePath p = String.ofList (joinParts (decide ((slashed p).head? = some '/'))
      (((slashed p).splitOn '/').foldl (pushPart (decide ((slashed p).head? = some '/'))) [])) := by
    intro p
    simp [normalizePath, joinParts]
  rw [hjoin path]
  generalize decide ((slashed path).head? = some '/') = abs
  have hclean : CleanParts abs (((slashed path).splitOn '/').foldl (pushPart abs) []) := by
    refine foldl_pushPart_keeps ⟨by simp, by simp⟩ fun c hc =>
      ⟨fun hm => (mem_of_splitOn hc hm).1 rfl, fun hm => ?_⟩
    exact not_mem_slashed path (mem_of_splitOn hc hm).2
  generalize ((slashed path).splitOn '/').foldl (pushPart abs) [] = parts at hclean
  have hhead : decide ((joinParts abs parts).head? = some '/') = abs := by
    cases abs <;> simp [head_joinParts hclean]
  rw [hjoin, slashed_joinParts hclean, hhead, foldl_splitOn_joinParts hclean]

end MemoryGraph
