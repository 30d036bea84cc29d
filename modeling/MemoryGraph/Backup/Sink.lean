import MemoryGraph.Lib.Decimal

/-! Where backups are put: objects under distinct keys. A key is held as its characters, a time as
nanoseconds since the Unix epoch. -/

namespace MemoryGraph.Backup
open Lib List

abbrev Key := List Char

structure ObjectInfo where
  key : Key
  modified : Int
deriving DecidableEq, Repr

structure Sink where
  objects : List ObjectInfo
  nodup : (objects.map (·.key)).Nodup

namespace Sink

def list (s : Sink) (p : Key) : List ObjectInfo := s.objects.filter fun o => p.isPrefixOf o.key

def delete (s : Sink) (k : Key) : Sink :=
  ⟨s.objects.filter fun o => o.key ≠ k, s.nodup.sublist (List.filter_sublist.map _)⟩

@[simp] theorem mem_list {s : Sink} {p : Key} {o : ObjectInfo} :
    o ∈ s.list p ↔ o ∈ s.objects ∧ p <+: o.key := by
  rw [list, mem_filter, isPrefixOf_iff_prefix]

theorem mem_foldl_delete {s : Sink} {ks : List Key} {o : ObjectInfo} :
    o ∈ (ks.foldl delete s).objects ↔ o ∈ s.objects ∧ o.key ∉ ks := by
  induction ks generalizing s with
  | nil => simp
  | cons k ks ih =>
    rw [foldl_cons, ih, delete, mem_filter, decide_eq_true_eq, mem_cons, not_or, and_assoc]

end Sink

inductive IoKind
  | notFound
  | permissionDenied
  | invalidInput
  | other
deriving DecidableEq, Repr

structure IoError where
  kind : IoKind
  text : String
deriving DecidableEq, Repr

def metaExt : List Char := ['.', 'm', 'e', 't', 'a']

def dataExt : List Char := ['.', 'r', 'e', 'd', 'b']

def child (p k : Key) : Bool :=
  match k.dropPrefix? p with
  | some rest => !rest.contains '/'
  | none => false

def parseStem (name : Key) : Option (Nat × Nat) := do
  let base := (name.reverse.takeWhile (· ≠ '/')).reverse
  let stem ← base.dropSuffix? metaExt <|> base.dropSuffix? dataExt
  let rest ← stem.dropPrefix? ['s', 'n', 'a', 'p', '-']
  match rest.dropWhile (· ≠ '-') with
  | [] => none
  | _ :: i =>
    return (← Decimal.unsigned (2 ^ 64 - 1) (rest.takeWhile (· ≠ '-')), ← Decimal.unsigned
      (2 ^ 64 - 1) i)

example : parseStem "c/snap-2-17.meta".toList = some (2, 17) ∧
    parseStem "snap-2-17.tmp".toList = none := by
  decide +kernel

theorem child_iff {p k : Key} : child p k = true ↔ ∃ rest, k = p ++ rest ∧ '/' ∉ rest := by
  unfold child
  constructor
  · intro h
    split at h
    · next rest hrest =>
      obtain ⟨p', rfl, hp⟩ := dropPrefix?_eq_some_iff.mp hrest
      exact ⟨rest, by rw [eq_of_beq hp], by simpa using h⟩
    · exact absurd h (by decide)
  · rintro ⟨rest, rfl, h⟩
    rw [dropPrefix?_append_of_beq rest (beq_self_eq_true p)]
    simpa using h

def dataKey (m : Key) : Key := (m.dropSuffix? metaExt).getD [] ++ dataExt

theorem dropSuffix?_append (stem ext : List Char) : (stem ++ ext).dropSuffix? ext = some stem :=
  dropSuffix?_eq_some_iff.mpr ⟨ext, rfl, beq_self_eq_true ext⟩

theorem dataKey_append (stem : Key) : dataKey (stem ++ metaExt) = stem ++ dataExt := by
  rw [dataKey, dropSuffix?_append, Option.getD_some]

theorem dataKey_inj {a b : Key} (ha : metaExt <:+ a) (hb : metaExt <:+ b)
    (h : dataKey a = dataKey b) : a = b := by
  obtain ⟨a, rfl⟩ := ha
  obtain ⟨b, rfl⟩ := hb
  rw [dataKey_append, dataKey_append] at h
  rw [append_cancel_right h]

theorem not_metaExt_dataKey (m : Key) : ¬metaExt <:+ dataKey m := by
  intro h
  have hext : metaExt = dataExt :=
    (suffix_of_suffix_length_le h (suffix_append _ _) (by decide)).eq_of_length rfl
  exact absurd hext (by decide)

theorem child_dataKey {id m : Key} (hmeta : metaExt <:+ m) (h : child (id ++ ['/']) m = true) :
    child (id ++ ['/']) (dataKey m) = true := by
  obtain ⟨rest, rfl, hrest⟩ := child_iff.mp h
  -- the slash is not in the extension, which is therefore after it
  have hext : metaExt <:+ rest := by
    by_contra hshort
    have hlt : rest.length < metaExt.length := by
      by_contra hlong
      exact hshort (suffix_of_suffix_length_le hmeta (suffix_append _ _) (by omega))
    have hsuffix : '/' :: rest <:+ id ++ ['/'] ++ rest := ⟨id, by simp⟩
    have hmem : '/' ∈ metaExt :=
      (suffix_of_suffix_length_le hsuffix hmeta (by rw [length_cons]; omega)).subset mem_cons_self
    exact absurd hmem (by decide)
  obtain ⟨stem, rfl⟩ := hext
  rw [← append_assoc, dataKey_append, append_assoc]
  refine child_iff.mpr ⟨stem ++ dataExt, rfl, ?_⟩
  rw [mem_append, not_or] at hrest ⊢
  exact ⟨hrest.1, by decide⟩

end MemoryGraph.Backup
