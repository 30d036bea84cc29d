import MemoryGraph.Store.RevSpec

/-! `dict` and `dict_rev` are inverse to each other as long as no two stored long terms share a
digest. -/

namespace MemoryGraph
open Lib Codec List
variable {id : Nat} {t u : String} {texts : Set String} {entries : List (Nat × String)} {d : Dict}

theorem digitChar_injOn : ∀ i j : Fin 16, i.val.digitChar = j.val.digitChar → i = j := by decide

theorem hexByte_injective : Function.Injective hexByte := by
  intro a b h
  have ha := a.toNat_lt
  have hb := b.toNat_lt
  obtain ⟨h1, h2⟩ : (a.toNat / 16).digitChar = (b.toNat / 16).digitChar ∧
      (a.toNat % 16).digitChar = (b.toNat % 16).digitChar := by simpa [hexByte] using h
  have e1 := congrArg Fin.val (digitChar_injOn ⟨a.toNat / 16, by omega⟩ ⟨b.toNat / 16, by omega⟩ h1)
  have e2 := congrArg Fin.val (digitChar_injOn ⟨a.toNat % 16, by omega⟩ ⟨b.toNat % 16, by omega⟩ h2)
  refine UInt8.toNat_inj.mp ?_
  dsimp only at e1 e2
  omega

theorem notMem_hex {c : Char} (hc : ∀ i : Fin 16, c ≠ i.val.digitChar) (bs : List UInt8) :
    c ∉ bs.flatMap hexByte := by
  intro hm
  obtain ⟨b, -, hb⟩ := mem_flatMap.mp hm
  have hlt := b.toNat_lt
  rcases mem_cons.mp hb with h | h
  · exact hc ⟨b.toNat / 16, by omega⟩ h
  · exact hc ⟨b.toNat % 16, by omega⟩ (mem_singleton.mp h)

theorem hexBytes_injective : Function.Injective (fun bs : List UInt8 => bs.flatMap hexByte) := by
  intro as
  induction as with
  | nil =>
    intro bs h
    cases bs with
    | nil => rfl
    | cons b bs => simp [hexByte] at h
  | cons a as ih =>
    intro bs h
    cases bs with
    | nil => simp [hexByte] at h
    | cons b bs =>
      have hlen : (hexByte a).length = (hexByte b).length := rfl
      obtain ⟨h1, h2⟩ := append_inj (by simpa using h) hlen
      rw [hexByte_injective h1, ih h2]

section
variable (sha256 : List UInt8 → List UInt8)

def termKey (text : String) : String := if isHashed text then hashedKey sha256 text 0 else text

def CollisionFree (texts : Set String) : Prop :=
  ∀ t ∈ texts, ∀ u ∈ texts, isHashed t = true → isHashed u = true →
    sha256 (utf8 t) = sha256 (utf8 u) → t = u

variable {sha256}

theorem CollisionFree.mono {ts us : Set String} (h : CollisionFree sha256 us) (hsub : ts ⊆ us) :
    CollisionFree sha256 ts := fun t ht u hu => h t (hsub ht) u (hsub hu)

theorem head_hashedKey (text : String) : (hashedKey sha256 text 0).toList.head? = some '\x00' := by
  simp [hashedKey]

theorem hashedKey_zero_inj (h : hashedKey sha256 t 0 = hashedKey sha256 u 0) :
    sha256 (utf8 t) = sha256 (utf8 u) := by
  have hl := congrArg String.toList h
  simp only [hashedKey, lt_irrefl, if_false, String.append_empty, String.toList_ofList, cons.injEq,
    true_and] at hl
  exact hexBytes_injective hl

theorem head_of_not_isHashed {t : String} (h : isHashed t = false) :
    t.toList.head? ≠ some '\x00' := by
  rw [isHashed, Bool.or_eq_false_iff] at h
  simpa using h.2

theorem termKey_inj (hcf : CollisionFree sha256 texts) (ht : t ∈ texts)
    (hu : u ∈ texts) (h : termKey sha256 t = termKey sha256 u) : t = u := by
  rw [termKey, termKey] at h
  cases hht : isHashed t <;> cases hhu :
    isHashed u <;> simp only [hht, hhu, if_true, Bool.false_eq_true, if_false] at h
  · exact h
  · exact absurd (h ▸ head_hashedKey u) (head_of_not_isHashed hht)
  · exact absurd (h ▸ head_hashedKey t) (head_of_not_isHashed hhu)
  · exact hcf t ht u hu hht hhu (hashedKey_zero_inj h)

def textsOf (entries : List (Nat × String)) : Set String := {t | ∃ id, (id, t) ∈ entries}

variable (sha256) in
/-- `dict` and `dict_rev` both hold `entries`. -/
structure Dict.Inv (d : Dict) (entries : List (Nat × String)) : Prop where
  rev : RevOf d.rev entries
  lt : ∀ e ∈ entries, e.1 < d.nextTerm
  next : d.nextTerm ≤ usizeMax
  texts : (entries.map Prod.snd).Nodup
  dict : ∀ key id, d.dict.get key = some id ↔ ∃ text, (id, text) ∈ entries ∧
    key = termKey sha256 text

theorem append_entry {n : Nat} (hlt : ∀ e ∈ entries, e.1 < n)
    (hnd : (entries.map Prod.snd).Nodup) (hno : ∀ e ∈ entries, e.2 ≠ t) :
    (∀ e ∈ entries ++ [(n, t)], e.1 < n + 1) ∧ ((entries ++ [(n, t)]).map Prod.snd).Nodup := by
  constructor
  · intro e he
    rcases mem_append.mp he with he | he
    · exact (hlt e he).trans (Nat.lt_succ_self _)
    · rw [mem_singleton.mp he]
      exact Nat.lt_succ_self _
  · rw [map_append, map_singleton, nodup_append]
    refine ⟨hnd, nodup_singleton _, fun u hu v hv huv => ?_⟩
    obtain ⟨e, he, rfl⟩ := mem_map.mp hu
    exact hno e he (huv.trans (mem_singleton.mp hv))

theorem dictInv_empty : Dict.empty.Inv sha256 [] :=
  ⟨revOf_empty, by simp, Nat.zero_le _, nodup_nil, by simp [Dict.empty]⟩

theorem Dict.Inv.text_unique (h : d.Inv sha256 entries)
    (ht : (id, t) ∈ entries) (hu : (id, u) ∈ entries) : t = u := by
  have h1 := (findEntry_eq_some h.rev.sorted).mpr ht
  have h2 := (findEntry_eq_some h.rev.sorted).mpr hu
  exact Option.mem_unique h1 h2

theorem dictKey_some {text : String}
    (hget : d.dict.get (termKey sha256 text) = some id) :
    dictKey sha256 d text (some id) = .ok (termKey sha256 text, some id) := by
  rw [dictKey]
  rw [termKey] at hget ⊢
  split_ifs at hget ⊢ with hh
  · rw [dictKeyGo, if_neg (by decide), hget]
    simp
  · rw [hget]
    rfl

section Intern
variable {d : Dict} {entries : List (Nat × String)} (h : d.Inv sha256 entries) {text : String}
  (hcf : CollisionFree sha256 (insert text (textsOf entries)))
include h

theorem dictKey_found (hmem : (id, text) ∈ entries) :
    dictKey sha256 d text none = .ok (termKey sha256 text, some id) := by
  have hget : d.dict.get (termKey sha256 text) = some id := (h.dict _ _).mpr ⟨text, hmem, rfl⟩
  rw [dictKey]
  rw [termKey] at hget ⊢
  split_ifs at hget ⊢ with hh
  · rw [dictKeyGo, if_neg (by decide), hget]
    dsimp only
    rw [dictRevLookup_eq h.rev, (findEntry_eq_some h.rev.sorted).mpr hmem, ok_bind]
    simp
  · rw [hget]
    rfl

include hcf

theorem dictKey_free (hno : text ∉ textsOf entries) :
    dictKey sha256 d text none = .ok (termKey sha256 text, none) := by
  have hget : d.dict.get (termKey sha256 text) = none := by
    rw [Option.eq_none_iff_forall_ne_some]
    intro id hid
    obtain ⟨u, hu, hkey⟩ := (h.dict _ _).mp hid
    have : text = u := termKey_inj hcf (Set.mem_insert _ _) (Set.mem_insert_of_mem _ ⟨id, hu⟩) hkey
    exact hno ⟨id, this ▸ hu⟩
  rw [dictKey]
  rw [termKey] at hget ⊢
  split_ifs at hget ⊢ with hh
  · rw [dictKeyGo, if_neg (by decide), hget]
    rfl
  · rw [hget]
    rfl

theorem intern_spec (hlen : (utf8 text).length < 2 ^ 64) {d' : Dict}
    (hi : intern sha256 d text = .ok (d', id)) :
    ∃ entries', d'.Inv sha256 entries' ∧
      entries <+: entries' ∧ (id, text) ∈ entries' ∧ ∀ e ∈ entries', e ∈ entries ∨ e.2 = text := by
  rw [intern] at hi
  by_cases hmem : text ∈ textsOf entries
  · obtain ⟨i, hmem⟩ := hmem
    rw [dictKey_found h hmem, ok_bind] at hi
    obtain ⟨rfl, rfl⟩ : d = d' ∧ i = id := by simpa using hi
    exact ⟨entries, h, prefix_refl _, hmem, fun e he => Or.inl he⟩
  · rw [dictKey_free h hcf hmem, ok_bind] at hi
    obtain ⟨_, hroom, hi⟩ := bind_eq_ok.mp hi
    have hroom := not_le.mp (failIf_eq_ok.mp hroom)
    have hfit : EntryFits (d.nextTerm, text) := ⟨hroom.trans (by decide), hlen⟩
    obtain ⟨rev', hrev, hrev'⟩ := dictRevAppend_spec h.rev h.lt hfit
    rw [hrev, ok_bind] at hi
    obtain ⟨rfl, rfl⟩ : _ = d' ∧ d.nextTerm = id := by simpa using hi
    obtain ⟨hlt, hnd⟩ := append_entry h.lt h.texts fun e he (hte : e.2 = text) =>
      hmem ⟨e.1, hte ▸ he⟩
    refine ⟨entries ++ [(d.nextTerm, text)], ⟨hrev', hlt, hroom, hnd, ?_⟩, prefix_append _ _,
      mem_append_right _ (mem_singleton_self _), ?_⟩
    · intro key id
      rw [Table.get_insert]
      split_ifs with hk
      · -- the new key: no stored text has it
        constructor
        · rintro ⟨⟩
          exact ⟨text, mem_append_right _ (mem_singleton_self _), hk.symm⟩
        · rintro ⟨t, ht, hkey⟩
          rcases mem_append.mp ht with ht | ht
          · have : text = t := termKey_inj hcf (Set.mem_insert _ _)
              (Set.mem_insert_of_mem _ ⟨id, ht⟩) (hk.trans hkey)
            exact absurd ⟨id, this ▸ ht⟩ hmem
          · obtain ⟨rfl, -⟩ := Prod.ext_iff.mp (mem_singleton.mp ht)
            rfl
      · rw [h.dict]
        constructor
        · rintro ⟨t, ht, hkey⟩
          exact ⟨t, mem_append_left _ ht, hkey⟩
        · rintro ⟨t, ht, hkey⟩
          rcases mem_append.mp ht with ht | ht
          · exact ⟨t, ht, hkey⟩
          · obtain ⟨-, rfl⟩ := Prod.ext_iff.mp (mem_singleton.mp ht)
            exact absurd hkey.symm hk
    · intro e he
      rcases mem_append.mp he with he | he
      · exact Or.inl he
      · exact Or.inr (by rw [mem_singleton.mp he])

theorem intern_ok (hlen : (utf8 text).length < 2 ^ 64) (hroom : d.nextTerm < usizeMax) :
    ∃ d' id, intern sha256 d text = .ok (d', id) ∧ d'.nextTerm ≤ d.nextTerm + 1 := by
  rw [intern]
  by_cases hmem : text ∈ textsOf entries
  · obtain ⟨i, hmem⟩ := hmem
    rw [dictKey_found h hmem]
    exact ⟨d, i, rfl, Nat.le_succ _⟩
  · have hfit : EntryFits (d.nextTerm, text) := ⟨hroom.trans (by decide), hlen⟩
    obtain ⟨rev', hrev, -⟩ := dictRevAppend_spec h.rev h.lt hfit
    rw [dictKey_free h hcf hmem, ok_bind]
    dsimp only
    rw [failIf_of_not (not_le.mpr hroom), pure_eq_ok, ok_bind, hrev]
    exact ⟨_, _, rfl, le_rfl⟩

end Intern

theorem internAll_spec (hcf : CollisionFree sha256 texts) (ts : List String)
    (hts : ∀ t ∈ ts, t ∈ texts ∧ (utf8 t).length < 2 ^ 64) {d d' : Dict} (h : d.Inv sha256 entries)
    (hsub : textsOf entries ⊆ texts) {ids : List Nat} (hi : internAll sha256 d ts = .ok (d', ids)) :
    ∃ entries', d'.Inv sha256 entries' ∧
      entries <+: entries' ∧ List.Forall₂ (fun t id => (id, t) ∈ entries') ts ids ∧
      textsOf entries' ⊆ texts ∧ ∀ e ∈ entries', e ∈ entries ∨ e.2 ∈ ts := by
  induction ts generalizing d entries ids with
  | nil =>
    obtain ⟨rfl, rfl⟩ : d = d' ∧ [] = ids := by simpa [internAll] using hi
    exact ⟨entries, h, prefix_refl _, .nil, hsub, fun e he => Or.inl he⟩
  | cons t ts ih =>
    obtain ⟨⟨ht, hlen⟩, hts⟩ := forall_mem_cons.mp hts
    rw [internAll] at hi
    obtain ⟨⟨d₁, id⟩, h1, hi⟩ := bind_eq_ok.mp hi
    obtain ⟨⟨d₂, ids'⟩, h2, hi⟩ := bind_eq_ok.mp hi
    obtain ⟨rfl, rfl⟩ : d₂ = d' ∧ id :: ids' = ids := by simpa using hi
    have hcf' : CollisionFree sha256 (insert t (textsOf entries)) :=
      hcf.mono (Set.insert_subset ht hsub)
    obtain ⟨es₁, hinv, hpre, hid, hnew⟩ := intern_spec h hcf' hlen h1
    have hsub₁ : textsOf es₁ ⊆ texts := by
      rintro u ⟨i, hu⟩
      rcases hnew _ hu with hu | rfl
      · exact hsub ⟨i, hu⟩
      · exact ht
    obtain ⟨es₂, hinv₂, hpre₂, hall, hsub₂, hnew₂⟩ := ih hts hinv hsub₁ h2
    refine ⟨es₂, hinv₂, hpre.trans hpre₂, .cons (hpre₂.subset hid) hall, hsub₂, fun e he => ?_⟩
    rcases hnew₂ e he with he | he
    · refine (hnew e he).imp_right fun hte => ?_
      rw [hte]
      exact mem_cons_self
    · exact Or.inr (.tail _ he)

theorem internAll_ok (hcf : CollisionFree sha256 texts) (ts : List String)
    (hts : ∀ t ∈ ts, t ∈ texts ∧ (utf8 t).length < 2 ^ 64)
    (h : d.Inv sha256 entries) (hsub : textsOf entries ⊆ texts)
    (hroom : d.nextTerm + ts.length ≤ usizeMax) :
    ∃ d' ids, internAll sha256 d ts = .ok (d', ids) ∧ d'.nextTerm ≤ d.nextTerm + ts.length := by
  induction ts generalizing d entries with
  | nil => exact ⟨d, [], rfl, le_rfl⟩
  | cons t ts ih =>
    obtain ⟨⟨ht, hlen⟩, hts⟩ := forall_mem_cons.mp hts
    rw [length_cons] at hroom ⊢
    have hcf' := hcf.mono (Set.insert_subset ht hsub)
    obtain ⟨d₁, id, h1, hnext⟩ := intern_ok h hcf' hlen (by omega)
    obtain ⟨es₁, hinv, -, -, hnew⟩ := intern_spec h hcf' hlen h1
    have hsub₁ : textsOf es₁ ⊆ texts := by
      rintro u ⟨i, hu⟩
      rcases hnew _ hu with hu | rfl
      · exact hsub ⟨i, hu⟩
      · exact ht
    obtain ⟨d₂, ids, h2, hnext₂⟩ := ih hts hinv hsub₁ (by omega)
    refine ⟨d₂, id :: ids, ?_, by omega⟩
    rw [internAll, h1, ok_bind]
    dsimp only
    rw [h2]
    rfl

theorem Dict.Inv.text_eq (h : d.Inv sha256 entries)
    {t : String} : d.text id = .ok t ↔ (id, t) ∈ entries := by
  rw [Dict.text, dictRevLookup_eq h.rev, ok_bind, ← findEntry_eq_some h.rev.sorted]
  cases findEntry entries id <;> simp

end
end MemoryGraph
