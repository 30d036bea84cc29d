import MemoryGraph.Store.DictSpec
import MemoryGraph.Store.Entities

/-! The dictionary under any digest: long terms with one digest take numbered keys in the order
they were interned, and every probe compares the stored text. -/

namespace MemoryGraph
open Lib Codec List
variable {text : String} {t u : String} {entries : List (Nat × String)} {d : Dict}

theorem exists_rank {α : Type} {p : α → Bool} {l : List α} {n : Nat} (h : n < l.countP p) :
    ∃ pre x post, l = pre ++ x :: post ∧ p x = true ∧ pre.countP p = n := by
  induction l generalizing n with
  | nil => exact absurd h (Nat.not_lt_zero n)
  | cons a l ih =>
    cases ha : p a with
    | false =>
      rw [countP_cons_of_neg (by simp [ha])] at h
      obtain ⟨pre, x, post, rfl, hx, rfl⟩ := ih h
      exact ⟨a :: pre, x, post, rfl, hx, countP_cons_of_neg (by simp [ha])⟩
    | true =>
      rw [countP_cons_of_pos ha] at h
      cases n with
      | zero => exact ⟨[], a, l, rfl, ha, rfl⟩
      | succ n =>
        obtain ⟨pre, x, post, rfl, hx, rfl⟩ := ih (Nat.lt_of_succ_lt_succ h)
        exact ⟨a :: pre, x, post, rfl, hx, countP_cons_of_pos ha⟩

theorem len_insert_of_none {K V : Type} [LinearOrder K] {t : Table K V} {k : K} (h : t.get k = none)
    (v : V) : (t.insert k v).len = t.len + 1 := by
  have hsum := Table.sum_rows_insert t k v (fun _ => (1 : Int))
  rw [h] at hsum
  simp only [map_const', sum_replicate, Option.elim_none] at hsum
  rw [Table.len, Table.len]
  simp at hsum
  omega

section
variable (sha256 : List UInt8 → List UInt8)

def sharesDigest (text u : String) : Bool := isHashed u && decide
    (sha256 (utf8 u) = sha256 (utf8 text))

def colliding (entries : List (Nat × String)) (text : String) : Nat :=
  entries.countP fun e => sharesDigest sha256 text e.2

def keyAfter (pre : List (Nat × String)) (text : String) : String :=
  if isHashed text then hashedKey sha256 text (colliding sha256 pre text) else text

structure Dict.Probed (d : Dict) (entries : List (Nat × String)) : Prop where
  rev : RevOf d.rev entries
  lt : ∀ e ∈ entries, e.1 < d.nextTerm
  texts : (entries.map Prod.snd).Nodup
  len : d.dict.len = entries.length
  dict : ∀ key id, d.dict.get key = some id ↔
    ∃ pre text post, entries = pre ++ (id, text) :: post ∧ key = keyAfter sha256 pre text

variable {sha256}

theorem probed_empty : Dict.empty.Probed sha256 [] :=
  ⟨revOf_empty, by simp, nodup_nil, rfl, by simp [Dict.empty]⟩

theorem toList_hashedKey (text : String) (n : Nat) : (hashedKey sha256 text n).toList =
    '\x00' :: ((sha256 (utf8 text)).flatMap hexByte ++ if 0 < n then '.' ::
      (toString n).toList else []) := by
  rw [hashedKey, String.toList_append, String.toList_ofList]
  split <;> simp

theorem hashedKey_inj {m n : Nat} (h : hashedKey sha256 t m = hashedKey sha256 u n) :
    sha256 (utf8 t) = sha256 (utf8 u) ∧ m = n := by
  have hdot : ∀ bs : List UInt8, '.' ∉ bs.flatMap hexByte := notMem_hex (by decide)
  have hl := congrArg String.toList h
  rw [toList_hashedKey, toList_hashedKey] at hl
  have hl := (cons.inj hl).2
  by_cases hm : 0 < m <;> by_cases hn : 0 < n
  · rw [if_pos hm, if_pos hn] at hl
    obtain ⟨h1, h2⟩ := append_sep_inj (hdot _) (hdot _) hl
    exact ⟨hexBytes_injective h1, Nat.repr_inj.mp (String.toList_injective h2)⟩
  · rw [if_pos hm, if_neg hn, append_nil] at hl
    exact absurd (hl ▸ mem_append_right _ mem_cons_self) (hdot _)
  · rw [if_neg hm, if_pos hn, append_nil] at hl
    exact absurd (hl.symm ▸ mem_append_right _ mem_cons_self) (hdot _)
  · rw [if_neg hm, if_neg hn, append_nil, append_nil] at hl
    exact ⟨hexBytes_injective hl, by omega⟩

theorem hashedKey_congr (h : sha256 (utf8 t) = sha256 (utf8 u)) (n : Nat) :
    hashedKey sha256 t n = hashedKey sha256 u n := by
  rw [hashedKey, hashedKey, h]

theorem colliding_congr (h : sha256 (utf8 t) = sha256 (utf8 u)) (entries : List (Nat × String)) :
    colliding sha256 entries t = colliding sha256 entries u := by
  simp only [colliding, sharesDigest, h]

theorem colliding_split {text u : String} (h : sharesDigest sha256 text u = true)
    (pre post : List (Nat × String)) (id : Nat) :
    colliding sha256 (pre ++ (id, u) :: post) text =
      colliding sha256 pre text + (colliding sha256 post text + 1) := by
  rw [colliding, countP_append, countP_cons, if_pos h]
  rfl

theorem hashedKey_ne_inline (hu : isHashed u = false) (n : Nat) : hashedKey sha256 t n ≠ u := by
  intro h
  apply head_of_not_isHashed hu
  rw [← h, toList_hashedKey]
  rfl

theorem dictKeyGo_skip {k : Nat} (hk : k ≤ lastProbe)
    (htaken : ∀ n < k, ∃ id u, u ≠ text ∧ d.dict.get (hashedKey sha256 text n) = some id ∧
      dictRevLookup d.rev id = .ok (some u)) (fuel n : Nat) (hn : n ≤ k) :
    dictKeyGo sha256 d text none (fuel + (k - n)) n = dictKeyGo sha256 d text none fuel k := by
  induction hm : k - n generalizing n with
  | zero =>
    obtain rfl : n = k := by omega
    rfl
  | succ m ih =>
    obtain ⟨id, u, hne, hget, hrev⟩ := htaken n (by omega)
    rw [← Nat.add_assoc, dictKeyGo, if_neg (by omega), hget]
    dsimp only
    rw [hrev, ok_bind, pure_eq_ok, ok_bind, if_neg (by simpa using hne)]
    exact ih (n + 1) (by omega) (by omega)

namespace Dict.Probed
variable {d : Dict} {entries : List (Nat × String)} (h : d.Probed sha256 entries)
include h

theorem colliding_le (text : String) : colliding sha256 entries text ≤ d.dict.len := by
  rw [h.len]
  exact countP_le_length

theorem rev_eq {id : Nat} (hmem : (id, text) ∈ entries) :
    dictRevLookup d.rev id = .ok (some text) := by
  rw [dictRevLookup_eq h.rev, (findEntry_eq_some h.rev.sorted).mpr hmem]

theorem get_inline (hh : isHashed text = false) (id : Nat) :
    d.dict.get text = some id ↔ (id, text) ∈ entries := by
  rw [h.dict]
  constructor
  · rintro ⟨pre, u, post, rfl, hkey⟩
    rw [keyAfter] at hkey
    split at hkey
    next => exact absurd hkey.symm (hashedKey_ne_inline hh _)
    next =>
      subst hkey
      exact mem_append_right _ mem_cons_self
  · intro hmem
    obtain ⟨pre, post, rfl⟩ := append_of_mem hmem
    exact ⟨pre, text, post, rfl, by rw [keyAfter, hh]; rfl⟩

theorem get_inline_absent (hh : isHashed text = false) (hno : ∀ e ∈ entries, e.2 ≠ text) :
    d.dict.get text = none := by
  rw [Option.eq_none_iff_forall_ne_some]
  intro id hid
  exact hno _ ((h.get_inline hh id).mp hid) rfl

theorem get_free (text : String) :
    d.dict.get (hashedKey sha256 text (colliding sha256 entries text)) = none := by
  rw [Option.eq_none_iff_forall_ne_some]
  intro id hid
  obtain ⟨pre, u, post, rfl, hkey⟩ := (h.dict _ _).mp hid
  rw [keyAfter] at hkey
  split at hkey
  next hu =>
    obtain ⟨hdigest, hn⟩ := hashedKey_inj hkey
    have hshares : sharesDigest sha256 text u = true := by
      rw [sharesDigest, hu, hdigest]
      simp
    rw [colliding_split hshares, ← colliding_congr hdigest pre] at hn
    omega
  next hu => exact hashedKey_ne_inline (Bool.eq_false_of_not_eq_true hu) _ hkey

theorem get_taken {pre rest : List (Nat × String)} (hsplit : entries = pre ++ rest) {n : Nat}
    (hn : n < colliding sha256 pre text) :
    ∃ id u, (id, u) ∈ pre ∧ d.dict.get (hashedKey sha256 text n) = some id ∧
      dictRevLookup d.rev id = .ok (some u) := by
  obtain ⟨a, ⟨id, u⟩, b, rfl, hshares, rfl⟩ := exists_rank hn
  obtain ⟨hu, hdigest⟩ := Bool.and_eq_true_iff.mp hshares
  have hdigest := of_decide_eq_true hdigest
  have hmem : (id, u) ∈ a ++ (id, u) :: b := mem_append_right _ mem_cons_self
  refine ⟨id, u, hmem, ?_, h.rev_eq (hsplit ▸ mem_append_left _ hmem)⟩
  rw [h.dict]
  refine ⟨a, u, b ++ rest, by rw [hsplit, append_assoc, cons_append], ?_⟩
  rw [keyAfter, if_pos hu, hashedKey_congr hdigest, colliding_congr hdigest]
  rfl

theorem dictKey_absent (hno : ∀ e ∈ entries, e.2 ≠ text)
    (hlim : isHashed text = true → colliding sha256 entries text < lastProbe) :
    dictKey sha256 d text none = .ok (keyAfter sha256 entries text, none) := by
  rw [dictKey, keyAfter]
  split
  next hh =>
    have hle := h.colliding_le text
    have hfuel : d.dict.len + 1 = (d.dict.len - colliding sha256 entries text + 1) +
        (colliding sha256 entries text - 0) := by
      omega
    rw [hfuel, dictKeyGo_skip (hlim hh).le ?_ _ 0 (Nat.zero_le _), dictKeyGo,
      if_neg (Nat.not_le.mpr (hlim hh)), h.get_free text]
    · rfl
    · intro n hn
      obtain ⟨id, u, hmem, hget, hrev⟩ := h.get_taken (append_nil entries).symm hn
      exact ⟨id, u, hno _ hmem, hget, hrev⟩
  next hh =>
    rw [h.get_inline_absent (Bool.eq_false_of_not_eq_true hh) hno]
    rfl

theorem dictKey_present {id : Nat} (hmem : (id, text) ∈ entries)
    (hlim : isHashed text = true → colliding sha256 entries text ≤ lastProbe) :
    ∃ key, dictKey sha256 d text none = .ok (key, some id) := by
  rw [dictKey]
  split
  next hh =>
    obtain ⟨pre, post, hsplit⟩ := append_of_mem hmem
    have hshares : sharesDigest sha256 text text = true := by
      rw [sharesDigest, hh]
      simp
    have hrank : colliding sha256 pre text < colliding sha256 entries text := by
      rw [hsplit, colliding_split hshares]
      omega
    have hlast := hrank.trans_le (hlim hh)
    have hle := h.colliding_le text
    have hfuel : d.dict.len + 1 = (d.dict.len - colliding sha256 pre text + 1) +
        (colliding sha256 pre text - 0) := by
      omega
    have hget : d.dict.get (hashedKey sha256 text (colliding sha256 pre text)) = some id := by
      rw [h.dict]
      exact ⟨pre, text, post, hsplit, by rw [keyAfter, if_pos hh]⟩
    refine ⟨hashedKey sha256 text (colliding sha256 pre text), ?_⟩
    rw [hfuel, dictKeyGo_skip hlast.le ?_ _ 0 (Nat.zero_le _), dictKeyGo,
      if_neg (Nat.not_le.mpr hlast), hget]
    · dsimp only
      rw [h.rev_eq hmem, ok_bind, pure_eq_ok, ok_bind, if_pos (decide_eq_true rfl)]
      rfl
    · intro n hn
      obtain ⟨i, u, hu, hget, hrev⟩ := h.get_taken hsplit hn
      refine ⟨i, u, ?_, hget, hrev⟩
      -- the texts are distinct, and `text` comes after `pre`
      rintro rfl
      have hnd := h.texts
      rw [hsplit, map_append, map_cons] at hnd
      exact (nodup_append.mp hnd).2.2 _ (mem_map_of_mem hu) _ mem_cons_self rfl
  next hh =>
    rw [(h.get_inline (Bool.eq_false_of_not_eq_true hh) id).mpr hmem]
    exact ⟨text, rfl⟩

theorem append {rev : Table Nat (List UInt8)}
    (hrev : RevOf rev (entries ++ [(d.nextTerm, text)])) (hno : ∀ e ∈ entries, e.2 ≠ text) :
    (Dict.mk (d.dict.insert (keyAfter sha256 entries text) d.nextTerm) rev (d.nextTerm + 1)).Probed
      sha256 (entries ++ [(d.nextTerm, text)]) := by
  have hfree : d.dict.get (keyAfter sha256 entries text) = none := by
    rw [keyAfter]
    split
    next => exact h.get_free text
    next hh => exact h.get_inline_absent (Bool.eq_false_of_not_eq_true hh) hno
  obtain ⟨hlt, hnd⟩ := append_entry h.lt h.texts hno
  refine ⟨hrev, hlt, hnd, ?_, ?_⟩
  · show (d.dict.insert (keyAfter sha256 entries text) d.nextTerm).len = _
    rw [len_insert_of_none hfree, h.len, length_append, length_singleton]
  · intro key id
    show (d.dict.insert (keyAfter sha256 entries text) d.nextTerm).get key = some id ↔ _
    rw [Table.get_insert]
    constructor
    · intro hget
      split at hget
      next hk =>
        cases hget
        exact ⟨entries, text, [], rfl, hk.symm⟩
      next =>
        obtain ⟨pre, u, post, hsplit, hkey⟩ := (h.dict key id).mp hget
        exact ⟨pre, u, post ++
          [(d.nextTerm, text)], by rw [hsplit, append_assoc, cons_append], hkey⟩
    · rintro ⟨pre, u, post, hsplit, hkey⟩
      rcases eq_nil_or_concat post with rfl | ⟨post, last, rfl⟩
      · obtain ⟨rfl, hnew⟩ := append_inj' hsplit rfl
        obtain ⟨rfl, rfl⟩ := Prod.ext_iff.mp (cons.inj hnew).1
        rw [if_pos hkey.symm]
      · rw [concat_eq_append, ← cons_append, ← append_assoc] at hsplit
        obtain ⟨hold, -⟩ := append_inj' hsplit rfl
        have hget : d.dict.get key = some id := (h.dict key id).mpr ⟨pre, u, post, hold, hkey⟩
        rw [if_neg, hget]
        rintro rfl
        exact absurd (hfree.symm.trans hget) nofun

theorem intern (hlen : (utf8 text).length < 2 ^ 64) (hroom : d.nextTerm < usizeMax)
    (hlim : isHashed text = true → colliding sha256 entries text ≤ lastProbe ∧
      ((∀ e ∈ entries, e.2 ≠ text) → colliding sha256 entries text < lastProbe)) :
    ∃ d' id entries', intern sha256 d text = .ok (d', id) ∧ d'.Probed sha256 entries' ∧
      entries <+: entries' ∧ (id, text) ∈ entries' ∧ (∀ e ∈ entries', e ∈ entries ∨ e.2 = text) ∧
      d'.nextTerm ≤ d.nextTerm + 1 := by
  rw [MemoryGraph.intern]
  by_cases hmem : ∃ id, (id, text) ∈ entries
  · obtain ⟨id, hmem⟩ := hmem
    obtain ⟨key, hkey⟩ := h.dictKey_present hmem fun hh => (hlim hh).1
    rw [hkey]
    exact ⟨d, id, entries, rfl, h, prefix_refl _, hmem, fun e he => .inl he, Nat.le_succ _⟩
  · have hno : ∀ e ∈ entries, e.2 ≠ text := by
      rintro ⟨id, t⟩ he rfl
      exact hmem ⟨id, he⟩
    obtain ⟨rev, hrev, hrev'⟩ := dictRevAppend_spec h.rev h.lt ⟨hroom.trans (by decide), hlen⟩
    rw [h.dictKey_absent hno fun hh => (hlim hh).2 hno, ok_bind]
    dsimp only
    rw [failIf_of_not (not_le.mpr hroom), pure_eq_ok, ok_bind, hrev]
    refine ⟨_, _, entries ++ [(d.nextTerm, text)], rfl, h.append hrev' hno, prefix_append _ _,
      mem_append_right _ (mem_singleton_self _), ?_, le_rfl⟩
    intro e he
    rcases mem_append.mp he with he | he
    · exact .inl he
    · exact .inr (by rw [mem_singleton.mp he])

end Dict.Probed

theorem lookupGo_eq (d : Dict) (text : String) (fuel n : Nat) :
    d.lookupGo sha256 text fuel n = (dictKeyGo sha256 d text none fuel n).map Prod.snd := by
  induction fuel generalizing n with
  | zero => rfl
  | succ fuel ih =>
    rw [Dict.lookupGo, dictKeyGo]
    split
    next => rfl
    next =>
      split
      next => rfl
      next id _ =>
        cases dictRevLookup d.rev id with
        | error e => rfl
        | ok t =>
          rw [ok_bind]
          dsimp only
          rw [ok_bind, pure_bind]
          by_cases ht : t = some text
          · rw [if_pos ht, if_pos (decide_eq_true ht)]
            rfl
          · rw [if_neg ht, if_neg (by simpa using ht), ih]

theorem lookup_eq (d : Dict) (text : String) :
    d.lookup sha256 text = (dictKey sha256 d text none).map Prod.snd := by
  rw [Dict.lookup, dictKey]
  split
  next => exact lookupGo_eq d text _ 0
  next => rfl

theorem lookup_present (h : d.Probed sha256 entries) {id : Nat}
    (hmem : (id, text) ∈ entries)
    (hlim : isHashed text = true → colliding sha256 entries text ≤ lastProbe) :
    d.lookup sha256 text = .ok (some id) := by
  obtain ⟨key, hkey⟩ := h.dictKey_present hmem hlim
  rw [lookup_eq, hkey]
  rfl

theorem lookup_absent (h : d.Probed sha256 entries)
    (hno : ∀ e ∈ entries, e.2 ≠ text)
    (hlim : isHashed text = true → colliding sha256 entries text < lastProbe) :
    d.lookup sha256 text = .ok none := by
  rw [lookup_eq, h.dictKey_absent hno hlim]
  rfl

variable (sha256) in
def sharing (ts : List String) (text : String) : Nat := ts.dedup.countP (sharesDigest sha256 text)

theorem colliding_le_sharing (h : d.Probed sha256 entries) {ts : List String}
    (hsub : ∀ e ∈ entries, e.2 ∈ ts) (text : String) :
      colliding sha256 entries text ≤ sharing sha256 ts text ∧
      (isHashed text = true → text ∈ ts → (∀ e ∈ entries, e.2 ≠ text) →
        colliding sha256 entries text < sharing sha256 ts text) := by
  have hcount : colliding sha256 entries text = (entries.map Prod.snd).countP
      (sharesDigest sha256 text) := by
    rw [countP_map]
    rfl
  have hmem : ∀ u ∈ entries.map Prod.snd, u ∈ ts.dedup := by
    intro u hu
    obtain ⟨e, he, rfl⟩ := mem_map.mp hu
    exact mem_dedup.mpr (hsub e he)
  constructor
  · rw [hcount]
    exact (subperm_of_subset h.texts hmem).countP_le _
  · intro hh htext hno
    have hnew : text ∉ entries.map Prod.snd := by
      intro hm
      obtain ⟨e, he, heq⟩ := mem_map.mp hm
      exact hno e he heq
    have hshares : sharesDigest sha256 text text = true := by
      rw [sharesDigest, hh]
      simp
    have hall : ∀ u ∈ text :: entries.map Prod.snd, u ∈ ts.dedup :=
      forall_mem_cons.mpr ⟨mem_dedup.mpr htext, hmem⟩
    have hle := (subperm_of_subset (nodup_cons.mpr ⟨hnew, h.texts⟩) hall).countP_le
      (sharesDigest sha256 text)
    rw [countP_cons_of_pos hshares, ← hcount] at hle
    exact hle

theorem internAll_probed {all : List String} (hcrowd : ∀ t ∈ all, sharing sha256 all t ≤ lastProbe)
    (ts : List String) (hts : ∀ t ∈ ts, t ∈ all ∧ (utf8 t).length < 2 ^ 64)
    (h : d.Probed sha256 entries) (hsub : ∀ e ∈ entries, e.2 ∈ all)
    (hroom : d.nextTerm + ts.length ≤ usizeMax) :
    ∃ d' ids entries', internAll sha256 d ts = .ok (d', ids) ∧ d'.Probed sha256 entries' ∧
      entries <+: entries' ∧ List.Forall₂ (fun t id => (id, t) ∈ entries') ts ids ∧ ∀ e ∈ entries',
      e ∈ entries ∨ e.2 ∈ ts := by
  induction ts generalizing d entries with
  | nil => exact ⟨d, [], entries, rfl, h, prefix_refl _, .nil, fun e he => .inl he⟩
  | cons t ts ih =>
    obtain ⟨⟨ht, hlen⟩, hts⟩ := forall_mem_cons.mp hts
    rw [length_cons] at hroom
    obtain ⟨hle, hlt⟩ := colliding_le_sharing h hsub t
    obtain ⟨d₁, id, es₁, h1, hp₁, hpre₁, hid, hnew₁, hnext⟩ := h.intern hlen (by omega) fun hh =>
      ⟨hle.trans (hcrowd t ht), fun hno => (hlt hh ht hno).trans_le (hcrowd t ht)⟩
    have hsub₁ : ∀ e ∈ es₁, e.2 ∈ all := by
      intro e he
      rcases hnew₁ e he with he | he
      · exact hsub e he
      · rw [he]
        exact ht
    obtain ⟨d₂, ids, es₂, h2, hp₂, hpre₂, hids, hnew₂⟩ := ih hts hp₁ hsub₁ (by omega)
    refine ⟨d₂, id :: ids, es₂, ?_, hp₂, hpre₁.trans hpre₂, .cons (hpre₂.subset hid) hids, ?_⟩
    · rw [internAll, h1, ok_bind]
      dsimp only
      rw [h2]
      rfl
    · intro e he
      rcases hnew₂ e he with he | he
      · refine (hnew₁ e he).imp_right fun heq => ?_
        rw [heq]
        exact mem_cons_self
      · exact .inr (.tail _ he)

/-- Interning any texts into an empty dictionary numbers the different ones, and both directions
find exactly what was interned, as long as fewer texts share a digest than there are numbers to
probe. -/
theorem internAll_dictionary (sha256 : List UInt8 → List UInt8) (ts : List String)
    (hlen : ∀ t ∈ ts, (utf8 t).length < 2 ^ 64) (hcount : ts.length ≤ usizeMax)
    (hcrowd : ∀ text, sharing sha256 ts text < lastProbe) :
    ∃ d ids, internAll sha256 Dict.empty ts = .ok (d, ids) ∧ ids.length = ts.length ∧
      (∀ (i j : Nat) (t u : String) (a b : Nat), ts[i]? = some t → ts[j]? = some u →
        ids[i]? = some a → ids[j]? = some b → (t = u ↔ a = b)) ∧
      (∀ (i : Nat) (t : String) (id : Nat), ts[i]? = some t → ids[i]? = some id →
        d.lookup sha256 t = .ok (some id) ∧ dictRevLookup d.rev id = .ok (some t)) ∧
      (∀ t, t ∉ ts → d.lookup sha256 t = .ok none) ∧ ∀ id, id ∉ ids →
        dictRevLookup d.rev id = .ok none := by
  obtain ⟨d, ids, entries, hi, h, -, hids, hfrom⟩ := internAll_probed (fun t _ => (hcrowd t).le) ts
    (fun t ht => ⟨ht, hlen t ht⟩) probed_empty (by simp) (by simpa [Dict.empty] using hcount)
  have hsub : ∀ e ∈ entries, e.2 ∈ ts := by
    intro e he
    exact (hfrom e he).resolve_left List.not_mem_nil
  have hlim : ∀ text, colliding sha256 entries text < lastProbe := fun text =>
    (colliding_le_sharing h hsub text).1.trans_lt (hcrowd text)
  have hentry : ∀ (i : Nat) (t : String) (id : Nat), ts[i]? = some t → ids[i]? = some id →
      (id, t) ∈ entries := by
    intro i t id ht hid
    obtain ⟨hi₁, rfl⟩ := List.getElem?_eq_some_iff.mp ht
    obtain ⟨hi₂, rfl⟩ := List.getElem?_eq_some_iff.mp hid
    exact hids.get hi₁ hi₂
  refine ⟨d, ids, hi, hids.length_eq.symm, ?_, ?_, ?_, ?_⟩
  · intro i j t u a b ht hu ha hb
    have hta := hentry i t a ht ha
    have hub := hentry j u b hu hb
    constructor
    · rintro rfl
      exact congrArg Prod.fst (List.inj_on_of_nodup_map h.texts hta hub rfl)
    · rintro rfl
      have heq := (h.rev_eq hta).symm.trans (h.rev_eq hub)
      exact Option.some.inj (Except.ok.inj heq)
  · intro i t id ht hid
    have hmem := hentry i t id ht hid
    exact ⟨lookup_present h hmem fun _ => (hlim t).le, h.rev_eq hmem⟩
  · intro t ht
    refine lookup_absent h ?_ fun _ => hlim t
    intro e he heq
    exact ht (heq ▸ hsub e he)
  · intro id hid
    rw [dictRevLookup_eq h.rev, findEntry_eq_none]
    intro e he heq
    obtain ⟨i, hi₁, ht⟩ := List.getElem_of_mem (hsub e he)
    have hi₂ : i < ids.length := hids.length_eq ▸ hi₁
    have hmem := hids.get hi₁ hi₂
    have hsame : (List.get ids ⟨i, hi₂⟩, List.get ts ⟨i, hi₁⟩) = e :=
      List.inj_on_of_nodup_map h.texts hmem he ht
    apply hid
    rw [← heq, ← hsame]
    exact List.getElem_mem hi₂

def crowdedTexts : List String := ["\x00x", "a", "\x00ab", "\x00x", "\x00y"]

theorem internAll_dictionary_crowded :
    ∃ d ids id, internAll (fun _ => [0xab]) Dict.empty crowdedTexts = .ok (d, ids) ∧
      ids[4]? = some id ∧ d.lookup (fun _ => [0xab]) "\x00y" = .ok (some id) ∧
      dictRevLookup d.rev id = .ok (some "\x00y") ∧
      d.lookup (fun _ => [0xab]) "\x00ab.1" = .ok none := by
  have hcrowd : ∀ text, sharing (fun _ => [0xab]) crowdedTexts text < lastProbe := fun text =>
    List.countP_le_length.trans_lt (by decide)
  obtain ⟨d, ids, hi, hlen, -, hfound, hno, -⟩ :=
    internAll_dictionary (fun _ => [0xab]) crowdedTexts (by decide) (by decide) hcrowd
  have hlt : 4 < ids.length := hlen ▸ (by decide)
  obtain ⟨hlookup, hrev⟩ := hfound 4 "\x00y" ids[4] rfl (List.getElem?_eq_getElem hlt)
  exact ⟨d, ids, ids[4], hi, List.getElem?_eq_getElem hlt, hlookup, hrev, hno _ (by decide)⟩

def nulText (i : Nat) : String := String.ofList ('\x00' :: List.replicate i 'a')

theorem nulText_injective : Function.Injective nulText := by
  intro i j h
  have hl := congrArg (fun s => s.toList.length) h
  simpa [nulText] using hl

theorem isHashed_nulText (i : Nat) : isHashed (nulText i) = true := by
  rw [isHashed, nulText, String.toList_ofList]
  simp

theorem length_utf8_nulText (i : Nat) : (utf8 (nulText i)).length = i + 1 := by
  have ha : 'a'.utf8Size = 1 := by decide
  have hnul : '\x00'.utf8Size = 1 := by decide
  rw [utf8_eq_flatMap, nulText, String.toList_ofList, flatMap_cons, length_append, length_flatMap]
  simp [ha, hnul, Nat.add_comm]

theorem mem_texts_of_forall₂ {ts : List String} {ids : List Nat}
    (h : List.Forall₂ (fun t id => (id, t) ∈ entries) ts ids) :
    ∀ t ∈ ts, t ∈ entries.map Prod.snd := by
  induction h with
  | nil => exact fun t ht => absurd ht not_mem_nil
  | cons hmem _ ih => exact forall_mem_cons.mpr ⟨mem_map_of_mem hmem, ih⟩

theorem lookup_exhausted (h : d.Probed sha256 entries)
    (hh : isHashed text = true) (hno : ∀ e ∈ entries, e.2 ≠ text)
    (hfull : lastProbe ≤ colliding sha256 entries text) : d.lookup sha256 text ≠ .ok none := by
  have hle := h.colliding_le text
  have hfuel : d.dict.len + 1 = (d.dict.len - lastProbe + 1) + (lastProbe - 0) := by omega
  have htaken : ∀ n < lastProbe, ∃ id u, u ≠ text ∧ d.dict.get (hashedKey sha256 text n) = some id ∧
      dictRevLookup d.rev id = .ok (some u) := by
    intro n hn
    obtain ⟨id, u, hmem, hget, hrev⟩ := h.get_taken (append_nil entries).symm (hn.trans_le hfull)
    exact ⟨id, u, hno _ hmem, hget, hrev⟩
  rw [lookup_eq, dictKey, if_pos hh, hfuel, dictKeyGo_skip le_rfl htaken _ 0 (Nat.zero_le _),
    dictKeyGo, if_pos le_rfl]
  intro hok
  cases hok

theorem internAll_dictionary_overflows :
    ∃ (sha256 : List UInt8 → List UInt8) (ts : List String) (d : Dict) (ids : List Nat)
      (text : String), (∀ t ∈ ts, (utf8 t).length < 2 ^ 64) ∧ ts.length ≤ usizeMax ∧
      internAll sha256 Dict.empty ts = .ok (d, ids) ∧ text ∉ ts ∧
      d.lookup sha256 text ≠ .ok none := by
  have hlast : lastProbe < usizeMax := by decide
  have hlen : ((List.range lastProbe).map nulText).length = lastProbe := by
    rw [List.length_map, List.length_range]
  have hfits : ∀ t ∈ (List.range lastProbe).map nulText, (utf8 t).length < 2 ^ 64 := by
    intro t ht
    obtain ⟨i, hi, rfl⟩ := List.mem_map.mp ht
    have := List.mem_range.mp hi
    have : usizeMax < 2 ^ 64 := by decide
    rw [length_utf8_nulText]
    omega
  have hcrowd : ∀ t ∈ (List.range lastProbe).map nulText,
      sharing (fun _ => []) ((List.range lastProbe).map nulText) t ≤ lastProbe := by
    intro t _
    exact (List.countP_le_length.trans (List.dedup_sublist _).length_le).trans_eq hlen
  obtain ⟨d, ids, entries, hi, h, -, hids, hfrom⟩ :=
    internAll_probed hcrowd _ (fun t ht => ⟨ht, hfits t ht⟩) probed_empty (by simp)
      (by rw [hlen]; exact (Nat.zero_add _).trans_le hlast.le)
  have hnew : nulText lastProbe ∉ (List.range lastProbe).map nulText := by
    intro hm
    obtain ⟨i, hi, heq⟩ := List.mem_map.mp hm
    exact absurd (nulText_injective heq) (List.mem_range.mp hi).ne
  refine ⟨fun _ => [], _, d, ids, nulText lastProbe, hfits, hlen.trans_le hlast.le, hi, hnew, ?_⟩
  have hsub : ∀ e ∈ entries, e.2 ∈ (List.range lastProbe).map nulText := fun e he =>
    (hfrom e he).resolve_left List.not_mem_nil
  apply lookup_exhausted h (isHashed_nulText lastProbe)
  · intro e he heq
    exact hnew (heq ▸ hsub e he)
  · have hall : colliding (fun _ => []) entries (nulText lastProbe) = entries.length := by
      apply List.countP_eq_length.mpr
      intro e he
      obtain ⟨i, -, heq⟩ := List.mem_map.mp (hsub e he)
      rw [sharesDigest, ← heq, isHashed_nulText]
      rfl
    have hnd : ((List.range lastProbe).map nulText).Nodup := List.nodup_range.map nulText_injective
    have hle := (List.subperm_of_subset hnd (mem_texts_of_forall₂ hids)).length_le
    rw [hlen, List.length_map] at hle
    rw [hall]
    exact hle

end
end MemoryGraph
