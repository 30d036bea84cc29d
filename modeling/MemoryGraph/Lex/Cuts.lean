import MemoryGraph.Lex.Lengths
import MemoryGraph.Lib.Runs

/-! Every length is a character boundary beyond the start: a token of that length is not empty
and its slices are there. -/

namespace MemoryGraph.Lex
open Lib Utf8 List Option Nat
variable {s : List Char} {c : Char} {n : Nat} {rest : List Char} {bs : List UInt8} {b : List UInt8}

def PosCut (s : List Char) (n : Nat) : Prop := 0 < n ∧ Cut s n

theorem PosCut.full (h : s ≠ []) : PosCut s (byteLen s) := ⟨byteLen_pos h, Cut.full s⟩

theorem PosCut.of_getD {r : Option Nat} (hs : s ≠ []) (h : ∀ n, r = some n → PosCut s n) :
    PosCut s (r.getD (byteLen s)) := by
  cases r with
  | none => exact PosCut.full hs
  | some n => exact h n rfl

theorem PosCut.shift (h : PosCut s n) (pre : List Char) :
    PosCut (pre ++ s) (byteLen pre + n) := ⟨Nat.add_pos_right _ h.1, h.2.shift pre⟩

theorem PosCut.extend (h : PosCut s n) (rest : List Char) : PosCut (s ++ rest) n :=
  ⟨h.1, h.2.extend rest⟩

theorem PosCut.cons (h : Cut s n) (c : Char) : PosCut (c :: s) (c.utf8Size + n) :=
  ⟨Nat.add_pos_left c.utf8Size_pos _, h.cons c⟩

theorem PosCut.char (c : Char) (s : List Char) : PosCut (c :: s) c.utf8Size :=
  PosCut.cons (Cut.zero s) c

theorem startsWith_eq_true {p : String} (h : startsWith s p = true) :
    ∃ t, s = p.toList ++ t := by
  obtain ⟨t, ht⟩ := isPrefixOf_iff_prefix.mp h
  exact ⟨t, ht.symm⟩

theorem scan_cut {σ : Type} {f : σ → Char → List Char → Move σ}
    (hf : ∀ st ch s k, f st ch s = .stop k → Cut (ch :: s) k) {st : σ} {p r : Nat}
    (h : scan f s st p = some r) : ∃ n, r = p + n ∧ Cut s n := by
  induction s generalizing st p with
  | nil => exact nomatch h
  | cons ch s ih =>
    rw [scan] at h
    split at h
    next st' _ =>
      obtain ⟨n, rfl, hn⟩ := ih h
      exact ⟨ch.utf8Size + n, by ring, hn.cons ch⟩
    next k hk =>
      cases h
      exact ⟨k, rfl, hf st ch s k hk⟩
    next => exact nomatch h

theorem cut_char (ch : Char) (s : List Char) : Cut (ch :: s) ch.utf8Size := (PosCut.char ch s).2

theorem cut_one {ch : Char} (h : ch.utf8Size = 1) (s : List Char) : Cut (ch :: s) 1 :=
  h ▸ cut_char ch s

theorem sliceFrom_one {ch : Char} (h : ch.utf8Size = 1) (s : List Char) :
    sliceFrom (ch :: s) 1 = some s := by
  have := sliceFrom_append [ch] s
  rwa [byteLen_cons, byteLen_nil, h] at this

theorem quotedLen_cut (c : Char) (s : List Char) (q : Char) :
    PosCut (c :: s) (quotedLen (c :: s) q) := by
  rw [quotedLen]
  apply PosCut.of_getD (cons_ne_nil c s)
  intro n hn
  obtain ⟨m, rfl, hm⟩ := scan_cut (fun esc ch t k hk => by
    split_ifs at hk
    cases hk
    exact cut_char ch t) hn
  exact PosCut.cons hm c

theorem lineLen_cut (rest : List Char) : Cut rest (lineLen rest) := by
  have hsplit : rest = rest.takeWhile (· ≠ '\n') ++ rest.dropWhile (· ≠ '\n') :=
    (takeWhile_append_dropWhile).symm
  have hcut : Cut (rest.takeWhile (· ≠ '\n')) (lineLen rest) := by
    rw [lineLen]
    split
    next h =>
      obtain ⟨a, ha⟩ := getLast?_eq_some_iff.mp h.1
      refine ⟨a, ['\r'], ha, ?_⟩
      rw [ha, byteLen_append]
      rfl
    next => exact Cut.full _
  have := hcut.extend (rest.dropWhile (· ≠ '\n'))
  rwa [← hsplit] at this

theorem lineLen_pos (s : List Char) (h : c ≠ '\n') : 0 < lineLen (c :: s) := by
  have hpos : 0 < byteLen ((c :: s).takeWhile (· ≠ '\n')) := by
    rw [takeWhile_cons, if_pos (by simpa using h)]
    exact byteLen_pos (cons_ne_nil _ _)
  rw [lineLen]
  split
  next hl =>
    have := hl.2
    omega
  next => exact hpos

theorem singleQuotedLen_cut (s : List Char) (h : c ≠ '\n') :
    ∃ n, singleQuotedLen (c :: s) = some n ∧ PosCut (c :: s) n := by
  obtain ⟨a, b, hab, hlen, hto, -⟩ := sliceTo_of_cut (lineLen_cut (c :: s))
  have hne : a ≠ [] := by
    rintro rfl
    have := lineLen_pos s h
    rw [← hlen] at this
    exact lt_irrefl 0 this
  obtain ⟨d, t, rfl⟩ := exists_cons_of_ne_nil hne
  refine ⟨quotedLen (d :: t) '\'', by rw [singleQuotedLen, hto]; rfl, ?_⟩
  rw [hab]
  exact (quotedLen_cut d t '\'').extend b

theorem nestedGo_cut {o c : Char × Char} (ho : o.1.utf8Size = 1 ∧ o.2.utf8Size = 1)
    (hc : c.1.utf8Size = 1 ∧ c.2.utf8Size = 1) {depth p r : Nat}
    (h : nestedGo o c s depth p = some r) : ∃ n, r = p + n ∧ 0 < n ∧ Cut s n := by
  have htwo : ∀ {x y : Char} {t : List Char} {n : Nat}, x.utf8Size = 1 → y.utf8Size = 1 → Cut t n →
      Cut (x :: y :: t) (2 + n) := by
    intro x y t n hx hy hn
    have := (hn.cons y).cons x
    rwa [hx, hy, ← add_assoc] at this
  induction s, depth, p using nestedGo.induct o c with
  | case1 x y t depth p hxy ih =>
    rw [nestedGo, if_pos hxy] at h
    obtain ⟨n, rfl, hpos, hn⟩ := ih h
    subst hxy
    exact ⟨2 + n, by ring, by omega, htwo ho.1 ho.2 hn⟩
  | case2 x y t p hxo hxy =>
    rw [nestedGo, if_neg hxo, if_pos hxy, if_pos rfl] at h
    cases h
    subst hxy
    exact ⟨2, rfl, by omega, htwo hc.1 hc.2 (Cut.zero t)⟩
  | case3 x y t depth p hxo hxy hd ih =>
    rw [nestedGo, if_neg hxo, if_pos hxy, if_neg hd] at h
    obtain ⟨n, rfl, hpos, hn⟩ := ih h
    subst hxy
    exact ⟨2 + n, by ring, by omega, htwo hc.1 hc.2 hn⟩
  | case4 x y t depth p hxo hxc ih =>
    rw [nestedGo, if_neg hxo, if_neg hxc] at h
    obtain ⟨n, rfl, hpos, hn⟩ := ih h
    exact ⟨x.utf8Size + n, by ring, by omega, hn.cons x⟩
  | case5 s depth p hs =>
    rw [nestedGo] at h
    · exact nomatch h
    · exact hs

theorem nestedLen_cut {o c : Char × Char} (ho : o.1.utf8Size = 1 ∧ o.2.utf8Size = 1)
    (hc : c.1.utf8Size = 1 ∧ c.2.utf8Size = 1) (hs : s ≠ []) : PosCut s (nestedLen s o c) := by
  rw [nestedLen]
  apply PosCut.of_getD hs
  intro n hn
  obtain ⟨m, rfl, hpos, hm⟩ := nestedGo_cut ho hc hn
  rw [zero_add]
  exact ⟨hpos, hm⟩

theorem tripleQuotedLen_cut {raw : Bool} (h : tripleQuotedLen rest raw = some n) :
    PosCut rest n := by
  obtain ⟨q, hq, rfl⟩ := map_eq_some_iff.mp h
  have hthree : byteLen q.toList = 3 ∧ q.toList.length = 3 := by
    have hmem := mem_of_find?_eq_some hq
    simp only [mem_cons, not_mem_nil, or_false] at hmem
    rcases hmem with rfl | rfl
    · exact ⟨rfl, rfl⟩
    · exact ⟨rfl, rfl⟩
  have hstart := find?_some hq
  obtain ⟨t, rfl⟩ := startsWith_eq_true hstart
  have hdrop : (q.toList ++ t).drop 3 = t := by rw [← hthree.2, drop_left]
  have hne : q.toList ++ t ≠ [] := by
    intro hnil
    rw [(append_eq_nil_iff.mp hnil).1] at hthree
    exact nomatch hthree.2
  apply PosCut.of_getD hne
  intro n hn
  rw [hdrop] at hn
  obtain ⟨m, rfl, hm⟩ := scan_cut (fun esc ch u k hk => by
    split_ifs at hk with _ _ hclose
    cases hk
    obtain ⟨v, hv⟩ := startsWith_eq_true hclose
    exact ⟨q.toList, v, hv, hthree.1⟩) hn
  have := hm.shift q.toList
  rw [hthree.1] at this
  exact ⟨by omega, this⟩

theorem PosCut.of_byte {k : Nat} {q : UInt8} (h : (bytes s)[k]? = some q) (hq : q.toNat < 128) :
    PosCut s (k + 1) := ⟨succ_pos k, (cut_of_byte h hq).2⟩

theorem doubledGo_spec {q : UInt8} {p r : Nat} (h : doubledGo q bs p = some r) :
    ∃ k, bs[k]? = some q ∧ r = p + k + 1 := by
  induction bs, p using doubledGo.induct q with
  | case1 bs p ih =>
    rw [doubledGo, if_pos rfl, if_pos rfl] at h
    obtain ⟨k, hk, rfl⟩ := ih h
    exact ⟨k + 2, hk, by ring⟩
  | case2 y bs p hy =>
    rw [doubledGo, if_pos rfl, if_neg hy] at h
    cases h
    exact ⟨0, rfl, rfl⟩
  | case3 x y bs p hx ih =>
    rw [doubledGo, if_neg hx] at h
    obtain ⟨k, hk, rfl⟩ := ih h
    exact ⟨k + 1, hk, by ring⟩
  | case4 p =>
    rw [doubledGo, if_pos rfl] at h
    cases h
    exact ⟨0, rfl, rfl⟩
  | case5 x p hx =>
    rw [doubledGo, if_neg hx] at h
    exact nomatch h
  | case6 p => exact nomatch h

theorem doubledLen_cut (hc : c.utf8Size = 1) (s : List Char) :
    ∃ n, doubledLen (c :: s) = some n ∧ PosCut (c :: s) n := by
  have hbytes := bytes_cons_ascii hc s
  have hq : c.val.toUInt8.toNat < 128 := by
    have hle := Char.utf8Size_eq_one_iff.mp hc
    have hle' : c.val.toNat ≤ 127 := UInt32.le_iff_toNat_le.mp hle
    rw [UInt32.toNat_toUInt8]
    omega
  refine ⟨_, by rw [doubledLen, hbytes], ?_⟩
  apply PosCut.of_getD (cons_ne_nil c s)
  intro n hn
  obtain ⟨k, hk, rfl⟩ := doubledGo_spec hn
  have hbyte : (bytes (c :: s))[1 + k]? = some c.val.toUInt8 := by
    rw [hbytes, add_comm 1 k, getElem?_cons_succ]
    exact hk
  exact PosCut.of_byte hbyte hq

theorem slice_line (hc : c.utf8Size = 1) (hn : c ≠ '\n') (s : List Char) :
    ∃ a b, s = a ++ b ∧ slice (c :: s) 1 (lineLen (c :: s)) = some a := by
  obtain ⟨l, b, hlb, hlen, -, -⟩ := sliceTo_of_cut (lineLen_cut (c :: s))
  have hpos := lineLen_pos s hn
  cases l with
  | nil =>
    rw [← hlen] at hpos
    exact absurd hpos (lt_irrefl 0)
  | cons d a =>
    rw [cons_append, cons.injEq] at hlb
    obtain ⟨rfl, rfl⟩ := hlb
    refine ⟨a, b, rfl, ?_⟩
    have := slice_append [c] a b
    rw [byteLen_cons, byteLen_nil, hc] at this
    rw [← hlen]
    exact this

def Fits (rest : List Char) (r : Checked (Option Nat)) : Prop :=
  ∃ n, r = some n ∧ ∀ k, n = some k → PosCut rest k

theorem Fits.none (rest : List Char) : Fits rest (some none) := ⟨_, rfl, nofun⟩

theorem Fits.some {k : Nat} (h : PosCut rest k) : Fits rest (some (some k)) :=
  ⟨_, rfl, fun _ hk => some.inj hk ▸ h⟩

theorem sqlBracketLen_fits (u : Unicode) (s : List Char) :
    Fits ('[' :: s) (sqlBracketLen u ('[' :: s)) := by
  have hone : sliceFrom ('[' :: s) 1 = some s := sliceFrom_one rfl s
  obtain ⟨a, b, rfl, hline⟩ := slice_line (c := '[') rfl (by decide) s
  rw [sqlBracketLen, hone, bind_eq_bind, bind_some]
  split
  next => exact Fits.none _
  next first _ =>
    split
    next => exact Fits.none _
    rw [hline, bind_some]
    split
    next => exact Fits.none _
    next close hclose =>
      obtain ⟨x, c, y, rfl, rfl, hc, -⟩ := findChar_eq_some hclose
      obtain rfl : c = ']' := by simpa using hc
      rw [sliceTo_append]
      show Fits _ (some (if x.contains '[' then none else some (byteLen x + 2)))
      split
      next => exact Fits.none _
      next =>
        apply Fits.some
        refine ⟨by omega, '[' :: x ++ [']'], y ++ b, by simp, ?_⟩
        rw [byteLen_append, byteLen_cons]
        show 1 + byteLen x + 1 = byteLen x + 2
        ring

theorem utf8Size_of_isDigit (h : c.isDigit = true) : c.utf8Size = 1 := by
  rw [Char.isDigit, Bool.and_eq_true] at h
  have hle : c.val ≤ '9'.val := of_decide_eq_true h.2
  exact Char.utf8Size_eq_one_iff.mpr (UInt32.le_trans hle (by decide))

theorem utf8Size_of_oneOf {p : String} (h : oneOf p c = true)
    (hp : p.toList.all (fun x => x.utf8Size == 1) = true) : c.utf8Size = 1 := by
  have := all_eq_true.mp hp c (by simpa [oneOf] using h)
  simpa using this

theorem shellVarLen_fits (s : List Char) : Fits ('$' :: s) (shellVarLen ('$' :: s)) := by
  have hone : sliceFrom ('$' :: s) 1 = some s := sliceFrom_one rfl s
  rw [shellVarLen, hone, bind_eq_bind, bind_some]
  split
  next => exact Fits.none _
  next =>
    refine ⟨_, rfl, fun k hk => ?_⟩
    obtain ⟨m, rfl, hm⟩ := scan_cut (fun depth ch t k hk => by
      split_ifs at hk with _ _ hclose
      cases hk
      exact cut_one (by rw [hclose]; rfl) t) hk
    exact PosCut.cons hm '$'
  next c _ hc =>
    split
    next =>
      apply Fits.some
      have hcut := cut_findChar (fun ch => !(ch.isAlphanum || ch == '_')) s
      have hlen : byteLen ('$' :: s) - 1 = byteLen s := by
        rw [byteLen_cons]
        show 1 + byteLen s - 1 = byteLen s
        omega
      rw [hlen]
      exact PosCut.cons hcut '$'
    split
    next hspecial =>
      -- a one-byte name
      apply Fits.some
      obtain ⟨t, rfl⟩ : ∃ t, s = c :: t := by
        cases s with
        | nil => cases hc
        | cons d t => exact ⟨t, by rw [some.inj hc]⟩
      have hsize : c.utf8Size = 1 := by
        rw [Bool.or_eq_true] at hspecial
        rcases hspecial with hd | hm
        · exact utf8Size_of_isDigit hd
        · exact utf8Size_of_oneOf hm (by decide)
      have := PosCut.cons (cut_one hsize t) '$'
      exact this
    next => exact Fits.none _

theorem heredocWord_cut (word : List Char) (p : Nat) (strip : Bool) :
    ∃ r, heredocWord word p strip = some r ∧ ∀ m, r = some m → ∃ n, m.1 = p + n ∧ Cut word n := by
  rw [heredocWord]
  cases word with
  | nil => exact ⟨none, rfl, by simp⟩
  | cons q w =>
    show ∃ r, (if q == '\'' || q == '"' then _ else _) = some r ∧ _
    split
    next hq =>
      have hone : q.utf8Size = 1 ∧ q ≠ '\n' := by
        simp only [Bool.or_eq_true, beq_iff_eq] at hq
        rcases hq with rfl | rfl
        · exact ⟨rfl, by decide⟩
        · exact ⟨rfl, by decide⟩
      obtain ⟨a, b, rfl, hline⟩ := slice_line hone.1 hone.2 w
      rw [hline, bind_eq_bind, bind_some]
      split
      next => exact ⟨none, rfl, by simp⟩
      next close hclose =>
        obtain ⟨x, d, y, rfl, rfl, hd, -⟩ := findChar_eq_some hclose
        obtain rfl : d = q := by simpa using hd
        have hdelim : slice (d :: (x ++ d :: y ++ b)) 1 (1 + byteLen x) = some x := by
          have := slice_append [d] x (d :: y ++ b)
          rw [byteLen_append, byteLen_cons, byteLen_nil, hone.1] at this
          rw [append_assoc]
          exact this
        rw [hdelim]
        refine ⟨_, rfl, fun m hm => ?_⟩
        split_ifs at hm
        cases hm
        refine ⟨byteLen x + 2, by ring, d :: x ++ [d], y ++ b, by simp, ?_⟩
        rw [byteLen_append, byteLen_cons, byteLen_cons, hone.1, byteLen_nil]
        ring
    next =>
      have hskip : ∃ pre t, q :: w = pre ++ t ∧ byteLen pre = (if q == '\\' then 1 else 0) ∧
          sliceFrom (q :: w) (if q == '\\' then 1 else 0) = some t := by
        split
        next hb =>
          obtain rfl : q = '\\' := by simpa using hb
          exact ⟨['\\'], w, rfl, rfl, sliceFrom_one rfl w⟩
        next => exact ⟨[], q :: w, rfl, rfl, sliceFrom.eq_1 _⟩
      obtain ⟨pre, t, hpre, hlen, hslice⟩ := hskip
      dsimp only
      rw [hslice]
      show ∃ r, (if !t.head?.any (fun c => c.isAlpha || c == '_') then _ else _) = some r ∧ _
      split
      · exact ⟨none, rfl, by simp⟩
      refine ⟨_, rfl, fun m hm => ?_⟩
      cases hm
      refine ⟨byteLen pre + byteLen (t.takeWhile fun c => c.isAlphanum || c == '_'), ?_, ?_⟩
      · rw [hlen]
        exact add_assoc _ _ _
      · rw [hpre]
        exact Cut.shift ⟨_, _, (takeWhile_append_dropWhile).symm, rfl⟩ pre

theorem heredocMarker_cut (rest : List Char) :
    ∃ r, heredocMarker rest = some r ∧ ∀ m, r = some m → PosCut rest m.1 := by
  rw [heredocMarker]
  split
  · exact ⟨none, rfl, nofun⟩
  next hstart =>
  simp only [Bool.or_eq_true, Bool.not_eq_true', not_or, Bool.not_eq_false] at hstart
  obtain ⟨t, ht⟩ := startsWith_eq_true hstart.1
  have hafter : ∃ pre a, rest = pre ++ a ∧
      byteLen pre = (if startsWith (rest.drop 2) "-" then 3 else 2) := by
    have hdrop : rest.drop 2 = t := by rw [ht]; rfl
    rw [hdrop]
    split
    next hdash =>
      obtain ⟨a, rfl⟩ := startsWith_eq_true hdash
      exact ⟨['<', '<', '-'], a, ht, rfl⟩
    next => exact ⟨['<', '<'], t, ht, rfl⟩
  obtain ⟨pre, a, rfl, hpre⟩ := hafter
  have hpos : 0 < byteLen pre := by
    rw [hpre]
    split <;> omega
  obtain ⟨x, word, rfl, hx⟩ := cut_findChar (fun c => c != ' ' && c != '\t') a
  have hp : byteLen pre + (findChar (fun c => c != ' ' && c != '\t') (x ++ word)).getD
      (byteLen (pre ++ (x ++ word)) - byteLen pre) = byteLen (pre ++ x) := by
    have hsub : byteLen (pre ++ (x ++ word)) - byteLen pre = byteLen (x ++ word) := by
      rw [byteLen_append pre]
      omega
    rw [hsub, byteLen_append pre x, hx]
  have hword : sliceFrom (pre ++ (x ++ word)) (byteLen (pre ++ x)) = some word := by
    rw [← append_assoc]
    exact sliceFrom_append (pre ++ x) word
  obtain ⟨r, hr, hcut⟩ :=
    heredocWord_cut word (byteLen (pre ++ x)) (startsWith ((pre ++ (x ++ word)).drop 2) "-")
  refine ⟨r, ?_, fun m hm => ?_⟩
  · simp only [← hpre, sliceFrom_append, bind_eq_bind, bind_some, hp, hword, hr]
  · obtain ⟨n, hn, hc⟩ := hcut m hm
    rw [hn, ← append_assoc]
    refine ⟨?_, hc.shift (pre ++ x)⟩
    rw [byteLen_append]
    omega

theorem identLen_cut {u : Unicode} (h : (u.isAlphabetic c || c == '_') = true) (s : List Char)
    (markup hyphen prime : Bool) : PosCut (c :: s) (identLen u (c :: s) markup hyphen prime) := by
  have hword : (u.isAlphanumeric c || c == '_' || (prime && c == '\'')) = true := by
    rw [Bool.or_eq_true] at h
    rcases h with h | h
    · simp [Unicode.isAlphanumeric, h]
    · simp [h]
  rw [identLen]
  apply PosCut.of_getD (cons_ne_nil c s)
  intro n hn
  -- the first character belongs to the word
  rw [scan, if_pos hword, zero_add] at hn
  obtain ⟨m, rfl, hm⟩ := scan_cut (fun _ ch t k hk => by
    split_ifs at hk
    cases hk
    exact Cut.zero _) hn
  exact PosCut.cons hm c

theorem attrValueGo_cut {q : Char} (hq : q.utf8Size = 1) {aspx : Bool} {p : Nat} {r : Nat × Bool}
    (h : attrValueGo q aspx s p = some r) : ∃ n, r.1 = p + n ∧ Cut s n := by
  induction s generalizing p with
  | nil => exact nomatch h
  | cons ch s ih =>
    rw [attrValueGo] at h
    split at h
    next hch =>
      cases h
      exact ⟨1, rfl, cut_one (by rw [hch]; exact hq) s⟩
    split at h
    next =>
      cases h
      exact ⟨0, rfl, Cut.zero _⟩
    next =>
      obtain ⟨n, hn, hcut⟩ := ih h
      exact ⟨ch.utf8Size + n, by rw [hn]; ring, hcut.cons ch⟩

theorem attrValueLen_cut {q : Char} (hq : q.utf8Size = 1) (c : Char) (s : List Char) (aspx : Bool) :
    PosCut (c :: s) (attrValueLen (c :: s) q 1 aspx).1 := by
  rw [attrValueLen]
  cases h : attrValueGo q aspx ((c :: s).drop 1) (byteLen ((c :: s).take 1)) with
  | none => exact PosCut.full (cons_ne_nil c s)
  | some r =>
    obtain ⟨n, hn, hcut⟩ := attrValueGo_cut hq h
    show PosCut (c :: s) r.1
    rw [hn]
    exact PosCut.cons hcut c

theorem attrValueLen_resumed {q : Char} (hq : q.utf8Size = 1) {aspx : Bool}
    (hne : (aspx && startsWith (c :: s) "<%") = false) :
    PosCut (c :: s) (attrValueLen (c :: s) q 0 aspx).1 := by
  rw [attrValueLen]
  cases h : attrValueGo q aspx ((c :: s).drop 0) (byteLen ((c :: s).take 0)) with
  | none => exact PosCut.full (cons_ne_nil c s)
  | some r =>
    show PosCut (c :: s) r.1
    rw [drop_zero, attrValueGo] at h
    split at h
    next hch =>
      cases h
      exact ⟨one_pos, cut_one (by rw [hch]; exact hq) s⟩
    rw [hne, if_neg Bool.false_ne_true] at h
    obtain ⟨n, hn, hcut⟩ := attrValueGo_cut hq h
    rw [hn]
    show PosCut (c :: s) (0 + c.utf8Size + n)
    rw [zero_add]
    exact PosCut.cons hcut c

theorem csharpLiteralLen_fits (rest : List Char) : Fits rest (csharpLiteralLen rest) := by
  rw [csharpLiteralLen]
  split
  next => exact Fits.none rest
  next p hp =>
    obtain ⟨t, rfl⟩ := startsWith_eq_true (find?_some hp)
    have hmem := mem_of_find?_eq_some hp
    have hne : p.toList ++ t ≠ [] := by
      simp only [mem_cons, not_mem_nil, or_false] at hmem
      rcases hmem with rfl | rfl | rfl | rfl <;> exact cons_ne_nil _ _
    dsimp only
    split
    next =>
      apply Fits.some
      apply PosCut.of_getD hne
      intro n hn
      obtain ⟨k, hk, rfl⟩ := doubledGo_spec hn
      rw [getElem?_drop] at hk
      exact PosCut.of_byte hk (by decide)
    next hat =>
      obtain rfl : p = "$\"" := by
        simp only [mem_cons, not_mem_nil, or_false] at hmem
        rcases hmem with rfl | rfl | rfl | rfl
        · exact absurd rfl hat
        · exact absurd rfl hat
        · exact absurd rfl hat
        · rfl
      have hone : sliceFrom ("$\"".toList ++ t) ("$\"".toList.length - 1) = some ('"' :: t) :=
        @sliceFrom_one '$' rfl ('"' :: t)
      rw [hone]
      exact Fits.some ((quotedLen_cut '"' t '"').shift ['$'])

theorem pythonPrefixedLen_fits (rest : List Char) (sq : Bool) :
    Fits rest (pythonPrefixedLen rest sq) := by
  have hsplit : rest = rest.takeWhile Char.isAlpha ++ rest.dropWhile Char.isAlpha :=
    (takeWhile_append_dropWhile).symm
  have hshift : ∀ {n : Nat}, PosCut (rest.dropWhile Char.isAlpha) n →
      PosCut rest (byteLen (rest.takeWhile Char.isAlpha) + n) := by
    intro n hn
    have := hn.shift (rest.takeWhile Char.isAlpha)
    rwa [← hsplit] at this
  rw [pythonPrefixedLen]
  split
  next => exact Fits.none rest
  split
  next n hn => exact Fits.some (hshift (tripleQuotedLen_cut hn))
  split
  next hq =>
    obtain ⟨t, ht⟩ := startsWith_eq_true hq
    refine Fits.some (hshift ?_)
    rw [ht]
    exact quotedLen_cut '"' t '"'
  split
  next hq =>
    rw [Bool.and_eq_true] at hq
    obtain ⟨t, ht⟩ := startsWith_eq_true hq.1
    obtain ⟨n, hn, hcut⟩ := singleQuotedLen_cut (c := '\'') t (by decide)
    have hsingle : singleQuotedLen (rest.dropWhile Char.isAlpha) = some n := by rw [ht]; exact hn
    rw [hsingle]
    refine Fits.some (hshift ?_)
    rw [ht]
    exact hcut
  next => exact Fits.none rest

theorem findBytes_spec {needle bs : List UInt8} {k : Nat} (h : findBytes needle bs = some k) :
    ∃ a b, bs = a ++ (needle ++ b) ∧ a.length = k := by
  induction bs generalizing k with
  | nil =>
    rw [findBytes] at h
    split_ifs at h with he
    cases h
    exact ⟨[], [], by simpa using he.symm, rfl⟩
  | cons x bs ih =>
    rw [findBytes] at h
    split at h
    next hp =>
      cases h
      obtain ⟨b, hb⟩ := isPrefixOf_iff_prefix.mp hp
      exact ⟨[], b, hb.symm, rfl⟩
    next =>
      obtain ⟨m, hm, rfl⟩ := map_eq_some_iff.mp h
      obtain ⟨a, b, rfl, rfl⟩ := ih hm
      exact ⟨x :: a, b, rfl, by rw [length_cons]; ring⟩

theorem PosCut.of_needle {a needle b : List UInt8} (h : bytes s = a ++ (needle ++ b))
    (hne : needle ≠ []) (hascii : ∀ y ∈ needle, y.toNat < 128) :
    PosCut s (a.length + needle.length) := by
  obtain ⟨init, y, rfl⟩ : ∃ init y, needle = init ++ [y] :=
    ⟨needle.dropLast, needle.getLast hne, (dropLast_append_getLast hne).symm⟩
  have hbyte : (bytes s)[a.length + init.length]? = some y := by
    rw [h, getElem?_append_right (by omega), Nat.add_sub_cancel_left, append_assoc,
      getElem?_append_right (Nat.le_refl _), Nat.sub_self]
    rfl
  have := PosCut.of_byte hbyte (hascii y (by simp))
  rwa [length_append, length_singleton, ← Nat.add_assoc]

theorem rRawLen_cut (h : rRawLen rest = .ok (some n)) : PosCut rest n := by
  rw [rRawLen.eq_def] at h
  split at h
  next r q bs hbytes =>
    split at h
    next hq =>
      dsimp only at h
      split at h
      · exact nomatch h
      next c hc =>
      split at h
      next p hp =>
        obtain rfl := some.inj (Except.ok.inj h)
        obtain ⟨a, b, hab, rfl⟩ := findBytes_spec hp
        have hclose : c.toUInt8.toNat < 128 := by
          split_ifs at hc <;> obtain rfl := some.inj hc <;> decide
        have hquote : q.toNat < 128 := by
          rcases hq.2 with rfl | rfl <;> decide
        -- the bytes before the terminator: prefix, dashes, bracket and body
        have hdashes : (bs.takeWhile (· = '-'.toUInt8)).length < bs.length := by
          by_contra hge
          rw [getElem?_eq_none (Nat.not_lt.mp hge)] at hc
          exact nomatch hc
        have hall : bytes rest = (r :: q :: bs.take (1 + (bs.takeWhile (· = '-'.toUInt8)).length) ++
            a) ++ ((c.toUInt8 :: replicate (bs.takeWhile (· = '-'.toUInt8)).length '-'.toUInt8 ++
            [q]) ++ b) := by
          rw [hbytes, append_assoc, ← hab]
          simp only [cons_append, take_append_drop]
        have hcut := PosCut.of_needle hall (by simp) (by
          intro y hy
          simp only [cons_append, mem_cons, mem_append, mem_replicate, not_mem_nil,
            or_false] at hy
          rcases hy with rfl | ⟨-, rfl⟩ | rfl
          · exact hclose
          · decide
          · exact hquote)
        have hlen : (r :: q :: bs.take (1 + (bs.takeWhile (· = '-'.toUInt8)).length) ++ a).length =
            3 + (bs.takeWhile (· = '-'.toUInt8)).length + a.length := by
          rw [length_append, length_cons, length_cons, length_take,
            Nat.min_eq_left (by omega)]
          ring
        rwa [hlen] at hcut
      next => exact nomatch h
    next => exact nomatch h
  next => exact nomatch h

theorem shell_ends {fuel : Nat} :
    (∀ p depth subst, After (shellDqEnd fuel b p depth subst) fun r =>
      ∃ k, p ≤ k ∧ b[k]? = some '"'.toUInt8 ∧ r.1 = k + 1) ∧
      ∀ p depth parens, After (shellSubstEnd fuel b p depth parens) (p < ·) := by
  induction fuel with
  | zero =>
    simp only [shellDqEnd, shellSubstEnd]
    exact ⟨fun _ _ _ => .none, fun _ _ _ => .none⟩
  | succ fuel ih =>
    constructor
    · intro p depth subst
      have hgo : ∀ {q st}, p ≤ q → After (shellDqEnd fuel b q depth st) fun r =>
          ∃ k, p ≤ k ∧ b[k]? = some '"'.toUInt8 ∧ r.1 = k + 1 := by
        intro q st hq r hr
        obtain ⟨k, hk, hstop⟩ := ih.1 q depth st r hr
        exact ⟨k, hq.trans hk, hstop⟩
      rw [shellDqEnd]
      cases hx : b[p]? with
      | none => split_ifs <;> exact .none
      | some x =>
        dsimp only
        split_ifs with _ _ hquote
        · exact .none
        · exact hgo (le_add_right p 2)
        · exact .some ⟨p, le_rfl, by rw [hx, hquote], rfl⟩
        · split
          next => exact .none
          next q hq => exact hgo ((le_add_right p 2).trans (ih.2 _ _ _ q hq).le)
        · exact hgo (le_succ p)
    · intro p depth parens
      have hgo : ∀ {q k}, p ≤ q → After (shellSubstEnd fuel b q depth k) (p < ·) :=
        fun hq r hr => hq.trans_lt (ih.2 _ _ _ r hr)
      rw [shellSubstEnd]
      cases b[p]? with
      | none => split_ifs <;> exact .none
      | some x =>
        dsimp only
        split_ifs
        · exact .none
        · exact hgo (le_add_right p 2)
        · exact hgo (le_succ p)
        · exact .some (lt_succ_self p)
        · exact hgo (le_succ p)
        · split
          next => exact .none
          next r _ hr =>
            obtain ⟨k, hk, -, rfl⟩ := ih.1 _ _ _ _ hr
            exact hgo (by omega)
        · split
          next => exact .none
          next => exact hgo (by omega)
        · exact hgo (le_succ p)

theorem shell_fuel :
    (∀ {f p depth subst}, b.length - p < n → n ≤ f →
      shellDqEnd f b p depth subst = shellDqEnd n b p depth subst) ∧
      ∀ {f p depth parens}, b.length - p < n → n ≤ f →
        shellSubstEnd f b p depth parens = shellSubstEnd n b p depth parens := by
  induction n with
  | zero => exact ⟨fun h => absurd h (Nat.not_lt_zero _), fun h => absurd h (Nat.not_lt_zero _)⟩
  | succ n ih =>
    -- wherever either loop goes on, fewer bytes are left
    have hleft : ∀ {p q : Nat} {x : UInt8}, b[p]? = some x → b.length - p < n + 1 → p < q →
        b.length - q < n := by
      intro p q x hx hp hq
      have := (List.getElem?_eq_some_iff.mp hx).1
      omega
    constructor
    · intro f p depth subst hp hf
      obtain ⟨g, rfl⟩ := Nat.exists_eq_add_of_le' (Nat.one_le_of_lt hf)
      have hg : n ≤ g := Nat.le_of_succ_le_succ hf
      rw [shellDqEnd, shellDqEnd]
      cases hx : b[p]? with
      | none => rfl
      | some x =>
        have hdq : ∀ {q st}, p < q → shellDqEnd g b q depth st = shellDqEnd n b q depth st :=
          fun hq => ih.1 (hleft hx hp hq) hg
        dsimp only
        rw [hdq (Nat.lt_add_of_pos_right two_pos), hdq (Nat.lt_succ_self p),
          ih.2 (hleft hx hp (Nat.lt_add_of_pos_right two_pos)) hg]
        cases hq : shellSubstEnd n b (p + 2) (depth + 1) 1 with
        | none => rfl
        | some q =>
          have := shell_ends.2 _ _ _ q hq
          dsimp only
          rw [hdq (by omega)]
    · intro f p depth parens hp hf
      obtain ⟨g, rfl⟩ := Nat.exists_eq_add_of_le' (Nat.one_le_of_lt hf)
      have hg : n ≤ g := Nat.le_of_succ_le_succ hf
      rw [shellSubstEnd, shellSubstEnd]
      cases hx : b[p]? with
      | none => rfl
      | some x =>
        have hsubst : ∀ {q k}, p < q → shellSubstEnd g b q depth k = shellSubstEnd n b q depth k :=
          fun hq => ih.2 (hleft hx hp hq) hg
        dsimp only
        rw [hsubst (Nat.lt_add_of_pos_right two_pos), hsubst (Nat.lt_succ_self p),
          hsubst (Nat.lt_succ_self p), hsubst (Nat.lt_succ_self p),
          ih.1 (hleft hx hp (Nat.lt_succ_self p)) hg]
        have hquoted : ∀ k, shellSubstEnd g b (p + 2 + k) depth parens =
            shellSubstEnd n b (p + 2 + k) depth parens :=
          fun k => hsubst (by omega)
        simp only [hquoted]
        cases hr : shellDqEnd n b (p + 1) (depth + 1) false with
        | none => rfl
        | some r =>
          obtain ⟨k, hk, -, hstop⟩ := shell_ends.1 _ _ _ r hr
          dsimp only
          rw [hsubst (show p < r.1 by omega)]

theorem shellDqEnd_fuel (rest : List Char) {fuel : Nat} (h : byteLen rest < fuel) :
    shellDqEnd fuel (bytes rest) 1 0 false =
      shellDqEnd (byteLen rest + 1) (bytes rest) 1 0 false := by
  apply shell_fuel.1
  · rw [length_bytes]
    omega
  · exact h

theorem shellDqLen_cut (h : shellDqLen rest = .ok (some n)) : PosCut rest n := by
  rw [shellDqLen] at h
  split at h
  · cases h
  next stop subst hend =>
    obtain ⟨k, -, hk, hstop⟩ := shell_ends.1 _ _ _ _ hend
    have hn : (if subst then some stop else none) = some n := Except.ok.inj h
    split_ifs at hn
    obtain rfl := some.inj hn
    rw [show stop = k + 1 from hstop]
    exact PosCut.of_byte hk (by decide)

theorem regexLen_cut (h : regexLen (c :: s) = some n) : PosCut (c :: s) n := by
  rw [regexLen] at h
  split_ifs at h
  obtain ⟨m, rfl, hm⟩ := scan_cut (fun st ch t k hk => by
    split_ifs at hk with _ _ _ _ _ hslash
    cases hk
    have hflags : Cut t (byteLen (t.takeWhile Char.isAlpha)) :=
      ⟨_, _, (takeWhile_append_dropWhile).symm, rfl⟩
    obtain rfl := hslash.1
    exact hflags.cons '/') h
  exact PosCut.cons hm c

theorem aspxLen_cut {r : Nat × TokenClass} (h : aspxLen rest = some r) : PosCut rest r.1 := by
  rw [aspxLen] at h
  split at h
  next hc =>
    cases h
    obtain ⟨t, rfl⟩ := startsWith_eq_true hc
    have hne : "<%--".toList ++ t ≠ [] := cons_ne_nil _ _
    apply PosCut.of_getD hne
    intro n hn
    obtain ⟨k, hk, rfl⟩ := map_eq_some_iff.mp hn
    obtain ⟨a, b, hab, rfl⟩ := findStr_eq_some hk
    have ht : t = a ++ ("--%>".toList ++ b) := hab
    refine ⟨by omega, "<%--".toList ++ a ++ "--%>".toList, b,
      by rw [ht, append_assoc, append_assoc], ?_⟩
    rw [byteLen_append, byteLen_append]
    show 4 + byteLen a + 4 = byteLen a + 8
    ring
  split at h
  next hp =>
    cases h
    obtain ⟨t, rfl⟩ := startsWith_eq_true hp
    exact ⟨by decide, "%>".toList, t, rfl, rfl⟩
  split at h
  next hp =>
    cases h
    obtain ⟨t, rfl⟩ := startsWith_eq_true hp
    show PosCut _ (if ("<%".toList ++ t |>.drop 2).head?.any (oneOf "@=#:$") then 3 else 2)
    split
    next hsign =>
      have hdrop : ("<%".toList ++ t).drop 2 = t := rfl
      rw [hdrop] at hsign
      cases t with
      | nil => exact nomatch hsign
      | cons c t =>
        have hsize : c.utf8Size = 1 := utf8Size_of_oneOf (p := "@=#:$") hsign (by decide)
        have hone : PosCut (c :: t) 1 := ⟨by decide, cut_one hsize t⟩
        exact hone.shift "<%".toList
    next => exact ⟨by decide, "<%".toList, t, rfl, rfl⟩
  next => exact nomatch h

theorem utf8Size_of_byte {b : UInt8} (h : bytes (c :: s) = b :: bs)
    (hb : b.toNat < 128) : c.utf8Size = 1 := by
  by_contra hne
  rw [bytes, flatMap_cons] at h
  cases henc : String.utf8EncodeChar c with
  | nil =>
    have := String.length_utf8EncodeChar c
    rw [henc] at this
    exact absurd this (Nat.ne_of_lt c.utf8Size_pos)
  | cons x xs =>
    rw [henc, cons_append, cons.injEq] at h
    have hge := utf8EncodeChar_ge hne x (by rw [henc]; exact mem_cons_self)
    rw [h.1] at hge
    omega

theorem rawStringLen_cut (hne : rest ≠ []) {p n : Nat}
    (h : rawStringLen (bytes rest) p (byteLen rest) = some n) : PosCut rest n := by
  rw [rawStringLen] at h
  split_ifs at h with hquote
  cases h
  apply PosCut.of_getD hne
  intro n hn
  obtain ⟨k, hk, rfl⟩ := map_eq_some_iff.mp hn
  obtain ⟨a, t, hat, rfl⟩ := findBytes_spec hk
  have hlt := (List.getElem?_eq_some_iff.mp hquote).1
  have hall := (take_append_drop (p + ((bytes rest |>.drop p).takeWhile (· = '#'.toUInt8)).length +
    1) (bytes rest)).symm
  rw [hat, ← append_assoc] at hall
  have hcut := PosCut.of_needle hall (cons_ne_nil _ _) (by
    intro y hy
    rcases mem_cons.mp hy with rfl | hy
    · decide
    · rw [(mem_replicate.mp hy).2]
      decide)
  rwa [length_append, length_take, min_eq_left hlt] at hcut

theorem head_of_byte {b x : UInt8} (h : bytes (c :: s) = b :: bs)
    (hb : b.toNat < 128) (hx : bs.head? = some x) : ∃ d t, s = d :: t := by
  rw [bytes_cons_ascii (utf8Size_of_byte h hb), cons.injEq] at h
  cases s with
  | nil =>
    rw [← h.2] at hx
    exact nomatch hx
  | cons d t => exact ⟨d, t, rfl⟩

theorem prefixedLiteralLen_fits (c : Char) (s : List Char) :
    Fits (c :: s) (prefixedLiteralLen (c :: s)) := by
  rw [prefixedLiteralLen.eq_def]
  split
  next hnil =>
    have := length_bytes (c :: s)
    rw [hnil] at this
    exact absurd this (Nat.ne_of_lt (byteLen_pos (cons_ne_nil c s)))
  next b bs hbytes =>
  dsimp only
  generalize (if b = 'b'.toUInt8 ∨ b = 'c'.toUInt8 then 1 else 0) = p
  split
  next =>
    refine ⟨_, rfl, fun k hk => ?_⟩
    rw [← hbytes] at hk
    exact rawStringLen_cut (cons_ne_nil c s) hk
  split
  next hq =>
    have hb : b.toNat < 128 := by rcases hq.1 with rfl | rfl <;> decide
    have hone : c.utf8Size = 1 := utf8Size_of_byte hbytes hb
    obtain ⟨d, t, rfl⟩ := head_of_byte hbytes hb hq.2
    rw [sliceFrom_one hone]
    apply Fits.some
    have := (quotedLen_cut d t '"').shift [c]
    rwa [byteLen_cons, hone] at this
  split
  next hq =>
    have hb : b.toNat < 128 := by rw [hq.1]; decide
    have hone : c.utf8Size = 1 := utf8Size_of_byte hbytes hb
    obtain ⟨d, t, rfl⟩ := head_of_byte hbytes hb hq.2
    rw [sliceFrom_one hone, map_some]
    split
    next =>
      apply Fits.some
      have := (quotedLen_cut d t '\'').shift [c]
      rwa [byteLen_cons, hone] at this
    next => exact Fits.none _
  next => exact Fits.none _

theorem trimDots_cut (h : PosCut rest n) :
    ∃ m, trimDots rest n = some m ∧ PosCut rest m := by
  induction n with
  | zero => exact absurd h.1 (lt_irrefl 0)
  | succ n ih =>
    rw [trimDots]
    split
    next hlt =>
      obtain ⟨a, b, rfl, hlen, hto, -⟩ := sliceTo_of_cut h.2
      rw [hto, bind_some]
      split
      next hdot =>
        -- the dot is one byte, so the text may be cut before it
        obtain ⟨x, rfl⟩ := getLast?_eq_some_iff.mp hdot
        have hx : byteLen x = n := by
          have hsum : byteLen x + 1 = n + 1 := by
            rw [← hlen, byteLen_append]
            rfl
          omega
        exact ih ⟨by omega, x, ['.'] ++ b, by rw [append_assoc], hx⟩
      next => exact ⟨n + 1, rfl, h⟩
    next => exact ⟨n + 1, rfl, h⟩

theorem numberLen_cut {u : Unicode} (hc : c.isDigit = true) (s : List Char) :
    ∃ n, numberLen u (c :: s) = some n ∧ PosCut (c :: s) n := by
  apply trimDots_cut
  have hnot : (!(u.isAlphanumeric c || c == '_' || c == '.')) = false := by
    simp [Unicode.isAlphanumeric, Unicode.isNumeric, hc]
  apply PosCut.of_getD (cons_ne_nil c s)
  intro n hn
  rw [findChar, if_neg (by simp [hnot])] at hn
  obtain ⟨m, hm, rfl⟩ := map_eq_some_iff.mp hn
  obtain ⟨a, d, b, rfl, rfl, -, -⟩ := findChar_eq_some hm
  exact PosCut.cons ⟨a, d :: b, rfl, rfl⟩ c

end MemoryGraph.Lex
