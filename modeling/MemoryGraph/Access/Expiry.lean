import MemoryGraph.Lib.Civil
import MemoryGraph.Lib.Decimal
import MemoryGraph.Lib.Utf8

/-! The expiry of a token: the RFC 3339 date-times of the token file and the instants they name.
An instant is a number of nanoseconds since the Unix epoch. -/

namespace MemoryGraph.Access
open Lib Lib.Civil List Option
variable {s : List Char} {cs : List Char}

def num (s : List Char) (lo hi : Nat) : Option Int :=
  let t := (s.drop lo).take (hi - lo)
  if t.all Char.isDigit then Decimal.signed t else none

def parseFraction : List Char → Option (Nat × List Char)
  | '.' :: cs =>
    let digits := cs.takeWhile Char.isDigit
    if digits = [] then none
    else
      let frac := digits.take 9
      (Decimal.unsigned (2 ^ 32 - 1) frac).map fun n =>
        (n * 10 ^ (9 - frac.length), cs.drop digits.length)
  | cs => some (0, cs)

/-- The offset, in seconds. Its two numbers are read by a parser of signed integers. -/
def parseOffset (o : List Char) : Option Int :=
  if o = ['Z'] ∨ o = ['z'] then some 0
  else match o with
    | [sign, h1, h2, colon, m1, m2] =>
      if (sign = '+' ∨ sign = '-') ∧ colon = ':' then
        (Decimal.signed [h1, h2]).bind fun oh => (Decimal.signed [m1, m2]).bind fun om =>
          if 23 < oh ∨ 59 < om then none
          else
            let v := oh * 3600 + om * 60
            some (if sign = '-' then -v else v)
      else none
    | _ => none

def expiryDays (y mo d : Int) : Int :=
  let yy := if mo ≤ 2 then y - 1 else y
  let era := yy / 400
  let yoe := yy - era * 400
  let mp := (mo + 9) % 12
  let doy := (153 * mp + 2) / 5 + d - 1
  let doe := yoe * 365 + yoe / 4 - yoe / 100 + doy
  era * 146097 + doe - 719468

def systemTime (secs : Int) (nanos : Nat) : Option Int :=
  if -2 ^ 63 ≤ secs ∧ secs < 2 ^ 63 then some (secs * 1000000000 + nanos) else none

def parseRfc3339 (text : String) : Option Int :=
  let s := text.toList
  if Utf8.byteLen s < 20 ∨ ¬s.all (fun c => c.utf8Size = 1) then none
  else if s[4]? ≠ some '-' ∨ s[7]? ≠ some '-' ∨
    ¬(s[10]? = some 'T' ∨ s[10]? = some 't' ∨ s[10]? = some ' ') then none
  else if s[13]? ≠ some ':' ∨ s[16]? ≠ some ':' then none
  else match num s 0 4, num s 5 7, num s 8 10, num s 11 13, num s 14 16, num s 17 19 with
    | some y, some mo, some d, some h, some mi, some sec =>
      if ¬(1 ≤ mo ∧ mo ≤ 12) ∨ ¬(1 ≤ d ∧ d ≤ 31) ∨ 23 < h ∨ 59 < mi ∨ 60 < sec then none
      else (parseFraction (s.drop 19)).bind fun (nanos, rest) =>
        (parseOffset rest).bind fun offset =>
        systemTime (expiryDays y mo d * 86400 + h * 3600 + mi * 60 + sec - offset) nanos
    | _, _, _, _, _, _ => none

/-! Date-times as they may be written, and those of RFC 3339 among them: the day exists, and the
numbers of the offset have no sign. -/

inductive Part where
  | plain (n : Nat) (lt : n < 100)
  | signed (minus : Bool) (digit : Nat) (lt : digit < 10)

def Part.text : Part → List Char
  | plain n _ => Decimal.padded 2 n
  | signed minus digit _ => (if minus then '-' else '+') :: Decimal.padded 1 digit

def Part.value : Part → Int
  | plain n _ => n
  | signed minus digit _ => if minus then -digit else digit

def Part.Unsigned : Part → Prop
  | plain _ _ => True
  | signed _ _ _ => False

inductive Zone where
  | utc (letter : Char) (eq : letter = 'Z' ∨ letter = 'z')
  | offset (west : Bool) (hour minute : Part) (hour_le : hour.value ≤ 23)
    (minute_le : minute.value ≤ 59)

def Zone.text : Zone → List Char
  | utc letter _ => [letter]
  | offset west hour minute _ _ => (if west then '-' else '+') :: (hour.text ++ ':' :: minute.text)

def Zone.seconds : Zone → Int
  | utc _ _ => 0
  | offset west hour minute _ _ =>
    (if west then -1 else 1) * (hour.value * 3600 + minute.value * 60)

def Zone.Unsigned : Zone → Prop
  | utc _ _ => True
  | offset _ hour minute _ _ => hour.Unsigned ∧ minute.Unsigned

structure Fraction where
  width : Nat
  value : Nat
  pos : 0 < width
  lt : value < 10 ^ width

def fractionText : Option Fraction → List Char
  | none => []
  | some f => '.' :: Decimal.padded f.width f.value

def fractionNanos : Option Fraction → Nat
  | none => 0
  | some f => f.value * 1000000000 / 10 ^ f.width

structure Stamp where
  year : Nat
  month : Nat
  day : Nat
  separator : Char
  hour : Nat
  minute : Nat
  second : Nat
  fraction : Option Fraction
  zone : Zone
  year_lt : year < 10000
  month_mem : 1 ≤ month ∧ month ≤ 12
  day_mem : 1 ≤ day ∧ day ≤ 31
  separator_eq : separator = 'T' ∨ separator = 't' ∨ separator = ' '
  hour_le : hour ≤ 23
  minute_le : minute ≤ 59
  second_le : second ≤ 60

def Stamp.text (t : Stamp) : List Char :=
  Decimal.padded 4 t.year ++ '-' :: (Decimal.padded 2 t.month ++ '-' :: (Decimal.padded 2 t.day ++
    t.separator :: (Decimal.padded 2 t.hour ++ ':' :: (Decimal.padded 2 t.minute ++
      ':' :: (Decimal.padded 2 t.second ++ (fractionText t.fraction ++ t.zone.text))))))

def Stamp.date (t : Stamp) : Date := ⟨t.year, t.month, t.day⟩

def Stamp.DayExists (t : Stamp) : Prop := t.day ≤ monthLength t.year t.month

structure DateTime extends Stamp where
  dayExists : toStamp.DayExists
  zoneUnsigned : zone.Unsigned

def DateTime.instant (t : DateTime) : Int :=
  (t.date.number * 86400 + t.hour * 3600 + t.minute * 60 + t.second - t.zone.seconds) * 1000000000 +
    fractionNanos t.fraction

theorem drop_eq_cons_iff {i : Nat} {c : Char} {r : List Char} :
    s.drop i = c :: r ↔ s[i]? = some c ∧ s.drop (i + 1) = r := by
  rw [← head?_drop, ← tail_drop]
  cases s.drop i with
  | nil => simp
  | cons x xs => simp

theorem digits_of_num {lo hi : Nat} {n : Int} (h : num s lo hi = some n) :
    ∃ k : Nat, n = k ∧ k < 10 ^ (hi - lo) ∧
      Decimal.digits ((s.drop lo).take (hi - lo)) = some k := by
  unfold num at h
  dsimp only at h
  split_ifs at h with hall
  rw [Decimal.signed_of_isDigit (all_eq_true.mp hall), map_eq_some_iff] at h
  obtain ⟨k, hk, rfl⟩ := h
  obtain ⟨hk, -⟩ := filter_eq_some_iff.mp hk
  have hlen : ((s.drop lo).take (hi - lo)).length ≤ hi - lo := length_take_le _ _
  exact ⟨k, rfl, Nat.lt_of_lt_of_le (Decimal.eq_padded hk).2
    (Nat.pow_le_pow_right (by decide) hlen), hk⟩

theorem drop_eq_padded_iff {s r : List Char} {lo w k : Nat} (hw : 0 < w) (hk : k < 10 ^ w)
    (hk63 : k < 2 ^ 63) (hr : r ≠ []) :
    s.drop lo = Decimal.padded w k ++ r ↔
      num s lo (lo + w) = some (k : Int) ∧ s.drop (lo + w) = r := by
  have hlen := Decimal.length_padded hw hk
  have hall : (Decimal.padded w k).all Char.isDigit = true := all_eq_true.mpr fun c =>
    Decimal.isDigit_padded
  constructor
  · intro h
    constructor
    · rw [num, h, Nat.add_sub_cancel_left, take_left' hlen]
      exact (if_pos hall).trans (Decimal.signed_padded hk63)
    · rw [← drop_drop, h, drop_left' hlen]
  · rintro ⟨hnum, hrest⟩
    obtain ⟨k', hkk, -, hdigits⟩ := digits_of_num hnum
    obtain rfl : k = k' := Int.ofNat.inj hkk
    rw [Nat.add_sub_cancel_left] at hdigits
    -- something is left after the field, so that it is all there
    have hlong : lo + w < s.length := by
      by_contra hshort
      exact hr (hrest ▸ drop_eq_nil_of_le (by omega))
    have htake : ((s.drop lo).take w).length = w := by
      rw [length_take, length_drop]
      omega
    have hpadded := (Decimal.eq_padded hdigits).1
    rw [htake] at hpadded
    rw [← hpadded, ← hrest, ← drop_drop, take_append_drop]

structure Stamp.Fields (t : Stamp) (s : List Char) : Prop where
  year : num s 0 4 = some (t.year : Int)
  month : num s 5 7 = some (t.month : Int)
  day : num s 8 10 = some (t.day : Int)
  hour : num s 11 13 = some (t.hour : Int)
  minute : num s 14 16 = some (t.minute : Int)
  second : num s 17 19 = some (t.second : Int)
  marks : s[4]? = some '-' ∧ s[7]? = some '-' ∧ s[10]? = some t.separator ∧ s[13]? = some ':' ∧
    s[16]? = some ':'
  rest : s.drop 19 = fractionText t.fraction ++ t.zone.text

theorem Zone.text_ne_nil (z : Zone) (f : Option Fraction) : fractionText f ++ z.text ≠ [] := by
  rw [ne_eq, append_eq_nil_iff]
  rintro ⟨-, h⟩
  cases z with
  | utc letter _ => exact absurd h nofun
  | offset west hour minute _ _ => exact absurd h nofun

theorem Stamp.eq_text_iff (t : Stamp) : s = t.text ↔ t.Fields s := by
  have htwo : ∀ {lo k : Nat} {r : List Char}, k < 100 → r ≠ [] →
      (s.drop lo = Decimal.padded 2 k ++ r ↔
        num s lo (lo + 2) = some (k : Int) ∧ s.drop (lo + 2) = r) :=
    fun hk hr => drop_eq_padded_iff (by decide) hk (by omega) hr
  obtain ⟨_, hmonth⟩ := t.month_mem
  obtain ⟨_, hday⟩ := t.day_mem
  have hyear := t.year_lt
  have hhour := t.hour_le
  have hminute := t.minute_le
  have hsecond := t.second_le
  have hzero : s = s.drop 0 := rfl
  conv_lhs => rw [hzero]
  rw [text, drop_eq_padded_iff (by decide) hyear (by omega) (cons_ne_nil _ _), drop_eq_cons_iff,
    htwo (by omega) (cons_ne_nil _ _), drop_eq_cons_iff, htwo (by omega) (cons_ne_nil _ _),
    drop_eq_cons_iff, htwo (by omega) (cons_ne_nil _ _), drop_eq_cons_iff,
    htwo (by omega) (cons_ne_nil _ _), drop_eq_cons_iff,
    htwo (by omega) (t.zone.text_ne_nil t.fraction)]
  constructor
  · rintro ⟨fy, c4, fmo, c7, fd, c10, fh, c13, fmi, c16, fsec, hrest⟩
    exact ⟨fy, fmo, fd, fh, fmi, fsec, ⟨c4, c7, c10, c13, c16⟩, hrest⟩
  · rintro ⟨fy, fmo, fd, fh, fmi, fsec, ⟨c4, c7, c10, c13, c16⟩, hrest⟩
    exact ⟨fy, c4, fmo, c7, fd, c10, fh, c13, fmi, c16, fsec, hrest⟩

def Undotted (r : List Char) : Prop := ∀ c ∈ r.head?, c.isDigit = false ∧ c ≠ '.'

theorem Zone.undotted (z : Zone) : Undotted z.text := by
  intro c hc
  cases z with
  | utc letter h =>
    obtain rfl : letter = c := some.inj hc
    rcases h with rfl | rfl <;> decide
  | offset west hour minute _ _ =>
    obtain rfl : (if west then '-' else '+') = c := some.inj hc
    cases west <;> decide

theorem nanos_eq (h : ∀ c ∈ cs, c.isDigit = true) :
    Nat.ofDigitChars 10 (cs.take 9) 0 * 10 ^ (9 - (cs.take 9).length) =
      Nat.ofDigitChars 10 cs 0 * 1000000000 / 10 ^ cs.length := by
  rw [Decimal.value_take h, length_take]
  by_cases hlen : cs.length ≤ 9
  · obtain ⟨k, hk⟩ := Nat.exists_eq_add_of_le hlen
    have hpow : 1000000000 = 10 ^ k * 10 ^ cs.length := by rw [← Nat.pow_add, Nat.add_comm k, ← hk]
    rw [Nat.sub_eq_zero_of_le hlen, Nat.pow_zero, Nat.div_one, hpow, ← Nat.mul_assoc,
      Nat.mul_div_cancel _ (Nat.pow_pos (by decide))]
    congr 2
    omega
  · have hpow : 10 ^ cs.length = 10 ^ (cs.length - 9) * 1000000000 := by
      rw [show 1000000000 = 10 ^ 9 from rfl, ← Nat.pow_add, Nat.sub_add_cancel (by omega)]
    rw [Nat.min_eq_left (by omega), Nat.sub_self, Nat.pow_zero, Nat.mul_one, hpow,
      Nat.mul_div_mul_right _ _ (by decide)]

theorem unsigned_of_isDigit (hne : cs ≠ []) (h : ∀ c ∈ cs, c.isDigit = true)
    (hlen : cs.length ≤ 9) :
    Decimal.unsigned (2 ^ 32 - 1) cs = some (Nat.ofDigitChars 10 cs 0) := by
  have hlt : Nat.ofDigitChars 10 cs 0 < 10 ^ 9 :=
    Nat.lt_of_lt_of_le (Decimal.value_lt h) (Nat.pow_le_pow_right (by decide) hlen)
  have hfilter : (Decimal.digits cs).filter (· ≤ 2 ^ 32 - 1) = some (Nat.ofDigitChars 10 cs 0) := by
    rw [Decimal.digits_of_isDigit hne h, filter_some_pos]
    simp only [decide_eq_true_eq]
    omega
  unfold Decimal.unsigned
  split
  · exact absurd (h '+' mem_cons_self) (by decide)
  · exact hfilter

theorem parseFraction_point (h : cs.takeWhile Char.isDigit ≠ []) :
    parseFraction ('.' :: cs) =
    some (Nat.ofDigitChars 10 (cs.takeWhile Char.isDigit) 0 * 1000000000 /
      10 ^ (cs.takeWhile Char.isDigit).length, cs.drop (cs.takeWhile Char.isDigit).length) := by
  have hdigit : ∀ c ∈ cs.takeWhile Char.isDigit, c.isDigit = true := fun c => mem_takeWhile_imp
  have hfrac : ∀ c ∈ (cs.takeWhile Char.isDigit).take 9, c.isDigit = true :=
    fun c hc => hdigit c (mem_of_mem_take hc)
  have hne : (cs.takeWhile Char.isDigit).take 9 ≠ [] := by
    rw [ne_eq, take_eq_nil_iff]
    rintro (h9 | hnil)
    · exact absurd h9 (by decide)
    · exact h hnil
  rw [parseFraction]
  dsimp only
  rw [if_neg h, unsigned_of_isDigit hne hfrac (length_take_le _ _), map_some, nanos_eq hdigit]

theorem parseFraction_text (f : Option Fraction) {rest : List Char} (hrest : Undotted rest) :
    parseFraction (fractionText f ++ rest) = some (fractionNanos f, rest) := by
  cases f with
  | none =>
    rw [fractionText, nil_append]
    unfold parseFraction
    split
    · exact absurd rfl (hrest '.' rfl).2
    · rfl
  | some f =>
    have hdigit : ∀ c ∈ Decimal.padded f.width f.value, c.isDigit = true :=
      fun c => Decimal.isDigit_padded
    have hstop : rest.takeWhile Char.isDigit = [] := by
      cases rest with
      | nil => rfl
      | cons c rest => exact takeWhile_cons_of_neg (by rw [(hrest c rfl).1]; decide)
    have htake : (Decimal.padded f.width f.value ++ rest).takeWhile Char.isDigit =
        Decimal.padded f.width f.value := by
      rw [takeWhile_append_of_pos hdigit, hstop, append_nil]
    have hlen := Decimal.length_padded f.pos f.lt
    have hne : Decimal.padded f.width f.value ≠ [] :=
      ne_nil_of_length_pos (by rw [hlen]; exact f.pos)
    rw [fractionText, cons_append, parseFraction_point (by rwa [htake]), htake, drop_left, hlen,
      (Decimal.isDigit_of_digits (Decimal.digits_padded f.width f.value)).2.2]
    rfl

theorem exists_of_parseFraction {s rest : List Char} {n : Nat}
    (h : parseFraction s = some (n, rest)) :
    ∃ f, s = fractionText f ++ rest ∧ n = fractionNanos f := by
  by_cases hdot : ∃ cs, s = '.' :: cs
  · obtain ⟨cs, rfl⟩ := hdot
    by_cases hne : cs.takeWhile Char.isDigit = []
    · rw [parseFraction] at h
      dsimp only at h
      rw [if_pos hne] at h
      exact absurd h nofun
    · rw [parseFraction_point hne, some.injEq, Prod.mk.injEq] at h
      obtain ⟨rfl, rfl⟩ := h
      have hdigit : ∀ c ∈ cs.takeWhile Char.isDigit, c.isDigit = true := fun c => mem_takeWhile_imp
      have hpadded := Decimal.eq_padded (Decimal.digits_of_isDigit hne hdigit)
      refine ⟨some ⟨_, _, length_pos_iff.mpr hne, hpadded.2⟩, ?_, rfl⟩
      rw [fractionText, ← hpadded.1, cons_append]
      exact congrArg _ (prefix_append_drop (List.takeWhile_prefix Char.isDigit))
  · refine ⟨none, ?_⟩
    unfold parseFraction at h
    split at h
    · exact absurd ⟨_, rfl⟩ hdot
    · rw [some.injEq, Prod.mk.injEq] at h
      exact ⟨h.2, h.1.symm⟩

theorem ascii_append {a b : List Char} (ha : Utf8.Ascii a) (hb : Utf8.Ascii b) :
    Utf8.Ascii (a ++ b) :=
  fun c hc => (mem_append.mp hc).elim (ha c) (hb c)

theorem ascii_cons {c : Char} {a : List Char} (hc : c.utf8Size = 1) (ha : Utf8.Ascii a) :
    Utf8.Ascii (c :: a) := forall_mem_cons.mpr ⟨hc, ha⟩

theorem ascii_padded (w n : Nat) : Utf8.Ascii (Decimal.padded w n) :=
  Utf8.ascii_of_isDigit fun _ => Decimal.isDigit_padded

theorem Part.text_two (p : Part) : ∃ a b : Char, p.text = [a, b] := by
  cases p with
  | plain n lt => exact Decimal.padded_two lt
  | signed minus digit lt =>
    obtain ⟨b, hb⟩ := length_eq_one_iff.mp (@Decimal.length_padded 1 digit (by decide) lt)
    exact ⟨_, b, congrArg _ hb⟩

theorem Part.signed_text (p : Part) : Decimal.signed p.text = some p.value := by
  cases p with
  | plain n lt => exact Decimal.signed_padded (by omega)
  | signed minus digit lt =>
    have hfilter : ∀ {q : Nat → Bool}, q digit = true →
        (Decimal.digits (Decimal.padded 1 digit)).filter q = some digit := by
      intro q hq
      rw [Decimal.digits_padded, filter_some_pos hq]
    cases minus with
    | false =>
      rw [text, if_neg Bool.false_ne_true, Decimal.signed, hfilter (by simp; omega), map_some]
      rfl
    | true =>
      rw [text, if_pos rfl, Decimal.signed, hfilter (by simp; omega), map_some]
      rfl

theorem exists_of_signed {a b : Char} {n : Int} (h : Decimal.signed [a, b] = some n) :
    ∃ p : Part, [a, b] = p.text ∧ n = p.value := by
  have hdigit : ∀ {k : Nat}, Decimal.digits [b] = some k → [b] = Decimal.padded 1 k ∧ k < 10 :=
    fun hk => Decimal.eq_padded hk
  unfold Decimal.signed at h
  split at h
  · next heq =>
    obtain ⟨rfl, rfl⟩ := cons.inj heq
    obtain ⟨k, hk, rfl⟩ := map_eq_some_iff.mp h
    obtain ⟨hb, hlt⟩ := hdigit (filter_eq_some_iff.mp hk).1
    exact ⟨.signed false k hlt, congrArg _ hb, rfl⟩
  · next heq =>
    obtain ⟨rfl, rfl⟩ := cons.inj heq
    obtain ⟨k, hk, rfl⟩ := map_eq_some_iff.mp h
    obtain ⟨hb, hlt⟩ := hdigit (filter_eq_some_iff.mp hk).1
    exact ⟨.signed true k hlt, congrArg _ hb, rfl⟩
  · obtain ⟨k, hk, rfl⟩ := map_eq_some_iff.mp h
    obtain ⟨hab, hlt⟩ := Decimal.eq_padded (filter_eq_some_iff.mp hk).1
    exact ⟨.plain k hlt, hab, rfl⟩

theorem Part.unsigned_iff {p : Part} {a b : Char} (h : p.text = [a, b]) :
    p.Unsigned ↔ a.isDigit = true := by
  cases p with
  | plain n _ =>
    have ha : a ∈ Decimal.padded 2 n := by
      rw [show Decimal.padded 2 n = [a, b] from h]
      exact mem_cons_self
    exact iff_of_true trivial (Decimal.isDigit_padded ha)
  | signed minus digit _ =>
    obtain rfl : (if minus then '-' else '+') = a := (cons.inj h).1
    exact iff_of_false id (by cases minus <;> decide)

theorem Part.ascii (p : Part) : Utf8.Ascii p.text := by
  cases p with
  | plain n _ => exact ascii_padded 2 n
  | signed minus digit _ => exact ascii_cons (by cases minus <;> rfl) (ascii_padded 1 digit)

theorem Zone.ascii (z : Zone) : Utf8.Ascii z.text := by
  cases z with
  | utc letter h =>
    refine ascii_cons ?_ nofun
    rcases h with rfl | rfl <;> rfl
  | offset west hour minute _ _ =>
    exact ascii_cons (by cases west <;> rfl) (ascii_append hour.ascii (ascii_cons rfl minute.ascii))

theorem Zone.offset_text (west : Bool) (hour minute : Part) (hh hm) :
    ∃ h1 h2 m1 m2, hour.text = [h1, h2] ∧ minute.text = [m1, m2] ∧
      (offset west hour minute hh hm).text =
        [if west then '-' else '+', h1, h2, ':', m1, m2] := by
  obtain ⟨h1, h2, hhour⟩ := hour.text_two
  obtain ⟨m1, m2, hminute⟩ := minute.text_two
  refine ⟨h1, h2, m1, m2, hhour, hminute, ?_⟩
  rw [text, hhour, hminute]
  rfl

theorem parseOffset_text (z : Zone) : parseOffset z.text = some z.seconds := by
  cases z with
  | utc letter h =>
    rcases h with rfl | rfl <;> rfl
  | offset west hour minute hh hm =>
    obtain ⟨h1, h2, m1, m2, hhour, hminute, htext⟩ := Zone.offset_text west hour minute hh hm
    have hs := hour.signed_text
    have ms := minute.signed_text
    rw [hhour] at hs
    rw [hminute] at ms
    rw [htext, parseOffset, if_neg (by simp)]
    dsimp only
    rw [if_pos (by cases west <;> decide), hs, ms, bind_some, bind_some,
      if_neg (by omega), Zone.seconds]
    cases west
    · simp
    · simp

theorem exists_of_parseOffset {o : List Char} {v : Int} (h : parseOffset o = some v) :
    ∃ z : Zone, o = z.text ∧ v = z.seconds := by
  unfold parseOffset at h
  split_ifs at h with hutc
  · cases h
    rcases hutc with rfl | rfl
    · exact ⟨.utc 'Z' (.inl rfl), rfl, rfl⟩
    · exact ⟨.utc 'z' (.inr rfl), rfl, rfl⟩
  · split at h
    · next sign h1 h2 colon m1 m2 =>
      by_cases hform : (sign = '+' ∨ sign = '-') ∧ colon = ':'
      swap
      · rw [if_neg hform] at h
        exact absurd h nofun
      rw [if_pos hform] at h
      obtain ⟨hsign, rfl⟩ := hform
      obtain ⟨oh, hoh, h⟩ := bind_eq_some_iff.mp h
      obtain ⟨om, hom, h⟩ := bind_eq_some_iff.mp h
      obtain ⟨hour, hhour, rfl⟩ := exists_of_signed hoh
      obtain ⟨minute, hminute, rfl⟩ := exists_of_signed hom
      by_cases hbound : 23 < hour.value ∨ 59 < minute.value
      · rw [if_pos hbound] at h
        exact absurd h nofun
      · rw [if_neg hbound, some.injEq] at h
        refine ⟨.offset (sign = '-') hour minute (by omega) (by omega), ?_, ?_⟩
        · rw [Zone.text, ← hhour, ← hminute]
          rcases hsign with rfl | rfl <;> rfl
        · rw [← h, Zone.seconds]
          rcases hsign with rfl | rfl <;> simp
    · exact absurd h nofun

theorem Zone.unsigned_congr {z z' : Zone} (h : z.text = z'.text) : z.Unsigned ↔ z'.Unsigned := by
  cases z with
  | utc letter _ =>
    cases z' with
    | utc letter' _ => exact Iff.rfl
    | offset west' hour' minute' hh' hm' =>
      obtain ⟨_, _, _, _, -, -, htext⟩ := offset_text west' hour' minute' hh' hm'
      exact absurd (h.trans htext) nofun
  | offset west hour minute hh hm =>
    obtain ⟨h1, h2, m1, m2, hhour, hminute, htext⟩ := offset_text west hour minute hh hm
    cases z' with
    | utc letter' _ => exact absurd (htext.symm.trans h) nofun
    | offset west' hour' minute' hh' hm' =>
      obtain ⟨h1', h2', m1', m2', hhour', hminute', htext'⟩ :=
        offset_text west' hour' minute' hh' hm'
      rw [htext, htext'] at h
      simp only [cons.injEq] at h
      obtain ⟨-, rfl, -, -, rfl, -⟩ := h
      rw [Unsigned, Unsigned, Part.unsigned_iff hhour, Part.unsigned_iff hminute,
        Part.unsigned_iff hhour', Part.unsigned_iff hminute']

def Stamp.seconds (t : Stamp) : Int :=
  expiryDays t.year t.month t.day * 86400 + t.hour * 3600 + t.minute * 60 +
    t.second - t.zone.seconds

def Stamp.instant (t : Stamp) : Int := t.seconds * 1000000000 + fractionNanos t.fraction

theorem Stamp.ascii (t : Stamp) : Utf8.Ascii t.text := by
  have hsep : t.separator.utf8Size = 1 := by
    rcases t.separator_eq with h | h | h <;> rw [h] <;> rfl
  have hfraction : Utf8.Ascii (fractionText t.fraction) := by
    cases t.fraction with
    | none => exact nofun
    | some f => exact ascii_cons rfl (ascii_padded f.width f.value)
  exact ascii_append (ascii_padded _ _)
    (ascii_cons rfl (ascii_append (ascii_padded _ _) (ascii_cons rfl
    (ascii_append (ascii_padded _ _)
    (ascii_cons hsep (ascii_append (ascii_padded _ _) (ascii_cons rfl
      (ascii_append (ascii_padded _ _) (ascii_cons rfl (ascii_append (ascii_padded _ _)
        (ascii_append hfraction t.zone.ascii)))))))))))

theorem Part.value_ge (p : Part) : -9 ≤ p.value := by
  cases p with
  | plain n _ => exact (by decide : (-9 : Int) ≤ 0).trans (Int.natCast_nonneg n)
  | signed minus digit _ =>
    rw [value]
    split_ifs <;> omega

theorem Stamp.seconds_fit (t : Stamp) : -2 ^ 63 ≤ t.seconds ∧ t.seconds < 2 ^ 63 := by
  have hzone : -86400 ≤ t.zone.seconds ∧ t.zone.seconds ≤ 86400 := by
    cases t.zone with
    | utc letter _ => exact ⟨by simp [Zone.seconds], by simp [Zone.seconds]⟩
    | offset west hour minute hh hm =>
      have hhour := hour.value_ge
      have hminute := minute.value_ge
      rw [Zone.seconds]
      split_ifs <;> omega
  have hdays : -1000000 ≤ expiryDays t.year t.month t.day ∧
      expiryDays t.year t.month t.day ≤ 10000000 := by
    have hyear := t.year_lt
    have hmonth := t.month_mem
    have hday := t.day_mem
    rw [expiryDays]
    split_ifs <;> omega
  have hh := t.hour_le
  have hm := t.minute_le
  have hs := t.second_le
  rw [seconds]
  omega

theorem systemTime_of_fits {secs : Int} {nanos : Nat} (h : -2 ^ 63 ≤ secs ∧ secs < 2 ^ 63) :
    systemTime secs nanos = some (secs * 1000000000 + nanos) := if_pos h

theorem parseRfc3339_text {s : String} {t : Stamp} (h : s.toList = t.text) :
    parseRfc3339 s = some t.instant := by
  obtain ⟨fy, fmo, fd, fh, fmi, fsec, ⟨c4, c7, c10, c13, c16⟩, hrest⟩ := t.eq_text_iff.mp h
  have hmonth := t.month_mem
  have hday := t.day_mem
  have hh := t.hour_le
  have hm := t.minute_le
  have hs := t.second_le
  have hascii : Utf8.Ascii s.toList := h ▸ t.ascii
  have hlen : 20 ≤ Utf8.byteLen s.toList := by
    rw [Utf8.byteLen_ascii hascii]
    by_contra hshort
    exact t.zone.text_ne_nil t.fraction (hrest ▸ drop_eq_nil_of_le (by omega))
  have hall : s.toList.all (fun c => c.utf8Size = 1) = true :=
    all_eq_true.mpr fun c hc => by simp [hascii c hc]
  rw [parseRfc3339]
  dsimp only
  rw [if_neg (not_or.mpr ⟨by omega, not_not.mpr hall⟩),
    if_neg (by simp [c4, c7, c10, t.separator_eq]), if_neg (by simp [c13, c16]), fy, fmo, fd, fh,
    fmi, fsec, hrest]
  dsimp only
  rw [if_neg (by omega), parseFraction_text t.fraction t.zone.undotted, bind_some, parseOffset_text,
    bind_some]
  exact systemTime_of_fits t.seconds_fit

theorem exists_of_parseRfc3339 {s : String} {v : Int} (h : parseRfc3339 s = some v) :
    ∃ t : Stamp, s.toList = t.text ∧ v = t.instant := by
  have hread := h
  unfold parseRfc3339 at h
  dsimp only at h
  split_ifs at h with h20 hdate htime
  split at h
  · next y mo d hr mi sec fy fmo fd fh fmi fsec =>
    split_ifs at h with hrange
    obtain ⟨⟨nanos, rest⟩, hfraction, h⟩ := bind_eq_some_iff.mp h
    obtain ⟨offset, hoffset, -⟩ := bind_eq_some_iff.mp h
    obtain ⟨y, rfl, hy, -⟩ := digits_of_num fy
    obtain ⟨mo, rfl, -, -⟩ := digits_of_num fmo
    obtain ⟨d, rfl, -, -⟩ := digits_of_num fd
    obtain ⟨hr, rfl, -, -⟩ := digits_of_num fh
    obtain ⟨mi, rfl, -, -⟩ := digits_of_num fmi
    obtain ⟨sec, rfl, -, -⟩ := digits_of_num fsec
    obtain ⟨f, htail, rfl⟩ := exists_of_parseFraction hfraction
    obtain ⟨z, rfl, rfl⟩ := exists_of_parseOffset hoffset
    rw [not_or, not_or, ne_eq, not_not, ne_eq, not_not, not_not] at hdate
    rw [not_or, ne_eq, not_not, ne_eq, not_not] at htime
    obtain ⟨c4, c7, hsep⟩ := hdate
    obtain ⟨sep, c10, hsep⟩ : ∃ sep, s.toList[10]? = some sep ∧
      (sep = 'T' ∨ sep = 't' ∨ sep = ' ') := by
      rcases hsep with hsep | hsep | hsep
      · exact ⟨_, hsep, .inl rfl⟩
      · exact ⟨_, hsep, .inr (.inl rfl)⟩
      · exact ⟨_, hsep, .inr (.inr rfl)⟩
    let t : Stamp := {
      year := y, month := mo, day := d, separator := sep, hour := hr, minute := mi, second := sec
      fraction := f, zone := z
      year_lt := hy
      month_mem := by omega
      day_mem := by omega
      separator_eq := hsep
      hour_le := by omega
      minute_le := by omega
      second_le := by omega }
    have htext : s.toList = t.text :=
      t.eq_text_iff.mpr ⟨fy, fmo, fd, fh, fmi, fsec, ⟨c4, c7, c10, htime.1, htime.2⟩, htail⟩
    exact ⟨t, htext, some.inj (hread.symm.trans (parseRfc3339_text htext))⟩
  · exact absurd h nofun

theorem DateTime.instant_eq (t : DateTime) : t.instant = t.toStamp.instant := by
  have hvalid : t.date.Valid := ⟨t.month_mem, t.day_mem.1, t.dayExists⟩
  have hdays : expiryDays t.year t.month t.day = t.date.number := by
    obtain ⟨hm1, hm12⟩ := t.month_mem
    rw [number_eq hvalid, expiryDays, marchStart, monthStart, Date.marchYear, Date.marchMonth]
    dsimp only [Stamp.date]
    split_ifs <;> omega
  rw [instant, Stamp.instant, Stamp.seconds, hdays]

theorem Stamp.strict_congr {t t' : Stamp} (h : t.text = t'.text) :
    t.DayExists ∧ t.zone.Unsigned ↔ t'.DayExists ∧ t'.zone.Unsigned := by
  have ht := t.eq_text_iff.mp rfl
  have ht' := t'.eq_text_iff.mp h
  have hyear : t.year = t'.year := Int.ofNat.inj (some.inj (ht.year.symm.trans ht'.year))
  have hmonth : t.month = t'.month := Int.ofNat.inj (some.inj (ht.month.symm.trans ht'.month))
  have hday : t.day = t'.day := Int.ofNat.inj (some.inj (ht.day.symm.trans ht'.day))
  have hrest := congrArg parseFraction (ht.rest.symm.trans ht'.rest)
  rw [parseFraction_text _ t.zone.undotted, parseFraction_text _ t'.zone.undotted, some.injEq,
    Prod.mk.injEq] at hrest
  rw [DayExists, DayExists, hyear, hmonth, hday, Zone.unsigned_congr hrest.2]

/-- Every date-time is read as its instant. A text is read only as a date-time, exactly when it is
not written with a day that its month does not have or with a sign in a number of its offset. -/
theorem parseRfc3339_exact (s : String) :
    (∀ t : DateTime, s.toList = t.text → parseRfc3339 s = some t.instant) ∧
    ((∀ v, parseRfc3339 s = some v → ∃ t : DateTime, s.toList = t.text ∧ v = t.instant) ↔
      ∀ t : Stamp, s.toList = t.text → t.DayExists ∧ t.zone.Unsigned) := by
  refine ⟨fun t h => ?_, fun hexact t h => ?_, fun hstrict v h => ?_⟩
  · rw [t.instant_eq]
    exact parseRfc3339_text h
  · obtain ⟨t', h', -⟩ := hexact _ (parseRfc3339_text h)
    exact (Stamp.strict_congr (h.symm.trans h')).mpr ⟨t'.dayExists, t'.zoneUnsigned⟩
  · obtain ⟨t, htext, rfl⟩ := exists_of_parseRfc3339 h
    obtain ⟨hday, hzone⟩ := hstrict t htext
    exact ⟨⟨t, hday, hzone⟩, htext, (DateTime.instant_eq ⟨t, hday, hzone⟩).symm⟩

def midnight (y mo d : Nat) (zone : Zone) (hy : y < 10000) (hmo : 1 ≤ mo ∧ mo ≤ 12)
    (hd : 1 ≤ d ∧ d ≤ 31) : Stamp where
  year := y
  month := mo
  day := d
  separator := 'T'
  hour := 0
  minute := 0
  second := 0
  fraction := none
  zone := zone
  year_lt := hy
  month_mem := hmo
  day_mem := hd
  separator_eq := .inl rfl
  hour_le := by decide
  minute_le := by decide
  second_le := by decide

def leapNoon : DateTime where
  toStamp := { midnight 2024 2 29 (.offset false (.plain 1 (by decide)) (.plain 0 (by decide))
      (by decide) (by decide)) (by decide) (by decide) (by decide) with
    hour := 12, fraction := some ⟨1, 5, by decide, by decide⟩, hour_le := by decide }
  dayExists := (by decide : 29 ≤ monthLength 2024 2)
  zoneUnsigned := ⟨trivial, trivial⟩

theorem parseRfc3339_leap_day :
    parseRfc3339 "2024-02-29T12:00:00.5+01:00" = some 1709204400500000000 ∧
    ∀ v, parseRfc3339 "2024-02-29T12:00:00.5+01:00" = some v →
      ∃ t : DateTime, "2024-02-29T12:00:00.5+01:00".toList = t.text ∧ v = t.instant := by
  have htext : "2024-02-29T12:00:00.5+01:00".toList = leapNoon.text := by decide +kernel
  have hinstant : leapNoon.instant = 1709204400500000000 := by decide +kernel
  obtain ⟨hread, hexact⟩ := parseRfc3339_exact "2024-02-29T12:00:00.5+01:00"
  refine ⟨(hread leapNoon htext).trans (congrArg some hinstant), hexact.mpr fun t h => ?_⟩
  exact (Stamp.strict_congr (h.symm.trans htext)).mpr ⟨leapNoon.dayExists, leapNoon.zoneUnsigned⟩

/-- The last of February is exceeded, and the offset has a second sign: both texts are read. -/
theorem parseRfc3339_lenient :
    (parseRfc3339 "2021-02-31T00:00:00Z" = parseRfc3339 "2021-03-03T00:00:00Z" ∧
      (parseRfc3339 "2021-02-31T00:00:00Z").isSome ∧ ∀ t : DateTime, "2021-02-31T00:00:00Z".toList ≠
      t.text) ∧
    parseRfc3339 "2021-01-01T00:00:00+-5:30" = parseRfc3339 "2021-01-01T00:00:00-04:30" ∧
      (parseRfc3339 "2021-01-01T00:00:00+-5:30").isSome ∧
        ∀ t : DateTime, "2021-01-01T00:00:00+-5:30".toList ≠ t.text := by
  refine ⟨⟨by decide +kernel, by decide +kernel, fun t h => ?_⟩, by
    decide +kernel, by decide +kernel, fun t h => ?_⟩
  · let february := midnight 2021 2 31 (.utc 'Z' (.inl rfl)) (by decide) (by decide) (by decide)
    have htext : "2021-02-31T00:00:00Z".toList = february.text := by decide +kernel
    have hday := ((Stamp.strict_congr (h.symm.trans htext)).mp ⟨t.dayExists, t.zoneUnsigned⟩).1
    exact absurd (show 31 ≤ monthLength 2021 2 from hday) (by decide)
  · let signed := midnight 2021 1 1
      (.offset false (.signed true 5 (by decide)) (.plain 30 (by decide))
      (by decide) (by decide)) (by decide) (by decide) (by decide)
    have htext : "2021-01-01T00:00:00+-5:30".toList = signed.text := by decide +kernel
    exact ((Stamp.strict_congr (h.symm.trans htext)).mp ⟨t.dayExists, t.zoneUnsigned⟩).2.1

end MemoryGraph.Access
