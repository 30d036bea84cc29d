import MemoryGraph.Lib.Civil
import MemoryGraph.Lib.Decimal
import MemoryGraph.Lib.Utf8
import MemoryGraph.Lib.Fallible
import MemoryGraph.Schema

/-! The dates of a backup's sink: civil dates from day numbers and back, and the ISO 8601 form in
which an object's time is listed. -/

namespace MemoryGraph.Backup
open Lib Lib.Civil
variable {checks : Bool} {t : Date}

def i64 (checks : Bool) (op : String) (x : Int) : Except StoreError Int :=
  if -2 ^ 63 ≤ x ∧ x < 2 ^ 63 then .ok x
  else if checks then .error (.panic ("attempt to " ++ op ++ " with overflow"))
  else .ok (x.bmod (2 ^ 64))

def civilOf (z : Int) : Date :=
  let era := z / 146097
  let doe := z % 146097
  let yoe := (doe - doe / 1460 + doe / 36524 - doe / 146096) / 365
  let y := yoe + era * 400
  let doy := doe - (365 * yoe + yoe / 4 - yoe / 100)
  let mp := (5 * doy + 2) / 153
  let d := (doy - (153 * mp + 2) / 5 + 1).toNat
  let m := (if mp < 10 then mp + 3 else mp - 9).toNat
  ⟨if m ≤ 2 then y + 1 else y, m, d⟩

def civilFromDays (checks : Bool) (z : Int) : Except StoreError Date := do
  let z ← i64 checks "add" (z + 719468)
  return civilOf z

def shiftedYear (checks : Bool) (y : Int) (m : Nat) : Except StoreError Int :=
  if m ≤ 2 then i64 checks "subtract" (y - 1) else return y

/-- The sums of machine integers that can be as large as the year makes them are checked; the day
of the era is small. -/
def daysFromCivil (checks : Bool) (y : Int) (m d : Nat) : Except StoreError Int := do
  let y ← shiftedYear checks y m
  let era := y / 400
  let yoe := y % 400
  let doy := (153 * (if 2 < m then (m : Int) - 3 else m + 9) + 2) / 5 + d - 1
  let doe := yoe * 365 + yoe / 4 - yoe / 100 + doy
  let n ← i64 checks "multiply" (era * 146097)
  let n ← i64 checks "add" (n + doe)
  i64 checks "subtract" (n - 719468)

def iso8601 (checks : Bool) (unix : Nat) : Except StoreError String := do
  let t ← civilFromDays checks (unix / 86400 : Nat)
  let s := unix % 86400
  return String.ofList (Decimal.padded 4 t.year.toNat ++ '-' :: (Decimal.padded 2 t.month ++ '-' ::
    (Decimal.padded 2 t.day ++ 'T' ::
    (Decimal.padded 2 (s / 3600) ++ ':' :: (Decimal.padded 2 (s / 60 % 60) ++ ':' ::
      (Decimal.padded 2 (s % 60) ++ ['.', '0', '0', '0', 'Z']))))))

def field (s : List Char) (lo hi : Nat) : Option Int := (Utf8.slice s lo hi).bind Decimal.signed

def parseIso8601 (checks : Bool) (s : String) : Except StoreError (Option Nat) :=
  let b := Utf8.bytes s.toList
  let n := field s.toList
  if b.length < 19 ∨ b[4]? ≠ some '-'.val.toUInt8 ∨ b[7]? ≠ some '-'.val.toUInt8 ∨
    b[10]? ≠ some 'T'.val.toUInt8 then
    return none
  else match n 0 4, n 5 7, n 8 10, n 11 13, n 14 16, n 17 19 with
    | some y, some mo, some d, some h, some mi, some se =>
      if ¬(1 ≤ mo ∧ mo ≤ 12) ∨ ¬(1 ≤ d ∧ d ≤ 31) ∨ 23 < h ∨ 59 < mi ∨ 60 < se then return none
      else do
        let days ← daysFromCivil checks y mo.toNat d.toNat
        let unix := days * 86400 + h * 3600 + mi * 60 + se
        return if 0 ≤ unix then some unix.toNat else none
    | _, _, _, _, _, _ => return none

theorem i64_of_fits {op : String} {x : Int} (h : -2 ^ 63 ≤ x ∧ x < 2 ^ 63) :
    i64 checks op x = .ok x := if_pos h

theorem i64_wrapping (op : String) (x : Int) : i64 false op x = .ok (x.bmod (2 ^ 64)) := by
  by_cases h : -2 ^ 63 ≤ x ∧ x < 2 ^ 63
  · rw [i64_of_fits h, Int.bmod_eq_of_le (by omega) (by omega)]
  · rw [i64, if_neg h]
    rfl

theorem civilOf_spec (n : Int) : (civilOf n).Valid ∧ (civilOf n).number = n - 719468 := by
  obtain ⟨yoe, doy, hyoe, hdoy, ⟨h0, h365⟩, hn, hlt⟩ := year_of_day n
  obtain ⟨hm0, hm11, hle, hnext⟩ := month_of_day h0 h365
  have hdate : civilOf n = ofMarch (yoe + n / 146097 * 400) ((5 * doy + 2) / 153)
      (doy - monthStart ((5 * doy + 2) / 153) + 1) := by
    rw [civilOf, hyoe, hdoy, ofMarch, monthStart]
    congr 1
    split_ifs <;> omega
  rw [hdate]
  obtain ⟨hvalid, hnumber⟩ := @ofMarch_valid (yoe + n / 146097 * 400) ((5 * doy + 2) / 153)
    (doy - monthStart ((5 * doy + 2) / 153) + 1) hm0 hm11 (by omega) (by omega) (by omega)
  exact ⟨hvalid, by omega⟩

theorem sum_eq_number (h : t.Valid) {y : Int} (hy : y = t.marchYear) :
    y / 400 * 146097 + (y % 400 * 365 + y % 400 / 4 - y % 400 / 100 +
      ((153 * (if 2 < t.month then (t.month : Int) - 3 else t.month + 9) + 2) / 5 + t.day - 1)) =
      t.number + 719468 := by
  have hmonth : (if 2 < t.month then (t.month : Int) - 3 else t.month + 9) = t.marchMonth := by
    unfold Date.marchMonth
    split_ifs <;> omega
  rw [number_eq h, hmonth, ← hy, marchStart, monthStart]
  omega

theorem shiftedYear_eq (h : t.Valid) (hlo : -2 ^ 64 ≤ t.number) (hhi : t.number ≤ 2 ^ 64) :
    shiftedYear checks t.year t.month = .ok t.marchYear := by
  have hnumber := number_eq h
  have hmarch := h.march
  have hday := h.day
  unfold marchStart monthStart at *
  rw [shiftedYear, Date.marchYear]
  split_ifs with hm
  · rw [i64_of_fits]
    rw [Date.marchYear, if_pos hm] at hnumber hmarch
    omega
  · rfl

theorem daysFromCivil_of_fits (h : t.Valid) (hlo : -2 ^ 63 ≤ t.number)
    (hhi : t.number + 719468 < 2 ^ 63) :
    daysFromCivil checks t.year t.month t.day = .ok t.number := by
  have hsum := sum_eq_number h rfl
  have hdoy : 0 ≤ (153 * (if 2 < t.month then (t.month : Int) - 3 else t.month + 9) + 2) / 5 +
      (t.day : Int) - 1 ∧ (153 * (if 2 < t.month then (t.month : Int) - 3 else t.month + 9) + 2) /
      5 + (t.day : Int) - 1 ≤ 400 := by
    obtain ⟨⟨hm1, hm12⟩, hd1, hd⟩ := h
    have hlen := monthLength_le t.year t.month
    split_ifs <;> omega
  rw [daysFromCivil, shiftedYear_eq h (by omega) (by omega), ok_bind]
  dsimp only
  generalize (153 * (if 2 < t.month then (t.month : Int) - 3 else t.month + 9) + 2) / 5 +
    (t.day : Int) - 1 = doy at *
  rw [i64_of_fits, ok_bind, hsum, i64_of_fits, ok_bind, Int.add_sub_cancel, i64_of_fits]
  all_goals omega

theorem daysFromCivil_wrapping (h : t.Valid) (hlo : -2 ^ 64 ≤ t.number) (hhi : t.number ≤ 2 ^ 64) :
    daysFromCivil false t.year t.month t.day = .ok (t.number.bmod (2 ^ 64)) := by
  have hsum := sum_eq_number h rfl
  rw [daysFromCivil, shiftedYear_eq h hlo hhi, ok_bind]
  dsimp only
  rw [i64_wrapping, ok_bind, i64_wrapping, ok_bind, i64_wrapping, Int.bmod_add_bmod, hsum,
    Int.bmod_sub_bmod, Int.add_sub_cancel]

theorem field_eq {a b c : List Char} {n : Int} {lo hi : Nat} (hascii : Utf8.Ascii (a ++ (b ++ c)))
    (hn : Decimal.signed b = some n) (hlo : a.length = lo) (hhi : a.length + b.length = hi) :
    field (a ++ (b ++ c)) lo hi = some n := by
  rw [field, Utf8.slice_ascii (fun x hx => hascii x (by simp [hx])) (fun x hx =>
    hascii x (by simp [hx])) hlo hhi]
  exact hn

theorem exists_two {n : Nat} (h : n < 100) :
    ∃ a b : Char, Decimal.padded 2 n = [a, b] ∧ Utf8.Ascii [a, b] ∧
    Decimal.signed [a, b] = some (n : Int) := by
  obtain ⟨a, b, hp⟩ := Decimal.padded_two h
  have hascii : Utf8.Ascii (Decimal.padded 2 n) := Utf8.ascii_of_isDigit fun _ =>
    Decimal.isDigit_padded
  have hsigned := @Decimal.signed_padded 2 n (by omega)
  exact ⟨a, b, hp, hp ▸ hascii, hp ▸ hsigned⟩

theorem exists_four {n : Nat} (h : n < 10000) :
    ∃ a b c d : Char, Decimal.padded 4 n = [a, b, c, d] ∧ Utf8.Ascii [a, b, c, d] ∧
      Decimal.signed [a, b, c, d] = some (n : Int) := by
  have hlen := @Decimal.length_padded 4 n (by decide) h
  have hascii : Utf8.Ascii (Decimal.padded 4 n) := Utf8.ascii_of_isDigit fun _ =>
    Decimal.isDigit_padded
  have hsigned := @Decimal.signed_padded 4 n (by omega)
  match hp : Decimal.padded 4 n with
  | [a, b, c, d] => exact ⟨a, b, c, d, rfl, hp ▸ hascii, hp ▸ hsigned⟩
  | [] | [_] | [_, _] | [_, _, _] | _ :: _ :: _ :: _ :: _ :: _ => simp [hp] at hlen

theorem parseIso8601_printed {y mo d h mi se : Nat} (hy : y < 10000) (hmo : 1 ≤ mo ∧ mo ≤ 12)
    (hd : 1 ≤ d ∧ d ≤ 31) (hh : h ≤ 23) (hmi : mi ≤ 59) (hse : se ≤ 60) :
    parseIso8601 checks (String.ofList (Decimal.padded 4 y ++ '-' :: (Decimal.padded 2 mo ++ '-' ::
      (Decimal.padded 2 d ++ 'T' :: (Decimal.padded 2 h ++ ':' :: (Decimal.padded 2 mi ++ ':' ::
        (Decimal.padded 2 se ++ ['.', '0', '0', '0', 'Z']))))))) = (do
      let days ← daysFromCivil checks y mo d
      let unix := days * 86400 + h * 3600 + mi * 60 + se
      return if 0 ≤ unix then some unix.toNat else none) := by
  obtain ⟨y1, y2, y3, y4, hye, hya, hyn⟩ := exists_four hy
  obtain ⟨mo1, mo2, hmoe, hmoa, hmon⟩ := @exists_two mo (by omega)
  obtain ⟨d1, d2, hde, hda, hdn⟩ := @exists_two d (by omega)
  obtain ⟨h1, h2, hhe, hha, hhn⟩ := @exists_two h (by omega)
  obtain ⟨mi1, mi2, hmie, hmia, hmin⟩ := @exists_two mi (by omega)
  obtain ⟨se1, se2, hsee, hsea, hsen⟩ := @exists_two se (by omega)
  rw [hye, hmoe, hde, hhe, hmie, hsee]
  have hascii : Utf8.Ascii [y1, y2, y3, y4, '-', mo1, mo2, '-', d1, d2, 'T', h1, h2, ':', mi1, mi2,
      ':', se1, se2, '.', '0', '0', '0', 'Z'] := by
    unfold Utf8.Ascii at *
    simp_all only [List.mem_cons, List.not_mem_nil, or_false, forall_eq_or_imp, forall_eq]
    decide
  have hbytes := Utf8.bytes_ascii hascii
  have fy := @field_eq [] [y1, y2, y3, y4] _ _ 0 4 hascii hyn rfl rfl
  have fmo := @field_eq [y1, y2, y3, y4, '-'] [mo1, mo2] _ _ 5 7 hascii hmon rfl rfl
  have fd := @field_eq [y1, y2, y3, y4, '-', mo1, mo2, '-'] [d1, d2] _ _ 8 10 hascii hdn rfl rfl
  have fh := @field_eq [y1, y2, y3, y4, '-', mo1, mo2, '-', d1, d2, 'T'] [h1, h2] _ _ 11 13
    hascii hhn rfl rfl
  have fmi := @field_eq [y1, y2, y3, y4, '-', mo1, mo2, '-', d1, d2, 'T', h1, h2, ':'] [mi1, mi2]
    _ _ 14 16 hascii hmin rfl rfl
  have fse := @field_eq [y1, y2, y3, y4, '-', mo1, mo2, '-', d1, d2, 'T', h1, h2, ':', mi1, mi2,
    ':'] [se1, se2] _ _ 17 19 hascii hsen rfl rfl
  simp only [List.cons_append, List.nil_append] at fy fmo fd fh fmi fse ⊢
  rw [parseIso8601]
  simp only [String.toList_ofList, hbytes, fy, fmo, fd, fh, fmi, fse]
  rw [if_neg (by simp; decide), if_neg (by omega)]
  simp only [Int.toNat_natCast]

theorem iso8601_parses (checks : Bool) {u : Nat} (hu : u < 253402300800) :
    ∃ s, iso8601 checks u = .ok s ∧ parseIso8601 checks s = .ok (some u) := by
  have hfits : -2 ^ 63 ≤ ((u / 86400 : Nat) : Int) + 719468 ∧ ((u / 86400 : Nat) : Int) + 719468 <
      2 ^ 63 := by omega
  obtain ⟨hvalid, hnumber⟩ := civilOf_spec (((u / 86400 : Nat) : Int) + 719468)
  rw [Int.add_sub_cancel] at hnumber
  refine ⟨_, by rw [iso8601, civilFromDays, i64_of_fits hfits, ok_bind]; rfl, ?_⟩
  generalize civilOf (((u / 86400 : Nat) : Int) + 719468) = t at *
  have hlen := monthLength_le t.year t.month
  have hday := hvalid.day
  have hyear : 0 ≤ t.year ∧ t.year < 10000 := by
    have hmonth := hvalid.month
    rw [number_eq hvalid, marchStart, monthStart, Date.marchYear, Date.marchMonth] at hnumber
    split_ifs at hnumber <;> omega
  rw [parseIso8601_printed (by omega) hvalid.month ⟨hday.1, by omega⟩ (by omega) (by omega)
    (by omega), Int.toNat_of_nonneg hyear.1, daysFromCivil_of_fits hvalid (by omega) (by omega),
    ok_bind, hnumber]
  dsimp only
  rw [if_pos (by omega)]
  congr 2
  omega

theorem daysFromCivil_civilOf {z : Int} (hz : -2 ^ 63 ≤ z ∧ z < 2 ^ 63)
    (hfits : checks = true → z + 719468 < 2 ^ 63) :
    ∃ t, civilFromDays checks z = .ok t ∧ t.Valid ∧
      daysFromCivil checks t.year t.month t.day = .ok z := by
  by_cases h : z + 719468 < 2 ^ 63
  · obtain ⟨hvalid, hnumber⟩ := civilOf_spec (z + 719468)
    rw [Int.add_sub_cancel] at hnumber
    refine ⟨_, by rw [civilFromDays, i64_of_fits (by omega), ok_bind]; rfl, hvalid, ?_⟩
    rw [daysFromCivil_of_fits hvalid (by omega) (by omega), hnumber]
  · -- past the last day the sum wraps to a date of long ago, whose number wraps back
    obtain rfl : checks = false := by
      cases checks
      · rfl
      · exact absurd (hfits rfl) h
    obtain ⟨hvalid, hnumber⟩ := civilOf_spec (z + 719468 - 2 ^ 64)
    have hwrap : (z + 719468).bmod (2 ^ 64) = z + 719468 - 2 ^ 64 := by
      rw [← Int.sub_bmod_right, Int.bmod_eq_of_le (by omega) (by omega)]
      rfl
    refine ⟨_, by rw [civilFromDays, i64_wrapping, hwrap, ok_bind]; rfl, hvalid, ?_⟩
    rw [daysFromCivil_wrapping hvalid (by omega) (by omega), hnumber]
    have : z + 719468 - 2 ^ 64 - 719468 = z - 2 ^ 64 := by omega
    rw [this]
    have : (z - 2 ^ 64).bmod (2 ^ 64) = z.bmod (2 ^ 64) := Int.sub_bmod_right z (2 ^ 64)
    rw [this, Int.bmod_eq_of_le (by omega) (by omega)]

theorem civilFromDays_daysFromCivil (h : t.Valid) (hlo : -2 ^ 63 ≤ t.number)
    (hhi : t.number + 719468 < 2 ^ 63) :
    ∃ z, daysFromCivil checks t.year t.month t.day = .ok z ∧ civilFromDays checks z = .ok t := by
  refine ⟨t.number, daysFromCivil_of_fits h hlo hhi, ?_⟩
  obtain ⟨hvalid, hnumber⟩ := civilOf_spec (t.number + 719468)
  rw [Int.add_sub_cancel] at hnumber
  rw [civilFromDays, i64_of_fits (by omega), ok_bind, number_injOn hvalid h hnumber]
  rfl

/-- Day numbers and dates name the same days, and a listed time is read back, where the sums fit in
an `i64`. -/
theorem civil_round_trips (checks : Bool) :
    (∀ z : Int, -2 ^ 63 ≤ z → z < 2 ^ 63 → (checks = true → z + 719468 < 2 ^ 63) →
      ∃ t, civilFromDays checks z = .ok t ∧ t.Valid ∧ daysFromCivil checks t.year t.month t.day =
        .ok z) ∧
    (∀ t : Date, t.Valid → -2 ^ 63 ≤ t.number → t.number + 719468 < 2 ^ 63 →
      ∃ z, daysFromCivil checks t.year t.month t.day = .ok z ∧ civilFromDays checks z = .ok t) ∧
    ∀ u : Nat, u < 253402300800 →
      ∃ s, iso8601 checks u = .ok s ∧ parseIso8601 checks s = .ok (some u) :=
  ⟨fun _ hlo hhi hfits => daysFromCivil_civilOf ⟨hlo, hhi⟩ hfits,
    fun _ h hlo hhi => civilFromDays_daysFromCivil h hlo hhi, fun _ hu => iso8601_parses checks hu⟩

theorem leap_day_round_trips :
    (∃ t, civilFromDays true 11016 = .ok t ∧ t.Valid ∧ daysFromCivil true t.year t.month t.day =
    .ok 11016) ∧ (∃ z, daysFromCivil true 2000 2 29 = .ok z ∧
    civilFromDays true z = .ok ⟨2000, 2, 29⟩) ∧ ∃ s, iso8601 true 951825600 = .ok s ∧
    parseIso8601 true s = .ok (some 951825600) :=
  ⟨(civil_round_trips true).1 11016 (by decide) (by decide) (by decide),
    (civil_round_trips true).2.1 ⟨2000, 2, 29⟩ (by decide) (by decide +kernel) (by decide +kernel),
    (civil_round_trips true).2.2 951825600 (by decide)⟩

/-- The last day number has no date where overflow is checked, and 1 March of the year 2^62 has no
day number: its sum is refused or wraps to another day. -/
theorem far_days_do_not_round_trip :
    civilFromDays true (2 ^ 63 - 1) = .error (.panic "attempt to add with overflow") ∧
    (⟨2 ^ 62, 3, 1⟩ : Date).Valid ∧
    daysFromCivil true (2 ^ 62) 3 1 = .error (.panic "attempt to multiply with overflow") ∧
    ∀ z, daysFromCivil false (2 ^ 62) 3 1 = .ok z → civilFromDays false z ≠ .ok ⟨2 ^ 62, 3, 1⟩ := by
  refine ⟨by decide +kernel, by decide +kernel, by decide +kernel, fun z hz => ?_⟩
  have hday : daysFromCivil false (2 ^ 62) 3 1 = .ok 5730019877895310002 := by decide +kernel
  obtain rfl : z = 5730019877895310002 := by
    rw [hday] at hz
    exact (Except.ok.inj hz).symm
  decide +kernel

end MemoryGraph.Backup
