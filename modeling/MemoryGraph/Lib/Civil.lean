import Mathlib

/-! The proleptic Gregorian calendar. In years that begin on the first of March the leap day is the
last day, so that the number of a date is a sum of three terms, each found again by division. -/

namespace Lib.Civil
variable {doe c q r x : Int}

def leap (y : Int) : Bool := decide (y % 4 = 0 ∧ (y % 100 ≠ 0 ∨ y % 400 = 0))

def monthLength (y : Int) : Nat → Nat
  | 2 => if leap y then 29 else 28
  | 4 | 6 | 9 | 11 => 30
  | _ => 31

theorem monthLength_le (y : Int) (m : Nat) : monthLength y m ≤ 31 := by
  unfold monthLength
  split <;> first | omega | split_ifs <;> omega

structure Date where
  year : Int
  month : Nat
  day : Nat
deriving DecidableEq, Repr

namespace Date

structure Valid (t : Date) : Prop where
  month : 1 ≤ t.month ∧ t.month ≤ 12
  day : 1 ≤ t.day ∧ t.day ≤ monthLength t.year t.month

instance (t : Date) : Decidable t.Valid :=
  decidable_of_iff ((1 ≤ t.month ∧ t.month ≤ 12) ∧ 1 ≤ t.day ∧ t.day ≤ monthLength t.year t.month)
    ⟨fun h => ⟨h.1, h.2⟩, fun h => ⟨h.1, h.2⟩⟩

def number (t : Date) : Int :=
  365 * (t.year - 1) + (t.year - 1) / 4 - (t.year - 1) / 100 + (t.year - 1) / 400 +
    (((List.range (t.month - 1)).map fun i => monthLength t.year (i + 1)).sum : Nat) +
    t.day - 719163

example : number ⟨1970, 1, 1⟩ = 0 ∧ number ⟨2000, 3, 1⟩ = 11017 ∧
    number ⟨0, 1, 1⟩ = -719528 := by decide +kernel

def marchYear (t : Date) : Int := if t.month ≤ 2 then t.year - 1 else t.year

def marchMonth (t : Date) : Int := if t.month ≤ 2 then t.month + 9 else t.month - 3

end Date

def marchStart (y : Int) : Int := 365 * y + y / 4 - y / 100 + y / 400

def monthStart (mp : Int) : Int := (153 * mp + 2) / 5

theorem number_eq {t : Date} (h : t.Valid) :
    t.number = marchStart t.marchYear + monthStart t.marchMonth + t.day - 1 - 719468 := by
  obtain ⟨y, m, d⟩ := t
  obtain ⟨⟨hm1, hm12⟩, -⟩ := h
  dsimp only at hm1 hm12
  have hleap : ∀ n : Nat, ((if leap y then n + 1 else n : Nat) : Int) = n +
      (y / 4 - y / 100 + y / 400) - ((y - 1) / 4 - (y - 1) / 100 + (y - 1) / 400) := by
    intro n
    simp only [leap, decide_eq_true_eq]
    split_ifs with hl <;> push_cast <;> omega
  simp only [Date.number, marchStart, Date.marchYear, Date.marchMonth, monthStart]
  interval_cases m <;>
    simp [List.range_succ, monthLength, hleap 28] <;> omega

theorem marchStart_succ (y : Int) :
    marchStart (y + 1) = marchStart y + (if leap (y + 1) then 366 else 365) := by
  simp only [marchStart, leap, decide_eq_true_eq]
  split_ifs with hl <;> omega

theorem marchStart_succ_le {y z : Int} (h : y < z) : marchStart (y + 1) ≤ marchStart z := by
  simp only [marchStart]
  omega

theorem Date.Valid.march {t : Date} (h : t.Valid) : 0 ≤ t.marchMonth ∧ t.marchMonth ≤ 11 ∧
    monthStart t.marchMonth + t.day ≤ monthStart (t.marchMonth + 1) ∧
    marchStart t.marchYear + monthStart t.marchMonth + t.day ≤ marchStart (t.marchYear + 1) := by
  obtain ⟨y, m, d⟩ := t
  obtain ⟨⟨hm1, hm12⟩, hd1, hd⟩ := h
  have hsucc := marchStart_succ (Date.marchYear ⟨y, m, d⟩)
  simp only [Date.marchYear, Date.marchMonth, monthStart] at *
  interval_cases m <;>
    simp [monthLength] at * <;> split_ifs at * <;> simp_all <;> omega

theorem number_injOn {s t : Date} (hs : s.Valid) (ht : t.Valid) (h : s.number = t.number) :
    s = t := by
  obtain ⟨hs0, hs11, hsm, hsy⟩ := hs.march
  obtain ⟨ht0, ht11, htm, hty⟩ := ht.march
  have hs1 := hs.day.1
  have ht1 := ht.day.1
  rw [number_eq hs, number_eq ht] at h
  have hyear : s.marchYear = t.marchYear := by
    have hspos : 0 ≤ monthStart s.marchMonth := by unfold monthStart; omega
    have htpos : 0 ≤ monthStart t.marchMonth := by unfold monthStart; omega
    rcases lt_trichotomy s.marchYear t.marchYear with hlt | heq | hgt
    · have := marchStart_succ_le hlt
      omega
    · exact heq
    · have := marchStart_succ_le hgt
      omega
  rw [hyear] at h
  have hmonth : s.marchMonth = t.marchMonth := by
    unfold monthStart at *
    omega
  rw [hmonth] at h
  have hm := hs.month
  have hm' := ht.month
  obtain ⟨y, m, d⟩ := s
  obtain ⟨y', m', d'⟩ := t
  simp only [Date.marchYear, Date.marchMonth] at *
  rw [Date.mk.injEq]
  split_ifs at * <;> omega

/-- The day `doe` of a cycle of 400 years: its century, its four years, its year and its day. -/
structure InEra (doe c q r x : Int) : Prop where
  century : 0 ≤ c ∧ c ≤ 3
  block : 0 ≤ q ∧ q ≤ 24
  year : 0 ≤ r ∧ r ≤ 3
  day : 0 ≤ x ∧ x ≤ 365
  last : x = 365 → r = 3 ∧ (q < 24 ∨ c = 3)
  eq : doe = 36524 * c + 1461 * q + 365 * r + x

theorem exists_inEra {doe : Int} (h0 : 0 ≤ doe) (h1 : doe < 146097) :
    ∃ c q r x, InEra doe c q r x := by
  obtain ⟨c, hc⟩ : ∃ c, c = min (doe / 36524) 3 := ⟨_, rfl⟩
  obtain ⟨q, hq⟩ : ∃ q, q = (doe - 36524 * c) / 1461 := ⟨_, rfl⟩
  obtain ⟨r, hr⟩ : ∃ r, r = min ((doe - 36524 * c - 1461 * q) / 365) 3 := ⟨_, rfl⟩
  have hc' : 0 ≤ c ∧ c ≤ 3 ∧ 36524 * c ≤ doe ∧ (doe < 36524 * c + 36524 ∨ c = 3) := by omega
  refine ⟨c, q, r, doe - (36524 * c + 1461 * q + 365 * r), ?_, ?_, ?_, ?_, ?_, ?_⟩ <;> omega

theorem InEra.yearOf (h : InEra doe c q r x) :
    (doe - doe / 1460 + doe / 36524 - doe / 146096) / 365 = 100 * c + 4 * q + r := by
  obtain ⟨hc, hq, hr, hx, hleap, rfl⟩ := h
  have ha : (36524 * c + 1461 * q + 365 * r + x) / 1460 = 25 * c + q + (24 * c + q + 365 * r + x) /
      1460 := by omega
  have hb : (36524 * c + 1461 * q + 365 * r + x) / 36524 = c + (1461 * q + 365 * r + x) /
      36524 := by omega
  have hlast : (1461 * q + 365 * r + x) / 36524 = (36524 * c + 1461 * q + 365 * r + x) /
      146096 := by omega
  have hday : 0 ≤ x - (24 * c + q + 365 * r + x) / 1460 ∧ x - (24 * c + q + 365 * r + x) / 1460 ≤
      364 := by omega
  rw [ha, hb, hlast]
  omega

theorem InEra.marchStart_eq (h : InEra doe c q r x) (era : Int) :
    marchStart (100 * c + 4 * q + r + era * 400) = 146097 * era + doe - x := by
  obtain ⟨hc, hq, hr, -, -, rfl⟩ := h
  have h4 : (100 * c + 4 * q + r + era * 400) / 4 = 100 * era + 25 * c + q := by omega
  have h100 : (100 * c + 4 * q + r + era * 400) / 100 = 4 * era + c := by omega
  have h400 : (100 * c + 4 * q + r + era * 400) / 400 = era := by omega
  rw [marchStart, h4, h100, h400]
  omega

theorem InEra.day_lt (h : InEra doe c q r x) (era : Int) :
    x < if leap (100 * c + 4 * q + r + era * 400 + 1) then 366 else 365 := by
  obtain ⟨hc, hq, hr, hx, hleap, -⟩ := h
  simp only [leap, decide_eq_true_eq]
  split_ifs <;> omega

theorem year_of_day (n : Int) : ∃ yoe doy : Int,
    (n % 146097 - n % 146097 / 1460 + n % 146097 / 36524 - n % 146097 / 146096) / 365 = yoe ∧
    n % 146097 - (365 * yoe + yoe / 4 - yoe / 100) = doy ∧ (0 ≤ doy ∧ doy ≤ 365) ∧
    n = marchStart (yoe + n / 146097 * 400) + doy ∧
    n < marchStart (yoe + n / 146097 * 400 + 1) := by
  have h0 : 0 ≤ n % 146097 := Int.emod_nonneg n (by decide)
  have h1 : n % 146097 < 146097 := Int.emod_lt_of_pos n (by decide)
  obtain ⟨c, q, r, x, h⟩ := exists_inEra h0 h1
  have hn : 146097 * (n / 146097) + n % 146097 = n := Int.mul_ediv_add_emod n 146097
  have hstart := h.marchStart_eq (n / 146097)
  have hday := h.day_lt (n / 146097)
  have hsucc := marchStart_succ (100 * c + 4 * q + r + n / 146097 * 400)
  refine ⟨100 * c + 4 * q + r, x, h.yearOf, ?_, h.day, by omega, by omega⟩
  obtain ⟨hc, hq, hr, -, -, heq⟩ := h
  omega

theorem month_of_day {doy : Int} (h0 : 0 ≤ doy) (h1 : doy ≤ 365) :
    0 ≤ (5 * doy + 2) / 153 ∧ (5 * doy + 2) / 153 ≤ 11 ∧ monthStart ((5 * doy + 2) / 153) ≤ doy ∧
      doy < monthStart ((5 * doy + 2) / 153 + 1) := by
  unfold monthStart
  omega

def ofMarch (y mp d : Int) : Date where
  year := if mp < 10 then y else y + 1
  month := (if mp < 10 then mp + 3 else mp - 9).toNat
  day := d.toNat

theorem ofMarch_valid {y mp d : Int} (hm0 : 0 ≤ mp) (hm11 : mp ≤ 11) (hd1 : 1 ≤ d)
    (hd : monthStart mp + d ≤ monthStart (mp + 1))
    (hy : marchStart y + monthStart mp + d ≤ marchStart (y + 1)) :
    (ofMarch y mp d).Valid ∧ (ofMarch y mp d).number = marchStart y + monthStart mp +
    d - 1 - 719468 := by
  have hlen := marchStart_succ y
  have hvalid : (ofMarch y mp d).Valid := by
    unfold monthStart at hd hy
    interval_cases mp <;> constructor <;> simp [ofMarch, monthLength] <;> split_ifs at * <;> omega
  refine ⟨hvalid, ?_⟩
  have hyear : (ofMarch y mp d).marchYear = y := by
    unfold ofMarch Date.marchYear
    dsimp only
    split_ifs <;> omega
  have hmonth : (ofMarch y mp d).marchMonth = mp := by
    unfold ofMarch Date.marchMonth
    dsimp only
    split_ifs <;> omega
  rw [number_eq hvalid, hyear, hmonth, ofMarch, Int.toNat_of_nonneg (by omega)]

end Lib.Civil
