import HiveForkManager.PqxxConversion
import HiveForkManager.Lib.Gregorian

namespace HiveForkManager

open ExceptList

namespace TimePoint

open PqxxConversion
open Gregorian (Date Moment)

structure YmdHms where
  year : UInt32
  month : UInt32
  day : UInt32
  hours : UInt32
  minutes : UInt32
  seconds : UInt32
  deriving DecidableEq

def toYmdHms (secondsSinceEpoch : UInt32) : YmdHms :=
  let z := secondsSinceEpoch / 86400 + 719468
  let era := z / 146097
  let doe := z - era * 146097
  let yoe := (doe - doe / 1460 + doe / 36524 - doe / 146096) / 365
  let y := yoe + era * 400
  let doy := doe - (365 * yoe + yoe / 4 - yoe / 100)
  let mp := (5 * doy + 2) / 153
  let d := doy - (153 * mp + 2) / 5 + 1
  let m := mp + (if mp < 10 then 3 else -9)
  let secondsSinceDay := secondsSinceEpoch % 86400
  let hours := secondsSinceDay / 3600
  let secondsSinceHour := secondsSinceDay % 3600
  let minutes := secondsSinceHour / 60
  let seconds := secondsSinceHour % 60
  ⟨y + (if m ≤ 2 then 1 else 0), m, d, hours, minutes, seconds⟩

def digitPairs : Bytes :=
  ["00010203040506070809", "10111213141516171819", "20212223242526272829", "30313233343536373839",
    "40414243444546474849", "50515253545556575859", "60616263646566676869", "70717273747576777879",
    "80818283848586878889", "90919293949596979899"].flatMap (fun text ↦ ascii text.toList) ++ [0]

def digitAt (i : ℕ) : Conversion UInt8 := digitPairs[i]?.elim (.error .outOfBounds) .ok

def writeTwoDigits (b : CharBuffer) (s : ℤ) (n : UInt32) : Conversion CharBuffer := do
  let b ← store b s (← digitAt (2 * n).toNat)
  store b (s + 1) (← digitAt ((2 * n).toNat + 1))

def writeYmdHms (time : YmdHms) (b : CharBuffer) : Conversion (ℤ × CharBuffer) := do
  let b ← writeTwoDigits b 0 (time.year / 100)
  let b ← writeTwoDigits b 2 (time.year % 100)
  let b ← store b 4 45
  let b ← writeTwoDigits b 5 time.month
  let b ← store b 7 45
  let b ← writeTwoDigits b 8 time.day
  let b ← store b 10 84
  let b ← writeTwoDigits b 11 time.hours
  let b ← store b 13 58
  let b ← writeTwoDigits b 14 time.minutes
  let b ← store b 16 58
  let b ← writeTwoDigits b 17 time.seconds
  let b ← store b 19 0
  return (20, b)

def intoBuf (secSinceEpoch : UInt32) (b : CharBuffer) : Conversion (ℤ × CharBuffer) :=
  if (b.size : ℤ) < 20 then
    .error (.conversionOverrun "Could not write fc::time_point_sec: buffer too small.")
  else writeYmdHms (toYmdHms secSinceEpoch) b

def readNumber (text : Bytes) : Option (ℕ × Bytes) :=
  if text.takeWhile isDigit = [] then none
  else some ((text.takeWhile isDigit).foldl (fun n c ↦ 10 * n + (c.toNat - 48)) 0,
    text.dropWhile isDigit)

def readField (separator : UInt8) : Bytes → Option (ℕ × Bytes)
  | [] => none
  | c :: rest => if c = separator then readNumber rest else none

/-- A text `year-month-dayThour:minute:second` that names a moment. -/
def readMoment (text : Bytes) : Option Moment := do
  let (year, text) ← readNumber text
  let (month, text) ← readField 45 text
  let (day, text) ← readField 45 text
  let (hour, text) ← readField 84 text
  let (minute, text) ← readField 58 text
  let (second, text) ← readField 58 text
  if h : text = [] ∧ (1 ≤ month ∧ month ≤ 12) ∧
      (1 ≤ day ∧ day ≤ Gregorian.daysInMonth year month) ∧
      hour < 24 ∧ minute < 60 ∧ second < 60 then
    some ⟨⟨year, month, day, h.2.1, h.2.2.1⟩, hour, minute, second, h.2.2.2.1, h.2.2.2.2.1,
      h.2.2.2.2.2⟩
  else none

section Arithmetic

theorem toNat_doe {z : UInt32} (hz : z.toNat < 2 ^ 31) :
    (z / 146097).toNat = z.toNat / 146097 ∧ (z - z / 146097 * 146097).toNat = z.toNat % 146097 := by
  refine ⟨UInt32.toNat_div .., ?_⟩
  have hmul : (z / 146097 * 146097).toNat = z.toNat / 146097 * 146097 := by
    simp only [UInt32.toNat_mul, UInt32.toNat_div, UInt32.reduceToNat]
    omega
  rw [UInt32.toNat_sub, hmul]
  omega

theorem toNat_yoe {doe : UInt32} (hdoe : doe.toNat < 146097) :
    ((doe - doe / 1460 + doe / 36524 - doe / 146096) / 365).toNat =
      (doe.toNat - doe.toNat / 1460 + doe.toNat / 36524 - doe.toNat / 146096) / 365 := by
  simp only [UInt32.toNat_sub, UInt32.toNat_add, UInt32.toNat_div, UInt32.reduceToNat]
  congr 1
  omega

theorem toNat_doy {doe yoe : UInt32} (hyoe : yoe.toNat ≤ 399)
    (hle : 365 * yoe.toNat + yoe.toNat / 4 - yoe.toNat / 100 ≤ doe.toNat) :
    (doe - (365 * yoe + yoe / 4 - yoe / 100)).toNat =
      doe.toNat - (365 * yoe.toNat + yoe.toNat / 4 - yoe.toNat / 100) := by
  have hstart : (365 * yoe + yoe / 4 - yoe / 100).toNat =
      365 * yoe.toNat + yoe.toNat / 4 - yoe.toNat / 100 := by
    simp only [UInt32.toNat_sub, UInt32.toNat_add, UInt32.toNat_mul, UInt32.toNat_div,
      UInt32.reduceToNat]
    omega
  have hlt := doe.toNat_lt
  rw [UInt32.toNat_sub, hstart]
  omega

theorem toNat_mp {doy : UInt32} (hdoy : doy.toNat ≤ 365) :
    ((5 * doy + 2) / 153).toNat = (5 * doy.toNat + 2) / 153 := by
  simp only [UInt32.toNat_add, UInt32.toNat_mul, UInt32.toNat_div, UInt32.reduceToNat]
  omega

variable {mp : UInt32}

theorem toNat_day {doy : UInt32} (hdoy : doy.toNat ≤ 365) (hmp : mp.toNat < 12)
    (hle : (153 * mp.toNat + 2) / 5 ≤ doy.toNat) :
    (doy - (153 * mp + 2) / 5 + 1).toNat = doy.toNat - (153 * mp.toNat + 2) / 5 + 1 := by
  have hfirst : ((153 * mp + 2) / 5).toNat = (153 * mp.toNat + 2) / 5 := by
    simp only [UInt32.toNat_add, UInt32.toNat_mul, UInt32.toNat_div, UInt32.reduceToNat]
    rw [Nat.mod_eq_of_lt (by omega : 153 * mp.toNat < 2 ^ 32), Nat.mod_eq_of_lt (by omega)]
  rw [UInt32.toNat_add, UInt32.toNat_sub, hfirst]
  simp only [UInt32.reduceToNat]
  omega

theorem toNat_month (hmp : mp.toNat < 12) : (mp + (if mp < 10 then 3 else -9)).toNat =
      if mp.toNat < 10 then mp.toNat + 3 else mp.toNat - 9 := by
  have hlt : mp < 10 ↔ mp.toNat < 10 := UInt32.lt_iff_toNat_lt
  simp only [hlt]
  split_ifs with h
  · simp only [UInt32.toNat_add, UInt32.reduceToNat]
    omega
  · have hminus : (-9 : UInt32).toNat = 2 ^ 32 - 9 := rfl
    rw [UInt32.toNat_add, hminus]
    omega

theorem toNat_year {yoe era : UInt32} (hera : era.toNat ≤ 10) (hyoe : yoe.toNat ≤ 399)
    (hmp : mp.toNat < 12) :
    (yoe + era * 400 + (if mp + (if mp < 10 then 3 else -9) ≤ 2 then 1 else 0)).toNat =
      if mp.toNat < 10 then yoe.toNat + 400 * era.toNat else yoe.toNat + 400 * era.toNat + 1 := by
  have hmonth : mp + (if mp < 10 then 3 else -9) ≤ 2 ↔ ¬ mp.toNat < 10 := by
    rw [UInt32.le_iff_toNat_le, toNat_month hmp]
    simp only [UInt32.reduceToNat]
    split_ifs <;> omega
  have hyear : (yoe + era * 400).toNat = yoe.toNat + 400 * era.toNat := by
    simp only [UInt32.toNat_add, UInt32.toNat_mul, UInt32.reduceToNat]
    omega
  rw [UInt32.toNat_add, hyear]
  simp only [hmonth]
  split_ifs
  · simp only [UInt32.reduceToNat]
    omega
  · simp only [UInt32.reduceToNat]
    omega

end Arithmetic

theorem exists_date_toYmdHms (s : UInt32) : ∃ d : Date,
    (toYmdHms s).year.toNat = d.year ∧ (toYmdHms s).month.toNat = d.month ∧
      (toYmdHms s).day.toNat = d.day ∧ d.dayNumber = s.toNat / 86400 + 719528 := by
  have hs := s.toNat_lt
  simp only [toYmdHms]
  generalize hz : s / 86400 + 719468 = z
  have hz' : z.toNat = s.toNat / 86400 + 719468 := by
    rw [← hz, UInt32.toNat_add, UInt32.toNat_div]
    simp only [UInt32.reduceToNat]
    omega
  obtain ⟨hera', hdoe'⟩ := toNat_doe (z := z) (by omega)
  generalize z / 146097 = era at *
  generalize z - era * 146097 = doe at *
  have hlt : doe.toNat < 146097 := by omega
  obtain ⟨century, olympiad, k, day, hsplit, hcentury, holympiad, hk, hday, hleap⟩ :=
    Gregorian.exists_day_of_era hlt
  have hyoe' := toNat_yoe hlt
  rw [Gregorian.yearOfEra_eq hcentury holympiad hk hday hleap hsplit] at hyoe'
  generalize (doe - doe / 1460 + doe / 36524 - doe / 146096) / 365 = yoe at *
  have hstart : 365 * yoe.toNat + yoe.toNat / 4 - yoe.toNat / 100 =
      36524 * century + 1461 * olympiad + 365 * k := by
    have h4 : yoe.toNat / 4 = 25 * century + olympiad := by omega
    have h100 : yoe.toNat / 100 = century := by omega
    rw [h4, h100, hyoe']
    omega
  have hyoe : yoe.toNat ≤ 399 := by omega
  have hdoy' := toNat_doy hyoe (by omega : _ ≤ doe.toNat)
  generalize doe - (365 * yoe + yoe / 4 - yoe / 100) = doy at *
  have hdoy : doy.toNat = day := by omega
  have hmp' := toNat_mp (by omega : doy.toNat ≤ 365)
  generalize (5 * doy + 2) / 153 = mp at *
  rw [hdoy] at hmp'
  obtain ⟨hmp, hfirst, -⟩ := Gregorian.monthOfYear_spec hday
  rw [← hmp'] at hmp hfirst
  obtain ⟨d, hyear, hmonth, hdate, hnumber⟩ := Gregorian.exists_date era.toNat hcentury holympiad hk
    hday hleap rfl hmp'
  have hm := toNat_month hmp
  refine ⟨d, ?_, hm.trans hmonth.symm, ?_, by omega⟩
  · rw [toNat_year (by omega) hyoe hmp, hyear, hyoe', Nat.mul_comm 400]
  · rw [toNat_day (by omega) hmp (by omega), hdoy, hdate]

theorem toYmdHms_eq (s : UInt32) :
    (toYmdHms s).year.toNat = (Moment.atSeconds s.toNat).date.year ∧
      (toYmdHms s).month.toNat = (Moment.atSeconds s.toNat).date.month ∧
      (toYmdHms s).day.toNat = (Moment.atSeconds s.toNat).date.day ∧
      (toYmdHms s).hours.toNat = (Moment.atSeconds s.toNat).hour ∧
      (toYmdHms s).minutes.toNat = (Moment.atSeconds s.toNat).minute ∧
      (toYmdHms s).seconds.toNat = (Moment.atSeconds s.toNat).second := by
  obtain ⟨d, hyear, hmonth, hday, hnumber⟩ := exists_date_toYmdHms s
  have hmoment : (⟨d, s.toNat % 86400 / 3600, s.toNat % 86400 % 3600 / 60,
      s.toNat % 86400 % 3600 % 60, by omega, by omega, by omega⟩ : Moment) =
        Moment.atSeconds s.toNat := by
    have hepoch : Moment.epoch.secondNumber = 86400 * 719528 := by decide
    apply Moment.eq_atSeconds
    rw [hepoch]
    simp only [Moment.secondNumber, hnumber]
    omega
  rw [← hmoment]
  refine ⟨hyear, hmonth, hday, ?_, ?_, ?_⟩
  · simp only [toYmdHms, UInt32.toNat_div, UInt32.toNat_mod, UInt32.reduceToNat]
  · simp only [toYmdHms, UInt32.toNat_div, UInt32.toNat_mod, UInt32.reduceToNat]
  · simp only [toYmdHms, UInt32.toNat_mod, UInt32.reduceToNat]

theorem year_lt (s : UInt32) : (Moment.atSeconds s.toNat).date.year < 10000 := by
  have hs := s.toNat_lt
  have hepoch : Moment.epoch.secondNumber = 86400 * 719528 := by decide
  have hnumber := Moment.secondNumber_iterate s.toNat Moment.epoch
  rw [← Moment.atSeconds, Moment.secondNumber, hepoch, Date.dayNumber] at hnumber
  by_contra hyear
  have hmono := Date.daysBeforeYear_mono (Nat.le_of_not_lt hyear)
  have hbound : Date.daysBeforeYear 10000 = 3652425 := by decide
  omega

def twoDigits (n : ℕ) : Bytes := [UInt8.ofNat (48 + n / 10), UInt8.ofNat (48 + n % 10)]

theorem digitAt_eq {n : UInt32} (hn : n.toNat < 100) :
    digitAt (2 * n).toNat = .ok (UInt8.ofNat (48 + n.toNat / 10)) ∧
      digitAt ((2 * n).toNat + 1) = .ok (UInt8.ofNat (48 + n.toNat % 10)) := by
  have htable : digitPairs = (List.range 100).flatMap twoDigits ++ [0] := by decide +kernel
  have hall : ∀ n : Fin 100,
      ((List.range 100).flatMap twoDigits ++ [0])[2 * n.val]? =
        some (UInt8.ofNat (48 + n.val / 10)) ∧
      ((List.range 100).flatMap twoDigits ++ [0])[2 * n.val + 1]? =
        some (UInt8.ofNat (48 + n.val % 10)) := by
    decide +kernel
  have hdouble : (2 * n).toNat = 2 * n.toNat := by
    simp only [UInt32.toNat_mul, UInt32.reduceToNat]
    omega
  obtain ⟨hfirst, hsecond⟩ := hall ⟨n.toNat, hn⟩
  rw [hdouble, digitAt, digitAt, htable, hfirst, hsecond]
  exact ⟨rfl, rfl⟩

structure Written (b : CharBuffer) (text : Bytes) : Prop where
  room : 20 ≤ b.size
  holds : b.Holds 0 text

variable {b : CharBuffer} {text : Bytes} {p : ℤ}

theorem Written.char (h : Written b text) (c : UInt8) (hp : p = text.length)
    (hlt : p < 20) : ∃ b', store b p c = .ok b' ∧ Written b' (text ++ [c]) := by
  have hroom := h.room
  refine ⟨b.set p c, store_eq_ok c (by omega) (by omega), ?_, ?_⟩
  · rw [CharBuffer.size_set]
    exact hroom
  · rw [hp]
    exact h.holds.concat (by omega)

theorem Written.twoDigits (h : Written b text) {n : UInt32} (hn : n.toNat < 100)
    (hp : p = text.length) (hlt : p + 1 < 20) :
    ∃ b', writeTwoDigits b p n = .ok b' ∧ Written b' (text ++ TimePoint.twoDigits n.toNat) := by
  obtain ⟨hfirst, hsecond⟩ := digitAt_eq hn
  obtain ⟨b₁, hstore₁, h₁⟩ := h.char (UInt8.ofNat (48 + n.toNat / 10)) hp (by omega)
  have hp₁ : p + 1 = (text ++ [UInt8.ofNat (48 + n.toNat / 10)]).length := by
    rw [List.length_append, List.length_singleton]
    omega
  obtain ⟨b₂, hstore₂, h₂⟩ := h₁.char (UInt8.ofNat (48 + n.toNat % 10)) hp₁ hlt
  refine ⟨b₂, ?_, ?_⟩
  · rw [writeTwoDigits, hfirst, ok_bind, hstore₁, ok_bind, hsecond,
      ok_bind, hstore₂]
  · rw [List.append_assoc] at h₂
    exact h₂

def timestamp (year month day hour minute second : ℕ) : Bytes :=
  twoDigits (year / 100) ++ (twoDigits (year % 100) ++ 45 :: (twoDigits month ++ 45 ::
    (twoDigits day ++ 84 :: (twoDigits hour ++ 58 :: (twoDigits minute ++ 58 :: twoDigits second)))))

@[simp] theorem length_twoDigits (n : ℕ) : (twoDigits n).length = 2 := rfl

theorem writeYmdHms_spec {time : YmdHms} (hyear : time.year.toNat < 10000)
    (hmonth : time.month.toNat < 100) (hday : time.day.toNat < 100)
    (hhours : time.hours.toNat < 100) (hminutes : time.minutes.toNat < 100)
    (hseconds : time.seconds.toNat < 100) (hroom : 20 ≤ b.size) :
    ∃ b', writeYmdHms time b = .ok (20, b') ∧
      b'.Holds 0 (timestamp time.year.toNat time.month.toNat time.day.toNat time.hours.toNat
        time.minutes.toNat time.seconds.toNat ++ [0]) := by
  have hcentury : (time.year / 100).toNat = time.year.toNat / 100 := UInt32.toNat_div ..
  have hrest : (time.year % 100).toNat = time.year.toNat % 100 := UInt32.toNat_mod ..
  have h₀ : Written b [] := ⟨hroom, trivial⟩
  obtain ⟨b₁, e₁, h₁⟩ := h₀.twoDigits (p := 0) (by omega : (time.year / 100).toNat < 100)
    (by simp) (by decide)
  obtain ⟨b₂, e₂, h₂⟩ := h₁.twoDigits (p := 2) (by omega : (time.year % 100).toNat < 100)
    (by simp) (by decide)
  obtain ⟨b₃, e₃, h₃⟩ := h₂.char (p := 4) 45 (by simp) (by decide)
  obtain ⟨b₄, e₄, h₄⟩ := h₃.twoDigits (p := 5) hmonth (by simp) (by decide)
  obtain ⟨b₅, e₅, h₅⟩ := h₄.char (p := 7) 45 (by simp) (by decide)
  obtain ⟨b₆, e₆, h₆⟩ := h₅.twoDigits (p := 8) hday (by simp) (by decide)
  obtain ⟨b₇, e₇, h₇⟩ := h₆.char (p := 10) 84 (by simp) (by decide)
  obtain ⟨b₈, e₈, h₈⟩ := h₇.twoDigits (p := 11) hhours (by simp) (by decide)
  obtain ⟨b₉, e₉, h₉⟩ := h₈.char (p := 13) 58 (by simp) (by decide)
  obtain ⟨b₁₀, e₁₀, h₁₀⟩ := h₉.twoDigits (p := 14) hminutes (by simp) (by decide)
  obtain ⟨b₁₁, e₁₁, h₁₁⟩ := h₁₀.char (p := 16) 58 (by simp) (by decide)
  obtain ⟨b₁₂, e₁₂, h₁₂⟩ := h₁₁.twoDigits (p := 17) hseconds (by simp) (by decide)
  obtain ⟨b₁₃, e₁₃, h₁₃⟩ := h₁₂.char (p := 19) 0 (by simp) (by decide)
  refine ⟨b₁₃, ?_, ?_⟩
  · simp only [writeYmdHms, e₁, e₂, e₃, e₄, e₅, e₆, e₇, e₈, e₉, e₁₀, e₁₁, e₁₂, e₁₃,
      ok_bind]
    rfl
  · have hall := h₁₃.holds
    simp only [hcentury, hrest, List.nil_append, List.append_assoc, List.singleton_append] at hall
    simp only [timestamp, List.append_assoc, List.cons_append]
    exact hall

theorem day_lt (d : Date) : d.day < 100 := by
  have hday := d.day_range.2
  unfold Gregorian.daysInMonth at hday
  split_ifs at hday <;> omega

def timestampOf (m : Moment) : Bytes :=
  timestamp m.date.year m.date.month m.date.day m.hour m.minute m.second

theorem intoBuf_spec (s : UInt32) (hroom : 20 ≤ b.size) :
    ∃ b', intoBuf s b = .ok (20, b') ∧
      b'.Holds 0 (timestampOf (Moment.atSeconds s.toNat) ++ [0]) := by
  obtain ⟨hyear, hmonth, hday, hhours, hminutes, hseconds⟩ := toYmdHms_eq s
  have hyear' := year_lt s
  have hday' := day_lt (Moment.atSeconds s.toNat).date
  have hmonth' := (Moment.atSeconds s.toNat).date.month_range
  have hhour' := (Moment.atSeconds s.toNat).hour_lt
  have hminute' := (Moment.atSeconds s.toNat).minute_lt
  have hsecond' := (Moment.atSeconds s.toNat).second_lt
  obtain ⟨b', hwrite, hholds⟩ := writeYmdHms_spec (b := b) (by omega : (toYmdHms s).year.toNat < _)
    (by omega) (by omega) (by omega) (by omega) (by omega) hroom
  rw [hyear, hmonth, hday, hhours, hminutes, hseconds] at hholds
  refine ⟨b', ?_, hholds⟩
  rw [intoBuf, if_neg (by omega), hwrite]

variable {rest : Bytes} {n : ℕ}

theorem readNumber_append {digits : Bytes} (hne : digits ≠ [])
    (hdigits : ∀ c ∈ digits, isDigit c = true)
    (hrest : ∀ c, rest.head? = some c → isDigit c = false) :
    readNumber (digits ++ rest) =
      some (digits.foldl (fun n c ↦ 10 * n + (c.toNat - 48)) 0, rest) := by
  have hstop : rest.takeWhile isDigit = [] ∧ rest.dropWhile isDigit = rest := by
    cases rest with
    | nil => exact ⟨rfl, rfl⟩
    | cons c rest =>
      have hc := Bool.eq_false_iff.mp (hrest c rfl)
      exact ⟨List.takeWhile_cons_of_neg hc, List.dropWhile_cons_of_neg hc⟩
  rw [readNumber, List.takeWhile_append_of_pos hdigits, hstop.1, List.append_nil, if_neg hne,
    List.dropWhile_append_of_pos hdigits, hstop.2]

theorem isDigit_of_mem_twoDigits (hn : n < 100) : ∀ c ∈ twoDigits n, isDigit c = true := by
  have hall : ∀ n : Fin 100, (twoDigits n).all isDigit = true := by decide +kernel
  exact List.all_eq_true.mp (hall ⟨n, hn⟩)

theorem foldl_twoDigits (hn : n < 100) (start : ℕ) :
    (twoDigits n).foldl (fun n c ↦ 10 * n + (c.toNat - 48)) start = 100 * start + n := by
  have hbyte : ∀ d, d < 10 → (UInt8.ofNat (48 + d)).toNat = 48 + d := by
    intro d hd
    rw [UInt8.toNat_ofNat', Nat.mod_eq_of_lt (by omega)]
  simp only [twoDigits, List.foldl_cons, List.foldl_nil, hbyte _ (by omega : n / 10 < 10),
    hbyte _ (by omega : n % 10 < 10)]
  omega

theorem twoDigits_ne_nil (n : ℕ) : twoDigits n ≠ [] := List.cons_ne_nil _ _

theorem readNumber_twoDigits (hn : n < 100) (hrest : ∀ c, rest.head? = some c → isDigit c = false) :
    readNumber (twoDigits n ++ rest) = some (n, rest) := by
  rw [readNumber_append (twoDigits_ne_nil n) (isDigit_of_mem_twoDigits hn) hrest,
    foldl_twoDigits hn, Nat.mul_zero, Nat.zero_add]

theorem readNumber_year {year : ℕ} (hyear : year < 10000)
    (hrest : ∀ c, rest.head? = some c → isDigit c = false) :
    readNumber (twoDigits (year / 100) ++ (twoDigits (year % 100) ++ rest)) =
      some (year, rest) := by
  have hhigh : year / 100 < 100 := by omega
  have hlow : year % 100 < 100 := by omega
  have hdigits : ∀ c ∈ twoDigits (year / 100) ++ twoDigits (year % 100), isDigit c = true := by
    intro c hc
    rcases List.mem_append.mp hc with hc | hc
    · exact isDigit_of_mem_twoDigits hhigh c hc
    · exact isDigit_of_mem_twoDigits hlow c hc
  have hvalue : 100 * (100 * 0 + year / 100) + year % 100 = year := by omega
  rw [← List.append_assoc, readNumber_append
    (List.append_ne_nil_of_left_ne_nil (twoDigits_ne_nil _) _) hdigits hrest, List.foldl_append,
    foldl_twoDigits hhigh, foldl_twoDigits hlow, hvalue]

theorem head_of_separator {separator : UInt8} (h : isDigit separator = false) (rest : Bytes) :
    ∀ c, (separator :: rest).head? = some c → isDigit c = false :=
  fun _ hc ↦ Option.some.inj hc ▸ h

theorem readField_twoDigits (separator : UInt8) (hn : n < 100)
    (hrest : ∀ c, rest.head? = some c → isDigit c = false) :
    readField separator (separator :: (twoDigits n ++ rest)) = some (n, rest) := by
  rw [readField, if_pos rfl, readNumber_twoDigits hn hrest]

theorem readMoment_timestampOf {m : Moment} (hyear : m.date.year < 10000) :
    readMoment (timestampOf m) = some m := by
  have hday := day_lt m.date
  have hmonth := m.date.month_range
  have hhour := m.hour_lt
  have hminute := m.minute_lt
  have hsecond := m.second_lt
  have hsecond' : readField 58 (58 :: twoDigits m.second) = some (m.second, []) := by
    have h := readField_twoDigits 58 (by omega : m.second < 100) (nofun : ∀ c, [].head? = some c → _)
    rwa [List.append_nil] at h
  have hseparator := @head_of_separator
  rw [readMoment, timestampOf, timestamp, readNumber_year hyear (hseparator (by decide) _),
    Option.bind_eq_bind, Option.bind_some]
  simp only
  rw [readField_twoDigits 45 (by omega) (hseparator (by decide) _), Option.bind_some]
  simp only
  rw [readField_twoDigits 45 hday (hseparator (by decide) _), Option.bind_some]
  simp only
  rw [readField_twoDigits 84 (by omega) (hseparator (by decide) _), Option.bind_some]
  simp only
  rw [readField_twoDigits 58 (by omega) (hseparator (by decide) _), Option.bind_some]
  simp only
  rw [hsecond', Option.bind_some]
  exact dif_pos ⟨rfl, hmonth, m.date.day_range, hhour, hminute, hsecond⟩

/-- `to_ymd_hms` gives the date and the time of day that the calendar and the clock show after so
many ticks since 1970, and the text of `into_buf` is read as that moment. -/
theorem calendar_conversion (s : UInt32) (b : CharBuffer) (hroom : 20 ≤ b.size) :
    (toYmdHms s).year.toNat = (Moment.atSeconds s.toNat).date.year ∧
      (toYmdHms s).month.toNat = (Moment.atSeconds s.toNat).date.month ∧
      (toYmdHms s).day.toNat = (Moment.atSeconds s.toNat).date.day ∧
      (toYmdHms s).hours.toNat = (Moment.atSeconds s.toNat).hour ∧
      (toYmdHms s).minutes.toNat = (Moment.atSeconds s.toNat).minute ∧
      (toYmdHms s).seconds.toNat = (Moment.atSeconds s.toNat).second ∧
      ∃ b' m, intoBuf s b = .ok (20, b') ∧ b'.load 19 = some 0 ∧
        readMoment (b'.upTo 19) = some m ∧ m.sinceEpoch = s.toNat := by
  obtain ⟨hyear, hmonth, hday, hhours, hminutes, hseconds⟩ := toYmdHms_eq s
  obtain ⟨b', hwrite, hholds⟩ := intoBuf_spec s hroom
  obtain ⟨htext, hterminator⟩ := CharBuffer.holds_append.mp hholds
  rw [CharBuffer.holds_singleton] at hterminator
  have hupTo := CharBuffer.upTo_eq_of_holds htext
  have hlength : (timestampOf (Moment.atSeconds s.toNat)).length = 19 := rfl
  rw [hlength] at hterminator hupTo
  refine ⟨hyear, hmonth, hday, hhours, hminutes, hseconds, b', Moment.atSeconds s.toNat, hwrite,
    hterminator, ?_, Moment.sinceEpoch_atSeconds s.toNat⟩
  have hread := readMoment_timestampOf (year_lt s)
  rw [← hupTo] at hread
  exact hread

/-- The second before the first leap day of the century. -/
theorem before_leap_day_conversion :
    ∃ b' m, intoBuf 951782399 ⟨List.replicate 20 0, by decide⟩ = .ok (20, b') ∧
      readMoment (b'.upTo 19) = some m ∧ m.sinceEpoch = 951782399 := by
  obtain ⟨-, -, -, -, -, -, b', m, hwrite, -, hread, hsince⟩ := calendar_conversion 951782399
    ⟨List.replicate 20 0, by decide⟩ (by decide)
  exact ⟨b', m, hwrite, hread, hsince⟩

end TimePoint

end HiveForkManager
