import Mathlib

namespace Gregorian

def isLeap (year : ℕ) : Bool := (year % 4 = 0 && year % 100 ≠ 0) || year % 400 = 0

def daysInMonth (year month : ℕ) : ℕ :=
  if month = 2 then if isLeap year then 29 else 28
  else if month = 4 ∨ month = 6 ∨ month = 9 ∨ month = 11 then 30 else 31

@[ext] structure Date where
  year : ℕ
  month : ℕ
  day : ℕ
  month_range : 1 ≤ month ∧ month ≤ 12
  day_range : 1 ≤ day ∧ day ≤ daysInMonth year month

instance : DecidableEq Date := fun d d' ↦
  decidable_of_iff (d.year = d'.year ∧ d.month = d'.month ∧ d.day = d'.day) Date.ext_iff.symm

theorem daysInMonth_pos (year month : ℕ) : 1 ≤ daysInMonth year month := by
  unfold daysInMonth
  split_ifs <;> omega

namespace Date

def next (d : Date) : Date :=
  if h : d.day < daysInMonth d.year d.month then
    ⟨d.year, d.month, d.day + 1, d.month_range, by omega, h⟩
  else if h : d.month < 12 then
    ⟨d.year, d.month + 1, 1, by omega, le_rfl, daysInMonth_pos ..⟩
  else ⟨d.year + 1, 1, 1, by omega, le_rfl, daysInMonth_pos ..⟩

def daysBeforeYear (year : ℕ) : ℕ :=
  365 * year + (year + 3) / 4 - (year + 99) / 100 + (year + 399) / 400

def daysBeforeMonth (year month : ℕ) : ℕ :=
  (367 * month - 362) / 12 - (if month ≤ 2 then 0 else if isLeap year then 1 else 2)

def dayNumber (d : Date) : ℕ :=
  daysBeforeYear d.year + daysBeforeMonth d.year d.month + (d.day - 1)

theorem daysBeforeYear_succ (year : ℕ) :
    daysBeforeYear (year + 1) = daysBeforeYear year + (if isLeap year then 366 else 365) := by
  have h4 : (year + 1 + 3) / 4 = (year + 3) / 4 + (if year % 4 = 0 then 1 else 0) := by
    split_ifs <;> omega
  have h100 : (year + 1 + 99) / 100 = (year + 99) / 100 + (if year % 100 = 0 then 1 else 0) := by
    split_ifs <;> omega
  have h400 : (year + 1 + 399) / 400 = (year + 399) / 400 + (if year % 400 = 0 then 1 else 0) := by
    split_ifs <;> omega
  have hbound : (year + 99) / 100 ≤ 365 * year := by omega
  have hcentury : year % 400 = 0 → year % 100 = 0 := by omega
  have hfour : year % 100 = 0 → year % 4 = 0 := by omega
  simp only [daysBeforeYear, isLeap, h4, h100, h400, Bool.or_eq_true, Bool.and_eq_true,
    decide_eq_true_eq]
  generalize (year + 3) / 4 = a
  generalize (year + 99) / 100 = b at hbound ⊢
  generalize (year + 399) / 400 = c
  generalize year % 4 = r at hfour ⊢
  generalize year % 100 = s at hcentury hfour ⊢
  generalize year % 400 = t at hcentury ⊢
  split_ifs <;> omega

theorem daysBeforeMonth_succ (year : ℕ) {month : ℕ} (hpos : 1 ≤ month) (hlt : month < 12) :
    daysBeforeMonth year (month + 1) = daysBeforeMonth year month + daysInMonth year month := by
  unfold daysBeforeMonth daysInMonth
  cases isLeap year <;> interval_cases month <;> rfl

theorem daysBeforeMonth_december (year : ℕ) :
    daysBeforeMonth year 12 + daysInMonth year 12 = if isLeap year then 366 else 365 := by
  unfold daysBeforeMonth daysInMonth
  cases isLeap year <;> rfl

theorem dayNumber_next (d : Date) : d.next.dayNumber = d.dayNumber + 1 := by
  have hday := d.day_range
  have hmonth := d.month_range
  unfold next
  split_ifs with hlast hyear
  · simp only [dayNumber]
    omega
  · have hsucc := daysBeforeMonth_succ d.year hmonth.1 hyear
    simp only [dayNumber, hsucc]
    omega
  · have hdecember : d.month = 12 := by omega
    have hsum := daysBeforeMonth_december d.year
    have hfirst : daysBeforeMonth (d.year + 1) 1 = 0 := rfl
    simp only [dayNumber, daysBeforeYear_succ, hfirst, ← hsum]
    rw [hdecember] at hlast hday ⊢
    omega

theorem daysBeforeYear_mono : Monotone daysBeforeYear :=
  monotone_nat_of_le_succ fun year ↦ by
    rw [daysBeforeYear_succ]
    exact Nat.le_add_right ..

theorem daysBeforeMonth_add_le (year : ℕ) {month month' : ℕ} (hpos : 1 ≤ month)
    (hlt : month < month') (hmonth' : month' ≤ 12) :
    daysBeforeMonth year month + daysInMonth year month ≤ daysBeforeMonth year month' := by
  induction month', hlt using Nat.le_induction with
  | base => rw [daysBeforeMonth_succ year hpos (by omega)]
  | succ n hn ih =>
    rw [daysBeforeMonth_succ year (by omega) (by omega)]
    exact (ih (by omega)).trans (Nat.le_add_right ..)

theorem dayNumber_lt (d : Date) : d.dayNumber < daysBeforeYear (d.year + 1) := by
  have hday := d.day_range
  have hmonth := d.month_range
  have hsum := daysBeforeMonth_december d.year
  have hpos := daysInMonth_pos d.year 12
  rw [daysBeforeYear_succ, ← hsum, dayNumber]
  rcases Nat.lt_or_ge d.month 12 with hlt | hge
  · have hle := daysBeforeMonth_add_le d.year hmonth.1 hlt le_rfl
    omega
  · have hdecember : d.month = 12 := by omega
    rw [hdecember] at hday ⊢
    omega

theorem dayNumber_injective : Function.Injective dayNumber := by
  have hyear : ∀ {d d' : Date}, d.dayNumber = d'.dayNumber → ¬ d.year < d'.year := by
    intro d d' h hlt
    have hmono := daysBeforeYear_mono (Nat.succ_le_of_lt hlt)
    have hd := d.dayNumber_lt
    rw [h, dayNumber] at hd
    rw [Nat.succ_eq_add_one] at hmono
    omega
  have hmonth : ∀ {d d' : Date}, d.dayNumber = d'.dayNumber → d.year = d'.year →
      ¬ d.month < d'.month := by
    intro d d' h heq hlt
    have hle := daysBeforeMonth_add_le d.year d.month_range.1 hlt d'.month_range.2
    have hday := d.day_range
    rw [dayNumber, dayNumber, ← heq] at h
    omega
  intro d d' h
  have hy : d.year = d'.year :=
    Nat.le_antisymm (Nat.le_of_not_lt (hyear h.symm)) (Nat.le_of_not_lt (hyear h))
  have hm : d.month = d'.month := Nat.le_antisymm (Nat.le_of_not_lt (hmonth h.symm hy.symm))
    (Nat.le_of_not_lt (hmonth h hy))
  have hday := d.day_range
  have hday' := d'.day_range
  rw [dayNumber, dayNumber, hy, hm] at h
  exact Date.ext hy hm (by omega)

end Date

theorem daysBeforeMarch (year : ℕ) : Date.daysBeforeYear year + Date.daysBeforeMonth year 3 =
    365 * year + year / 4 - year / 100 + year / 400 + 60 := by
  have h4 : (year + 3) / 4 = year / 4 + (if year % 4 = 0 then 0 else 1) := by
    split_ifs <;> omega
  have h100 : (year + 99) / 100 = year / 100 + (if year % 100 = 0 then 0 else 1) := by
    split_ifs <;> omega
  have h400 : (year + 399) / 400 = year / 400 + (if year % 400 = 0 then 0 else 1) := by
    split_ifs <;> omega
  have hbound : (year + 99) / 100 ≤ 365 * year := by omega
  have hcentury : year % 400 = 0 → year % 100 = 0 := by omega
  have hfour : year % 100 = 0 → year % 4 = 0 := by omega
  have hmonth : Date.daysBeforeMonth year 3 = if isLeap year then 60 else 59 := by
    unfold Date.daysBeforeMonth
    cases isLeap year <;> rfl
  rw [h100] at hbound
  simp only [hmonth, Date.daysBeforeYear, isLeap, h4, h100, h400, Bool.or_eq_true, Bool.and_eq_true,
    decide_eq_true_eq]
  generalize year / 4 = a
  generalize year / 100 = b at hbound ⊢
  generalize year / 400 = c
  generalize year % 4 = r at hfour ⊢
  generalize year % 100 = s at hcentury hfour hbound ⊢
  generalize year % 400 = t at hcentury ⊢
  split_ifs at hbound ⊢ <;> omega

variable {shift day : ℕ}

theorem daysBeforeMonth_of_march (year : ℕ) (hshift : shift < 10) :
    Date.daysBeforeMonth year (shift + 3) =
      Date.daysBeforeMonth year 3 + (153 * shift + 2) / 5 := by
  unfold Date.daysBeforeMonth
  cases isLeap year <;> interval_cases shift <;> rfl

theorem daysBeforeMonth_of_january (year : ℕ) (hlow : 10 ≤ shift) (hshift : shift < 12) :
    Date.daysBeforeYear (year + 1) + Date.daysBeforeMonth (year + 1) (shift - 9) =
      Date.daysBeforeYear year + Date.daysBeforeMonth year 3 + (153 * shift + 2) / 5 := by
  rw [Date.daysBeforeYear_succ]
  unfold Date.daysBeforeMonth
  cases isLeap year <;> cases isLeap (year + 1) <;> interval_cases shift <;> simp

/-- A day of the 400 years of an era: the century, the four years in it, the year in them and the
day in that year. The day after the 365th is a 29th of February. -/
theorem exists_day_of_era {doe : ℕ} (h : doe < 146097) : ∃ century olympiad k day,
    doe = 36524 * century + 1461 * olympiad + 365 * k + day ∧ century ≤ 3 ∧ olympiad ≤ 24 ∧ k ≤ 3 ∧
      day ≤ 365 ∧ (day = 365 → k = 3 ∧ (olympiad = 24 → century = 3)) := by
  obtain ⟨century, rest, hsplit, hcentury, hrest, hlast⟩ : ∃ century rest,
      doe = 36524 * century + rest ∧ century ≤ 3 ∧ rest ≤ 36524 ∧
        (rest = 36524 → century = 3) := by
    rcases Nat.lt_or_ge doe 146096 with hlt | hge
    · exact ⟨doe / 36524, doe % 36524, by omega, by omega, by omega, by omega⟩
    · exact ⟨3, doe - 36524 * 3, by omega, by omega, by omega, by omega⟩
  have hyears : ∃ k day, rest % 1461 = 365 * k + day ∧ k ≤ 3 ∧ day ≤ 365 ∧ (day = 365 → k = 3) := by
    rcases Nat.lt_or_ge (rest % 1461) 1460 with hlt | hge
    · exact ⟨rest % 1461 / 365, rest % 1461 % 365, by omega, by omega, by omega, by omega⟩
    · exact ⟨3, 365, by omega, by omega, by omega, by omega⟩
  obtain ⟨k, day, hday, hk, hdayle, hleap⟩ := hyears
  exact ⟨century, rest / 1461, k, day, by omega, hcentury, by omega, hk, hdayle,
    fun heq ↦ ⟨hleap heq, by omega⟩⟩

theorem yearOfEra_eq {century olympiad k : ℕ} (hcentury : century ≤ 3) (holympiad : olympiad ≤ 24)
    (hk : k ≤ 3) (hday : day ≤ 365)
    (hleap : day = 365 → k = 3 ∧ (olympiad = 24 → century = 3)) {doe : ℕ}
    (hdoe : doe = 36524 * century + 1461 * olympiad + 365 * k + day) :
    (doe - doe / 1460 + doe / 36524 - doe / 146096) / 365 = 100 * century + 4 * olympiad + k := by
  obtain ⟨extra, hextra⟩ : ∃ extra, extra = (24 * century + olympiad + 365 * k + day) / 1460 :=
    ⟨_, rfl⟩
  have hshort : doe / 1460 = 25 * century + olympiad + extra := by omega
  have hfull : day = 365 → extra = 1 := by omega
  have hempty : day = 0 → extra = 0 := by omega
  have hle : extra ≤ 1 := by omega
  have hlt : day - extra < 365 := by
    clear hextra hshort hdoe
    omega
  obtain ⟨last, hcenturies, hera⟩ : ∃ last, doe / 36524 = century + last ∧ doe / 146096 = last := by
    rcases Nat.lt_or_ge (1461 * olympiad + 365 * k + day) 36524 with hlt | hge
    · clear hextra hshort hleap
      exact ⟨0, by omega, by omega⟩
    · have hday365 : day = 365 := by omega
      have holympiad24 : olympiad = 24 := by omega
      have hlast : doe = 146096 := by
        have hcentury3 := (hleap hday365).2 holympiad24
        have hk3 := (hleap hday365).1
        rw [hdoe, hcentury3, holympiad24, hk3, hday365]
      have hcentury3 : century = 3 := by omega
      rw [hlast, hcentury3]
      exact ⟨1, rfl, rfl⟩
  have hsum : doe - doe / 1460 + doe / 36524 - doe / 146096 =
      365 * (100 * century + 4 * olympiad + k) + (day - extra) := by
    rw [hshort, hcenturies, hera, hdoe]
    clear hextra hshort hcenturies hera hleap
    omega
  rw [hsum, Nat.mul_add_div (by omega), Nat.div_eq_of_lt hlt, Nat.add_zero]

theorem monthOfYear_spec (hday : day ≤ 365) :
    (5 * day + 2) / 153 < 12 ∧ (153 * ((5 * day + 2) / 153) + 2) / 5 ≤ day ∧
      ∀ leap : Bool, (day = 365 → leap = true) →
        day - (153 * ((5 * day + 2) / 153) + 2) / 5 + 1 ≤
          if (5 * day + 2) / 153 = 11 then if leap then 29 else 28
          else if (5 * day + 2) / 153 ∈ [1, 3, 6, 8] then 30 else 31 := by
  have hall : ∀ day : Fin 366, (5 * day.val + 2) / 153 < 12 ∧
      (153 * ((5 * day.val + 2) / 153) + 2) / 5 ≤ day.val ∧
      ∀ leap : Bool, (day.val = 365 → leap = true) →
        day.val - (153 * ((5 * day.val + 2) / 153) + 2) / 5 + 1 ≤
          if (5 * day.val + 2) / 153 = 11 then if leap then 29 else 28
          else if (5 * day.val + 2) / 153 ∈ [1, 3, 6, 8] then 30 else 31 := by
    decide +kernel
  exact hall ⟨day, by omega⟩

theorem exists_date {century olympiad k : ℕ} (era : ℕ) (hcentury : century ≤ 3)
    (holympiad : olympiad ≤ 24) (hk : k ≤ 3) (hday : day ≤ 365)
    (hleap : day = 365 → k = 3 ∧ (olympiad = 24 → century = 3)) {year : ℕ}
    (hyear : year = 100 * century + 4 * olympiad + k + 400 * era)
    (hshift : shift = (5 * day + 2) / 153) :
    ∃ d : Date, d.year = (if shift < 10 then year else year + 1) ∧
      d.month = (if shift < 10 then shift + 3 else shift - 9) ∧
      d.day = day - (153 * shift + 2) / 5 + 1 ∧
      d.dayNumber = 146097 * era + (36524 * century + 1461 * olympiad + 365 * k + day) + 60 := by
  obtain ⟨hlt, hfirst, hlast⟩ := monthOfYear_spec hday
  have hnext : day = 365 → isLeap (year + 1) = true := by
    intro h
    obtain ⟨rfl, hcase⟩ := hleap h
    simp only [isLeap, Bool.or_eq_true, Bool.and_eq_true, decide_eq_true_eq]
    omega
  have hlength := hlast (isLeap (year + 1)) hnext
  have hmarch : 365 * year + year / 4 - year / 100 + year / 400 + 60 =
      146097 * era + (36524 * century + 1461 * olympiad + 365 * k) + 60 := by
    have h4 : year / 4 = 100 * era + 25 * century + olympiad := by omega
    have h100 : year / 100 = 4 * era + century := by omega
    have h400 : year / 400 = era := by omega
    rw [h4, h100, h400, hyear]
    omega
  rw [← hshift] at hlt hfirst hlength
  by_cases hspring : shift < 10
  · have hdays : daysInMonth year (shift + 3) = if shift ∈ [1, 3, 6, 8] then 30 else 31 := by
      clear hshift hfirst hlength hlast
      interval_cases shift <;> rfl
    rw [if_neg (by omega), ← hdays] at hlength
    refine ⟨⟨year, shift + 3, day - (153 * shift + 2) / 5 + 1, by omega, by omega, hlength⟩,
      (if_pos hspring).symm, (if_pos hspring).symm, rfl, ?_⟩
    have hbefore := daysBeforeMonth_of_march year hspring
    have hsum := daysBeforeMarch year
    rw [hmarch] at hsum
    simp only [Date.dayNumber, hbefore]
    omega
  · have hdays : daysInMonth (year + 1) (shift - 9) = if shift = 11 then
        if isLeap (year + 1) then 29 else 28
        else if shift ∈ [1, 3, 6, 8] then 30 else 31 := by
      clear hshift hfirst hlength hlast
      interval_cases shift <;> rfl
    rw [← hdays] at hlength
    refine ⟨⟨year + 1, shift - 9, day - (153 * shift + 2) / 5 + 1, by omega, by omega, hlength⟩,
      (if_neg hspring).symm, (if_neg hspring).symm, rfl, ?_⟩
    have hbefore := daysBeforeMonth_of_january year (Nat.le_of_not_lt hspring) hlt
    have hsum := daysBeforeMarch year
    rw [hmarch] at hsum
    simp only [Date.dayNumber, hbefore]
    omega

@[ext] structure Moment where
  date : Date
  hour : ℕ
  minute : ℕ
  second : ℕ
  hour_lt : hour < 24
  minute_lt : minute < 60
  second_lt : second < 60

instance : DecidableEq Moment := fun m m' ↦
  decidable_of_iff (m.date = m'.date ∧ m.hour = m'.hour ∧ m.minute = m'.minute ∧
    m.second = m'.second) Moment.ext_iff.symm

namespace Moment

def tick (m : Moment) : Moment :=
  if hs : m.second + 1 < 60 then ⟨m.date, m.hour, m.minute, m.second + 1, m.hour_lt, m.minute_lt, hs⟩
  else if hm : m.minute + 1 < 60 then ⟨m.date, m.hour, m.minute + 1, 0, m.hour_lt, hm, by omega⟩
  else if hh : m.hour + 1 < 24 then ⟨m.date, m.hour + 1, 0, 0, hh, by omega, by omega⟩
  else ⟨m.date.next, 0, 0, 0, by omega, by omega, by omega⟩

def secondNumber (m : Moment) : ℕ :=
  86400 * m.date.dayNumber + (3600 * m.hour + 60 * m.minute + m.second)

theorem secondNumber_tick (m : Moment) : m.tick.secondNumber = m.secondNumber + 1 := by
  have hhour := m.hour_lt
  have hminute := m.minute_lt
  have hsecond := m.second_lt
  unfold tick
  split_ifs
  · simp only [secondNumber]
    omega
  · simp only [secondNumber]
    omega
  · simp only [secondNumber]
    omega
  · simp only [secondNumber, Date.dayNumber_next]
    omega

theorem secondNumber_iterate (t : ℕ) (m : Moment) :
    (tick^[t] m).secondNumber = m.secondNumber + t := by
  induction t with
  | zero => rfl
  | succ t ih => rw [Function.iterate_succ_apply', secondNumber_tick, ih, Nat.add_assoc]

theorem secondNumber_injective : Function.Injective secondNumber := by
  intro m m' h
  have hhour := m.hour_lt
  have hminute := m.minute_lt
  have hsecond := m.second_lt
  have hhour' := m'.hour_lt
  have hminute' := m'.minute_lt
  have hsecond' := m'.second_lt
  rw [secondNumber, secondNumber] at h
  have hdate : m.date.dayNumber = m'.date.dayNumber := by omega
  exact Moment.ext (Date.dayNumber_injective hdate) (by omega) (by omega) (by omega)

def epoch : Moment := ⟨⟨1970, 1, 1, by decide, by decide⟩, 0, 0, 0, Nat.succ_pos 23, Nat.succ_pos 59,
  Nat.succ_pos 59⟩

def atSeconds (t : ℕ) : Moment := tick^[t] epoch

def sinceEpoch (m : Moment) : ℤ := m.secondNumber - epoch.secondNumber

theorem sinceEpoch_atSeconds (t : ℕ) : (atSeconds t).sinceEpoch = t := by
  rw [sinceEpoch, atSeconds, secondNumber_iterate]
  omega

theorem eq_atSeconds {m : Moment} {t : ℕ} (h : m.secondNumber = epoch.secondNumber + t) :
    m = atSeconds t :=
  secondNumber_injective (h.trans (secondNumber_iterate t epoch).symm)

end Moment

end Gregorian
