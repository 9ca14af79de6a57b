import Mathlib
import Credential.Calendar
/-!
Days are counted without a gap, every count is a date of the calendar, and every date is the date
of its count.
-/

namespace Credential

namespace Date

theorem yearOfEra_eq {n c q s : Nat} (hn : n = 36524 * c + 1461 * q + s) (hc : c ≤ 3)
    (hs : s ≤ 1460) (hr : 1461 * q + s < 36524) :
    (n - n / 1460 + n / 36524 - n / 146096) / 365 = 100 * c + 4 * q + min (s / 365) 3 := by
  have hcentury : n / 36524 = c := by omega
  have hera : n / 146096 = 0 := by omega
  have hfour : n / 1460 = 25 * c + q + (24 * c + q + s) / 1460 := by omega
  have hone : (24 * c + q + s) / 1460 ≤ 1 := by omega
  rw [hcentury, hera, hfour]
  rcases Nat.le_one_iff_eq_zero_or_eq_one.1 hone with h | h <;> rw [h] <;> omega

structure DayOfEra (n y d : Nat) : Prop where
  count : n + y / 100 = 365 * y + y / 4 + d
  year : y ≤ 399
  day : d ≤ 365
  leap : d = 365 → (y + 1) % 4 = 0 ∧ ((y + 1) % 100 ≠ 0 ∨ (y + 1) % 400 = 0)

theorem exists_dayOfEra {n : Nat} (h : n < 146097) : ∃ y d, DayOfEra n y d := by
  by_cases hlast : n = 146096
  · exact ⟨399, 365, by omega, by omega, by omega, by omega⟩
  · obtain ⟨c, r, hn, hc, hr⟩ : ∃ c r, n = 36524 * c + r ∧ c ≤ 3 ∧ r < 36524 :=
      ⟨n / 36524, n % 36524, by omega, by omega, by omega⟩
    obtain ⟨q, s, hq, hs⟩ : ∃ q s, r = 1461 * q + s ∧ s ≤ 1460 :=
      ⟨r / 1461, r % 1461, by omega, by omega⟩
    obtain ⟨t, ht, htle⟩ : ∃ t, t = min (s / 365) 3 ∧ t ≤ 3 := ⟨_, rfl, Nat.min_le_right _ _⟩
    have hfour : (100 * c + 4 * q + t) / 4 = 25 * c + q := by omega
    have hcentury : (100 * c + 4 * q + t) / 100 = c := by omega
    exact ⟨100 * c + 4 * q + t, s - 365 * t, by omega, by omega, by omega, by omega⟩

namespace DayOfEra

variable {n y d m day : Nat} {days era : Int}

theorem yearOfEra (h : DayOfEra n y d) :
    (n - n / 1460 + n / 36524 - n / 146096) / 365 = y := by
  obtain ⟨hcount, hyear, hday, hleap⟩ := h
  by_cases hlast : y = 399 ∧ d = 365
  · obtain ⟨rfl, rfl⟩ := hlast
    obtain rfl : n = 146096 := by omega
    rfl
  · obtain ⟨c, q, t, hc, hq, ht, rfl⟩ :
        ∃ c q t, c ≤ 3 ∧ q ≤ 24 ∧ t ≤ 3 ∧ y = 100 * c + 4 * q + t :=
      ⟨y / 100, y % 100 / 4, y % 4, by omega, by omega, by omega, by omega⟩
    have hend : d = 365 → t = 3 ∧ (q ≤ 23 ∨ c = 3) := by
      intro hd
      have := hleap hd
      omega
    rw [yearOfEra_eq (by omega : n = 36524 * c + 1461 * q + (365 * t + d)) hc (by omega)
      (by omega)]
    omega

theorem dayOfYear (h : DayOfEra n y d) : n - (365 * y + y / 4 - y / 100) = d := by
  have := h.count
  omega

end DayOfEra

theorem isLeap_iff (year : Int) :
    isLeap year = true ↔ year % 4 = 0 ∧ (year % 100 ≠ 0 ∨ year % 400 = 0) := by
  simp [isLeap]

theorem isLeap_era_iff {y : Nat} (era : Int) : isLeap ((y : Int) + era * 400 + 1) = true ↔
    (y + 1) % 4 = 0 ∧ ((y + 1) % 100 ≠ 0 ∨ (y + 1) % 400 = 0) := by
  rw [isLeap_iff]
  omega

def ofMarch (year : Int) (m day : Nat) : Date :=
  ⟨if (if m < 10 then m + 3 else m - 9) ≤ 2 then year + 1 else year,
    if m < 10 then m + 3 else m - 9, day⟩

theorem exists_ofMarch {month : Nat} (year : Int) (day : Nat) (hlow : 1 ≤ month)
    (hhigh : month ≤ 12) : ∃ start m, m ≤ 11 ∧ Date.mk year month day = ofMarch start m day := by
  by_cases h : month ≤ 2
  · refine ⟨year - 1, month + 9, by omega, ?_⟩
    simp only [ofMarch, show ¬ month + 9 < 10 by omega, if_false, Nat.add_sub_cancel, h, if_true,
      Int.sub_add_cancel]
  · refine ⟨year, month - 3, by omega, ?_⟩
    simp only [ofMarch, show month - 3 < 10 by omega, if_true,
      show month - 3 + 3 = month by omega, h, if_false]

theorem valid_ofMarch {d m : Nat} {year : Int} (hd : d ≤ 365) (hm : (5 * d + 2) / 153 = m)
    (hleap : d = 365 → isLeap (year + 1) = true) :
    (ofMarch year m (d - (153 * m + 2) / 5 + 1)).Valid := by
  have hlow : 153 * m ≤ 5 * d + 2 := by omega
  have hhigh : 5 * d + 2 < 153 * m + 153 := by omega
  have hle : m ≤ 11 := by omega
  by_cases hlast : m = 11
  · subst hlast
    have hfebruary : 28 ≤ daysInMonth (year + 1) 2 := by
      unfold daysInMonth
      split
      · split <;> decide
      · omega
    by_cases hday : d = 365
    · rw [hday]
      simp [ofMarch, Valid, daysInMonth, hleap hday]
    · have hd28 : d - (153 * 11 + 2) / 5 + 1 ≤ 28 := by omega
      exact ⟨Nat.le_of_ble_eq_true rfl, Nat.le_of_ble_eq_true rfl, Nat.le_add_left 1 _,
        Nat.le_trans hd28 hfebruary⟩
  · have hm : m ≤ 10 := by omega
    interval_cases m <;> simp [ofMarch, Valid, daysInMonth] <;> omega

theorem dayOfYear_ofMarch {year : Int} {m day : Nat} (hm : m ≤ 11)
    (h : (ofMarch year m day).day ≤
      daysInMonth (ofMarch year m day).year (ofMarch year m day).month) :
    (153 * m + 2) / 5 + day ≤ (153 * (m + 1) + 2) / 5 ∧ (153 * m + 2) / 5 + day ≤ 366 ∧
      ((153 * m + 2) / 5 + day = 366 → isLeap (year + 1) = true) := by
  by_cases hlast : m = 11
  · subst hlast
    simp [ofMarch, daysInMonth] at h
    split at h
    · rename_i hleap
      exact ⟨by omega, by omega, fun _ => hleap⟩
    · exact ⟨by omega, by omega, by omega⟩
  · have hm : m ≤ 10 := by omega
    interval_cases m <;> simp [ofMarch, daysInMonth] at h <;> omega

theorem marchDays_ofMarch {year : Int} {m : Nat} (hm : m ≤ 11) (day : Nat) :
    (ofMarch year m day).marchDays = 365 * year + year / 4 - year / 100 + year / 400 +
      ((153 * m + 2) / 5 : Nat) + day - 1 := by
  by_cases h : m < 10
  · simp only [marchDays, ofMarch, h, if_true, show ¬ m + 3 ≤ 2 by omega, if_false,
      Nat.add_sub_cancel]
    push_cast
    omega
  · simp only [marchDays, ofMarch, h, if_false, show m - 9 ≤ 2 by omega, if_true,
      Int.add_sub_cancel, show m - 9 + 9 = m by omega]
    push_cast
    omega

theorem eraDays_eq {y : Nat} (era : Int) (hy : y ≤ 399) :
    365 * ((y : Int) + era * 400) + ((y : Int) + era * 400) / 4 - ((y : Int) + era * 400) / 100 +
      ((y : Int) + era * 400) / 400 = 146097 * era + (365 * y + y / 4 : Nat) - (y / 100 : Nat) := by
  omega

namespace DayOfEra

variable {n y d m day : Nat} {days era : Int}

theorem toDays (h : DayOfEra n y d) (hm : m ≤ 11) (hday : (153 * m + 2) / 5 + day = d + 1) :
    (ofMarch (y + era * 400) m day).toDays + 719468 = 146097 * era + n := by
  have hcount := h.count
  rw [Date.toDays, marchDays_ofMarch hm, eraDays_eq _ h.year]
  generalize (153 * m + 2) / 5 = before at hday ⊢
  omega

theorem ofDays (h : DayOfEra n y d) (hn : n < 146097) (hdays : days + 719468 = 146097 * era + n) :
    Date.ofDays days =
      ofMarch (y + era * 400) ((5 * d + 2) / 153) (d - (153 * ((5 * d + 2) / 153) + 2) / 5 + 1) := by
  have hera : (days + 719468) / 146097 = era := by omega
  have hin : ((days + 719468) % 146097).toNat = n := by omega
  simp only [Date.ofDays, hera, hin, h.yearOfEra, h.dayOfYear]
  rfl

theorem lt (h : DayOfEra n y d) : n < 146097 := by
  obtain ⟨hcount, hyear, hday, hleap⟩ := h
  omega

end DayOfEra

theorem exists_era (days : Int) :
    ∃ era n y d, DayOfEra n y d ∧ days + 719468 = 146097 * era + n := by
  obtain ⟨y, d, h⟩ := exists_dayOfEra (by omega : ((days + 719468) % 146097).toNat < 146097)
  exact ⟨(days + 719468) / 146097, _, y, d, h, by omega⟩

theorem valid_ofDays (days : Int) : (ofDays days).Valid := by
  obtain ⟨era, n, y, d, h, hdays⟩ := exists_era days
  rw [h.ofDays h.lt hdays]
  exact valid_ofMarch h.day rfl fun hd => (isLeap_era_iff era).2 (h.leap hd)

theorem toDays_ofDays (days : Int) : (ofDays days).toDays = days := by
  obtain ⟨era, n, y, d, h, hdays⟩ := exists_era days
  have hday := h.day
  have hback : (ofMarch (y + era * 400) ((5 * d + 2) / 153)
      (d - (153 * ((5 * d + 2) / 153) + 2) / 5 + 1)).toDays + 719468 = 146097 * era + n :=
    h.toDays (by omega) (by omega)
  rw [h.ofDays h.lt hdays]
  omega

theorem ofDays_toDays {date : Date} (hvalid : date.Valid) : ofDays date.toDays = date := by
  obtain ⟨year, month, day⟩ := date
  obtain ⟨hlow, hhigh, hday, hlength⟩ := hvalid
  dsimp only at hday
  obtain ⟨start, m, hm, hd⟩ := exists_ofMarch year day hlow hhigh
  rw [hd] at hlength ⊢
  obtain ⟨hmonth, hyear, hleap⟩ := dayOfYear_ofMarch hm hlength
  obtain ⟨y, era, hy, rfl⟩ : ∃ (y : Nat) (era : Int), y ≤ 399 ∧ start = y + era * 400 :=
    ⟨(start % 400).toNat, start / 400, by omega, by omega⟩
  rw [isLeap_era_iff] at hleap
  obtain ⟨d, hcount⟩ : ∃ d, (153 * m + 2) / 5 + day = d + 1 :=
    Nat.exists_eq_succ_of_ne_zero (by omega)
  have h : DayOfEra (365 * y + y / 4 + d - y / 100) y d :=
    ⟨by omega, hy, by omega, fun hlast => hleap (by omega)⟩
  have hshifted : (5 * d + 2) / 153 = m := by omega
  have hback : d - (153 * m + 2) / 5 + 1 = day := by omega
  rw [h.ofDays h.lt (h.toDays hm hcount), hshifted, hback]

def next (d : Date) : Date :=
  if d.day < daysInMonth d.year d.month then { d with day := d.day + 1 }
  else if d.month < 12 then ⟨d.year, d.month + 1, 1⟩
  else ⟨d.year + 1, 1, 1⟩

theorem daysInMonth_pos (year : Int) (month : Nat) : 1 ≤ daysInMonth year month := by
  unfold daysInMonth
  split
  · split <;> decide
  · split <;> decide

theorem daysInMonth_le (year : Int) (month : Nat) : daysInMonth year month ≤ 31 := by
  unfold daysInMonth
  split
  · split <;> decide
  · split <;> decide

theorem valid_next {d : Date} (h : d.Valid) : d.next.Valid := by
  obtain ⟨hlow, hhigh, hday, -⟩ := h
  unfold next
  split
  · rename_i hlt
    exact ⟨hlow, hhigh, Nat.le_add_left 1 _, hlt⟩
  · split
    · rename_i hmonth
      exact ⟨Nat.le_add_left 1 _, hmonth, Nat.le_refl 1, daysInMonth_pos _ _⟩
    · exact ⟨Nat.le_refl 1, Nat.le_of_ble_eq_true rfl, Nat.le_refl 1, daysInMonth_pos _ _⟩

theorem toDays_next {d : Date} (h : d.Valid) : d.next.toDays = d.toDays + 1 := by
  obtain ⟨year, month, day⟩ := d
  obtain ⟨hlow, hhigh, hday, hlength⟩ := h
  dsimp only at hlow hhigh hday hlength
  unfold next
  dsimp only
  split
  · simp only [toDays, marchDays]
    omega
  · obtain rfl : day = daysInMonth year month := by omega
    by_cases hfebruary : month = 2
    · subst hfebruary
      have hleap := isLeap_iff year
      by_cases hl : isLeap year = true
      · have := hleap.1 hl
        simp [toDays, marchDays, daysInMonth, hl]
        omega
      · have := mt hleap.2 hl
        simp [toDays, marchDays, daysInMonth, hl]
        omega
    · interval_cases month <;> simp [toDays, marchDays, daysInMonth] at hfebruary ⊢ <;> omega

theorem toDays_epoch : toDays ⟨1970, 1, 1⟩ = 0 := rfl

def newYear (year : Int) : Date := ⟨year, 1, 1⟩

theorem toDays_newYear_lt_succ (year : Int) : (newYear year).toDays < (newYear (year + 1)).toDays := by
  simp [newYear, toDays, marchDays]
  omega

theorem newYear_strictMono : StrictMono fun year => (newYear year).toDays :=
  strictMono_int_of_lt_succ toDays_newYear_lt_succ

theorem toDays_bounds {d : Date} (h : d.Valid) :
    (newYear d.year).toDays ≤ d.toDays ∧ d.toDays < (newYear (d.year + 1)).toDays := by
  obtain ⟨year, month, day⟩ := d
  obtain ⟨hlow, hhigh, hday, hlength⟩ := h
  dsimp only at hlow hhigh hday hlength
  have hmonth := Nat.le_trans hlength (daysInMonth_le year month)
  simp only [newYear, toDays, marchDays]
  interval_cases month <;> simp <;> omega

theorem le_year_iff {d : Date} (h : d.Valid) (year : Int) :
    year ≤ d.year ↔ (newYear year).toDays ≤ d.toDays := by
  obtain ⟨hlow, hhigh⟩ := toDays_bounds h
  constructor
  · intro hle
    exact Int.le_trans (newYear_strictMono.monotone hle) hlow
  · intro hle
    have hlt := newYear_strictMono.lt_iff_lt.1 (Int.lt_of_le_of_lt hle hhigh)
    omega

end Date

namespace Instant

theorem le_year_iff (i : Instant) (year : Int) :
    year ≤ i.date.year ↔ (Date.newYear year).toDays * 86400 ≤ i.seconds := by
  rw [date, Date.le_year_iff (Date.valid_ofDays _), Date.toDays_ofDays,
    Int.le_ediv_iff_mul_le (by decide)]

theorem years_iff (i : Instant) : 1970 ≤ i.date.year ∧ i.date.year ≤ 9999 ↔
    0 ≤ i.seconds ∧ i.seconds < 253402300800 := by
  have hlow : (Date.newYear 1970).toDays * 86400 = 0 := rfl
  have hhigh : (Date.newYear 10000).toDays * 86400 = 253402300800 := rfl
  have hle := le_year_iff i 1970
  have hlt := le_year_iff i 10000
  omega

theorem timeOfDay_bounds (i : Instant) :
    i.timeOfDay.hour ≤ 23 ∧ i.timeOfDay.minute ≤ 59 ∧ i.timeOfDay.second ≤ 59 := by
  unfold timeOfDay
  dsimp only
  omega

theorem secondsOf_date (i : Instant) : secondsOf i.date i.timeOfDay = i.seconds := by
  unfold secondsOf date timeOfDay
  rw [Date.toDays_ofDays]
  dsimp only
  omega

theorem date_eq {i : Instant} {d : Date} {t : TimeOfDay} (hd : d.Valid)
    (ht : t.hour ≤ 23 ∧ t.minute ≤ 59 ∧ t.second ≤ 59) (h : i.seconds = secondsOf d t) :
    i.date = d ∧ i.timeOfDay = t := by
  obtain ⟨hour, minute, second⟩ := t
  unfold secondsOf at h
  dsimp only at h ht
  have hdays : i.seconds / 86400 = d.toDays := by omega
  have hrest : (i.seconds % 86400).toNat = hour * 3600 + minute * 60 + second := by omega
  refine ⟨?_, ?_⟩
  · rw [date, hdays, Date.ofDays_toDays hd]
  · simp only [timeOfDay, hrest, TimeOfDay.mk.injEq]
    omega

end Instant

end Credential
