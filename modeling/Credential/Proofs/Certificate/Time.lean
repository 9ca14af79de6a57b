import Credential.Proofs.Calendar
import Credential.Proofs.Certificate.Reading

namespace Credential.Certificate

open Der (Value)

theorem digit_bounds {n : Nat} (h : n ≤ 9) :
    0x30 ≤ UInt8.ofNat (0x30 + n) ∧ UInt8.ofNat (0x30 + n) ≤ 0x39 ∧
      (UInt8.ofNat (0x30 + n)).toNat - 0x30 = n := by
  have hn : (UInt8.ofNat (0x30 + n)).toNat = 0x30 + n := by
    rw [UInt8.toNat_ofNat']
    omega
  refine ⟨?_, ?_, by omega⟩
  · rw [UInt8.le_iff_toNat_le, hn]
    exact Nat.le_add_right _ _
  · rw [UInt8.le_iff_toNat_le, hn]
    exact Nat.add_le_add_left h _

theorem isVisible_digit {n : Nat} (h : n ≤ 9) : isVisible (UInt8.ofNat (0x30 + n)) = true := by
  obtain ⟨hlow, hhigh, -⟩ := digit_bounds h
  rw [isVisible, Bool.and_eq_true, decide_eq_true_eq, decide_eq_true_eq]
  exact ⟨UInt8.le_trans (by decide) hlow, UInt8.le_trans hhigh (by decide)⟩

theorem readTwo?_digits {m n : Nat} (hm : m ≤ 9) (hn : n ≤ 9) :
    readTwo? (UInt8.ofNat (0x30 + m)) (UInt8.ofNat (0x30 + n)) = some (m * 10 + n) := by
  obtain ⟨hlow, hhigh, hvalue⟩ := digit_bounds hm
  obtain ⟨hlow', hhigh', hvalue'⟩ := digit_bounds hn
  rw [readTwo?, if_pos ⟨hlow, hhigh, hlow', hhigh'⟩, hvalue, hvalue']

namespace Moment

variable {m : Moment} {n : Nat} {rest : Bytes}

theorem readTwo?_twoDigits (h : n ≤ 99) : readTwo? (UInt8.ofNat (0x30 + n / 10 % 10))
    (UInt8.ofNat (0x30 + n % 10)) = some n := by
  rw [readTwo?_digits (by omega) (by omega)]
  congr 1
  omega

theorem isVisible_twoDigits (n : Nat) : (twoDigits n).all isVisible = true := by
  rw [twoDigits, List.all_cons, List.all_cons, isVisible_digit (by omega), isVisible_digit (by omega)]
  rfl

structure Written (m : Moment) : Prop where
  low : 1970 ≤ m.date.year
  high : m.date.year ≤ 9999
  date : m.date.Valid
  time : TimeOfDay.Valid m.time

theorem ofInstant_eq (i : Instant) : ofInstant i =
    if 1970 ≤ i.date.year ∧ i.date.year ≤ 9999 then .ok ⟨i.date, i.timeOfDay⟩
    else .error (.invalidValidity (if i.date.year < 0 ∨ 65535 < i.date.year
      then .year i.date.year else .unrepresentable i.toText)) := by
  unfold ofInstant
  dsimp only
  by_cases h : 1970 ≤ i.date.year ∧ i.date.year ≤ 9999
  · rw [if_pos h, if_neg (by omega), if_neg (by omega)]
  · rw [if_neg h]
    split
    · rfl
    · rw [if_pos (by omega)]

theorem ofInstant_ok_iff {i : Instant} : ofInstant i = .ok m ↔
    (1970 ≤ i.date.year ∧ i.date.year ≤ 9999) ∧ m = ⟨i.date, i.timeOfDay⟩ := by
  rw [ofInstant_eq]
  split
  · rename_i hyear
    rw [Except.ok.injEq, eq_comm]
    exact (and_iff_right hyear).symm
  · rename_i hyear
    refine iff_of_false ?_ (mt And.left hyear)
    rintro ⟨⟩

theorem written_of_ofInstant {i : Instant} (h : ofInstant i = .ok m) : m.Written := by
  obtain ⟨⟨hlow, hhigh⟩, rfl⟩ := ofInstant_ok_iff.1 h
  exact ⟨hlow, hhigh, Date.valid_ofDays _, i.timeOfDay_bounds⟩

theorem ofInstant_of_year {i : Instant} (hlow : 1970 ≤ i.date.year) (hhigh : i.date.year ≤ 9999) :
    ofInstant i = .ok ⟨i.date, i.timeOfDay⟩ := ofInstant_ok_iff.2 ⟨⟨hlow, hhigh⟩, rfl⟩

theorem seconds_of_ofInstant {i : Instant} (h : ofInstant i = .ok m) : m.seconds = i.seconds := by
  obtain ⟨-, rfl⟩ := ofInstant_ok_iff.1 h
  exact i.secondsOf_date

theorem readDate?_twoDigits {century : Nat} {d : Date} (hd : d.Valid) (hn : n ≤ 99) :
    readDate? century (twoDigits n ++ twoDigits d.month ++ twoDigits d.day ++ rest) =
      some (⟨(century * 100 + n : Nat), d.month, d.day⟩, rest) := by
  obtain ⟨-, hmonth, -, hday⟩ := hd
  have hdays := Date.daysInMonth_le d.year d.month
  simp only [twoDigits, List.cons_append, List.nil_append, readDate?, readTwo?_twoDigits hn,
    readTwo?_twoDigits (by omega : d.month ≤ 99), readTwo?_twoDigits (by omega : d.day ≤ 99)]

theorem readTimeOfDay?_twoDigits {t : TimeOfDay} (ht : TimeOfDay.Valid t) (rest : Bytes) :
    readTimeOfDay? (twoDigits t.hour ++ twoDigits t.minute ++ twoDigits t.second ++ rest) =
      some (t, rest) := by
  obtain ⟨hhour, hminute, hsecond⟩ := ht
  simp only [twoDigits, List.cons_append, List.nil_append, readTimeOfDay?,
    readTwo?_twoDigits (by omega : t.hour ≤ 99), readTwo?_twoDigits (by omega : t.minute ≤ 99),
    readTwo?_twoDigits (by omega : t.second ≤ 99), Option.map_some]

theorem secondsIfValid_written (h : m.Written) : secondsIfValid m.date m.time 0 = some m.seconds := by
  rw [secondsIfValid, if_pos ⟨h.date, h.time⟩, Int.sub_zero]
  rfl

theorem twoDigits_mod (n : Nat) : twoDigits (n % 100) = twoDigits n := by
  unfold twoDigits
  rw [show n % 100 / 10 % 10 = n / 10 % 10 by omega, show n % 100 % 10 = n % 10 by omega]

def clock (m : Moment) : Bytes :=
  twoDigits m.time.hour ++ twoDigits m.time.minute ++ twoDigits m.time.second ++ [0x5A]

def digits (m : Moment) : Bytes :=
  twoDigits (m.date.year.toNat % 100) ++ twoDigits m.date.month ++ twoDigits m.date.day ++ m.clock

theorem value_utcTime (hf : m.form = .utcTime) : m.value = ⟨Der.Tag.utcTime, m.digits⟩ := by
  simp only [value, hf, if_true, digits, clock, twoDigits_mod, List.nil_append, List.append_assoc]
  rfl

theorem value_generalizedTime (hf : m.form = .generalizedTime) :
    m.value = ⟨Der.Tag.generalizedTime, twoDigits (m.date.year.toNat / 100) ++ m.digits⟩ := by
  have hne : ¬ TimeForm.generalizedTime = TimeForm.utcTime := by decide
  simp only [value, hf, hne, if_false, digits, clock, twoDigits_mod, List.append_assoc]
  rfl

theorem isVisible_digits (m : Moment) : m.digits.all isVisible = true := by
  simp only [digits, clock, List.all_append, isVisible_twoDigits, Bool.true_and]
  decide

theorem readTimeOfDay?_clock (h : m.Written) : readTimeOfDay? m.clock = some (m.time, [0x5A]) :=
  readTimeOfDay?_twoDigits h.time [0x5A]

theorem readUtcTime?_digits (h : m.Written) (hf : m.form = .utcTime) :
    readUtcTime? m.digits = some m.seconds := by
  have hlow := h.low
  have hyear : m.date.year.toNat % 100 ≤ 99 := by omega
  have hshort : 1950 ≤ m.date.year ∧ m.date.year < 2050 := by
    by_contra hn
    rw [form, if_neg hn] at hf
    cases hf
  have hdate : readDate? 0 m.digits =
      some (⟨(0 * 100 + m.date.year.toNat % 100 : Nat), m.date.month, m.date.day⟩, m.clock) :=
    readDate?_twoDigits h.date hyear
  have hfull : (if (50 : Int) ≤ (0 * 100 + m.date.year.toNat % 100 : Nat) then
      1900 + ((0 * 100 + m.date.year.toNat % 100 : Nat) : Int)
      else 2000 + ((0 * 100 + m.date.year.toNat % 100 : Nat) : Int)) = m.date.year := by
    split <;> omega
  simp only [readUtcTime?, isVisible_digits, if_true, hdate, readTimeOfDay?_clock h, hfull]
  exact secondsIfValid_written h

theorem readGeneralizedTime?_digits (h : m.Written) :
    readGeneralizedTime? (twoDigits (m.date.year.toNat / 100) ++ m.digits) = some m.seconds := by
  have hlow := h.low
  have hhigh := h.high
  have hyear : m.date.year.toNat % 100 ≤ 99 := by omega
  have hdate : readDate? (m.date.year.toNat / 100) m.digits =
      some (⟨(m.date.year.toNat / 100 * 100 + m.date.year.toNat % 100 : Nat), m.date.month,
        m.date.day⟩, m.clock) := readDate?_twoDigits h.date hyear
  have hfull : ((m.date.year.toNat / 100 * 100 + m.date.year.toNat % 100 : Nat) : Int) =
      m.date.year := by omega
  have hcentury := readTwo?_twoDigits (by omega : m.date.year.toNat / 100 ≤ 99)
  have hvisible : (twoDigits (m.date.year.toNat / 100) ++ m.digits).all isVisible = true := by
    rw [List.all_append, isVisible_twoDigits, isVisible_digits]
    rfl
  have hfraction : dropFraction? [0x5A] = some [0x5A] := rfl
  simp only [twoDigits, List.cons_append, List.nil_append] at hvisible ⊢
  simp only [readGeneralizedTime?, hvisible, if_true, hcentury, hdate, hfull,
    readTimeOfDay?_clock h, hfraction]
  exact secondsIfValid_written h

theorem readTime?_value (h : m.Written) :
    readTime? (m.value.tag &&& 0x1F).toNat m.value.content = some m.seconds := by
  cases hf : m.form with
  | utcTime =>
    have hnumber : (Der.Tag.utcTime &&& 0x1F).toNat = 0x17 := rfl
    rw [value_utcTime hf]
    simp only [readTime?, hnumber, if_true]
    exact readUtcTime?_digits h hf
  | generalizedTime =>
    have hnumber : (Der.Tag.generalizedTime &&& 0x1F).toNat = 0x18 := rfl
    have hother : ¬ (0x18 : Nat) = 0x17 := by decide
    rw [value_generalizedTime hf]
    simp only [readTime?, hnumber, hother, if_false, if_true]
    exact readGeneralizedTime?_digits h

end Moment

end Credential.Certificate
