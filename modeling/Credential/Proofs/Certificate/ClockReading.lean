import Credential.Proofs.Certificate.Forging
/-!
The times of a certificate are the instants that clocks show, whatever zone the clocks are set to.
Days are counted from the first of January 1970, one for each date of the calendar.
-/

namespace Credential.Certificate

structure ClockReading where
  date : Date
  time : TimeOfDay
  nanos : Nat
  offset : Int
  date_valid : date.Valid
  time_valid : TimeOfDay.Valid time
  nanos_lt : nanos < 1000000000

namespace ClockReading

variable {r s u : ClockReading}

def seconds (r : ClockReading) : Int := Instant.secondsOf r.date r.time - r.offset

def nanoseconds (r : ClockReading) : Int := r.seconds * 1000000000 + r.nanos

def instant (r : ClockReading) : Instant := ⟨r.seconds, r.nanos, r.offset⟩

def utc (r : ClockReading) : ClockReading where
  date := r.instant.date
  time := r.instant.timeOfDay
  nanos := r.nanos
  offset := 0
  date_valid := Date.valid_ofDays _
  time_valid := r.instant.timeOfDay_bounds
  nanos_lt := r.nanos_lt

theorem nanoseconds_div (r : ClockReading) : r.nanoseconds / 1000000000 = r.seconds := by
  have := r.nanos_lt
  unfold nanoseconds
  omega

theorem nanoseconds_eq_iff :
    s.nanoseconds = r.nanoseconds ↔ s.seconds = r.seconds ∧ s.nanos = r.nanos := by
  have hs := s.nanos_lt
  have hr := r.nanos_lt
  unfold nanoseconds
  omega

theorem seconds_utc (r : ClockReading) : r.utc.seconds = r.seconds := by
  show Instant.secondsOf r.instant.date r.instant.timeOfDay - 0 = r.seconds
  rw [Instant.secondsOf_date, Int.sub_zero]
  rfl

theorem eq_utc_iff : u.offset = 0 ∧ u.nanoseconds = r.nanoseconds ↔ u = r.utc := by
  constructor
  · rintro ⟨hoffset, hnanoseconds⟩
    obtain ⟨hseconds, hnanos⟩ := nanoseconds_eq_iff.1 hnanoseconds
    obtain ⟨date, time, nanos, offset, hdate, htime, hlt⟩ := u
    dsimp only [seconds] at hoffset hseconds hnanos
    subst hoffset hnanos
    rw [Int.sub_zero] at hseconds
    obtain ⟨hd, ht⟩ := Instant.date_eq (i := r.instant) hdate htime hseconds.symm
    subst hd ht
    rfl
  · rintro rfl
    exact ⟨rfl, nanoseconds_eq_iff.2 ⟨r.seconds_utc, rfl⟩⟩

structure Encodes (u : ClockReading) (m : Moment) : Prop where
  form : m.form = if u.date.year ≤ 2049 then .utcTime else .generalizedTime
  tag : m.value.tag = if u.date.year ≤ 2049 then Der.Tag.utcTime else Der.Tag.generalizedTime
  read : ∀ rest, readTime (m.value.encode ++ rest) = .ok (u.nanoseconds / 1000000000, rest)

theorem fits_value (m : Moment) : m.value.Fits := by
  have hcontent : m.value.content.length ≤ 15 := by
    unfold Moment.value Moment.twoDigits
    dsimp only
    split <;> simp
  exact Nat.le_trans (Der.Value.length_encode_le hcontent (by decide)) (by decide)

theorem encodes_ofInstant {m : Moment} (h : Moment.ofInstant r.instant = .ok m) :
    r.utc.Encodes m := by
  obtain ⟨⟨hlow, -⟩, hm⟩ := Moment.ofInstant_ok_iff.1 h
  have hyear : m.date.year = r.utc.date.year := by rw [hm]; rfl
  have hform : m.form = if r.utc.date.year ≤ 2049 then .utcTime else .generalizedTime := by
    rw [Moment.form, hyear]
    refine if_congr ?_ rfl rfl
    show 1950 ≤ r.instant.date.year ∧ r.instant.date.year < 2050 ↔ r.instant.date.year ≤ 2049
    omega
  refine ⟨hform, ?_, ?_⟩
  · show m.form.tag = _
    rw [hform]
    split <;> rfl
  · intro rest
    rw [readTime_value (Moment.written_of_ofInstant h) (fits_value m), nanoseconds_div,
      seconds_utc, Moment.seconds_of_ofInstant h]
    rfl

theorem ofInstant_congr (h : s.nanoseconds = r.nanoseconds) :
    Moment.ofInstant s.instant = Moment.ofInstant r.instant := by
  obtain ⟨hseconds, hnanos⟩ := nanoseconds_eq_iff.1 h
  unfold instant
  rw [hseconds, hnanos]
  rfl

theorem ofInstant_exact (r : ClockReading) :
    (Date.toDays ⟨1970, 1, 1⟩ = 0 ∧
      ∀ d : Date, d.Valid → d.next.Valid ∧ d.next.toDays = d.toDays + 1) ∧
    ∃ u : ClockReading,
    (∀ v : ClockReading, v.offset = 0 ∧ v.nanoseconds = r.nanoseconds ↔ v = u) ∧
    (Moment.ofInstant r.instant =
      if 1970 ≤ u.date.year ∧ u.date.year ≤ 9999 then .ok ⟨u.date, u.time⟩
      else .error (.invalidValidity (if u.date.year < 0 ∨ 65535 < u.date.year
        then .year u.date.year else .unrepresentable r.instant.toText))) ∧
    (∀ m, Moment.ofInstant r.instant = .ok m → u.Encodes m) ∧
    (∀ s : ClockReading, s.nanoseconds = r.nanoseconds →
      Moment.ofInstant s.instant = Moment.ofInstant r.instant) ∧
    ∀ (s : ClockReading) (subject : Name) (name : String) (identifier : AlgorithmIdentifier)
      (key : Rsa.KeyPair) (c : Certificate),
      forge subject name identifier key r.instant s.instant = .ok c →
        c.fields.notBefore = r.nanoseconds / 1000000000 ∧
        c.fields.notAfter = s.nanoseconds / 1000000000 := by
  refine ⟨⟨Date.toDays_epoch, ?_⟩, r.utc, ?_, Moment.ofInstant_eq r.instant, ?_, ?_, ?_⟩
  · intro d hd
    exact ⟨Date.valid_next hd, Date.toDays_next hd⟩
  · intro v
    exact eq_utc_iff
  · intro m hm
    exact encodes_ofInstant hm
  · intro s hs
    exact ofInstant_congr hs
  · intro s subject name identifier key c hc
    rw [nanoseconds_div, nanoseconds_div]
    exact validity_forge hc

def newYear : ClockReading where
  date := ⟨2049, 12, 31⟩
  time := ⟨23, 30, 0⟩
  nanos := 500000000
  offset := -3600
  date_valid := by decide
  time_valid := by decide
  nanos_lt := by decide

theorem ofInstant_exact_newYear : ∃ u : ClockReading,
    (u.date = ⟨2050, 1, 1⟩ ∧ u.time = ⟨0, 30, 0⟩ ∧ u.nanos = 500000000 ∧ u.offset = 0) ∧
    Moment.ofInstant newYear.instant = .ok ⟨⟨2050, 1, 1⟩, ⟨0, 30, 0⟩⟩ ∧
    u.Encodes ⟨⟨2050, 1, 1⟩, ⟨0, 30, 0⟩⟩ ∧ u.nanoseconds / 1000000000 = 2524609800 := by
  obtain ⟨-, u, hunique, hmoment, hencodes, -, -⟩ := ofInstant_exact newYear
  obtain rfl : newYear.utc = u := (hunique newYear.utc).1 ⟨rfl, by decide⟩
  have hm : Moment.ofInstant newYear.instant = .ok ⟨⟨2050, 1, 1⟩, ⟨0, 30, 0⟩⟩ := by
    rw [hmoment]
    decide
  exact ⟨newYear.utc, by decide, hm, hencodes _ hm, by decide⟩

end ClockReading

end Credential.Certificate
