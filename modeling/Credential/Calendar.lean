import Credential.Error

namespace Credential

/-- Seconds since the start of 1970 in UTC, the fraction in nanoseconds, and the offset from UTC,
in seconds, in which a clock would show it. -/
structure Instant where
  seconds : Int
  nanos : Nat
  offset : Int
deriving DecidableEq, Repr

structure Date where
  year : Int
  month : Nat
  day : Nat
deriving DecidableEq, Repr

structure TimeOfDay where
  hour : Nat
  minute : Nat
  second : Nat
deriving DecidableEq, Repr

namespace Date

def isLeap (year : Int) : Bool :=
  year % 4 = 0 && (year % 100 ≠ 0 || year % 400 = 0)

def daysInMonth (year : Int) (month : Nat) : Nat :=
  if month = 2 then (if isLeap year then 29 else 28)
  else if month ∈ [4, 6, 9, 11] then 30
  else 31

def Valid (d : Date) : Prop :=
  1 ≤ d.month ∧ d.month ≤ 12 ∧ 1 ≤ d.day ∧ d.day ≤ daysInMonth d.year d.month

instance (d : Date) : Decidable d.Valid := by
  unfold Valid
  infer_instance

/-- Days from the first of March of year zero, in whose terms a leap day ends a year. -/
def marchDays (d : Date) : Int :=
  let year := if d.month ≤ 2 then d.year - 1 else d.year
  let month := if d.month ≤ 2 then d.month + 9 else d.month - 3
  365 * year + year / 4 - year / 100 + year / 400 + (((153 * month + 2) / 5 + d.day : Nat) : Int) - 1

def toDays (d : Date) : Int := d.marchDays - 719468

def ofDays (days : Int) : Date :=
  let z := days + 719468
  let era := z / 146097
  let inEra := (z % 146097).toNat
  let yearOfEra := (inEra - inEra / 1460 + inEra / 36524 - inEra / 146096) / 365
  let dayOfYear := inEra - (365 * yearOfEra + yearOfEra / 4 - yearOfEra / 100)
  let shifted := (5 * dayOfYear + 2) / 153
  let day := dayOfYear - (153 * shifted + 2) / 5 + 1
  let month := if shifted < 10 then shifted + 3 else shifted - 9
  let year := (yearOfEra : Int) + era * 400
  ⟨if month ≤ 2 then year + 1 else year, month, day⟩

end Date

namespace Instant

def secondsOf (d : Date) (t : TimeOfDay) : Int :=
  d.toDays * 86400 + (t.hour * 3600 + t.minute * 60 + t.second : Nat)

def date (i : Instant) : Date := .ofDays (i.seconds / 86400)

def timeOfDay (i : Instant) : TimeOfDay :=
  let s := (i.seconds % 86400).toNat
  ⟨s / 3600, s / 60 % 60, s % 60⟩

def padded (width n : Nat) : String :=
  let digits := (Nat.toDigits 10 n)
  String.ofList (List.replicate (width - digits.length) '0' ++ digits)

def fractionText (nanos : Nat) : String :=
  let digits := ((padded 9 nanos).toList.reverse.dropWhile (· = '0')).reverse
  if digits.isEmpty then "0" else String.ofList digits

def toText (i : Instant) : String :=
  let d := i.date
  let t := i.timeOfDay
  let sign := if d.year < 0 then "-" else ""
  s!"{sign}{padded 4 d.year.natAbs}-{padded 2 d.month}-{padded 2 d.day} " ++
    s!"{t.hour}:{padded 2 t.minute}:{padded 2 t.second}.{fractionText i.nanos} +00:00:00"

end Instant

end Credential
