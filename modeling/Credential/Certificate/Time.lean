import Credential.Calendar
import Credential.Der.Primitive
/-!
The two forms of time in a certificate. Writing follows the rule that years to 2049 take the short
form; reading accepts more than is written.
-/

namespace Credential.Certificate

inductive TimeForm where
  | utcTime
  | generalizedTime
deriving DecidableEq, Repr

namespace TimeForm

def tag : TimeForm → UInt8
  | utcTime => Der.Tag.utcTime
  | generalizedTime => Der.Tag.generalizedTime

end TimeForm

structure Moment where
  date : Date
  time : TimeOfDay
deriving DecidableEq, Repr

namespace Moment

def ofInstant (i : Instant) : Except Error Moment :=
  let date := i.date
  if date.year < 0 ∨ 65535 < date.year then .error (.invalidValidity (.year date.year))
  else if date.year < 1970 ∨ 9999 < date.year then
    .error (.invalidValidity (.unrepresentable i.toText))
  else .ok ⟨date, i.timeOfDay⟩

def seconds (m : Moment) : Int := Instant.secondsOf m.date m.time

def form (m : Moment) : TimeForm :=
  if 1950 ≤ m.date.year ∧ m.date.year < 2050 then .utcTime else .generalizedTime

def twoDigits (n : Nat) : Bytes :=
  [UInt8.ofNat (0x30 + n / 10 % 10), UInt8.ofNat (0x30 + n % 10)]

def value (m : Moment) : Der.Value :=
  let year := m.date.year.toNat
  let century := if m.form = .utcTime then [] else twoDigits (year / 100)
  ⟨m.form.tag, century ++ twoDigits year ++ twoDigits m.date.month ++ twoDigits m.date.day ++
    twoDigits m.time.hour ++ twoDigits m.time.minute ++ twoDigits m.time.second ++ [0x5A]⟩

end Moment

def readTwo? (a b : UInt8) : Option Nat :=
  if 0x30 ≤ a ∧ a ≤ 0x39 ∧ 0x30 ≤ b ∧ b ≤ 0x39 then
    some ((a.toNat - 0x30) * 10 + (b.toNat - 0x30))
  else none

def readDate? : (century : Nat) → Bytes → Option (Date × Bytes)
  | century, y1 :: y2 :: m1 :: m2 :: d1 :: d2 :: rest =>
    match readTwo? y1 y2, readTwo? m1 m2, readTwo? d1 d2 with
    | some year, some month, some day => some (⟨(century * 100 + year : Nat), month, day⟩, rest)
    | _, _, _ => none
  | _, _ => none

def readTimeOfDay? : Bytes → Option (TimeOfDay × Bytes)
  | h1 :: h2 :: m1 :: m2 :: rest =>
    match readTwo? h1 h2, readTwo? m1 m2 with
    | some hour, some minute =>
      match rest with
      | s1 :: s2 :: rest => (readTwo? s1 s2).map fun second => (⟨hour, minute, second⟩, rest)
      | rest => some (⟨hour, minute, 0⟩, rest)
    | _, _ => none
  | _ => none

def TimeOfDay.Valid (t : TimeOfDay) : Prop := t.hour ≤ 23 ∧ t.minute ≤ 59 ∧ t.second ≤ 59

instance (t : TimeOfDay) : Decidable (TimeOfDay.Valid t) := by
  unfold TimeOfDay.Valid
  infer_instance

/-- The offset from UTC in seconds. A sign in front of zero hours does not reach the minutes. -/
def readOffset? : Bytes → Option Int
  | [0x5A] => some 0
  | [sign, h1, h2, m1, m2] =>
    match readTwo? h1 h2, readTwo? m1 m2 with
    | some hours, some minutes =>
      if 25 < hours ∨ 59 < minutes then none
      else if sign = 0x2B then some (hours * 3600 + minutes * 60 : Nat)
      else if sign = 0x2D then
        some (if hours = 0 then (minutes * 60 : Nat) else -((hours * 3600 + minutes * 60 : Nat) : Int))
      else none
    | _, _ => none
  | _ => none

def isVisible (b : UInt8) : Bool := 0x20 ≤ b && b ≤ 0x7F

def secondsIfValid (d : Date) (t : TimeOfDay) (offset : Int) : Option Int :=
  if d.Valid ∧ TimeOfDay.Valid t then some (Instant.secondsOf d t - offset) else none

def readUtcTime? (b : Bytes) : Option Int :=
  if b.all isVisible then
    match readDate? 0 b with
    | some (d, rest) =>
      match readTimeOfDay? rest with
      | some (t, rest) =>
        let date := { d with year := if 50 ≤ d.year then 1900 + d.year else 2000 + d.year }
        (readOffset? rest).bind (secondsIfValid date t)
      | none => none
    | none => none
  else none

def dropFraction? : Bytes → Option Bytes
  | 0x2E :: rest =>
    let after := rest.dropWhile fun b => 0x30 ≤ b && b ≤ 0x39
    if rest.length - after.length ≤ 3 then some after else none
  | rest => some rest

def readGeneralizedTime? (b : Bytes) : Option Int :=
  match b with
  | y1 :: y2 :: rest =>
    if b.all isVisible then
      match readTwo? y1 y2 with
      | some century =>
        match readDate? century rest with
        | some (d, rest) =>
          match readTimeOfDay? rest with
          | some (t, rest) =>
            if dropFraction? rest = some [0x5A] then secondsIfValid d t 0 else none
          | none => none
        | none => none
      | none => none
    else none
  | _ => none

def readTime? (number : Nat) (content : Bytes) : Option Int :=
  if number = 0x17 then readUtcTime? content
  else if number = 0x18 then readGeneralizedTime? content
  else none

end Credential.Certificate
