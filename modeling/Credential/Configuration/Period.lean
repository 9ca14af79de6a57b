import Credential.Text.Blank
import Credential.Text.Digit
/-!
Signed periods of weeks, days, hours, minutes and seconds, such as `P365D`, `PT12H` or `-P1D`.
Years and months have no fixed length and are refused.
-/

namespace Credential

structure Period where
  seconds : Int
deriving DecidableEq, Repr

namespace Period

inductive Fault where
  | noStart
  | noValue
  | tooLong
  | noFixedLength
  | unexpectedDesignator
  | noDesignator
  | noComponents
deriving DecidableEq, Repr

def Fault.message : Fault → String
  | noStart => "expected a `P` designator"
  | noValue => "designator without a value"
  | tooLong => "value out of range"
  | noFixedLength => "years and months have no fixed length"
  | unexpectedDesignator => "unexpected designator"
  | noDesignator => "value without a designator"
  | noComponents => "no components"

def limit : Nat := 0x7fffffffffffffff

inductive Part where
  | date
  | time
deriving DecidableEq, Repr

def Part.unit : Part → Char → Except Fault Nat
  | date, 'W' => .ok 604800
  | date, 'D' => .ok 86400
  | date, 'Y' => .error .noFixedLength
  | date, 'M' => .error .noFixedLength
  | time, 'H' => .ok 3600
  | time, 'M' => .ok 60
  | time, 'S' => .ok 1
  | _, _ => .error .unexpectedDesignator

def addComponent (part : Part) (total value : Nat) (c : Char) : Except Fault Nat :=
  if limit < value then .error .tooLong
  else
    match part.unit c with
    | .error fault => .error fault
    | .ok unit =>
      if limit < total + unit * value then .error .tooLong else .ok (total + unit * value)

/-- Sums up components. `pending` is the number read so far, `isFilled` tells whether the part has
a component. -/
def scan : Part → (pending : Option Nat) → (total : Nat) → (isFilled : Bool) → List Char →
    Except Fault Nat
  | _, some _, _, _, [] => .error .noDesignator
  | _, none, total, isFilled, [] => if isFilled then .ok total else .error .noComponents
  | part, pending, total, isFilled, c :: rest =>
    if Text.isDigit c then
      scan part (some (pending.getD 0 * 10 + Text.digitValue c)) total isFilled rest
    else
      match pending with
      | none =>
        if c = 'T' ∧ part = .date then scan .time none total false rest else .error .noValue
      | some value =>
        match addComponent part total value c with
        | .error fault => .error fault
        | .ok total => scan part none total true rest

def readLength : List Char → Except Fault Nat
  | 'P' :: body => scan .date none 0 false body
  | _ => .error .noStart

def readSigned : List Char → Except Fault Int
  | '-' :: rest => (readLength rest).map fun (n : Nat) => -(n : Int)
  | '+' :: rest => (readLength rest).map fun (n : Nat) => (n : Int)
  | rest => (readLength rest).map fun (n : Nat) => (n : Int)

def parse (s : String) : Except Fault Period :=
  (readSigned (Text.upper (Text.trim s)).toList).map Period.mk

end Period

end Credential
