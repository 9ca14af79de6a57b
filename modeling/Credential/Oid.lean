import Credential.Bytes
import Credential.Error
import Credential.Text.Digit

namespace Credential

structure Oid where
  content : Bytes
deriving DecidableEq, Repr

namespace Oid

def continued (n : Nat) : Bytes :=
  if n = 0 then [] else continued (n / 128) ++ [UInt8.ofNat (128 + n % 128)]
termination_by n

def arcBytes (n : Nat) : Bytes :=
  continued (n / 128) ++ [UInt8.ofNat (n % 128)]

def ofArcs : List Nat → Oid
  | first :: second :: rest => ⟨UInt8.ofNat (first * 40 + second) :: rest.flatMap arcBytes⟩
  | _ => ⟨[]⟩

def maxSize : Nat := 39

def arcLimit : Nat := 1 <<< 32

/-- The arcs after the first two, or nothing when the last one is unfinished or a sixth or later
byte of an arc carries one of its four high bits. -/
def readArcs : (value read : Nat) → Bytes → Option (List Nat)
  | _, 0, [] => some []
  | _, _ + 1, [] => none
  | value, read, b :: rest =>
    if 5 ≤ read ∧ b &&& 0xF0 ≠ 0 then none
    else
      let value := (value * 128 + b.toNat % 128) % arcLimit
      if b < 128 then (readArcs 0 0 rest).map (value :: ·) else readArcs value (read + 1) rest

def arcs? : Bytes → Option (List Nat)
  | [] => none
  | b :: rest =>
    if b < 120 then (readArcs 0 0 rest).map fun tail => (b / 40).toNat :: (b % 40).toNat :: tail
    else none

def ofContent? (content : Bytes) : Option Oid :=
  if 3 ≤ content.length ∧ content.length ≤ maxSize ∧ (arcs? content).isSome then some ⟨content⟩
  else none

def dotted (arcs : List Nat) : String :=
  ".".intercalate (arcs.map fun n => toString n)

def toText (oid : Oid) : String :=
  dotted ((arcs? oid.content).getD [])

/-- Whether an identifier can begin with these arcs. Those of a text leave a byte of `maxSize`. -/
def isBeginning : List Nat → Bool
  | [] => true
  | [first] => first ≤ 2
  | first :: second :: rest =>
    first ≤ 2 && second ≤ 39 && (ofArcs (first :: second :: rest)).content.length < maxSize

def extend (arcs : List Nat) (arc : Nat) : Except (Failure Unit) (List Nat) :=
  if isBeginning (arcs ++ [arc]) then .ok (arcs ++ [arc]) else .error (.raised ())

/-- The arcs of a dotted text. Those before the first dot to come are `arcs`, and `arc` is the value
of the digits after them. An arc overflows at the digit that takes it to `arcLimit`; whether it can
stand where it does is asked at its end. Between two dots there may be no digit. -/
def textArcs (arcs : List Nat) (arc : Nat) : List Char → Except (Failure Unit) (List Nat)
  | [] => extend arcs arc
  | '.' :: rest =>
    if rest.isEmpty then .error (.raised ())
    else do
      let arcs ← extend arcs arc
      textArcs arcs 0 rest
  | c :: rest =>
    if Text.isDigit c then
      if arc * 10 + Text.digitValue c < arcLimit then
        textArcs arcs (arc * 10 + Text.digitValue c) rest
      else .error .overflow
    else .error (.raised ())

def ofText (s : String) : Except (Failure Unit) Oid :=
  match s.toList with
  | [] => .error (.raised ())
  | c :: rest =>
    if Text.isDigit c then do
      let arcs ← textArcs [] 0 (c :: rest)
      if 3 ≤ arcs.length then .ok (ofArcs arcs) else .error (.raised ())
    else .error (.raised ())

end Oid

end Credential
