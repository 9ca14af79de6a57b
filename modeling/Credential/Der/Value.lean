import Credential.Bytes
import Credential.Error

namespace Credential.Der

structure Value where
  tag : UInt8
  content : Bytes
deriving DecidableEq, Repr

namespace Tag

def integer : UInt8 := 0x02
def bitString : UInt8 := 0x03
def octetString : UInt8 := 0x04
def null : UInt8 := 0x05
def oid : UInt8 := 0x06
def utf8String : UInt8 := 0x0C
def printableString : UInt8 := 0x13
def ia5String : UInt8 := 0x16
def utcTime : UInt8 := 0x17
def generalizedTime : UInt8 := 0x18
def bmpString : UInt8 := 0x1E
def sequence : UInt8 := 0x30
def set : UInt8 := 0x31

def context (number : UInt8) : UInt8 := 0xA0 + number

def implicit (number : UInt8) : UInt8 := 0x80 + number

def isContext (tag : UInt8) : Bool := tag &&& 0xC0 == 0x80
def isConstructed (tag : UInt8) : Bool := tag &&& 0x20 != 0
def number (tag : UInt8) : UInt8 := tag &&& 0x1F

def isKnown (tag : UInt8) : Bool :=
  if tag < 0x40 then
    [0x01, 0x02, 0x03, 0x04, 0x05, 0x06, 0x09, 0x0A, 0x0C, 0x12, 0x13, 0x14, 0x15, 0x16, 0x17, 0x18,
      0x1A, 0x1E, 0x30, 0x31].contains tag
  else number tag != 0x1F

end Tag

def lengthBytes (n : Nat) : Bytes :=
  if n < 128 then [UInt8.ofNat n]
  else
    let digits := Bytes.ofNat n
    UInt8.ofNat (128 + digits.length) :: digits

def Value.encode (v : Value) : Bytes :=
  v.tag :: lengthBytes v.content.length ++ v.content

def maxLength : Nat := 0xFFFFFFF

def Value.toDer (v : Value) (fault : Error) : Except Error Bytes :=
  if v.encode.length ≤ maxLength then .ok v.encode else .error fault

def readLength : Bytes → Option (Nat × Bytes)
  | [] => none
  | b :: rest =>
    if b < 0x80 then some (b.toNat, rest)
    else
      let count := b.toNat - 0x80
      let digits := rest.take count
      let n := Bytes.toNat digits
      if 0 < count ∧ count ≤ 4 ∧ digits.length = count ∧ lengthBytes n = b :: digits then
        some (n, rest.drop count)
      else none

def readValue : Bytes → Option (Value × Bytes)
  | [] => none
  | tag :: rest =>
    if Tag.isKnown tag then
      match readLength rest with
      | some (n, body) =>
        if n ≤ body.length then some (⟨tag, body.take n⟩, body.drop n) else none
      | none => none
    else none

theorem readLength_length {b rest : Bytes} {n : Nat} (h : readLength b = some (n, rest)) :
    rest.length < b.length := by
  unfold readLength at h
  split at h
  · simp at h
  · rename_i x xs
    split at h
    · simp only [Option.some.injEq, Prod.mk.injEq] at h
      simp [← h.2]
    · simp only [] at h
      split at h
      · simp only [Option.some.injEq, Prod.mk.injEq] at h
        simp only [← h.2, List.length_drop, List.length_cons]
        omega
      · simp at h

theorem readValue_length {b rest : Bytes} {v : Value} (h : readValue b = some (v, rest)) :
    rest.length < b.length := by
  unfold readValue at h
  split at h
  · simp at h
  · split at h
    · split at h
      · rename_i hl
        split at h
        · have := readLength_length hl
          simp only [Option.some.injEq, Prod.mk.injEq] at h
          simp only [← h.2, List.length_drop, List.length_cons]
          omega
        · simp at h
      · simp at h
    · simp at h

def readValues (b : Bytes) : Option (List Value) :=
  match b with
  | [] => some []
  | x :: xs =>
    match _ : readValue (x :: xs) with
    | some (v, rest) => (readValues rest).map (v :: ·)
    | none => none
termination_by b.length
decreasing_by exact readValue_length (by assumption)

def encodeAll (vs : List Value) : Bytes :=
  vs.flatMap Value.encode

def Value.decode? (b : Bytes) : Option Value :=
  match readValue b with
  | some (v, []) => if b.length ≤ maxLength then some v else none
  | _ => none

end Credential.Der
