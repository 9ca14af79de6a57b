import Credential.Der.Value
import Credential.Oid

namespace Credential.Der.Value

def sequence (vs : List Value) : Value := ⟨Tag.sequence, encodeAll vs⟩

def sequence? (v : Value) : Option (List Value) :=
  if v.tag = Tag.sequence then readValues v.content else none

def naturalBytes (n : Nat) : Bytes :=
  match Bytes.ofNat n with
  | [] => [0]
  | b :: rest => if b < 0x80 then b :: rest else 0 :: b :: rest

def natural (n : Nat) : Value := ⟨Tag.integer, naturalBytes n⟩

def natural? (v : Value) : Option Nat :=
  if v.tag = Tag.integer then
    let n := Bytes.toNat v.content
    if naturalBytes n = v.content then some n else none
  else none

def naturalBelow? (limit : Nat) (v : Value) : Option Nat :=
  match v.natural? with
  | some n => if n < limit then some n else none
  | none => none

def octets (b : Bytes) : Value := ⟨Tag.octetString, b⟩

def octets? (v : Value) : Option Bytes :=
  if v.tag = Tag.octetString then some v.content else none

def bits (b : Bytes) : Value := ⟨Tag.bitString, 0 :: b⟩

def bitContent? : Bytes → Option (UInt8 × Bytes)
  | [] => none
  | unused :: b => if unused ≤ 7 ∧ (unused = 0 ∨ b ≠ []) then some (unused, b) else none

def bits? (v : Value) : Option (UInt8 × Bytes) :=
  if v.tag = Tag.bitString then bitContent? v.content else none

def null : Value := ⟨Tag.null, []⟩

def oid (o : Oid) : Value := ⟨Tag.oid, o.content⟩

def oid? (v : Value) : Option Oid :=
  if v.tag = Tag.oid then Oid.ofContent? v.content else none

def explicit (number : UInt8) (v : Value) : Value := ⟨Tag.context number, v.encode⟩

def explicit? (number : UInt8) (v : Value) : Option Value :=
  if v.tag = Tag.context number then decode? v.content else none

theorem octets?_octets (b : Bytes) : (octets b).octets? = some b := rfl

theorem bits?_bits (b : Bytes) : (bits b).bits? = some (0, b) := rfl

def decodeSequence? (b : Bytes) : Option (List Value) :=
  match decode? b with
  | some v => v.sequence?
  | none => none

def isSequence (b : Bytes) : Bool :=
  match decode? b with
  | some v => v.tag = Tag.sequence
  | none => false

end Credential.Der.Value
