import Credential.Certificate.Element
import Credential.Certificate.Time
import Credential.Oid
/-!
Reading certificates. Content after the last field of a sequence is passed over; the first field
that cannot be read decides the error.
-/

namespace Credential.Certificate

abbrev Step (α : Type) := Bytes → Except CertificateField (α × Bytes)

/-- An identifier as it stands in a certificate, in whatever form. -/
structure RawOid where
  content : Bytes
deriving DecidableEq, Repr

namespace RawOid

/-- The arcs after the first two; an unfinished last one counts as far as it goes, and nothing is
read past 64 bits. -/
def arcs? : (value : Nat) → (pending : Bool) → Bytes → Option (List Nat)
  | value, pending, [] => some (if pending then [value] else [])
  | value, _, b :: rest =>
    let value := value * 128 + b.toNat % 128
    if 1 <<< 64 ≤ value then none
    else if b < 0x80 then (arcs? 0 false rest).map (value :: ·)
    else arcs? value true rest

def hexText (b : Bytes) : String :=
  " ".intercalate (b.map fun x =>
    String.ofList [Nat.digitChar (x.toNat / 16), Nat.digitChar (x.toNat % 16)])

def toText (o : RawOid) : String :=
  match o.content with
  | [] => ""
  | b :: rest =>
    match arcs? 0 false rest with
    | some tail => Oid.dotted ((b / 40).toNat :: (b % 40).toNat :: tail)
    | none => hexText o.content

end RawOid

def layoutError {α : Type} : Except CertificateField α := .error .layout

def container (number : Nat) : Step Bytes := fun b =>
  match readElement b with
  | some (e, rest) => if e.header.number = number then .ok (e.content, rest) else layoutError
  | none => layoutError

def sequenceNumber : Nat := 16
def setNumber : Nat := 17

def readOid (field : CertificateField) : Step RawOid := fun b =>
  match readElement b with
  | some (e, rest) => if e.isPrimitive then .ok (⟨e.content⟩, rest) else .error field
  | none => layoutError

def readAlgorithm : Step RawOid := fun b => do
  let (content, rest) ← container sequenceNumber b
  let (oid, parameters) ← readOid .algorithm content
  if parameters.isEmpty ∨ (readElement parameters).isSome then return (oid, rest)
  else layoutError

def bitsOf? (e : Element) : Option Bytes :=
  match e.content with
  | [] => none
  | [unused] => if unused = 0 then some [] else none
  | unused :: b :: rest =>
    let last := ((b :: rest).getLastD 0).toNat
    if 1 <<< unused.toNat ∣ last ∧ unused ≤ 8 then some (b :: rest) else none

def readBits (field : CertificateField) : Step Bytes := fun b =>
  match readElement b with
  | some (e, rest) =>
    if e.header.number = 3 ∧ e.isPrimitive then
      match bitsOf? e with
      | some bits => .ok (bits, rest)
      | none => .error field
    else .error field
  | none => .error field

def readSmall? (b : Bytes) : Option Nat :=
  match readElement b with
  | some (e, _) =>
    let n := Bytes.toNat e.content
    if e.header.number = 2 ∧ n < 1 <<< 32 ∧ Der.Value.naturalBytes n = e.content then some n else none
  | none => none

def readVersion : Step Nat := fun b =>
  if b.isEmpty then .ok (0, b)
  else
    match readElement b with
    | some (e, rest) =>
      if e.header.number ≠ 0 then .ok (0, b)
      else if e.isContext then
        match readSmall? e.content with
        | some n => .ok (n, rest)
        | none => .error .version
      else layoutError
    | none => layoutError

def readSerial : Step Bytes := fun b =>
  match readOpenElement b with
  | some (e, rest) => if e.header.number = 2 then .ok (e.content, rest) else .error .serial
  | none => .error .serial

def isAttribute (b : Bytes) : Option Bytes :=
  match container sequenceNumber b with
  | .ok (content, rest) =>
    match readOid .name content with
    | .ok (_, value) => if (readElement value).isSome then some rest else none
    | .error _ => none
  | .error _ => none

def dropPart? (b : Bytes) : Option Bytes :=
  match container setNumber b with
  | .ok (content, rest) => if (isAttribute content).isSome then some rest else none
  | .error _ => none

theorem readElement_length {b rest : Bytes} {e : Element} (h : readElement b = some (e, rest)) :
    rest.length < b.length := by
  unfold readElement at h
  split at h
  · rename_i hh
    have := readHeader_length hh
    split at h
    · split at h
      · simp only [Option.some.injEq, Prod.mk.injEq] at h
        simp only [← h.2, List.length_drop]
        omega
      · simp at h
    · simp at h
  · simp at h

theorem container_length {number : Nat} {b content rest : Bytes}
    (h : container number b = .ok (content, rest)) : rest.length < b.length := by
  unfold container at h
  split at h
  · rename_i he
    split at h
    · simp only [Except.ok.injEq, Prod.mk.injEq] at h
      rw [← h.2]
      exact readElement_length he
    · simp [layoutError] at h
  · simp [layoutError] at h

theorem dropPart?_length {b rest : Bytes} (h : dropPart? b = some rest) :
    rest.length < b.length := by
  unfold dropPart? at h
  split at h
  · rename_i hc
    split at h
    · simp only [Option.some.injEq] at h
      rw [← h]
      exact container_length hc
    · simp at h
  · simp at h

def dropParts (b : Bytes) : Bytes :=
  match h : dropPart? b with
  | some rest =>
    have := dropPart?_length h
    dropParts rest
  | none => b
termination_by b.length

/-- A name as it stands, from its header to the end of its last readable part. -/
def readName : Step Bytes := fun b =>
  match container sequenceNumber b with
  | .ok (content, rest) =>
    .ok (b.take (b.length - rest.length - (dropParts content).length), rest)
  | .error e => .error e

def readTime : Step Int := fun b =>
  match readElement b with
  | some (e, rest) =>
    match readTime? e.header.number e.content with
    | some seconds => .ok (seconds, rest)
    | none => .error .date
  | none => .error .date

def readValidity : Step (Int × Int) := fun b => do
  let (content, rest) ← container sequenceNumber b
  let (notBefore, content) ← readTime content
  let (notAfter, _) ← readTime content
  return ((notBefore, notAfter), rest)

def readPublicKey : Step Bytes := fun b => do
  let (content, rest) ← container sequenceNumber b
  let (_, key) ← readAlgorithm content
  let (_, after) ← readBits .publicKey key
  return (b.take (b.length - rest.length - after.length), rest)

def readUniqueId (number : Nat) (field : CertificateField) : Step Unit := fun b =>
  if b.isEmpty then .ok ((), b)
  else
    match readElement b with
    | some (e, rest) =>
      if e.header.number ≠ number then .ok ((), b)
      else if e.isContext ∧ e.isPrimitive ∧ (bitsOf? e).isSome then .ok ((), rest)
      else .error field
    | none => .error field

def isExtensionBody (b : Bytes) : Bool :=
  let isOctets (b : Bytes) : Bool :=
    match readElement b with
    | some (e, _) => e.header.number = 4 && e.isPrimitive
    | none => false
  match readElement b with
  | some (e, rest) =>
    if e.header.number = 1 ∧ e.content.length = 1 then isOctets rest else isOctets b
  | none => false

def readExtensionRun (b : Bytes) : Option (List RawOid) :=
  if b.isEmpty then some []
  else
    match h : container sequenceNumber b with
    | .ok (content, rest) =>
      have := container_length h
      match readOid .extensions content with
      | .ok (oid, body) =>
        if isExtensionBody body then (readExtensionRun rest).map (oid :: ·) else none
      | .error _ => none
    | .error _ => none
termination_by b.length

/-- The extensions that end a certificate body; the length in front of them is not looked at. -/
def readExtensions (b : Bytes) : Except CertificateField (List RawOid) :=
  if b.isEmpty then .ok []
  else
    match readHeader b with
    | some (header, rest) =>
      if header.length = none ∨ header.number ≠ 3 then .error .extensions
      else
        match container sequenceNumber rest with
        | .ok (content, []) =>
          match readExtensionRun content with
          | some oids => .ok oids
          | none => layoutError
        | _ => layoutError
    | none => .error .extensions

structure Fields where
  version : Nat
  serial : Bytes
  innerAlgorithm : RawOid
  issuer : Bytes
  notBefore : Int
  notAfter : Int
  subject : Bytes
  publicKey : Bytes
  extensions : List RawOid
  signed : Bytes
  outerAlgorithm : RawOid
  signature : Bytes
deriving DecidableEq, Repr

def readFields (b : Bytes) : Except CertificateField (Fields × Bytes) := do
  let (certificate, trailing) ← container sequenceNumber b
  let (body, afterBody) ← container sequenceNumber certificate
  let (version, rest) ← readVersion body
  let (serial, rest) ← readSerial rest
  let (innerAlgorithm, rest) ← readAlgorithm rest
  let (issuer, rest) ← readName rest
  let ((notBefore, notAfter), rest) ← readValidity rest
  let (subject, rest) ← readName rest
  let (publicKey, rest) ← readPublicKey rest
  let ((), rest) ← readUniqueId 1 .issuerId rest
  let ((), rest) ← readUniqueId 2 .subjectId rest
  let extensions ← readExtensions rest
  let (outerAlgorithm, rest) ← readAlgorithm afterBody
  let (signature, _) ← readBits .signature rest
  return ({ version, serial, innerAlgorithm, issuer, notBefore, notAfter, subject, publicKey,
            extensions, outerAlgorithm, signature
            signed := certificate.take (certificate.length - afterBody.length) }, trailing)

def parse (b : Bytes) : Except Error Fields :=
  match readFields b with
  | .ok (fields, []) => .ok fields
  | .ok (_, trailing) => .error (.parse (.trailing trailing.length))
  | .error field => .error (.parse (.unreadable field))

end Credential.Certificate
