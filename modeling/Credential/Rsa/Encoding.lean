import Credential.Algorithm
import Credential.Rsa.Key

namespace Credential

open Der (Value)

structure PrivateKeyInfo where
  algorithm : AlgorithmIdentifier
  key : Bytes
  publicKey : Option Bytes
deriving DecidableEq, Repr

namespace PrivateKeyInfo

def value (k : PrivateKeyInfo) : Value :=
  .sequence (.natural (if k.publicKey.isSome then 1 else 0) :: k.algorithm.value :: .octets k.key ::
    k.publicKey.toList.map fun b => ⟨Der.Tag.implicit 1, 0 :: b⟩)

def toDer (k : PrivateKeyInfo) : Bytes := k.value.encode

def isExtension (v : Value) : Bool :=
  Der.Tag.isContext v.tag && Der.Tag.isConstructed v.tag && (Value.decode? v.content).isSome

def readPublicKey? (fields : List Value) : Option (Option Bytes) :=
  match fields.dropWhile fun v => Der.Tag.isContext v.tag && Der.Tag.number v.tag == 0 with
  | [] => some none
  | v :: rest =>
    if Der.Tag.isContext v.tag ∧ Der.Tag.number v.tag = 1 then
      match Value.bitContent? v.content with
      | some (0, b) =>
        if v.tag = Der.Tag.implicit 1 ∧ rest.all isExtension then some (some b) else none
      | _ => none
    else if isExtension v ∧ rest.all isExtension then some none
    else none

def ofValue? (v : Value) : Option PrivateKeyInfo :=
  match v.sequence? with
  | some (version :: algorithm :: key :: rest) =>
    match version.naturalBelow? 2, AlgorithmIdentifier.ofValue? algorithm, key.octets?,
        readPublicKey? rest with
    | some n, some a, some k, some p => if (n = 1) = (p.isSome = true) then some ⟨a, k, p⟩ else none
    | _, _, _, _ => none
  | _ => none

def ofDer? (b : Bytes) : Option PrivateKeyInfo :=
  (Value.decode? b).bind ofValue?

end PrivateKeyInfo

namespace Rsa

def algorithmOid : Oid := .ofArcs [1, 2, 840, 113549, 1, 1, 1]

def algorithm : AlgorithmIdentifier := ⟨algorithmOid, some .null⟩

namespace PublicKey

def value (k : PublicKey) : Value := .sequence [.natural k.modulus, .natural k.exponent]

def ofValue? (v : Value) : Option PublicKey :=
  match v.sequence? with
  | some [n, e] =>
    match n.natural?, e.natural? with
    | some n, some e => some ⟨n, e⟩
    | _, _ => none
  | _ => none

def toDer (k : PublicKey) : Bytes :=
  (Value.sequence [algorithm.value, .bits k.value.encode]).encode

def ofDer (b : Bytes) : Except Error PublicKey :=
  match Value.decodeSequence? b with
  | some [algorithm, key] =>
    match AlgorithmIdentifier.ofValue? algorithm, key.bits? with
    | some a, some (unused, content) =>
      if a.oid ≠ algorithmOid then .error (.keyEncoding (.notRsa a.oid.toText))
      else if unused ≠ 0 then .error (.keyEncoding .unusedBits)
      else
        match (Value.decode? content).bind ofValue? with
        | some k => k.check
        | none => .error (.keyEncoding .malformed)
    | _, _ => .error (.keyEncoding .malformed)
  | _ => .error (.keyEncoding .malformed)

end PublicKey

namespace PrivateNumbers

def value? (k : PrivateNumbers) : Option Value :=
  k.coefficient?.map fun c =>
    .sequence (([0, k.modulus, k.publicExponent, k.privateExponent, k.prime1, k.prime2,
      k.exponent1, k.exponent2, c]).map .natural)

def isOtherPrime (v : Value) : Bool :=
  match v.sequence? with
  | some fields => fields.length = 3 && fields.all (·.natural?.isSome)
  | none => false

def isOtherPrimes (v : Value) : Bool :=
  match v.sequence? with
  | some primes => primes.all isOtherPrime
  | none => false

/-- What reading finds; a key of more than two primes is told apart from a malformed one. -/
inductive Reading where
  | malformed
  | multiPrime
  | twoPrime (numbers : PrivateNumbers)
deriving DecidableEq, Repr

/-- The first nine numbers are read; the three of them that follow from the others are passed
over. -/
def read (v : Value) : Reading :=
  match v.sequence? with
  | some fields =>
    match (fields.take 9).mapM Value.natural?, fields.drop 9 with
    | some [0, n, e, d, p, q, _, _, _], [] => .twoPrime ⟨n, e, d, p, q⟩
    | some [1, _, _, _, _, _, _, _, _], [others] =>
      if isOtherPrimes others then .multiPrime else .malformed
    | _, _ => .malformed
  | none => .malformed

end PrivateNumbers

namespace KeyPair

def ofInfo (info : PrivateKeyInfo) : Except Error KeyPair :=
  if info.algorithm ≠ algorithm then .error (.keyEncoding .malformed)
  else
    match (Value.decode? info.key).map PrivateNumbers.read with
    | some (.twoPrime k) =>
      match ofNumbers? k with
      | some pair => .ok pair
      | none => .error (.keyEncoding .invalidNumbers)
    | some .multiPrime => .error (.keyEncoding .invalidNumbers)
    | _ => .error (.keyEncoding .malformed)

def ofDer (b : Bytes) : Except Error KeyPair :=
  match PrivateKeyInfo.ofDer? b with
  | some info => ofInfo info
  | none => .error (.keyEncoding .malformed)

def toDer (k : KeyPair) : Except Error Bytes :=
  match k.numbers.value? with
  | some v => (PrivateKeyInfo.value ⟨algorithm, v.encode, none⟩).toDer (.keyEncoding .malformed)
  | none => .error (.keyEncoding .invalidNumbers)

def publicDer (k : KeyPair) : Bytes := k.publicKey.toDer

end KeyPair

end Rsa

end Credential
