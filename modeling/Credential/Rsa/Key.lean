import Credential.Bytes
import Credential.Error
import Credential.Rsa.Arithmetic

namespace Credential.Rsa

def bitLength (n : Nat) : Nat := if n = 0 then 0 else n.log2 + 1

def byteLength (n : Nat) : Nat := (bitLength n + 7) / 8

structure PublicKey where
  modulus : Nat
  exponent : Nat
deriving DecidableEq, Repr

def maxKeySize : Nat := 16384

namespace PublicKey

def fault? (k : PublicKey) : Option KeyFault :=
  if 1 <<< 64 ≤ k.exponent then some .exponentTooLarge
  else if k.modulus ≤ k.exponent ∨ k.modulus % 2 = 0 then some .invalidModulus
  else if k.exponent % 2 = 0 then some .invalidExponent
  else if k.exponent < 2 then some .exponentTooSmall
  else if 1 <<< 33 - 1 < k.exponent then some .exponentTooLarge
  else none

def size (k : PublicKey) : Nat := byteLength k.modulus

def check (k : PublicKey) : Except Error PublicKey :=
  if maxKeySize < bitLength k.modulus then .error (.keyEncoding .modulusTooLarge)
  else
    match k.fault? with
    | some fault => .error (.keyEncoding fault)
    | none => .ok k

end PublicKey

structure PrivateNumbers where
  modulus : Nat
  publicExponent : Nat
  privateExponent : Nat
  prime1 : Nat
  prime2 : Nat
deriving DecidableEq, Repr

namespace PrivateNumbers

def publicKey (k : PrivateNumbers) : PublicKey := ⟨k.modulus, k.publicExponent⟩

def Valid (k : PrivateNumbers) : Prop :=
  k.publicKey.fault? = none ∧ k.prime1 * k.prime2 = k.modulus ∧
    k.publicExponent * k.privateExponent % (k.prime1 - 1) = 1 ∧
    k.publicExponent * k.privateExponent % (k.prime2 - 1) = 1

instance (k : PrivateNumbers) : Decidable k.Valid := by
  unfold Valid
  infer_instance

def coefficient? (k : PrivateNumbers) : Option Nat :=
  inverse? k.prime1 k.prime2

def exponent1 (k : PrivateNumbers) : Nat := k.privateExponent % (k.prime1 - 1)
def exponent2 (k : PrivateNumbers) : Nat := k.privateExponent % (k.prime2 - 1)

def decrypt (k : PrivateNumbers) (c : Nat) : Nat :=
  match k.coefficient? with
  | some q =>
    let m1 := powMod k.prime1 c k.exponent1
    let m2 := powMod k.prime2 c k.exponent2
    let h := ((((m1 : Int) - (m2 : Int)) * (q : Int)) % (k.prime1 : Int)).toNat
    h * k.prime2 + m2
  | none => powMod k.modulus c k.privateExponent

end PrivateNumbers

structure KeyPair where
  numbers : PrivateNumbers
  valid : numbers.Valid

namespace KeyPair

def ofNumbers? (k : PrivateNumbers) : Option KeyPair :=
  if h : k.Valid then some ⟨k, h⟩ else none

def publicKey (k : KeyPair) : PublicKey := k.numbers.publicKey

theorem ofNumbers?_numbers (k : KeyPair) : ofNumbers? k.numbers = some k := by
  simp [ofNumbers?, k.valid]

end KeyPair

end Credential.Rsa
