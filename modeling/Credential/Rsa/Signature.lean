import Credential.Algorithm
import Credential.Rsa.Key
/-!
Signatures over a padded digest. Verification compares the whole padded block.
-/

namespace Credential.Rsa

def digestInfo (a : SignatureAlgorithm) (message : Bytes) : Bytes :=
  (Der.Value.sequence [
    AlgorithmIdentifier.value ⟨a.hashOid, some .null⟩,
    .octets (a.hash.digest message)]).encode

def paddedDigest? (size : Nat) (a : SignatureAlgorithm) (message : Bytes) : Option Bytes :=
  let info := digestInfo a message
  if size < info.length + 11 then none
  else some (0x00 :: 0x01 :: List.replicate (size - info.length - 3) 0xFF ++ 0x00 :: info)

def KeyPair.sign (k : KeyPair) (a : SignatureAlgorithm) (message : Bytes) : Except Error Bytes :=
  let size := k.publicKey.size
  match paddedDigest? size a message with
  | none => .error (.signing .messageTooLong)
  | some block =>
    let c := Bytes.toNat block
    let s := k.numbers.decrypt c
    if c < k.publicKey.modulus ∧ powMod k.publicKey.modulus s k.publicKey.exponent = c then
      .ok (Bytes.ofNatWidth size s)
    else .error (.signing .inconsistentKey)

def PublicKey.verifies (k : PublicKey) (a : SignatureAlgorithm) (message signature : Bytes) : Bool :=
  let s := Bytes.toNat signature
  signature.length = k.size && decide (s < k.modulus) &&
    paddedDigest? k.size a message =
      some (Bytes.ofNatWidth k.size (powMod k.modulus s k.exponent))

def PublicKey.verify (k : PublicKey) (a : SignatureAlgorithm) (message signature : Bytes) :
    Except Error Unit :=
  if k.verifies a message signature then .ok () else .error (.verification .badSignature)

end Credential.Rsa
