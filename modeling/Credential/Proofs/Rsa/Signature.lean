import Credential.Rsa.Signature
import Credential.Proofs.Der.RoundTrip
import Credential.Proofs.Rsa.Decryption
import Credential.Proofs.Rsa.Key
/-!
A pair whose primes are distinct signs every message with a signature that its public key verifies,
as soon as its modulus has room for the padded digest.
-/

namespace Credential

namespace Rsa

theorem lt_pow_byteLength (n : Nat) : n < 256 ^ byteLength n := by
  calc n < 2 ^ bitLength n := bitLength_le_iff.1 (Nat.le_refl _)
    _ ≤ 2 ^ (8 * byteLength n) := Nat.pow_le_pow_right Nat.two_pos (by unfold byteLength; omega)
    _ = 256 ^ byteLength n := by rw [Nat.pow_mul]

theorem pow_byteLength_le {n : Nat} (hn : n ≠ 0) : 256 ^ (byteLength n - 1) ≤ n := by
  calc 256 ^ (byteLength n - 1) = 2 ^ (8 * (byteLength n - 1)) := by rw [Nat.pow_mul]
    _ ≤ 2 ^ n.log2 := by
        refine Nat.pow_le_pow_right Nat.two_pos ?_
        unfold byteLength bitLength
        rw [if_neg hn]
        omega
    _ ≤ n := Nat.log2_self_le hn

variable {k : KeyPair} {a : SignatureAlgorithm} {size : Nat} {message block : Bytes}

def infoLength : SignatureAlgorithm → Nat
  | .sha1WithRsa => 35
  | .sha256WithRsa => 51
  | .sha384WithRsa => 67
  | .sha512WithRsa => 83

theorem length_digestInfo (a : SignatureAlgorithm) (message : Bytes) :
    (digestInfo a message).length = infoLength a := by
  -- only the length of the digest matters, so that zeros stand for it
  have hoctets : (Der.Value.octets (a.hash.digest message)).encode.length =
      (Der.Value.octets (List.replicate a.hash.outputSize 0)).encode.length := by
    refine Der.Value.length_encode_congr ?_
    show (a.hash.digest message).length = (List.replicate a.hash.outputSize 0).length
    rw [Hash.length_digest, List.length_replicate]
  have hzeros : (digestInfo a message).length = (Der.Value.sequence [
      AlgorithmIdentifier.value ⟨a.hashOid, some .null⟩,
      .octets (List.replicate a.hash.outputSize 0)]).encode.length := by
    refine Der.Value.length_encode_congr ?_
    show (Der.encodeAll [_, _]).length = (Der.encodeAll [_, _]).length
    simp only [Der.Value.encodeAll_cons, List.length_append, hoctets]
  rw [hzeros]
  cases a <;> decide_cbv

theorem exists_paddedDigest? (h : (digestInfo a []).length + 11 ≤ size) (message : Bytes) :
    ∃ rest, paddedDigest? size a message = some (0 :: rest) ∧ rest.length + 1 = size := by
  rw [length_digestInfo, ← length_digestInfo a message] at h
  refine ⟨0x01 :: List.replicate (size - (digestInfo a message).length - 3) 0xFF ++
    0x00 :: digestInfo a message, ?_, ?_⟩
  · rw [paddedDigest?, if_neg (Nat.not_lt.2 h)]
    rfl
  · simp only [List.length_append, List.length_cons, List.length_replicate]
    omega

theorem toNat_block_lt {rest : Bytes} {n : Nat} (hn : n ≠ 0) (hl : rest.length + 1 = byteLength n) :
    Bytes.toNat (0 :: rest) < n := by
  calc Bytes.toNat (0 :: rest) = Bytes.toNat rest := rfl
    _ < 256 ^ rest.length := Bytes.toNat_lt rest
    _ = 256 ^ (byteLength n - 1) := by rw [← hl, Nat.add_sub_cancel]
    _ ≤ n := pow_byteLength_le hn

theorem PublicKey.verify_ok_or (k : PublicKey) (a : SignatureAlgorithm)
    (message signature : Bytes) : k.verify a message signature = .ok () ∨
      k.verify a message signature = .error (.verification .badSignature) := by
  unfold verify
  split
  · exact .inl rfl
  · exact .inr rfl

theorem KeyPair.exists_sign (hp : k.numbers.PrimesDistinct)
    (hroom : (digestInfo a []).length + 11 ≤ k.publicKey.size) (message : Bytes) :
    ∃ signature, k.sign a message = .ok signature ∧ signature.length = k.publicKey.size ∧
      k.publicKey.verify a message signature = .ok () := by
  obtain ⟨rest, hblock, hlength⟩ := exists_paddedDigest? hroom message
  have hc : Bytes.toNat (0 :: rest) < k.publicKey.modulus :=
    toNat_block_lt k.modulus_ne_zero hlength
  obtain ⟨s, hs⟩ : ∃ s, k.numbers.decrypt (Bytes.toNat (0 :: rest)) = s := ⟨_, rfl⟩
  obtain ⟨hlt, hpow⟩ : s < k.publicKey.modulus ∧
      powMod k.publicKey.modulus s k.publicKey.exponent = Bytes.toNat (0 :: rest) :=
    hs ▸ PrivateNumbers.decrypt_pow k.valid hp hc
  have hnumber : Bytes.toNat (Bytes.ofNatWidth k.publicKey.size s) = s := by
    rw [Bytes.toNat_ofNatWidth]
    exact Nat.mod_eq_of_lt (Nat.lt_trans hlt (lt_pow_byteLength _))
  have hback : Bytes.ofNatWidth k.publicKey.size (Bytes.toNat (0 :: rest)) = 0 :: rest := by
    rw [← hlength]
    exact Bytes.ofNatWidth_toNat (0 :: rest)
  refine ⟨Bytes.ofNatWidth k.publicKey.size s, ?_, Bytes.length_ofNatWidth .., ?_⟩
  · simp only [sign, hblock, hs]
    exact if_pos ⟨hc, hpow⟩
  · rw [PublicKey.verify, if_pos]
    simp only [PublicKey.verifies, hnumber, Bytes.length_ofNatWidth, hlt, hpow, hback, hblock,
      decide_true, Bool.and_self]

end Rsa

end Credential
