import Credential.Proofs.Rsa.Signature
/-!
One signature for each message: the public exponent is injective on the numbers below the modulus,
so that nothing but what the private key makes is ever verified.
-/

namespace Credential.Rsa

theorem PrivateNumbers.pow_injective {k : PrivateNumbers} (hv : k.Valid) (hp : k.PrimesDistinct)
    {s t : Nat} (hs : s < k.modulus) (ht : t < k.modulus)
    (h : powMod k.modulus s k.publicExponent = powMod k.modulus t k.publicExponent) : s = t := by
  obtain ⟨-, hmodulus, he1, he2⟩ := hv
  have hpow : s ^ k.publicExponent ≡ t ^ k.publicExponent [MOD k.prime1 * k.prime2] := by
    rw [hmodulus]
    rwa [powMod_eq, powMod_eq] at h
  -- the private exponent takes the power back modulo each prime
  have hroot {p : Nat} (hprime : p.Prime) (hd : p ∣ k.prime1 * k.prime2)
      (he : k.publicExponent * k.privateExponent % (p - 1) = 1) : s ≡ t [MOD p] := by
    calc s ≡ s ^ (k.publicExponent * k.privateExponent) [MOD p] :=
          (pow_modEq_of_prime hprime he s).symm
      _ = (s ^ k.publicExponent) ^ k.privateExponent := Nat.pow_mul ..
      _ ≡ (t ^ k.publicExponent) ^ k.privateExponent [MOD p] := (hpow.of_dvd hd).pow _
      _ = t ^ (k.publicExponent * k.privateExponent) := (Nat.pow_mul ..).symm
      _ ≡ t [MOD p] := pow_modEq_of_prime hprime he t
  have hboth : s ≡ t [MOD k.prime1 * k.prime2] :=
    (Nat.modEq_and_modEq_iff_modEq_mul
      ((Nat.coprime_primes hp.prime1 hp.prime2).2 hp.distinct)).1
        ⟨hroot hp.prime1 (Nat.dvd_mul_right ..) he1, hroot hp.prime2 (Nat.dvd_mul_left ..) he2⟩
  rw [hmodulus] at hboth
  exact Nat.ModEq.eq_of_lt_of_lt hboth hs ht

variable {k : KeyPair} {a : SignatureAlgorithm} {message signature other : Bytes}

structure PublicKey.Verifies (k : PublicKey) (a : SignatureAlgorithm)
    (message signature : Bytes) : Prop where
  length : signature.length = k.size
  below : Bytes.toNat signature < k.modulus
  block : paddedDigest? k.size a message =
    some (Bytes.ofNatWidth k.size (powMod k.modulus (Bytes.toNat signature) k.exponent))

theorem PublicKey.verify_ok_iff {k : PublicKey} :
    k.verify a message signature = .ok () ↔ k.Verifies a message signature := by
  have hfields : k.verifies a message signature = true ↔ k.Verifies a message signature := by
    simp only [verifies, Bool.and_eq_true, decide_eq_true_eq]
    constructor
    · rintro ⟨⟨hl, hb⟩, hp⟩
      exact ⟨hl, hb, hp⟩
    · rintro ⟨hl, hb, hp⟩
      exact ⟨⟨hl, hb⟩, hp⟩
  rw [← hfields, verify]
  split
  · rename_i h
    exact iff_of_true rfl h
  · rename_i h
    exact iff_of_false (by rintro ⟨⟩) h

theorem KeyPair.eq_of_verifies (hp : k.numbers.PrimesDistinct)
    (h : k.publicKey.Verifies a message signature)
    (ho : k.publicKey.Verifies a message other) : signature = other := by
  have hlt (n : Nat) : powMod k.publicKey.modulus n k.publicKey.exponent <
      256 ^ k.publicKey.size := by
    rw [powMod_eq]
    exact Nat.lt_trans (Nat.mod_lt _ (Nat.pos_of_ne_zero k.modulus_ne_zero))
      (lt_pow_byteLength _)
  have hblock := Option.some.inj (h.block.symm.trans ho.block)
  have hnumber : Bytes.toNat signature = Bytes.toNat other :=
    PrivateNumbers.pow_injective k.valid hp h.below ho.below
      (Bytes.ofNatWidth_inj (hlt _) (hlt _) hblock)
  calc signature = Bytes.ofNatWidth signature.length (Bytes.toNat signature) :=
        (Bytes.ofNatWidth_toNat signature).symm
    _ = Bytes.ofNatWidth other.length (Bytes.toNat other) := by
        rw [hnumber, h.length, ho.length]
    _ = other := Bytes.ofNatWidth_toNat other

theorem KeyPair.sign_messageTooLong (h : k.publicKey.size < infoLength a + 11) :
    k.sign a message = .error (.signing .messageTooLong) := by
  have hblock : paddedDigest? k.publicKey.size a message = none := by
    rw [paddedDigest?, length_digestInfo]
    exact if_pos h
  simp only [sign, hblock]

theorem KeyPair.verify_iff_eq_signature (k : KeyPair) (hp : k.numbers.PrimesDistinct)
    (a : SignatureAlgorithm) (message : Bytes) :
    (k.sign a message = .error (.signing .messageTooLong) ↔
      k.publicKey.size < infoLength a + 11) ∧
    (infoLength a + 11 ≤ k.publicKey.size → ∃ signature, k.sign a message = .ok signature ∧
      signature.length = k.publicKey.size ∧
      ∀ other, k.publicKey.verify a message other = .ok () ↔ other = signature) := by
  have hsign (hroom : infoLength a + 11 ≤ k.publicKey.size) :=
    k.exists_sign hp (by rwa [length_digestInfo]) message
  refine ⟨⟨?_, KeyPair.sign_messageTooLong⟩, ?_⟩
  · intro h
    refine Nat.lt_of_not_le ?_
    intro hroom
    obtain ⟨signature, hs, -⟩ := hsign hroom
    rw [h] at hs
    cases hs
  · intro hroom
    obtain ⟨signature, hs, hlength, hverify⟩ := hsign hroom
    refine ⟨signature, hs, hlength, ?_⟩
    intro other
    constructor
    · intro ho
      exact KeyPair.eq_of_verifies hp (PublicKey.verify_ok_iff.1 ho)
        (PublicKey.verify_ok_iff.1 hverify)
    · rintro rfl
      exact hverify

def narrowNumbers : PrivateNumbers where
  modulus := (211 * 2 ^ 192 + 1) * (457 * 2 ^ 158 + 1)
  publicExponent := 3
  privateExponent := 0xfb1caaaaaaaaaaaaaaaaaaaaaaaaaaaaaaaaaaaaaaaaaaaaaaab
  prime1 := 211 * 2 ^ 192 + 1
  prime2 := 457 * 2 ^ 158 + 1

theorem narrowNumbers_primesDistinct : narrowNumbers.PrimesDistinct where
  prime1 := prime_of_root (b := 3) (by norm_num) (by decide +kernel)
  prime2 := prime_of_root (b := 3) (by norm_num) (by decide +kernel)
  distinct := by decide

def narrowKey : KeyPair := ⟨narrowNumbers, by decide⟩

theorem KeyPair.verify_iff_eq_signature_narrow :
    (∃ signature, narrowKey.sign .sha1WithRsa [0x61] = .ok signature ∧ signature.length = 46 ∧
      ∀ other, narrowKey.publicKey.verify .sha1WithRsa [0x61] other = .ok () ↔
        other = signature) ∧
    narrowKey.sign .sha256WithRsa [0x61] = .error (.signing .messageTooLong) := by
  obtain ⟨-, hroom⟩ :=
    narrowKey.verify_iff_eq_signature narrowNumbers_primesDistinct .sha1WithRsa [0x61]
  obtain ⟨hshort, -⟩ :=
    narrowKey.verify_iff_eq_signature narrowNumbers_primesDistinct .sha256WithRsa [0x61]
  exact ⟨hroom (by decide +kernel), hshort.2 (by decide +kernel)⟩

end Credential.Rsa
