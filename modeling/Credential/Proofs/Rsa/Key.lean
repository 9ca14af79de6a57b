import Mathlib
import Credential.Rsa.Key

namespace Credential.Rsa

theorem bitLength_le_iff {n k : Nat} : bitLength n ≤ k ↔ n < 2 ^ k := by
  unfold bitLength
  split
  · rename_i hn
    rw [hn]
    exact iff_of_true (Nat.zero_le k) (Nat.two_pow_pos k)
  · rename_i hn
    exact Nat.succ_le_iff.trans (Nat.log2_lt hn)

namespace PublicKey

structure Sound (k : PublicKey) : Prop where
  modulus_odd : k.modulus % 2 = 1
  exponent_odd : k.exponent % 2 = 1
  exponent_low : 2 ≤ k.exponent
  exponent_high : k.exponent < 2 ^ 33
  below : k.exponent < k.modulus

variable {k l : PublicKey}

theorem fault?_eq_none_iff : k.fault? = none ↔ k.Sound := by
  have hwide : (1 : Nat) <<< 64 = 2 ^ 64 := rfl
  have hnarrow : (1 : Nat) <<< 33 - 1 = 2 ^ 33 - 1 := rfl
  unfold fault?
  rw [hwide, hnarrow]
  constructor
  · intro h
    split at h
    · cases h
    split at h
    · cases h
    split at h
    · cases h
    split at h
    · cases h
    split at h
    · cases h
    exact ⟨by omega, by omega, by omega, by omega, by omega⟩
  · rintro ⟨hmodulus, hodd, hlow, hhigh, hbelow⟩
    rw [if_neg (by omega), if_neg (by omega), if_neg (by omega), if_neg (by omega),
      if_neg (by omega)]

theorem check_ok_iff : k.check = .ok l ↔ k = l ∧ bitLength k.modulus ≤ maxKeySize ∧ k.Sound := by
  rw [← fault?_eq_none_iff]
  unfold check
  split
  · rename_i hlong
    refine iff_of_false (by rintro ⟨⟩) ?_
    rintro ⟨-, hle, -⟩
    exact Nat.not_lt.2 hle hlong
  · rename_i hshort
    split
    · rename_i fault hfault
      refine iff_of_false (by rintro ⟨⟩) ?_
      rintro ⟨-, -, hnone⟩
      rw [hfault] at hnone
      cases hnone
    · rename_i hnone
      rw [Except.ok.injEq]
      exact ⟨fun h => ⟨h, Nat.not_lt.1 hshort, hnone⟩, fun h => h.1⟩

theorem check_of_long (h : maxKeySize < bitLength k.modulus) :
    k.check = .error (.keyEncoding .modulusTooLarge) := if_pos h

end PublicKey

namespace KeyPair

variable {k : KeyPair}

theorem sound_publicKey (k : KeyPair) : k.publicKey.Sound := PublicKey.fault?_eq_none_iff.1 k.valid.1

theorem modulus_ne_zero (k : KeyPair) : k.publicKey.modulus ≠ 0 :=
  Nat.ne_zero_of_lt k.sound_publicKey.below

theorem check_publicKey (h : bitLength k.publicKey.modulus ≤ maxKeySize) :
    k.publicKey.check = .ok k.publicKey := PublicKey.check_ok_iff.2 ⟨rfl, h, k.sound_publicKey⟩

-- The product of the exponents is more than one, so that it leaves one only where there is
-- something to divide by.
theorem one_lt_prime1 (k : KeyPair) : 1 < k.numbers.prime1 := by
  obtain ⟨-, -, hone, -⟩ := k.valid
  have hlow : 2 ≤ k.numbers.publicExponent := k.sound_publicKey.exponent_low
  refine Nat.lt_of_not_le ?_
  intro hle
  have hz : k.numbers.prime1 - 1 = 0 := by omega
  rw [hz, Nat.mod_zero] at hone
  have hexponent := Nat.eq_one_of_mul_eq_one_right hone
  omega

end KeyPair

end Credential.Rsa
