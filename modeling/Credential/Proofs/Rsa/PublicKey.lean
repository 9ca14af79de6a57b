import Credential.Proofs.Der.Sizes
import Credential.Proofs.Rsa.Reencoding

namespace Credential

open Der (Value)

namespace Rsa

-- The primes take at least the room of their product again, so that the modulus fills at most half
-- of the longest encoding and leaves ample room for the rest of a public key.
theorem PrivateNumbers.length_modulus_le {k : PrivateNumbers} (hk : k.prime1 * k.prime2 = k.modulus)
    {x y z : Nat} (hf : (k.record x y z).Fits) :
    2 * (Value.naturalBytes k.modulus).length ≤ Der.maxLength := by
  have hmodulus := Value.add_two_le_length_encode (.natural k.modulus)
  have hprime1 := Value.add_two_le_length_encode (.natural k.prime1)
  have hprime2 := Value.add_two_le_length_encode (.natural k.prime2)
  have hproduct := Value.length_naturalBytes_mul_le k.prime1 k.prime2
  rw [hk] at hproduct
  have hcontent := hf.content
  simp only [record, List.map_cons, Value.sequence, Value.encodeAll_cons, List.length_append,
    Value.natural] at hcontent hmodulus hprime1 hprime2
  omega

namespace PublicKey

def info (k : PublicKey) : Value := .sequence [algorithm.value, .bits k.value.encode]

theorem fits_info {k : PublicKey} (hs : k.Sound)
    (hl : 2 * (Value.naturalBytes k.modulus).length ≤ Der.maxLength) : k.info.Fits := by
  have hmax : Der.maxLength = 0xFFFFFFF := rfl
  have hexponent : (Value.naturalBytes k.exponent).length ≤ 6 :=
    Value.length_naturalBytes_le (Nat.lt_trans hs.exponent_high (by decide))
  have hn : (Value.natural k.modulus).encode.length ≤ (Value.naturalBytes k.modulus).length + 6 :=
    Value.length_encode_le (Nat.le_refl _) (by omega)
  have he : (Value.natural k.exponent).encode.length ≤ 6 + 6 :=
    Value.length_encode_le hexponent (by decide)
  have hkey : k.value.encode.length ≤ (Value.naturalBytes k.modulus).length + 18 + 6 := by
    refine Value.length_sequence_le ?_ (by omega)
    simp only [Value.encodeAll_cons, Value.encodeAll_nil, List.length_append, List.length_nil]
    omega
  have hbits : (Value.bits k.value.encode).encode.length ≤
      (Value.naturalBytes k.modulus).length + 25 + 6 :=
    Value.length_encode_le (Nat.succ_le_succ hkey) (by omega)
  have halgorithm : algorithm.value.encode.length ≤ 15 := by decide_cbv
  have hinfo : k.info.encode.length ≤ (Value.naturalBytes k.modulus).length + 46 + 6 := by
    refine Value.length_sequence_le ?_ (by omega)
    simp only [Value.encodeAll_cons, Value.encodeAll_nil, List.length_append, List.length_nil]
    omega
  unfold Value.Fits
  omega

theorem sound_of_ofDer {b : Bytes} {k : PublicKey} (h : ofDer b = .ok k) :
    bitLength k.modulus ≤ maxKeySize ∧ k.Sound := by
  unfold ofDer at h
  split at h
  · split at h
    · split at h
      · cases h
      · split at h
        · cases h
        · split at h
          · obtain ⟨rfl, hsize, hsound⟩ := check_ok_iff.1 h
            exact ⟨hsize, hsound⟩
          · cases h
    · cases h
  · cases h

end PublicKey

namespace KeyPair

variable {k : KeyPair} {b : Bytes}

theorem fits_publicDer (h : ofDer b = .ok k) : k.publicKey.info.Fits := by
  obtain ⟨x, y, z, hcarried⟩ := exists_carried h
  exact PublicKey.fits_info k.sound_publicKey
    (PrivateNumbers.length_modulus_le k.valid.2.1 hcarried.fits)

theorem ofDer_publicDer :
    (∀ b k, ofDer b = .ok k →
      k.publicDer.length ≤ Der.maxLength ∧
      (k.numbers.modulus < 2 ^ maxKeySize →
        PublicKey.ofDer k.publicDer = .ok ⟨k.numbers.modulus, k.numbers.publicExponent⟩) ∧
      (2 ^ maxKeySize ≤ k.numbers.modulus →
        PublicKey.ofDer k.publicDer = .error (.keyEncoding .modulusTooLarge))) ∧
    ∀ b k, PublicKey.ofDer b = .ok k → k.modulus % 2 = 1 ∧ k.modulus < 2 ^ maxKeySize ∧
      k.exponent % 2 = 1 ∧ k.exponent < k.modulus := by
  constructor
  · intro b k h
    have hf := fits_publicDer h
    have hcheck : PublicKey.ofDer k.publicDer = k.publicKey.check := PublicKey.ofDer_toDer hf
    refine ⟨hf, ?_, ?_⟩
    · intro hsize
      rw [hcheck]
      exact check_publicKey (bitLength_le_iff.2 hsize)
    · intro hsize
      rw [hcheck]
      exact PublicKey.check_of_long (Nat.lt_of_not_le (mt bitLength_le_iff.1 (Nat.not_lt.2 hsize)))
  · intro b k h
    obtain ⟨hsize, hsound⟩ := PublicKey.sound_of_ofDer h
    exact ⟨hsound.modulus_odd, bitLength_le_iff.1 hsize, hsound.exponent_odd, hsound.below⟩

theorem fits_info_of_lt {k : PrivateNumbers} {x y z w : Nat}
    (h : ∀ n ∈ [0, k.modulus, k.publicExponent, k.privateExponent, k.prime1, k.prime2, x, y, z],
      n < 256 ^ w) (hw : 9 * (w + 7) + 50 ≤ Der.maxLength) :
    (PrivateKeyInfo.value ⟨algorithm, (k.record x y z).encode, none⟩).Fits := by
  have hnumbers := Value.length_naturals_le h (by omega)
  have hrecord : (k.record x y z).encode.length ≤ 9 * (w + 7) + 6 :=
    Value.length_sequence_le hnumbers (by omega)
  have hkey := Value.length_octets_le hrecord (by omega)
  have hversion : (Value.natural 0).encode.length ≤ 3 := by decide_cbv
  have halgorithm : algorithm.value.encode.length ≤ 15 := by decide_cbv
  refine Nat.le_trans (Value.length_sequence_le (n := 9 * (w + 7) + 30) ?_ (by omega)) (by omega)
  simp only [Value.encodeAll_cons, List.length_append, Option.isSome_none, Option.toList_none,
    List.map_nil, Value.encodeAll_nil, List.length_nil, Bool.false_eq_true, if_false]
  omega

theorem ofDer_info {x y z w : Nat}
    (h : ∀ n ∈ [0, k.numbers.modulus, k.numbers.publicExponent, k.numbers.privateExponent,
      k.numbers.prime1, k.numbers.prime2, x, y, z], n < 256 ^ w)
    (hw : 9 * (w + 7) + 50 ≤ Der.maxLength) :
    ofDer (PrivateKeyInfo.toDer ⟨algorithm, (k.numbers.record x y z).encode, none⟩) = .ok k := by
  have hf := fits_info_of_lt h hw
  have hkey : Value.Fits (.octets (k.numbers.record x y z).encode) := hf.mem_sequence (by simp)
  exact ofDer_of_carried
    { info := ⟨none, PrivateKeyInfo.ofDer?_toDer hf⟩
      fits := hkey.of_content (Nat.le_refl _) }

-- Both primes are the same number, one more than a power of two, and neither is prime: that the
-- modulus has more bits than a public key may have is all that counts.
def wideNumbers : PrivateNumbers where
  modulus := (2 ^ 8193 + 1) * (2 ^ 8193 + 1)
  publicExponent := 3
  privateExponent := (2 ^ 8193 + 1) / 3
  prime1 := 2 ^ 8193 + 1
  prime2 := 2 ^ 8193 + 1

theorem wideNumbers_valid : wideNumbers.Valid := by decide +kernel

def wideKey : KeyPair := ⟨wideNumbers, wideNumbers_valid⟩

def wideDer : Bytes := PrivateKeyInfo.toDer ⟨algorithm, (wideNumbers.record 0 0 0).encode, none⟩

theorem ofDer_wideDer : ofDer wideDer = .ok wideKey :=
  ofDer_info (k := wideKey) (w := 2049)
    (by show ∀ n ∈ [0, wideNumbers.modulus, 3, wideNumbers.privateExponent, wideNumbers.prime1,
          wideNumbers.prime2, 0, 0, 0], n < 256 ^ 2049
        decide +kernel) (by decide)

theorem ofDer_publicDer_wide :
    (ofDer looseDer = .ok smallKey ∧ PublicKey.ofDer smallKey.publicDer = .ok ⟨55, 3⟩) ∧
    (ofDer wideDer = .ok wideKey ∧ 2 ^ maxKeySize ≤ wideKey.numbers.modulus ∧
      PublicKey.ofDer wideKey.publicDer = .error (.keyEncoding .modulusTooLarge)) ∧
    (55 % 2 = 1 ∧ 55 < 2 ^ maxKeySize ∧ 3 % 2 = 1 ∧ 3 < 55) := by
  obtain ⟨hprivate, hpublic⟩ := ofDer_publicDer
  obtain ⟨-, hsmall, -⟩ := hprivate looseDer smallKey ofDer_looseDer
  obtain ⟨-, -, hwide⟩ := hprivate wideDer wideKey ofDer_wideDer
  have hkey : PublicKey.ofDer smallKey.publicDer = .ok ⟨55, 3⟩ := hsmall (by decide +kernel)
  have hsize : 2 ^ maxKeySize ≤ wideKey.numbers.modulus := by decide +kernel
  exact ⟨⟨ofDer_looseDer, hkey⟩, ⟨ofDer_wideDer, hsize, hwide hsize⟩, hpublic _ _ hkey⟩

end KeyPair

end Rsa

end Credential
