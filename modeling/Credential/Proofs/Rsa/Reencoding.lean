import Credential.Proofs.Der.Reading
import Credential.Proofs.Results
import Credential.Proofs.Rsa.Decryption
import Credential.Proofs.Rsa.Encoding
import Credential.Proofs.Rsa.Key
/-!
Private keys are written in one form: whatever an input carries beside the five numbers of its key,
what is written for it holds these numbers and the ones that follow from them, and reading that
gives the key back.
-/

namespace Credential.Rsa

open Der (Value)

namespace PrivateNumbers

variable {k : PrivateNumbers} {v : Value}

theorem exists_record (h : read v = .twoPrime k) : ∃ x y z, v = k.record x y z := by
  unfold read at h
  split at h
  · rename_i fields hs
    have hv := Value.eq_sequence hs
    split at h
    · rename_i n e d p q x y z htake hdrop
      cases h
      have hfields := eq_map_of_mapM (fun v n => Value.natural?_eq_some_iff.1) htake
      rw [← List.take_append_drop 9 fields, hfields, hdrop, List.append_nil] at hv
      exact ⟨x, y, z, hv⟩
    · split at h
      · cases h
      · cases h
    · cases h
  · cases h

end PrivateNumbers

namespace KeyPair

variable {k : KeyPair} {b der : Bytes}

theorem exists_carried (h : ofDer b = .ok k) : ∃ x y z, k.numbers.CarriedBy b x y z := by
  unfold ofDer at h
  split at h
  · rename_i info hinfo
    obtain ⟨identifier, content, publicKey⟩ := info
    unfold ofInfo at h
    split at h
    · cases h
    · rename_i ha
      obtain rfl : identifier = algorithm := not_not.1 ha
      split at h
      · rename_i numbers hread
        obtain ⟨v, hv, hnumbers⟩ := Option.map_eq_some_iff.1 hread
        obtain ⟨x, y, z, rfl⟩ := PrivateNumbers.exists_record hnumbers
        obtain ⟨rfl, -, hf⟩ : content = _ ∧ _ ∧ _ := Value.decode?_eq_some_iff.1 hv
        split at h
        · rename_i pair hpair
          obtain rfl := Except.ok.inj h
          unfold ofNumbers? at hpair
          split at hpair
          · obtain rfl := Option.some.inj hpair
            exact ⟨x, y, z, ⟨publicKey, hinfo⟩, hf⟩
          · cases hpair
        · cases h
      · cases h
      · cases h
  · cases h

theorem coefficient?_eq_some_iff (k : KeyPair) {c : Nat} : k.numbers.coefficient? = some c ↔
    c < k.numbers.prime1 ∧ c * k.numbers.prime2 % k.numbers.prime1 = 1 :=
  inverse?_eq_some_iff k.one_lt_prime1

theorem reencoding_canonical (h : ofDer b = .ok k) (hd : k.toDer = .ok der) :
    (∃ x y z, k.numbers.CarriedBy b x y z) ∧
    (∃ l, ofDer der = .ok l ∧ l.numbers = k.numbers ∧ l.toDer = .ok der) ∧
    (∃ c, c < k.numbers.prime1 ∧ c * k.numbers.prime2 % k.numbers.prime1 = 1 ∧
      der = PrivateKeyInfo.toDer ⟨algorithm,
        (k.numbers.record (k.numbers.privateExponent % (k.numbers.prime1 - 1))
          (k.numbers.privateExponent % (k.numbers.prime2 - 1)) c).encode, none⟩) ∧
    ∀ other, (∃ l, ofDer other = .ok l ∧ l.toDer = .ok der) ↔
      ∃ x y z, k.numbers.CarriedBy other x y z := by
  have hback := ofDer_toDer hd
  obtain ⟨v, hv, -, hder⟩ := toDer_ok hd
  obtain ⟨c, hc, rfl⟩ := PrivateNumbers.value?_eq_some_iff.1 hv
  obtain ⟨hlt, hone⟩ := k.coefficient?_eq_some_iff.1 hc
  refine ⟨exists_carried h, ⟨k, hback, rfl, hd⟩, ⟨c, hlt, hone, hder⟩, ?_⟩
  intro other
  constructor
  · rintro ⟨l, hl, hsame⟩
    obtain rfl : l = k := Except.ok.inj ((ofDer_toDer hsame).symm.trans hback)
    exact exists_carried hl
  · rintro ⟨x, y, z, hcarried⟩
    exact ⟨k, ofDer_of_carried hcarried, hd⟩

def smallNumbers : PrivateNumbers := ⟨55, 3, 7, 5, 11⟩

def smallKey : KeyPair := ⟨smallNumbers, by decide⟩

def looseDer : Bytes := [
  0x30, 0x3C, 0x02, 0x01, 0x01,
  0x30, 0x0D, 0x06, 0x09, 0x2A, 0x86, 0x48, 0x86, 0xF7, 0x0D, 0x01, 0x01, 0x01, 0x05, 0x00,
  0x04, 0x1F, 0x30, 0x1D, 0x02, 0x01, 0x00, 0x02, 0x01, 0x37, 0x02, 0x01, 0x03, 0x02, 0x01, 0x07,
  0x02, 0x01, 0x05, 0x02, 0x01, 0x0B, 0x02, 0x01, 0x00, 0x02, 0x02, 0x00, 0xC8, 0x02, 0x02, 0x01,
  0x2C, 0xA0, 0x02, 0x05, 0x00, 0x81, 0x03, 0x00, 0xDE, 0xAD]

def smallDer : Bytes := [
  0x30, 0x31, 0x02, 0x01, 0x00,
  0x30, 0x0D, 0x06, 0x09, 0x2A, 0x86, 0x48, 0x86, 0xF7, 0x0D, 0x01, 0x01, 0x01, 0x05, 0x00,
  0x04, 0x1D, 0x30, 0x1B, 0x02, 0x01, 0x00, 0x02, 0x01, 0x37, 0x02, 0x01, 0x03, 0x02, 0x01, 0x07,
  0x02, 0x01, 0x05, 0x02, 0x01, 0x0B, 0x02, 0x01, 0x03, 0x02, 0x01, 0x07, 0x02, 0x01, 0x01]

theorem ofDer_looseDer : ofDer looseDer = .ok smallKey := by
  refine ofDer_of_carried (x := 0) (y := 200) (z := 300) ⟨⟨some [0xDE, 0xAD], ?_⟩, ?_⟩
  · decide_cbv
  · show (smallNumbers.record 0 200 300).encode.length ≤ Der.maxLength
    decide_cbv

theorem toDer_smallKey : smallKey.toDer = .ok smallDer := by decide_cbv

theorem reencoding_canonical_loose :
    ofDer looseDer = .ok smallKey ∧ smallKey.toDer = .ok smallDer ∧
    (∃ x y z, smallNumbers.CarriedBy looseDer x y z) ∧
    (∃ l, ofDer smallDer = .ok l ∧ l.numbers = smallNumbers ∧ l.toDer = .ok smallDer) ∧
    (∃ c, c < 5 ∧ c * 11 % 5 = 1 ∧ smallDer = PrivateKeyInfo.toDer ⟨algorithm,
      (smallNumbers.record (7 % (5 - 1)) (7 % (11 - 1)) c).encode, none⟩) ∧
    ∀ other, (∃ l, ofDer other = .ok l ∧ l.toDer = .ok smallDer) ↔
      ∃ x y z, smallNumbers.CarriedBy other x y z :=
  ⟨ofDer_looseDer, toDer_smallKey, reencoding_canonical ofDer_looseDer toDer_smallKey⟩

end KeyPair

end Credential.Rsa
