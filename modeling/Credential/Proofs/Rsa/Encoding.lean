import Credential.Rsa.Encoding
import Credential.Proofs.Encryption.Opening

namespace Credential

open Der (Value)

namespace Rsa

theorem algorithmOid_readable : algorithmOid.Readable := by decide_cbv

theorem algorithm_ofValue? (hf : algorithm.value.Fits) :
    AlgorithmIdentifier.ofValue? algorithm.value = some algorithm :=
  AlgorithmIdentifier.ofValue?_value algorithmOid_readable Value.known_null hf

end Rsa

namespace PrivateKeyInfo

theorem readPublicKey?_singleton (b : Bytes) :
    readPublicKey? [⟨Der.Tag.implicit 1, 0 :: b⟩] = some (some b) := by
  have hdrop : ([⟨Der.Tag.implicit 1, 0 :: b⟩] : List Value).dropWhile
      (fun v => Der.Tag.isContext v.tag && Der.Tag.number v.tag == 0) =
        [⟨Der.Tag.implicit 1, 0 :: b⟩] := by
    have htag : (Der.Tag.isContext (Der.Tag.implicit 1) &&
        Der.Tag.number (Der.Tag.implicit 1) == 0) = false := by decide
    simp only [List.dropWhile_cons, htag, if_false, Bool.false_eq_true]
  have htag : Der.Tag.isContext (Der.Tag.implicit 1) = true ∧
      Der.Tag.number (Der.Tag.implicit 1) = 1 := by decide
  simp only [readPublicKey?, hdrop, htag, if_true, and_self, List.all_nil]
  rfl

theorem known_publicKey (b : Bytes) : Value.Known ⟨Der.Tag.implicit 1, 0 :: b⟩ := by
  show Der.Tag.isKnown (Der.Tag.implicit 1) = true
  decide

theorem readPublicKey?_toList (k : Option Bytes) :
    readPublicKey? (k.toList.map fun b => ⟨Der.Tag.implicit 1, 0 :: b⟩) = some k := by
  cases k with
  | none => rfl
  | some b => exact readPublicKey?_singleton b

theorem ofDer?_toDer_of_algorithm {info : PrivateKeyInfo}
    (ha : AlgorithmIdentifier.ofValue? info.algorithm.value = some info.algorithm)
    (hf : info.value.Fits) : ofDer? info.toDer = some info := by
  have hd : Value.decode? info.toDer = some info.value := Value.decode?_encode rfl hf
  have hk : ∀ u ∈ (Value.natural (if info.publicKey.isSome then 1 else 0) :: info.algorithm.value ::
      .octets info.key :: info.publicKey.toList.map fun b => ⟨Der.Tag.implicit 1, 0 :: b⟩),
      u.Known := by
    intro u hu
    simp only [List.mem_cons, List.mem_map] at hu
    rcases hu with rfl | rfl | rfl | ⟨b, -, rfl⟩
    · exact Value.known_natural _
    · exact AlgorithmIdentifier.known_value _
    · exact Value.known_octets _
    · exact known_publicKey b
  have hs := Value.sequence?_sequence hk hf
  have hn : (if info.publicKey.isSome = true then 1 else 0) < 2 := by split <;> decide
  have hversion : ((if info.publicKey.isSome = true then 1 else 0) = 1) =
      (info.publicKey.isSome = true) := by
    cases info.publicKey <;> simp
  rw [ofDer?, hd, Option.bind_some, ofValue?, value, hs]
  simp only [Value.naturalBelow?_natural hn, ha, Value.octets?_octets, readPublicKey?_toList]
  rw [if_pos hversion]

theorem ofDer?_toDer {b : Bytes} (hf : (value ⟨Rsa.algorithm, b, none⟩).Fits) :
    ofDer? (toDer ⟨Rsa.algorithm, b, none⟩) = some ⟨Rsa.algorithm, b, none⟩ :=
  ofDer?_toDer_of_algorithm (Rsa.algorithm_ofValue? (hf.mem_sequence (by simp))) hf

theorem ofValue?_algorithm {v : Value} {info : PrivateKeyInfo} (h : ofValue? v = some info) :
    ∃ w, AlgorithmIdentifier.ofValue? w = some info.algorithm := by
  unfold ofValue? at h
  split at h
  · rename_i version algorithm key rest _
    split at h
    · rename_i n a k p _ ha _ _
      split at h
      · obtain rfl := Option.some.inj h
        exact ⟨algorithm, ha⟩
      · cases h
    · cases h
  · cases h

theorem ofDer?_toDer_of_read {b : Bytes} {info : PrivateKeyInfo} (h : ofDer? b = some info)
    (hf : info.value.Fits) : ofDer? info.toDer = some info := by
  obtain ⟨v, -, hv⟩ := Option.bind_eq_some_iff.1 h
  obtain ⟨w, ha⟩ := ofValue?_algorithm hv
  exact ofDer?_toDer_of_algorithm
    (AlgorithmIdentifier.ofValue?_value_of_read ha (hf.mem_sequence (by simp))) hf

end PrivateKeyInfo

namespace Rsa

namespace PublicKey

variable {k : PublicKey}

theorem ofValue?_value (hf : k.value.Fits) : ofValue? k.value = some k := by
  have hk : ∀ v ∈ [Value.natural k.modulus, .natural k.exponent], v.Known := by simp
  have hs := Value.sequence?_sequence hk hf
  rw [ofValue?, value, hs]
  simp only [Value.natural?_natural]

theorem ofDer_toDer (hf : (Value.sequence [algorithm.value, .bits k.value.encode]).Fits) :
    ofDer k.toDer = k.check := by
  have hbits : Value.Fits (.bits k.value.encode) := hf.mem_sequence (by simp)
  have hvalue : k.value.Fits := hbits.of_content (Nat.le_succ _)
  have hknown : ∀ v ∈ [algorithm.value, .bits k.value.encode], v.Known := by simp
  have hd := Value.decodeSequence?_sequence hknown hf
  have ha := algorithm_ofValue? (hf.mem_sequence (by simp))
  have hk : (Value.decode? k.value.encode).bind ofValue? = some k := by
    rw [Value.decode?_encode (v := k.value) rfl hvalue]
    exact ofValue?_value hvalue
  have hoid : ¬ algorithm.oid ≠ algorithmOid := not_not.2 rfl
  have hunused : ¬ (0 : UInt8) ≠ 0 := not_not.2 rfl
  rw [ofDer, toDer, hd]
  simp only [ha, Value.bits?_bits, hk, if_neg hoid, if_neg hunused]

end PublicKey

namespace PrivateNumbers

variable {k : PrivateNumbers} {v : Value}

def record (k : PrivateNumbers) (exponent1 exponent2 coefficient : Nat) : Value :=
  .sequence ([0, k.modulus, k.publicExponent, k.privateExponent, k.prime1, k.prime2,
    exponent1, exponent2, coefficient].map .natural)

theorem value?_eq_some_iff : k.value? = some v ↔
    ∃ c, k.coefficient? = some c ∧ k.record k.exponent1 k.exponent2 c = v := Option.map_eq_some_iff

theorem read_record {exponent1 exponent2 coefficient : Nat}
    (hf : (k.record exponent1 exponent2 coefficient).Fits) :
    read (k.record exponent1 exponent2 coefficient) = .twoPrime k := by
  have hs := Value.sequence?_sequence (by simp) hf
  unfold read record
  rw [hs]
  simp [Value.natural?_natural]

-- Any three numbers may stand where the exponents of the primes and the coefficient belong, and
-- fields of the key that are passed over or optional may stand after it.
structure CarriedBy (k : PrivateNumbers) (b : Bytes) (x y z : Nat) : Prop where
  info : ∃ publicKey,
    PrivateKeyInfo.ofDer? b = some ⟨algorithm, (k.record x y z).encode, publicKey⟩
  fits : (k.record x y z).Fits

end PrivateNumbers

namespace KeyPair

variable {k : KeyPair} {b : Bytes}

theorem toDer_ok (h : k.toDer = .ok b) : ∃ v, k.numbers.value? = some v ∧
    (PrivateKeyInfo.value ⟨algorithm, v.encode, none⟩).Fits ∧
      b = PrivateKeyInfo.toDer ⟨algorithm, v.encode, none⟩ := by
  unfold toDer at h
  split at h
  · rename_i v hv
    obtain ⟨hf, hb⟩ := Value.toDer_ok h
    exact ⟨v, hv, hf, hb⟩
  · cases h

theorem ofDer?_toDer (h : k.toDer = .ok b) :
    ∃ info, PrivateKeyInfo.ofDer? b = some info ∧ info.toDer = b := by
  obtain ⟨v, -, hf, rfl⟩ := toDer_ok h
  exact ⟨_, PrivateKeyInfo.ofDer?_toDer hf, rfl⟩

theorem ofDer_of_carried {x y z : Nat} (h : k.numbers.CarriedBy b x y z) : ofDer b = .ok k := by
  obtain ⟨publicKey, hinfo⟩ := h.info
  have hd := Value.decode?_encode (v := k.numbers.record x y z) rfl h.fits
  simp [ofDer, hinfo, ofInfo, hd, PrivateNumbers.read_record h.fits, ofNumbers?_numbers]

theorem exists_carried_of_toDer (h : k.toDer = .ok b) : ∃ x y z, k.numbers.CarriedBy b x y z := by
  obtain ⟨v, hv, hf, rfl⟩ := toDer_ok h
  have hkey : Value.Fits (.octets v.encode) := hf.mem_sequence (by simp)
  have hfits : v.Fits := hkey.of_content (Nat.le_refl _)
  obtain ⟨c, -, rfl⟩ := PrivateNumbers.value?_eq_some_iff.1 hv
  exact ⟨_, _, c, ⟨none, PrivateKeyInfo.ofDer?_toDer hf⟩, hfits⟩

theorem ofDer_toDer (h : k.toDer = .ok b) : ofDer b = .ok k := by
  obtain ⟨x, y, z, hcarried⟩ := exists_carried_of_toDer h
  exact ofDer_of_carried hcarried

end KeyPair

end Rsa

end Credential
