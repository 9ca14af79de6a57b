import Mathlib
import Credential.Encryption
import Credential.Proofs.Cipher.Inversion
import Credential.Proofs.Der.RoundTrip
/-!
What is encrypted under a password opens with it: the identifiers of the scheme are read back as
they were written, and the decryption they stand for undoes the encryption.
-/

namespace Credential

open Der (Value)

def Oid.Readable (o : Oid) : Prop := Oid.ofContent? o.content = some o

instance (o : Oid) : Decidable o.Readable := inferInstanceAs (Decidable (_ = _))

namespace AlgorithmIdentifier

variable {o : Oid} {p : Value}

@[simp] theorem known_value (a : AlgorithmIdentifier) : a.value.Known := rfl

theorem ofValue?_value (ho : o.Readable) (hk : p.Known) (hf : (value ⟨o, some p⟩).Fits) :
    ofValue? (value ⟨o, some p⟩) = some ⟨o, some p⟩ := by
  have hs : (value ⟨o, some p⟩).sequence? = some [.oid o, p] :=
    Value.sequence?_sequence (by simpa using hk) hf
  simp [ofValue?, hs, Value.oid?_oid ho]

theorem readable_of_oid? {v : Value} {o : Oid} (h : v.oid? = some o) : o.Readable := by
  unfold Value.oid? at h
  split at h
  · unfold Oid.Readable
    unfold Oid.ofContent? at h ⊢
    split at h
    · rename_i hc
      obtain rfl := Option.some.inj h
      rw [if_pos hc]
    · cases h
  · cases h

theorem readable_of_ofValue? {v : Value} {a : AlgorithmIdentifier} (h : ofValue? v = some a) :
    a.oid.Readable ∧ ∀ p ∈ a.parameters, p.Known := by
  unfold ofValue? at h
  split at h
  · obtain ⟨o, ho, rfl⟩ := Option.map_eq_some_iff.1 h
    exact ⟨readable_of_oid? ho, by rintro p ⟨⟩⟩
  · rename_i hs
    obtain ⟨o, ho, rfl⟩ := Option.map_eq_some_iff.1 h
    refine ⟨readable_of_oid? ho, ?_⟩
    rintro p ⟨⟩
    exact Value.known_of_sequence? hs _ (by simp)
  · cases h

theorem ofValue?_readable {a : AlgorithmIdentifier} (ho : a.oid.Readable)
    (hk : ∀ p ∈ a.parameters, p.Known) (hf : a.value.Fits) : ofValue? a.value = some a := by
  obtain ⟨o, p⟩ := a
  cases p with
  | some p => exact ofValue?_value ho (hk p rfl) hf
  | none =>
    have hs : (value ⟨o, none⟩).sequence? = some [.oid o] := Value.sequence?_sequence (by simp) hf
    simp [ofValue?, hs, Value.oid?_oid ho]

theorem ofValue?_value_of_read {v : Value} {a : AlgorithmIdentifier} (h : ofValue? v = some a)
    (hf : a.value.Fits) : ofValue? a.value = some a :=
  ofValue?_readable (readable_of_ofValue? h).1 (readable_of_ofValue? h).2 hf

theorem fits_parameters (hf : (value ⟨o, some p⟩).Fits) : p.Fits :=
  Value.Fits.mem_sequence hf (by simp)

end AlgorithmIdentifier

namespace Encryption

theorem Prf.oid_readable (f : Prf) : f.oid.Readable := by
  cases f <;> decide_cbv

theorem Prf.ofIdentifier?_identifier (f : Prf) : ofIdentifier? f.identifier = some f := by
  cases f <;> decide_cbv

theorem Prf.ofValue?_value {f : Prf} (hf : f.identifier.value.Fits) :
    AlgorithmIdentifier.ofValue? f.identifier.value = some f.identifier :=
  AlgorithmIdentifier.ofValue?_value f.oid_readable Value.known_null hf

namespace Derivation

theorem iteratedOid_readable : iteratedOid.Readable := by decide_cbv

theorem ofIterated?_fields (salt : Bytes) {count : Nat} {f : Prf} (hc : count < 1 <<< 32)
    (hf : f.identifier.value.Fits) :
    ofIterated? ([.octets salt, .natural count] ++
      (if f = .sha1 then [] else [f.identifier.value])) = some (iterated salt count none f) := by
  have hn := Value.naturalBelow?_natural hc
  by_cases h : f = .sha1
  · subst h
    simp only [if_true, List.append_nil, ofIterated?, Value.octets?_octets, hn, takeNatural?,
      takePrf?, Option.map_some]
  · have ht : takeNatural? (1 <<< 16) [f.identifier.value] = some (none, [f.identifier.value]) :=
      rfl
    simp only [h, if_false, List.cons_append, List.nil_append, ofIterated?, Value.octets?_octets,
      hn, ht, takePrf?, Prf.ofValue?_value hf, Option.bind_some, Prf.ofIdentifier?_identifier,
      Option.map_some]

end Derivation

namespace BlockCipher

theorem oid_readable (size : Cbc.KeySize) : (oid size).Readable := by
  cases size <;> decide_cbv

theorem find_oid (size : Cbc.KeySize) :
    [Cbc.KeySize.aes128, .aes192, .aes256].find? (oid · = oid size) = some size := by
  cases size <;> decide_cbv

theorem ofIdentifier?_identifier (c : BlockCipher) : ofIdentifier? c.identifier = some c := by
  have hs : [Cbc.KeySize.aes128, .aes192, .aes256].find? (oid · = c.identifier.oid) =
      some c.size := find_oid c.size
  have hp : c.identifier.parameters.bind Value.octets? = some c.iv.bytes := rfl
  have hb : Aes.blocks c.iv.bytes = [c.iv] := by
    have := Aes.blocks_append c.iv []
    rwa [List.append_nil] at this
  unfold ofIdentifier?
  simp only [hs, hp, Aes.Block.length_bytes, hb]

end BlockCipher

theorem memoryHardOid_readable : Derivation.memoryHardOid.Readable := by decide_cbv

namespace Method

def opening (m : Method) : Scheme := .modern m.derivation ⟨.aes256, m.iv⟩

theorem modernOid_readable : Scheme.modernOid.Readable := by decide_cbv

structure Opens (m : Method) (password : Bytes) : Prop where
  oid : m.derivation.identifier.oid.Readable
  sequence : ∃ vs, m.derivation.identifier.parameters = some (.sequence vs)
  read : m.derivation.identifier.value.Fits →
    Derivation.ofIdentifier? m.derivation.identifier = some m.derivation
  key : m.derivation.key password Cbc.KeySize.aes256.length = .ok m.key

namespace Opens

variable {m : Method} {password : Bytes}

theorem ofValue?_derivation (h : m.Opens password) (hf : m.derivation.identifier.value.Fits) :
    AlgorithmIdentifier.ofValue? m.derivation.identifier.value = some m.derivation.identifier := by
  obtain ⟨vs, hv⟩ := h.sequence
  have ho := h.oid
  generalize m.derivation.identifier = a at hv ho hf ⊢
  obtain ⟨o, p⟩ := a
  cases hv
  exact AlgorithmIdentifier.ofValue?_value ho (Value.known_sequence _) hf

theorem ofIdentifier?_identifier (h : m.Opens password) (hf : m.identifier.value.Fits) :
    Scheme.ofIdentifier? m.identifier = some m.opening := by
  have hv := AlgorithmIdentifier.fits_parameters hf
  have hs := Value.sequence?_sequence (by simp) hv
  have hdf : m.derivation.identifier.value.Fits := hv.mem_sequence (by simp)
  have hc : AlgorithmIdentifier.ofValue? (BlockCipher.identifier ⟨.aes256, m.iv⟩).value =
      some (BlockCipher.identifier ⟨.aes256, m.iv⟩) :=
    AlgorithmIdentifier.ofValue?_value (BlockCipher.oid_readable .aes256) (Value.known_octets _)
      (hv.mem_sequence (by simp [BlockCipher.identifier]))
  have hc' := BlockCipher.ofIdentifier?_identifier ⟨.aes256, m.iv⟩
  have hm : Scheme.modernOfFields? [m.derivation.identifier.value,
      (BlockCipher.identifier ⟨.aes256, m.iv⟩).value] = some m.opening := by
    simp only [Scheme.modernOfFields?, List.mapM_cons, List.mapM_nil, h.ofValue?_derivation hdf, hc,
      Option.bind_eq_bind, Option.bind_some, Option.pure_def, h.read hdf, hc']
    rfl
  have hb : m.identifier.parameters.bind Value.sequence? =
      some [m.derivation.identifier.value, (BlockCipher.identifier ⟨.aes256, m.iv⟩).value] := hs
  have ho : m.identifier.oid = Scheme.modernOid := rfl
  simp only [Scheme.ofIdentifier?, hb, ho, if_true, hm]

theorem decrypt_encrypt (h : m.Opens password) (plain : Bytes) :
    m.opening.decrypt password (m.encrypt plain) = .ok plain := by
  have hd : Cbc.decrypt? m.key m.iv (m.encrypt plain) = some plain := Cbc.decrypt?_encrypt ..
  simp only [opening, Scheme.decrypt, h.key, bind, Except.bind, hd]

end Opens

theorem ofValue?_identifier {m : Method} (hf : m.identifier.value.Fits) :
    AlgorithmIdentifier.ofValue? m.identifier.value = some m.identifier :=
  AlgorithmIdentifier.ofValue?_value modernOid_readable (Value.known_sequence _) hf

theorem opens_iterated (password : Bytes) (s : Seal) : (iterated password s).Opens password where
  oid := Derivation.iteratedOid_readable
  sequence := ⟨_, rfl⟩
  read hf := by
    have hv := AlgorithmIdentifier.fits_parameters hf
    have hs := Value.sequence?_sequence (by simp) hv
    have hp := Derivation.ofIterated?_fields s.salt.bytes (f := .sha256)
      (by decide : iterations < 1 <<< 32) (hv.mem_sequence (by simp))
    simp only [iterated, Derivation.identifier, Derivation.ofIdentifier?, Option.bind_some]
    simp only [Option.toList_none, List.map_nil, List.append_nil] at hs ⊢
    rw [hs]
    exact hp
  key := by simp [Derivation.key, Derivation.keyLength?, Prf.hash?, iterated, Cbc.KeySize.length]

theorem opens_memoryHard (password : Bytes) (s : Seal) :
    (memoryHard password s).Opens password where
  oid := memoryHardOid_readable
  sequence := ⟨_, rfl⟩
  read hf := by
    have hs := Value.sequence?_sequence (by simp) (AlgorithmIdentifier.fits_parameters hf)
    have hne : Derivation.memoryHardOid ≠ Derivation.iteratedOid := by decide_cbv
    simp only [memoryHard, Derivation.identifier, Derivation.ofIdentifier?, Option.bind_some]
    simp only [Option.toList_none, List.map_nil, List.append_nil] at hs ⊢
    simp only [hs, hne, if_false, if_true, Derivation.ofMemoryHard?, Value.octets?_octets,
      Value.naturalBelow?_natural (by decide : slow.cost < 1 <<< 64),
      Value.naturalBelow?_natural (by decide : slow.blockSize < 1 <<< 16),
      Value.naturalBelow?_natural (by decide : slow.lanes < 1 <<< 16), Derivation.takeNatural?]
  key := by
    have hv : slow.Valid := by decide
    simp [Derivation.key, Derivation.keyLength?, memoryHard, Cbc.KeySize.length, hv]

theorem length_encrypt (m : Method) (plain : Bytes) :
    plain.length ≤ (m.encrypt plain).length := by
  rw [encrypt, Cbc.length_encrypt]
  omega

end Method

end Encryption

namespace EncryptedKeyInfo

open Encryption

variable {m : Method} {password : Bytes} {info : PrivateKeyInfo}

theorem known_encrypt (m : Method) (info : PrivateKeyInfo) : (encrypt m info).Known := rfl

theorem ofValue?_encrypt (h : m.Opens password) (hf : (encrypt m info).Fits) :
    ofValue? (encrypt m info) = some ⟨m.opening, m.encrypt info.toDer⟩ := by
  have hs := Value.sequence?_sequence (by simp) hf
  have hi := hf.mem_sequence (v := m.identifier.value) (by simp)
  simp only [ofValue?, encrypt, hs, Method.ofValue?_identifier hi, Option.bind_some,
    h.ofIdentifier?_identifier hi, Value.octets?_octets]

theorem isSequence_toDer (hf : info.value.Fits) : Value.isSequence info.toDer = true := by
  have h : Value.decode? info.toDer = some info.value := Value.decode?_encode rfl hf
  simp only [Value.isSequence, h]
  rfl

theorem fits_info (hf : (encrypt m info).Fits) : info.value.Fits := by
  have hc := hf.mem_sequence (v := .octets (m.encrypt info.toDer)) (by simp)
  exact hc.of_content (m.length_encrypt info.toDer)

theorem decrypt_encrypt (h : m.Opens password) (hf : (encrypt m info).Fits) :
    decrypt ⟨m.opening, m.encrypt info.toDer⟩ password = .ok info.toDer := by
  simp only [decrypt, h.decrypt_encrypt, isSequence_toDer (fits_info hf), if_true]

end EncryptedKeyInfo

end Credential
