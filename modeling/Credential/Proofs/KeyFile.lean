import Credential.KeyFile
import Credential.Proofs.Encryption.Sizes
import Credential.Proofs.Results
import Credential.Proofs.Rsa.Reencoding
import Credential.Proofs.Text.Armor
/-!
A private key that was written as armoured text opens with the password it was written under, and
a key can be written as long as its encoding leaves room for the parameters of the method.
-/

namespace Credential

open Der (Value)

namespace KeyFile

variable {info : PrivateKeyInfo} {der : Bytes} {password text : String} {s : Seal}

def maxKeyLength : Nat := Der.maxLength - 112

theorem fits_encrypt_iff {password : Bytes} :
    (EncryptedKeyInfo.encrypt (.memoryHard password s) info).Fits ↔
      info.toDer.length ≤ maxKeyLength := by
  have hidentifier := Encryption.Method.length_memoryHard password s
  have hcipher := Encryption.Method.length_cipher (.memoryHard password s) info.toDer
  generalize Encryption.Method.memoryHard password s = m at hidentifier hcipher ⊢
  have hkey := Value.length_sequence_le_iff (by decide) (Nat.le_refl Der.maxLength)
    [m.identifier.value, .octets (m.encrypt info.toDer)]
  have hoctets := Value.length_octets_le_iff (n := Der.maxLength - 96) (by decide) (Nat.sub_le ..)
    (m.encrypt info.toDer)
  simp only [Value.encodeAll_cons, Value.encodeAll_nil, List.length_append, List.length_nil] at hkey
  rw [Value.Fits, EncryptedKeyInfo.encrypt, hkey, maxKeyLength]
  rw [Der.maxLength] at hoctets ⊢
  omega

def Opens (text password : String) (der : Bytes) : Prop :=
  ∃ key, ((Text.Armor.read? label text).bind Value.decode?).bind EncryptedKeyInfo.ofValue? =
      some key ∧ key.decrypt (Bytes.ofText password) = .ok der

theorem Opens.read_eq (h : Opens text password der) :
    read text password = Rsa.KeyPair.ofDer der := by
  obtain ⟨key, hkey, hder⟩ := h
  simp only [read, hkey, hder]

theorem opens_of_write (h : write der password s = .ok text) :
    ∃ info, PrivateKeyInfo.ofDer? der = some info ∧ Opens text password info.toDer := by
  unfold write at h
  split at h
  · cases h
  · rename_i info hi
    obtain ⟨content, hc, ht⟩ := exists_of_bind_ok h
    obtain rfl := Except.ok.inj ht
    obtain ⟨hf, rfl⟩ := Value.toDer_ok hc
    have ho := Encryption.Method.opens_memoryHard (Bytes.ofText password) s
    refine ⟨info, hi, _, ?_, EncryptedKeyInfo.decrypt_encrypt ho hf⟩
    rw [Text.Armor.read?_write _ _ (Value.encode_ne_nil _), Option.bind_some,
      Value.decode?_encode (EncryptedKeyInfo.known_encrypt ..) hf, Option.bind_some,
      EncryptedKeyInfo.ofValue?_encrypt ho hf]

theorem armored_of_write (h : write der password s = .ok text) :
    ∃ content, text = Text.Armor.write .lf label content := by
  unfold write at h
  split at h
  · cases h
  · obtain ⟨content, -, ht⟩ := exists_of_bind_ok h
    exact ⟨content, (Except.ok.inj ht).symm⟩

theorem exists_write (hi : PrivateKeyInfo.ofDer? der = some info)
    (hl : info.toDer.length ≤ maxKeyLength) (password : String) (s : Seal) :
    ∃ text, write der password s = .ok text := by
  unfold write
  rw [hi]
  dsimp only
  rw [Value.toDer_of_fits (fits_encrypt_iff.2 hl)]
  exact ⟨_, rfl⟩

theorem write_of_long (hi : PrivateKeyInfo.ofDer? der = some info)
    (hl : maxKeyLength < info.toDer.length) (password : String) (s : Seal) :
    write der password s = .error (.keyEncoding .malformed) := by
  unfold write
  rw [hi]
  dsimp only
  rw [Value.toDer_of_not_fits (mt fits_encrypt_iff.1 (Nat.not_le.2 hl))]
  rfl

theorem read_written {key : Rsa.KeyPair} (h : key.toDer = .ok der) (password : String) (s : Seal) :
    (der.length ≤ maxKeyLength →
      ∃ text, write der password s = .ok text ∧ read text password = .ok key) ∧
    (maxKeyLength < der.length → write der password s = .error (.keyEncoding .malformed)) := by
  obtain ⟨info, hi, hsame⟩ := Rsa.KeyPair.ofDer?_toDer h
  rw [← hsame]
  constructor
  · intro hl
    obtain ⟨text, hw⟩ := exists_write hi hl password s
    obtain ⟨_, hi', ho⟩ := opens_of_write hw
    obtain rfl := Option.some.inj (hi.symm.trans hi')
    refine ⟨text, hsame.symm ▸ hw, ?_⟩
    rw [ho.read_eq, hsame]
    exact Rsa.KeyPair.ofDer_toDer h
  · intro hl
    exact hsame.symm ▸ write_of_long hi hl password s

theorem read_written_small : ∃ text,
    write Rsa.KeyPair.smallDer "pässwörd" (.draw ⟨[]⟩) = .ok text ∧
      read text "pässwörd" = .ok Rsa.KeyPair.smallKey :=
  (read_written Rsa.KeyPair.toDer_smallKey "pässwörd" (.draw ⟨[]⟩)).1 (by decide)

end KeyFile

end Credential
