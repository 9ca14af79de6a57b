import Mathlib
import Credential.Proofs.Container.Parts
import Credential.Proofs.Encryption.Sizes
/-!
Protected content opens under its password to the bytes it was made of, as it stands and once it has
been written and read again. The only bytes that do not come back are those whose encoding gets too
long.
-/

namespace Credential.Container.Content

open Der (Value)
open Encryption (Method)

variable {c : Content} {v : Value} {n : Nat} {plain : Bytes} {password : String} {s : Seal}

def maxEnclosedLength : Nat := Der.maxLength - 144

def maxProtectedLength : Nat := Der.maxLength - 160

def reread (c : Content) : Except Error Content := do
  let der ← c.encoded.toDer .encoding
  match (Value.decode? der).bind ofValue? with
  | none => .error malformed
  | some c => .ok c

theorem length_enclosed_le_iff (hv : (protect plain password s).value = some v)
    (hlow : Der.maxLength ≤ n + 23) (hn : n ≤ Der.maxLength) :
    v.encode.length ≤ n ↔ 16 * (plain.length / 16 + 1) + 129 ≤ n := by
  obtain rfl := Option.some.inj hv
  have hmax : Der.maxLength = 0xFFFFFFF := rfl
  have halgorithm := Method.length_iterated (Bytes.ofText password) s
  have hcipher := Method.length_cipher (.iterated (Bytes.ofText password) s) plain
  generalize Method.iterated (Bytes.ofText password) s = m at halgorithm hcipher ⊢
  have hversion : (Value.natural 0).encode.length = 3 := by decide_cbv
  have htype : (Value.oid dataOid).encode.length = 11 := by decide_cbv
  have hbytes := Value.length_encode_le_iff (n := n - 123) (by omega) (by omega)
    ⟨Der.Tag.implicit 0, m.encrypt plain⟩
  have hinfo := Value.length_sequence_le_iff (n := n - 9) (by omega) (by omega)
    [.oid dataOid, m.identifier.value, ⟨Der.Tag.implicit 0, m.encrypt plain⟩]
  have hwhole := Value.length_sequence_le_iff (by omega) hn [.natural 0,
    .sequence [.oid dataOid, m.identifier.value, ⟨Der.Tag.implicit 0, m.encrypt plain⟩]]
  simp only [Value.encodeAll_cons, Value.encodeAll_nil, List.length_append, List.length_nil]
    at hbytes hinfo hwhole
  omega

theorem fits_enclosed_iff (hv : (protect plain password s).value = some v) :
    v.Fits ↔ plain.length ≤ maxEnclosedLength := by
  have hmax : Der.maxLength = 0xFFFFFFF := rfl
  have hlength := length_enclosed_le_iff hv (by omega) (Nat.le_refl Der.maxLength)
  unfold Value.Fits maxEnclosedLength
  omega

theorem fits_protect_iff :
    (protect plain password s).encoded.Fits ↔ plain.length ≤ maxProtectedLength := by
  obtain ⟨v, hv⟩ : ∃ v, (protect plain password s).value = some v := ⟨_, rfl⟩
  have hcontent : (protect plain password s).encoded =
      .sequence [.oid encryptedDataOid, .explicit 0 v] := by
    rw [encoded, hv]
    rfl
  have hmax : Der.maxLength = 0xFFFFFFF := rfl
  have htype : (Value.oid encryptedDataOid).encode.length = 11 := by decide_cbv
  have hvalue := length_enclosed_le_iff hv (n := Der.maxLength - 23) (by omega) (Nat.sub_le ..)
  have hfield := Value.length_explicit_le_iff (n := Der.maxLength - 17) (by omega) (Nat.sub_le ..)
    0 v
  have hwhole := Value.length_sequence_le_iff (by omega) (Nat.le_refl Der.maxLength)
    [.oid encryptedDataOid, .explicit 0 v]
  simp only [Value.encodeAll_cons, Value.encodeAll_nil, List.length_append, List.length_nil]
    at hwhole
  rw [hcontent]
  unfold Value.Fits maxProtectedLength
  omega

theorem unprotect_of_not_fits (hv : c.value = some v) (hf : ¬ v.Fits) :
    c.unprotect password = .error .encoding := by
  simp only [unprotect, hv, Value.toDer_of_not_fits hf]
  rfl

theorem reread_of_fits (hr : ofValue? c.encoded = some c) (hf : c.encoded.Fits) :
    c.reread = .ok c := by
  have hd : Value.decode? c.encoded.encode = some c.encoded :=
    Value.decode?_encode (known_encoded c) hf
  simp only [reread, Value.toDer_of_fits hf, bind, Except.bind, hd, Option.bind_some, hr]

theorem reread_of_not_fits (hf : ¬ c.encoded.Fits) : c.reread = .error .encoding := by
  simp only [reread, Value.toDer_of_not_fits hf]
  rfl

theorem unprotect_protect_decided (plain : Bytes) (password : String) (s : Seal) :
    (protect plain password s).unprotect password =
      (if plain.length ≤ maxEnclosedLength then .ok plain else .error .encoding) ∧
    ((protect plain password s).reread >>= fun c => c.unprotect password) =
      (if plain.length ≤ maxProtectedLength then .ok plain else .error .encoding) := by
  constructor
  · split
    · rename_i hshort
      exact unprotect_of_fits rfl ((fits_enclosed_iff rfl).2 hshort)
    · rename_i hlong
      exact unprotect_of_not_fits rfl (mt (fits_enclosed_iff rfl).1 hlong)
  · split
    · rename_i hshort
      have hf : (protect plain password s).encoded.Fits := fits_protect_iff.2 hshort
      rw [reread_of_fits (ofValue?_protect hf) hf]
      exact unprotect_protect hf
    · rename_i hlong
      rw [reread_of_not_fits (mt fits_protect_iff.1 hlong)]
      rfl

end Credential.Container.Content
