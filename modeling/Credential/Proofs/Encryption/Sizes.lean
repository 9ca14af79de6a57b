import Mathlib
import Credential.Proofs.Der.Sizes
import Credential.Proofs.Encryption.Opening

namespace Credential.Encryption.Method

open Der (Value)

theorem length_iterated (password : Bytes) (s : Seal) :
    (iterated password s).identifier.value.encode.length = 97 := by
  simp only [identifier, iterated, Derivation.identifier, BlockCipher.identifier,
    AlgorithmIdentifier.value, Option.toList_some, Option.toList_none, List.map_nil, List.append_nil,
    reduceCtorEq, if_false, List.cons_append, List.nil_append, Value.length_encode, Value.sequence,
    Value.octets, Value.encodeAll_cons, Value.encodeAll_nil, List.length_append,
    s.salt.length_bytes, s.iv.length_bytes]
  decide_cbv

theorem length_memoryHard (password : Bytes) (s : Seal) :
    (memoryHard password s).identifier.value.encode.length = 90 := by
  simp only [identifier, memoryHard, Derivation.identifier, BlockCipher.identifier,
    AlgorithmIdentifier.value, Option.toList_some, Option.toList_none, List.map_nil, List.append_nil,
    Value.length_encode, Value.sequence, Value.octets, Value.encodeAll_cons, Value.encodeAll_nil,
    List.length_append, s.salt.length_bytes, s.iv.length_bytes]
  decide_cbv

theorem length_cipher (m : Method) (plain : Bytes) :
    (m.encrypt plain).length = 16 * (plain.length / 16 + 1) := by
  rw [encrypt, Cbc.length_encrypt, Cbc.padLength]
  omega

end Credential.Encryption.Method
