import Mathlib
import Credential.Certificate.Basic
import Credential.Proofs.Der.RoundTrip
import Credential.Proofs.Results

namespace Credential.Certificate

open Der (Value)

theorem readLength_lengthBytes (n : Nat) (h : n ≤ Der.maxLength) (rest : Bytes) :
    readLength (Der.lengthBytes n ++ rest) = some (some n, rest) := by
  by_cases hs : n < 128
  · have hb : UInt8.ofNat n < 0x80 := by
      rw [UInt8.lt_iff_toNat_lt, UInt8.toNat_ofNat']
      simp
      omega
    have hn : n % 2 ^ 8 = n := Nat.mod_eq_of_lt (by omega)
    simp only [Der.lengthBytes, hs, if_true, List.singleton_append, readLength, hb,
      UInt8.toNat_ofNat', hn]
  · have hle : (Bytes.ofNat n).length ≤ 4 :=
      Bytes.length_ofNat_le 4 n (by simp only [Der.maxLength] at h; omega)
    have hpos : 0 < (Bytes.ofNat n).length :=
      List.length_pos_iff.2 (Bytes.ofNat_ne_nil (by omega))
    have hb : (UInt8.ofNat (128 + (Bytes.ofNat n).length)).toNat = 128 + (Bytes.ofNat n).length := by
      rw [UInt8.toNat_ofNat']
      omega
    have hlong : ¬ UInt8.ofNat (128 + (Bytes.ofNat n).length) < 0x80 := by
      rw [UInt8.lt_iff_toNat_lt, hb]
      simp
    have hopen : UInt8.ofNat (128 + (Bytes.ofNat n).length) ≠ 0x80 := by
      intro he
      have hn := congrArg UInt8.toNat he
      rw [hb] at hn
      change _ = 128 at hn
      omega
    have hlast : UInt8.ofNat (128 + (Bytes.ofNat n).length) ≠ 0xFF := by
      intro he
      have hn := congrArg UInt8.toNat he
      rw [hb] at hn
      change _ = 255 at hn
      omega
    have hc : 128 + (Bytes.ofNat n).length - 0x80 = (Bytes.ofNat n).length := by omega
    have hsmall : ¬ 1 <<< 64 ≤ n := by
      simp only [Der.maxLength] at h
      omega
    simp only [Der.lengthBytes, hs, if_false, List.cons_append, readLength, hlong, hopen, hb, hc,
      List.take_left, List.drop_left, Bytes.toNat_ofNat, hlast, hsmall, List.length_append]
    rw [if_neg (by simp)]

variable {v : Value} {rest : Bytes}

def header (v : Value) : Header := ⟨v.tag, (v.tag &&& 0x1F).toNat, some v.content.length⟩

theorem readHeader_encode (ht : v.tag &&& 0x1F ≠ 0x1F) (hf : v.Fits) (rest : Bytes) :
    readHeader (v.encode ++ rest) = some (header v, v.content ++ rest) := by
  have hl := readLength_lengthBytes v.content.length hf.content (v.content ++ rest)
  simp only [Value.encode, List.cons_append, List.append_assoc, readHeader, readNumber, ht,
    if_false, hl, Option.map_some]
  rfl

theorem readElement_encode (ht : v.tag &&& 0x1F ≠ 0x1F) (hf : v.Fits) (rest : Bytes) :
    readElement (v.encode ++ rest) = some (⟨header v, v.content⟩, rest) := by
  simp only [readElement, readHeader_encode ht hf, header, List.length_append, List.take_left,
    List.drop_left]
  rw [if_pos (by omega)]

theorem readOpenElement_encode (ht : v.tag &&& 0x1F ≠ 0x1F) (hf : v.Fits) (rest : Bytes) :
    readOpenElement (v.encode ++ rest) = some (⟨header v, v.content⟩, rest) := by
  simp only [readOpenElement, readHeader_encode ht hf, header, List.length_append, List.take_left,
    List.drop_left]
  rw [if_pos (by omega)]

theorem container_sequence {vs : List Value} (hf : (Value.sequence vs).Fits) (rest : Bytes) :
    container sequenceNumber ((Value.sequence vs).encode ++ rest) =
      .ok (Der.encodeAll vs, rest) := by
  unfold container
  rw [readElement_encode (by decide : Der.Tag.sequence &&& 0x1F ≠ 0x1F) hf]
  have hn : (header (Value.sequence vs)).number = sequenceNumber :=
    (by decide : (Der.Tag.sequence &&& 0x1F).toNat = sequenceNumber)
  simp only [hn, if_true]
  rfl

theorem readVersion_explicit (rest : Bytes) :
    readVersion ((Value.explicit 0 (.natural 2)).encode ++ rest) = .ok (2, rest) := by
  have hne : ((Value.explicit 0 (.natural 2)).encode ++ rest).isEmpty = false := rfl
  have hsmall : readSmall? (Value.explicit 0 (.natural 2)).content = some 2 := by decide_cbv
  have hnumber : (header (Value.explicit 0 (.natural 2))).number = 0 := by decide_cbv
  have hcontext : Element.isContext ⟨header (Value.explicit 0 (.natural 2)),
      (Value.explicit 0 (.natural 2)).content⟩ = true := by decide_cbv
  simp only [readVersion, hne, readElement_encode (by decide : Der.Tag.context 0 &&& 0x1F ≠ 0x1F)
    (by decide_cbv : (Value.explicit 0 (.natural 2)).encode.length ≤ Der.maxLength), hnumber,
    hcontext, hsmall]
  rfl

theorem readSerial_natural (rest : Bytes) :
    readSerial ((Value.natural serialNumber).encode ++ rest) = .ok ([1], rest) := by
  have hnumber : (header (Value.natural serialNumber)).number = 2 := by decide_cbv
  have hcontent : (Value.natural serialNumber).content = [1] := by decide_cbv
  simp only [readSerial, readOpenElement_encode (by decide : Der.Tag.integer &&& 0x1F ≠ 0x1F)
    (by decide_cbv : (Value.natural serialNumber).encode.length ≤ Der.maxLength), hnumber,
    hcontent, if_true]

def Skippable (a : AlgorithmIdentifier) : Prop :=
  (Der.encodeAll a.parameters.toList).isEmpty = true ∨
    (readElement (Der.encodeAll a.parameters.toList)).isSome = true

instance (a : AlgorithmIdentifier) : Decidable (Skippable a) := by
  unfold Skippable
  infer_instance

theorem readOid_oid (field : CertificateField) {o : Oid} (hf : (Value.oid o).Fits) (rest : Bytes) :
    readOid field ((Value.oid o).encode ++ rest) = .ok (⟨o.content⟩, rest) := by
  have hprimitive : Element.isPrimitive ⟨header (.oid o), (Value.oid o).content⟩ = true := by
    show (Der.Tag.oid &&& 0x20 == 0) = true
    decide
  rw [readOid, readElement_encode (by decide : Der.Tag.oid &&& 0x1F ≠ 0x1F) hf]
  simp only [hprimitive, if_true]
  rfl

theorem readAlgorithm_encode {a : AlgorithmIdentifier} (hf : a.value.Fits) (rest : Bytes) :
    readAlgorithm (a.value.encode ++ rest) =
      if Skippable a then .ok (⟨a.oid.content⟩, rest) else layoutError := by
  have hoid := readOid_oid .algorithm (o := a.oid) (hf.mem_sequence (by simp))
    (Der.encodeAll a.parameters.toList)
  rw [← Value.encodeAll_cons] at hoid
  rw [AlgorithmIdentifier.value, readAlgorithm, container_sequence hf]
  show (readOid .algorithm (Der.encodeAll (Value.oid a.oid :: a.parameters.toList)) >>= _) = _
  rw [hoid]
  rfl

theorem readName_encode {n : Name} (hf : n.value.Fits) (rest : Bytes) :
    readName (n.toDer ++ rest) =
      .ok (n.toDer.take (n.toDer.length - (dropParts n.value.content).length), rest) := by
  have hc : container sequenceNumber (n.toDer ++ rest) = .ok (n.value.content, rest) :=
    container_sequence hf rest
  have hle : n.toDer.length - (dropParts n.value.content).length ≤ n.toDer.length := Nat.sub_le ..
  rw [readName, hc]
  simp only [List.length_append, Nat.add_sub_cancel, List.take_append_of_le_length hle]

theorem readBits_bits (field : CertificateField) {b : Bytes} (hf : (Value.bits b).Fits)
    (rest : Bytes) : readBits field ((Value.bits b).encode ++ rest) = .ok (b, rest) := by
  have hkind : (header (Value.bits b)).number = 3 ∧
      Element.isPrimitive ⟨header (Value.bits b), (Value.bits b).content⟩ = true := by
    show (Der.Tag.bitString &&& 0x1F).toNat = 3 ∧ (Der.Tag.bitString &&& 0x20 == 0) = true
    decide
  have hbits : bitsOf? ⟨header (Value.bits b), (Value.bits b).content⟩ = some b := by
    cases b with
    | nil => rfl
    | cons x xs =>
      show (if 1 <<< (0 : UInt8).toNat ∣ ((x :: xs).getLastD 0).toNat ∧ (0 : UInt8) ≤ 8
        then some (x :: xs) else none) = some (x :: xs)
      rw [if_pos ⟨one_dvd _, by decide⟩]
  rw [readBits, readElement_encode (by decide : Der.Tag.bitString &&& 0x1F ≠ 0x1F) hf]
  simp only [hkind, hbits, and_self, if_true]

theorem skippable_algorithm : Skippable Rsa.algorithm := by decide_cbv

theorem readPublicKey_encode {b : Bytes} (hf : (Value.sequence [Rsa.algorithm.value, .bits b]).Fits)
    (rest : Bytes) : readPublicKey ((Value.sequence [Rsa.algorithm.value, .bits b]).encode ++ rest) =
      .ok ((Value.sequence [Rsa.algorithm.value, .bits b]).encode, rest) := by
  have halgorithm := readAlgorithm_encode (a := Rsa.algorithm) (hf.mem_sequence (by simp))
    (Der.encodeAll [.bits b])
  have hbits := readBits_bits .publicKey (b := b) (hf.mem_sequence (by simp)) []
  rw [if_pos skippable_algorithm] at halgorithm
  rw [readPublicKey, container_sequence hf]
  show (readAlgorithm (Der.encodeAll [Rsa.algorithm.value, .bits b]) >>= _) = _
  rw [Value.encodeAll_cons, halgorithm]
  show (readBits .publicKey (Der.encodeAll [.bits b]) >>= _) = _
  rw [Value.encodeAll_cons, Value.encodeAll_nil, hbits]
  simp [pure, Except.pure, bind, Except.bind]

end Credential.Certificate
