import Credential.Container.Writing
import Credential.Proofs.Encryption.Opening

namespace Credential

open Der (Value)

namespace Text.Bmp

theorem decodeChars?_encodeChars? {cs : List Char} {b : Bytes} (h : encodeChars? cs = some b) :
    decodeChars? b = some cs := by
  induction cs generalizing b with
  | nil =>
    cases h
    rfl
  | cons c cs ih =>
    unfold encodeChars? at h
    split at h
    · rename_i hc
      obtain ⟨r, hr, rfl⟩ := Option.map_eq_some_iff.1 h
      have hlt : c.toNat < 65535 := by
        simp only [fits, decide_eq_true_eq, UInt32.lt_iff_toNat_lt] at hc
        exact hc
      have hn : (UInt8.ofNat (c.toNat / 256)).toNat * 256 + (UInt8.ofNat c.toNat).toNat =
          c.toNat := by
        simp only [UInt8.toNat_ofNat']
        omega
      have hs : isSurrogate c.toNat = false := by
        have hv := c.valid
        simp only [UInt32.isValidChar, Nat.isValidChar] at hv
        simp only [isSurrogate, Bool.and_eq_false_iff, decide_eq_false_iff_not]
        have : c.val.toNat = c.toNat := rfl
        omega
      have hf : (isSurrogate c.toNat || decide (c.toNat = 0xFFFF)) = false := by
        rw [hs, Bool.false_or, decide_eq_false_iff_not]
        omega
      simp only [List.cons_append, List.nil_append, decodeChars?, hn, hf, ih hr,
        Option.map_some, Char.ofNat_toNat]
      rfl
    · cases h

theorem decode?_encode? {s : String} {b : Bytes} (h : encode? s = some b) :
    decode? b = some s := by
  rw [decode?, decodeChars?_encodeChars? h, Option.map_some, String.ofList_toList]

end Text.Bmp

namespace Der.Value

theorem sort_singleton (v : Value) : sort [v] = [v] := List.mergeSort_singleton v

theorem sort_pair (v w : Value) : sort [v, w] = [v, w] ∨ sort [v, w] = [w, v] := by
  have h := sort_perm [v, w]
  match hs : sort [v, w] with
  | [] => simp [hs] at h
  | [x] => simpa [hs] using h.length_eq
  | [x, y] =>
    rw [hs] at h
    have hx : x = v ∨ x = w := by
      have := h.mem_iff.1 (List.mem_cons_self (a := x))
      simpa using this
    rcases hx with rfl | rfl
    · left
      rw [List.perm_cons, List.perm_singleton] at h
      rw [h]
    · right
      have h' := h.trans (List.Perm.swap x v [])
      rw [List.perm_cons, List.perm_singleton] at h'
      rw [h']
  | x :: y :: z :: rest => simpa [hs] using h.length_eq

end Der.Value

namespace Container

theorem dataOid_readable : dataOid.Readable := by decide_cbv

theorem encryptedDataOid_readable : encryptedDataOid.Readable := by decide_cbv

theorem keyBagOid_readable : keyBagOid.Readable := by decide_cbv

theorem certificateBagOid_readable : certificateBagOid.Readable := by decide_cbv

theorem x509Oid_readable : x509Oid.Readable := by decide_cbv

theorem friendlyNameOid_readable : friendlyNameOid.Readable := by decide_cbv

theorem localKeyIdOid_readable : localKeyIdOid.Readable := by decide_cbv

theorem sha256Oid_readable : sha256Oid.Readable := by decide_cbv

theorem encryptedDataOid_ne : encryptedDataOid ≠ dataOid := by decide_cbv

theorem certificateBagOid_ne : certificateBagOid ≠ keyBagOid := by decide_cbv

theorem localKeyIdOid_ne : localKeyIdOid ≠ friendlyNameOid := by decide_cbv

namespace Attribute

theorem ofValue?_value {t : Oid} {v : Value} (ht : t.Readable) (hk : v.Known)
    (hf : (value ⟨t, [v]⟩).Fits) : ofValue? (value ⟨t, [v]⟩) = some ⟨t, [v]⟩ := by
  have hs := Value.sequence?_sequence (by simp) hf
  have hv : (Value.set [v]).set? = some [v] := by
    rw [Value.set?_set (by simpa using hk) (by simp) (hf.mem_sequence (by simp)),
      Value.sort_singleton]
  simp [ofValue?, value, hs, Value.oid?_oid ht, hv]

@[simp] theorem known_value (a : Attribute) : a.value.Known := rfl

end Attribute

namespace Labels

variable {name : String} {keyId : Bytes} {v : Value}

theorem readName?_encode {b : Bytes} (h : Text.Bmp.encode? name = some b) :
    readName? ⟨Der.Tag.bmpString, b⟩ = some name := by
  simp [readName?, Text.Bmp.decode?_encode? h]

theorem addAttribute?_name {b : Bytes} (h : Text.Bmp.encode? name = some b) (l : Labels) :
    addAttribute? l ⟨friendlyNameOid, [⟨Der.Tag.bmpString, b⟩]⟩ =
      some { l with name := some name } := by
  simp [addAttribute?, readName?_encode h]

theorem addAttribute?_keyId (b : Bytes) (l : Labels) :
    addAttribute? l ⟨localKeyIdOid, [.octets b]⟩ = some { l with keyId := some b } := by
  simp [addAttribute?, localKeyIdOid_ne, Value.octets?_octets]

theorem read_write (h : write? name keyId = some v) (hf : v.Fits) :
    ∃ vs attributes, v.set? = some vs ∧ vs.mapM Attribute.ofValue? = some attributes ∧
      ofAttributes? attributes = some ⟨some name, some keyId⟩ := by
  obtain ⟨b, hb, rfl⟩ := Option.map_eq_some_iff.1 h
  have hn := Attribute.ofValue?_value friendlyNameOid_readable
    (v := ⟨Der.Tag.bmpString, b⟩) rfl (hf.mem_set (by simp))
  have hi := Attribute.ofValue?_value localKeyIdOid_readable
    (v := .octets keyId) rfl (hf.mem_set (by simp))
  have hne : Attribute.value ⟨friendlyNameOid, [⟨Der.Tag.bmpString, b⟩]⟩ ≠
      Attribute.value ⟨localKeyIdOid, [.octets keyId]⟩ := by
    intro he
    rw [he, hi] at hn
    injection hn with hn
    injection hn with ht _
    exact localKeyIdOid_ne ht
  have hs := Value.set?_set (by simp) (by simpa using hne) hf
  -- the two attributes stand in either order, as their encodings decide
  rcases Value.sort_pair (Attribute.value ⟨friendlyNameOid, [⟨Der.Tag.bmpString, b⟩]⟩)
    (Attribute.value ⟨localKeyIdOid, [.octets keyId]⟩) with ho | ho
  · refine ⟨_, [⟨friendlyNameOid, [⟨Der.Tag.bmpString, b⟩]⟩, ⟨localKeyIdOid, [.octets keyId]⟩],
      hs.trans (congrArg some ho), ?_, ?_⟩
    · simp [hn, hi]
    · simp [ofAttributes?, addAttribute?_name hb, addAttribute?_keyId]
  · refine ⟨_, [⟨localKeyIdOid, [.octets keyId]⟩, ⟨friendlyNameOid, [⟨Der.Tag.bmpString, b⟩]⟩],
      hs.trans (congrArg some ho), ?_, ?_⟩
    · simp [hn, hi]
    · simp [ofAttributes?, addAttribute?_name hb, addAttribute?_keyId]

end Labels

namespace Content

variable {t : Oid} {v : Value} {plain : Bytes} {password : String} {s : Seal}

@[simp] theorem known_encoded (c : Content) : c.encoded.Known := rfl

theorem fits_value (hf : (encoded ⟨t, some v⟩).Fits) : v.Fits :=
  (Value.Fits.second hf).of_explicit

theorem ofValue?_encoded (ht : t.Readable) (hk : v.Known) (hf : (encoded ⟨t, some v⟩).Fits) :
    ofValue? (encoded ⟨t, some v⟩) = some ⟨t, some v⟩ := by
  have hs : (encoded ⟨t, some v⟩).sequence? = some [.oid t, .explicit 0 v] :=
    Value.sequence?_sequence (by simp) hf
  have he := Value.explicit?_explicit hk (Value.Fits.second hf)
  simp [ofValue?, hs, Value.oid?_oid ht, he]

theorem ofValue?_data {b : Bytes} (hf : (data b).encoded.Fits) :
    ofValue? (data b).encoded = some (data b) :=
  ofValue?_encoded dataOid_readable (Value.known_octets _) hf

theorem readData_data (b : Bytes) : (data b).readData = .ok b := by
  simp [readData, data, Value.octets?_octets]

theorem ofValue?_protect (hf : (protect plain password s).encoded.Fits) :
    ofValue? (protect plain password s).encoded = some (protect plain password s) :=
  ofValue?_encoded encryptedDataOid_readable (Value.known_sequence _) hf

theorem readEncrypted?_encrypted {a : AlgorithmIdentifier} {cipher : Bytes}
    (ha : AlgorithmIdentifier.ofValue? a.value = some a)
    (hv : (encrypted a cipher).value = some v) (hf : v.Fits) :
    readEncrypted? v = some (a, some cipher) := by
  cases hv
  have hs := Value.sequence?_sequence (by simp) hf
  have hi := hf.second
  have hs' := Value.sequence?_sequence (by simp) hi
  simp only [readEncrypted?, hs, hs', ha, Value.naturalBelow?_natural (by decide : 0 < 256),
    Value.oid?_oid dataOid_readable, if_true]

theorem unprotect_of_fits (hv : (protect plain password s).value = some v) (hf : v.Fits) :
    (protect plain password s).unprotect password = .ok plain := by
  have hk : v.Known := by
    cases hv
    exact Value.known_sequence _
  have hi : (Encryption.Method.iterated (Bytes.ofText password) s).identifier.value.Fits := by
    cases hv
    exact hf.second.second
  have ha := Encryption.Method.ofValue?_identifier hi
  have ho := Encryption.Method.opens_iterated (Bytes.ofText password) s
  simp only [unprotect, hv, Value.toDer_of_fits hf, Value.decode?_encode hk hf,
    readEncrypted?_encrypted ha hv hf, Value.toDer_of_fits hi,
    Value.decode?_encode (AlgorithmIdentifier.known_value _) hi, ha, bind, Except.bind,
    Option.bind_some, ho.ofIdentifier?_identifier hi, ho.decrypt_encrypt]

theorem unprotect_protect (hf : (protect plain password s).encoded.Fits) :
    (protect plain password s).unprotect password = .ok plain :=
  unprotect_of_fits rfl (fits_value hf)

end Content

namespace Bag

variable {t : Oid} {v labels : Value} {name : String} {keyId : Bytes}

@[simp] theorem known_encoded (t : Oid) (v : Value) (a : Option Value) : (encoded t v a).Known :=
  rfl

theorem fits_value {a : Option Value} (hf : (encoded t v a).Fits) : v.Fits :=
  (Value.Fits.second hf).of_explicit

theorem known_certificateValue (c : Certificate) : (certificateValue c).Known := rfl

theorem ofValue?_plain (ht : t.Readable) (hk : v.Known) (hf : (encoded t v none).Fits) :
    ofValue? (encoded t v none) = some ⟨t, v, []⟩ := by
  have hs : (encoded t v none).sequence? = some [.oid t, .explicit 0 v] :=
    Value.sequence?_sequence (by simp) hf
  have he := Value.explicit?_explicit hk (Value.Fits.second hf)
  simp [ofValue?, hs, Value.oid?_oid ht, he]

theorem ofValue?_labelled (ht : t.Readable) (hk : v.Known)
    (hl : Labels.write? name keyId = some labels) (hf : (encoded t v (some labels)).Fits) :
    ∃ attributes, ofValue? (encoded t v (some labels)) = some ⟨t, v, attributes⟩ ∧
      Labels.ofAttributes? attributes = some ⟨some name, some keyId⟩ := by
  have hs : (encoded t v (some labels)).sequence? = some [.oid t, .explicit 0 v, labels] := by
    refine Value.sequence?_sequence ?_ hf
    obtain ⟨b, -, rfl⟩ := Option.map_eq_some_iff.1 hl
    simp
  have he := Value.explicit?_explicit hk (Value.Fits.second hf)
  obtain ⟨vs, attributes, hvs, ha, ho⟩ := Labels.read_write hl (hf.mem_sequence (by simp))
  refine ⟨attributes, ?_, ho⟩
  simp [ofValue?, hs, Value.oid?_oid ht, he, hvs, ha]

theorem readCertificate_certificateValue {c : Certificate} (hf : (certificateValue c).Fits) :
    readCertificate (certificateValue c) = .ok c := by
  have hs : (certificateValue c).sequence? = some [.oid x509Oid, .explicit 0 (.octets c.der)] :=
    Value.sequence?_sequence (by simp) hf
  have he := Value.explicit?_explicit (Value.known_octets c.der)
    (hf.mem_sequence (v := .explicit 0 (.octets c.der)) (by simp))
  simp [readCertificate, hs, Value.oid?_oid x509Oid_readable, he, Value.octets?_octets,
    Certificate.ofDer_der]

end Bag

namespace Mac

variable {digest salt : Bytes} {n : Nat}

@[simp] theorem known_value (m : Mac) : m.value.Known := rfl

def counted (m : Mac) : Value :=
  .sequence [.sequence [m.digestAlgorithm.value, .octets m.digest], .octets m.salt,
    .natural m.iterations]

@[simp] theorem known_counted (m : Mac) : m.counted.Known := rfl

theorem value_eq_counted {m : Mac} (h : m.iterations ≠ 1) : m.value = m.counted := by
  rw [value, if_neg h]
  rfl

section Reading

variable {m : Mac} (ha : m.digestAlgorithm.oid.Readable)
  (hp : ∀ p ∈ m.digestAlgorithm.parameters, p.Known) (hn : m.iterations < 1 <<< 32)

include ha hp hn

theorem ofValue?_counted (hf : m.counted.Fits) : ofValue? m.counted = some m := by
  have hs := Value.sequence?_sequence (by simp) hf
  have hi := hf.mem_sequence (List.mem_cons_self ..)
  have hs' := Value.sequence?_sequence (by simp) hi
  have ha' := AlgorithmIdentifier.ofValue?_readable ha hp (hi.mem_sequence (List.mem_cons_self ..))
  simp only [counted, ofValue?, hs, hs', Value.octets?_octets, ha',
    Value.naturalBelow?_natural hn, Option.map_some]

theorem ofValue?_value (hf : m.value.Fits) : ofValue? m.value = some m := by
  by_cases h1 : m.iterations = 1
  · have hv : m.value = .sequence [.sequence [m.digestAlgorithm.value, .octets m.digest],
        .octets m.salt] := by
      rw [value, if_pos h1]
      rfl
    rw [hv] at hf ⊢
    have hs := Value.sequence?_sequence (by simp) hf
    have hi := hf.mem_sequence (List.mem_cons_self ..)
    have hs' := Value.sequence?_sequence (by simp) hi
    have ha' := AlgorithmIdentifier.ofValue?_readable ha hp
      (hi.mem_sequence (List.mem_cons_self ..))
    simp only [ofValue?, hs, hs', Value.octets?_octets, ha', ← h1]
  · rw [value_eq_counted h1] at hf ⊢
    exact ofValue?_counted ha hp hn hf

end Reading

theorem verify_digest? {password : String} {content : Bytes}
    (h : digest? password salt n content = some digest) :
    verify ⟨⟨sha256Oid, some .null⟩, digest, salt, n⟩ password content = .ok () := by
  simp [verify, h]

end Mac

namespace Pfx

theorem ofValue?_sequence {n : Nat} {c : Content} {m : Mac} {code : Value} (hn : n < 256)
    (hc : Content.ofValue? c.encoded = some c) (hm : Mac.ofValue? code = some m) (hk : code.Known)
    (hf : (Value.sequence [.natural n, c.encoded, code]).Fits) :
    ofValue? (.sequence [.natural n, c.encoded, code]) = some ⟨n, c, some m⟩ := by
  have hs := Value.sequence?_sequence (by simpa using hk) hf
  simp [ofValue?, hs, Value.naturalBelow?_natural hn, hc, hm]

end Pfx

end Container

end Credential
