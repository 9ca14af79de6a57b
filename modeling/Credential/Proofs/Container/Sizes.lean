import Credential.Container.Writing
import Credential.Proofs.Encryption.Sizes

namespace Credential

open Der (Value)

theorem EncryptedKeyInfo.length_encrypt_le (password : Bytes) (s : Seal) (info : PrivateKeyInfo)
    (h : info.toDer.length + 202 ≤ Der.maxLength) :
    (EncryptedKeyInfo.encrypt (.iterated password s) info).encode.length ≤
      info.toDer.length + 202 := by
  have hi := Encryption.Method.length_iterated password s
  have hl := Encryption.Method.length_cipher (.iterated password s) info.toDer
  have hc := Value.length_octets_le (Nat.le_of_eq hl) (by omega)
  refine Value.length_sequence_le (n := info.toDer.length + 196) ?_ (by omega)
  simp only [Value.encodeAll_cons, Value.encodeAll_nil, List.length_append, List.length_nil]
  omega

namespace Container

theorem length_labels_le {name : String} {keyId b : Bytes} {labels : Value}
    (hb : Text.Bmp.encode? name = some b) (hk : keyId.length ≤ 20)
    (hl : Labels.write? name keyId = some labels) (hn : b.length + 100 ≤ Der.maxLength) :
    labels.encode.length ≤ b.length + 100 := by
  rw [Labels.write?, hb, Option.map_some] at hl
  cases hl
  have hkey := Value.length_octets_le hk (by decide)
  have htext : (Value.encode ⟨Der.Tag.bmpString, b⟩).length ≤ b.length + 6 :=
    Value.length_encode_le (Nat.le_refl _) (by omega)
  have hnameOid : (Value.oid friendlyNameOid).encode.length ≤ 12 := by decide_cbv
  have hkeyOid : (Value.oid localKeyIdOid).encode.length ≤ 12 := by decide_cbv
  have hnames : (Value.set [⟨Der.Tag.bmpString, b⟩]).encode.length ≤ b.length + 12 := by
    refine Value.length_set_le (n := b.length + 6) ?_ (by omega)
    simp only [Value.encodeAll_cons, Value.encodeAll_nil, List.length_append, List.length_nil]
    omega
  have hname : (Attribute.value ⟨friendlyNameOid, [⟨Der.Tag.bmpString, b⟩]⟩).encode.length ≤
      b.length + 30 := by
    refine Value.length_sequence_le (n := b.length + 24) ?_ (by omega)
    simp only [Value.encodeAll_cons, Value.encodeAll_nil, List.length_append, List.length_nil]
    omega
  have hkeys : (Value.set [.octets keyId]).encode.length ≤ 32 := by
    refine Value.length_set_le (n := 26) ?_ (by decide)
    simp only [Value.encodeAll_cons, Value.encodeAll_nil, List.length_append, List.length_nil]
    omega
  have hid : (Attribute.value ⟨localKeyIdOid, [.octets keyId]⟩).encode.length ≤ 50 := by
    refine Value.length_sequence_le (n := 44) ?_ (by decide)
    simp only [Value.encodeAll_cons, Value.encodeAll_nil, List.length_append, List.length_nil]
    omega
  refine Value.length_set_le (n := b.length + 94) ?_ (by omega)
  simp only [Value.encodeAll_cons, Value.encodeAll_nil, List.length_append, List.length_nil]
  omega

theorem length_bag_le {t : Oid} {v : Value} {a : Option Value} {n m : Nat}
    (ht : (Value.oid t).encode.length ≤ 16) (hv : v.encode.length ≤ n)
    (ha : (Der.encodeAll a.toList).length ≤ m) (hn : n + m + 28 ≤ Der.maxLength) :
    (Bag.encoded t v a).encode.length ≤ n + m + 28 := by
  have he := Value.length_explicit_le 0 hv (by omega)
  refine Value.length_sequence_le (n := n + m + 22) ?_ (by omega)
  simp only [Value.encodeAll_cons, List.length_append]
  omega

theorem length_certificateValue_le {c : Certificate} (h : c.der.length + 34 ≤ Der.maxLength) :
    (Bag.certificateValue c).encode.length ≤ c.der.length + 34 := by
  have hd := Value.length_octets_le (Nat.le_refl c.der.length) (by omega)
  have he := Value.length_explicit_le 0 hd (by omega)
  have ho : (Value.oid x509Oid).encode.length ≤ 16 := by decide_cbv
  refine Value.length_sequence_le (n := c.der.length + 28) ?_ (by omega)
  simp only [Value.encodeAll_cons, Value.encodeAll_nil, List.length_append, List.length_nil]
  omega

namespace KeyEntry

def issuersSize (issuers : List Certificate) : Nat :=
  (issuers.map fun c => c.der.length + 62).sum

def size (e : KeyEntry) : Nat :=
  (((PrivateKeyInfo.ofDer? e.privateKey).map fun i => i.toDer.length).getD 0) +
    2 * ((Text.Bmp.encode? e.name).map List.length).getD 0 + issuersSize e.chain + 500

structure Writable (e : KeyEntry) : Prop where
  chain : e.chain ≠ []
  name : (Text.Bmp.encode? e.name).isSome = true
  key : (PrivateKeyInfo.ofDer? e.privateKey).isSome = true

theorem length_issuers_le (issuers : List Certificate)
    (h : issuersSize issuers ≤ Der.maxLength) :
    (Der.encodeAll (issuers.map fun c =>
      Bag.encoded certificateBagOid (Bag.certificateValue c) none)).length ≤ issuersSize issuers := by
  induction issuers with
  | nil => exact Nat.le_refl 0
  | cons c issuers ih =>
    have hs : issuersSize (c :: issuers) = c.der.length + 62 + issuersSize issuers := rfl
    have ht : (Value.oid certificateBagOid).encode.length ≤ 16 := by decide_cbv
    have hc := length_bag_le (a := none) ht
      (length_certificateValue_le (c := c) (by omega)) (Nat.le_refl 0)
      (by omega)
    have hi := ih (by omega)
    simp only [List.map_cons, Value.encodeAll_cons, List.length_append]
    omega

theorem exists_bags {e : KeyEntry} (hw : e.Writable) (hs : e.size ≤ Der.maxLength) (s : Seal) :
    ∃ b, e.bags s = .ok b ∧
      b.key.encode.length + (Der.encodeAll b.certificates).length ≤ e.size := by
  obtain ⟨leaf, issuers, hc⟩ := List.exists_cons_of_ne_nil hw.chain
  obtain ⟨name, hn⟩ := Option.isSome_iff_exists.1 hw.name
  obtain ⟨info, hi⟩ := Option.isSome_iff_exists.1 hw.key
  have hsize : e.size = info.toDer.length + 2 * name.length +
      (leaf.der.length + 62 + issuersSize issuers) + 500 := by
    simp [size, hi, hn, hc, issuersSize]
  obtain ⟨labels, hl⟩ : ∃ labels, Labels.write? e.name (Sha1.sha1.digest leaf.der) = some labels :=
    ⟨_, by rw [Labels.write?, hn]; rfl⟩
  have hlabels := length_labels_le hn (Nat.le_of_eq (Hash.length_digest ..)) hl (by omega)
  have hattributes : (Der.encodeAll (some labels).toList).length ≤ name.length + 100 := by
    simpa [Value.encodeAll_nil] using hlabels
  have hkeyOid : (Value.oid keyBagOid).encode.length ≤ 16 := by decide_cbv
  have hcertificateOid : (Value.oid certificateBagOid).encode.length ≤ 16 := by decide_cbv
  have hkey := length_bag_le hkeyOid
    (EncryptedKeyInfo.length_encrypt_le (Bytes.ofText e.password) s info (by omega)) hattributes
    (by omega)
  have hleaf := length_bag_le hcertificateOid (length_certificateValue_le (c := leaf) (by omega))
    hattributes (by omega)
  have hissuers := length_issuers_le issuers (by omega)
  have hb : e.bags s = .ok ⟨Bag.encoded keyBagOid
        (EncryptedKeyInfo.encrypt (.iterated (Bytes.ofText e.password) s) info) (some labels),
      Bag.encoded certificateBagOid (Bag.certificateValue leaf) (some labels) ::
        issuers.map fun c => Bag.encoded certificateBagOid (Bag.certificateValue c) none⟩ := by
    simp only [bags, hc, hl, hi]
  refine ⟨_, hb, ?_⟩
  simp only [Value.encodeAll_cons, List.length_append]
  omega

end KeyEntry

def size (entries : List KeyEntry) : Nat := (entries.map KeyEntry.size).sum

theorem exists_entryBags {entries : List KeyEntry} (hw : ∀ e ∈ entries, e.Writable)
    (hs : size entries ≤ Der.maxLength) (seals : Nat → Seal) (place : Nat) :
    ∃ bags, entryBags seals place entries = .ok bags ∧
      (Der.encodeAll (bags.map (·.key))).length +
        (Der.encodeAll (bags.flatMap (·.certificates))).length ≤ size entries := by
  induction entries generalizing place with
  | nil => exact ⟨[], rfl, Nat.le_refl 0⟩
  | cons e rest ih =>
    have hsum : size (e :: rest) = e.size + size rest := rfl
    obtain ⟨b, hb, hbl⟩ := KeyEntry.exists_bags (hw e (by simp)) (by omega) (seals place)
    obtain ⟨bags, hbags, hl⟩ := ih (fun d hd => hw d (by simp [hd])) (by omega) (place + 1)
    refine ⟨b :: bags, ?_, ?_⟩
    · simp only [entryBags, hb, hbags, bind, Except.bind, pure, Except.pure]
    · simp only [List.map_cons, List.flatMap_cons, Value.encodeAll_cons, Value.encodeAll_append,
        List.length_append]
      omega

theorem length_content_le {t : Oid} {v : Value} {n : Nat} (ht : (Value.oid t).encode.length ≤ 16)
    (hv : v.encode.length ≤ n) (hn : n + 28 ≤ Der.maxLength) :
    (Content.encoded ⟨t, some v⟩).encode.length ≤ n + 28 := by
  have he := Value.length_explicit_le 0 hv (by omega)
  refine Value.length_sequence_le (n := n + 22) ?_ (by omega)
  show (Der.encodeAll [.oid t, .explicit 0 v]).length ≤ n + 22
  simp only [Value.encodeAll_cons, Value.encodeAll_nil, List.length_append, List.length_nil]
  omega

theorem length_data_le {b : Bytes} {n : Nat} (hb : b.length ≤ n) (hn : n + 34 ≤ Der.maxLength) :
    (Content.data b).encoded.encode.length ≤ n + 34 := by
  have ht : (Value.oid dataOid).encode.length ≤ 16 := by decide_cbv
  exact length_content_le ht (Value.length_octets_le hb (by omega)) (by omega)

theorem length_protect_le {b : Bytes} {n : Nat} (hb : b.length ≤ n) (password : String) (s : Seal)
    (hn : n + 268 ≤ Der.maxLength) :
    (Content.protect b password s).encoded.encode.length ≤ n + 268 := by
  have hi := Encryption.Method.length_iterated (Bytes.ofText password) s
  have hc := Encryption.Method.length_cipher (.iterated (Bytes.ofText password) s) b
  have hcipher : (Value.encode ⟨Der.Tag.implicit 0,
      (Encryption.Method.iterated (Bytes.ofText password) s).encrypt b⟩).length ≤ n + 22 :=
    Value.length_encode_le (n := n + 16) (by simp only []; omega) (by omega)
  have hdata : (Value.oid dataOid).encode.length ≤ 16 := by decide_cbv
  have hencrypted : (Value.oid encryptedDataOid).encode.length ≤ 16 := by decide_cbv
  have hzero : (Value.natural 0).encode.length ≤ 3 := by decide_cbv
  have hinfo : (Value.sequence [.oid dataOid,
      (Encryption.Method.iterated (Bytes.ofText password) s).identifier.value,
      ⟨Der.Tag.implicit 0,
        (Encryption.Method.iterated (Bytes.ofText password) s).encrypt b⟩]).encode.length ≤
          n + 218 := by
    refine Value.length_sequence_le (n := n + 212) ?_ (by omega)
    simp only [Value.encodeAll_cons, Value.encodeAll_nil, List.length_append, List.length_nil]
    omega
  refine length_content_le (n := n + 240) hencrypted ?_ (by omega)
  refine (Value.length_sequence_le (n := n + 234) ?_ (by omega))
  simp only [Value.encodeAll_cons, Value.encodeAll_nil, List.length_append, List.length_nil]
  omega

theorem length_mac_le {digest salt : Bytes} (hd : digest.length = 32) (hs : salt.length = 16) :
    (Mac.value ⟨⟨sha256Oid, some .null⟩, digest, salt,
      Encryption.Method.iterations⟩).encode.length ≤ 112 := by
  have hdigest := Value.length_octets_le (Nat.le_of_eq hd) (by decide)
  have hsalt := Value.length_octets_le (Nat.le_of_eq hs) (by decide)
  have halgorithm : (AlgorithmIdentifier.value ⟨sha256Oid, some .null⟩).encode.length ≤ 16 := by
    decide_cbv
  have hcount : (Value.natural Encryption.Method.iterations).encode.length ≤ 4 := by decide_cbv
  have hinfo : (Value.sequence [AlgorithmIdentifier.value ⟨sha256Oid, some .null⟩,
      .octets digest]).encode.length ≤ 60 := by
    refine Value.length_sequence_le (n := 54) ?_ (by decide)
    simp only [Value.encodeAll_cons, Value.encodeAll_nil, List.length_append, List.length_nil]
    omega
  refine Value.length_sequence_le (n := 106) ?_ (by decide)
  show (Der.encodeAll [.sequence [AlgorithmIdentifier.value ⟨sha256Oid, some .null⟩,
    .octets digest], .octets salt, .natural Encryption.Method.iterations]).length ≤ 106
  simp only [Value.encodeAll_cons, Value.encodeAll_nil, List.length_append, List.length_nil]
  omega

theorem length_digest? {password : String} {salt content digest : Bytes} {n : Nat}
    (h : Mac.digest? password salt n content = some digest) : digest.length = 32 := by
  obtain ⟨key, -, rfl⟩ := Option.map_eq_some_iff.1 h
  exact Hmac.length_mac _ _

theorem fits_pfx {content digest salt : Bytes} {n : Nat} (hc : content.length ≤ n)
    (hd : digest.length = 32) (hs : salt.length = 16) (hn : n + 160 ≤ Der.maxLength) :
    (Pfx.value ⟨version, Content.data content, some ⟨⟨sha256Oid, some .null⟩, digest, salt,
      Encryption.Method.iterations⟩⟩).Fits := by
  have hdata := length_data_le hc (by omega)
  have hmac := length_mac_le hd hs
  have hversion : (Value.natural version).encode.length ≤ 3 := by decide_cbv
  refine Nat.le_trans (Value.length_sequence_le (n := n + 150) ?_ (by omega)) (by omega)
  show (Der.encodeAll [.natural version, (Content.data content).encoded,
    Mac.value ⟨⟨sha256Oid, some .null⟩, digest, salt, Encryption.Method.iterations⟩]).length ≤
      n + 150
  simp only [Value.encodeAll_cons, Value.encodeAll_nil, List.length_append, List.length_nil]
  omega

theorem exists_encode {entries : List KeyEntry} {password : String}
    (hw : ∀ e ∈ entries, e.Writable) (hp : (Text.Bmp.encode? password).isSome = true)
    (hs : size entries + 500 ≤ Der.maxLength) (d : Draws) :
    ∃ der, encode entries password d = .ok der := by
  obtain ⟨bags, hbags, hl⟩ := exists_entryBags hw (by omega) d.keys 0
  obtain ⟨text, ht⟩ := Option.isSome_iff_exists.1 hp
  have hd : ∃ digest, Mac.digest? password d.mac.bytes Encryption.Method.iterations
      (safe bags password d).encode = some digest := by
    simp [Mac.digest?, Mac.key?, ht]
  obtain ⟨digest, hd⟩ := hd
  have hcertificates := length_protect_le (Value.length_sequence_le (Nat.le_refl _) (by omega))
    password d.certificates (b := (Value.sequence (bags.flatMap (·.certificates))).encode) (by omega)
  have hkeys := length_data_le (Value.length_sequence_le (Nat.le_refl _) (by omega))
    (b := (Value.sequence (bags.map (·.key))).encode) (by omega)
  have hsafe : (safe bags password d).encode.length ≤ size entries + 320 := by
    refine Value.length_sequence_le (n := size entries + 314) ?_ (by omega)
    simp only [Value.encodeAll_cons, Value.encodeAll_nil, List.length_append, List.length_nil]
    omega
  have hpfx := fits_pfx hsafe (length_digest? hd) d.mac.length_bytes (by omega)
  have he : encode entries password d = (Pfx.value ⟨version,
      Content.data (safe bags password d).encode, some ⟨⟨sha256Oid, some .null⟩, digest,
        d.mac.bytes, Encryption.Method.iterations⟩⟩).toDer .encoding := by
    simp only [encode, hbags, hd, bind, Except.bind]
  rw [he]
  exact ⟨_, if_pos hpfx⟩

end Container

end Credential
