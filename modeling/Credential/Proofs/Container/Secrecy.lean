import Credential.Proofs.Container.RoundTrip
/-!
Which bytes of a container depend on what it keeps secret. A mask fixes all bytes outside its
holes; the containers of one shape fill one mask, with ciphertexts, salts and the integrity code in
the holes.
-/

namespace Credential.Container

open Der (Value)
open Encryption

abbrev Mask := List (Option UInt8)

inductive Fills : Mask → Bytes → Bytes → Prop
  | nil : Fills [] [] []
  | plain {m h b} (x : UInt8) (r : Fills m h b) : Fills (some x :: m) h (x :: b)
  | hole {m h b} (x : UInt8) (r : Fills m h b) : Fills (none :: m) (x :: h) (x :: b)

namespace Mask

def plain (b : Bytes) : Mask := b.map some
def holes (n : Nat) : Mask := List.replicate n none

def value (tag : UInt8) (m : Mask) : Mask := plain (tag :: Der.lengthBytes m.length) ++ m
def sequence (ms : List Mask) : Mask := value Der.Tag.sequence ms.flatten
def octets (m : Mask) : Mask := value Der.Tag.octetString m
def explicit (number : UInt8) (m : Mask) : Mask := value (Der.Tag.context number) m
def whole (v : Value) : Mask := plain v.encode
def cipher (n : Nat) : Mask := holes (n + Cbc.padLength n)

end Mask

namespace Fills

variable {m n : Mask} {g h b d : Bytes} {v : Value}

theorem length_eq (r : Fills m h b) : m.length = b.length := by
  induction r with
  | nil => rfl
  | plain x _ ih => rw [List.length_cons, List.length_cons, ih]
  | hole x _ ih => rw [List.length_cons, List.length_cons, ih]

theorem congr (r : Fills m g b) (hg : g = h) : Fills m h b := hg ▸ r

theorem append (r : Fills m g b) (s : Fills n h d) : Fills (m ++ n) (g ++ h) (b ++ d) := by
  induction r with
  | nil => exact s
  | plain x _ ih => exact .plain x ih
  | hole x _ ih => exact .hole x ih

theorem of_plain (b : Bytes) : Fills (Mask.plain b) [] b := by
  induction b with
  | nil => exact .nil
  | cons x b ih => exact .plain x ih

theorem of_holes (b : Bytes) : Fills (Mask.holes b.length) b b := by
  induction b with
  | nil => exact .nil
  | cons x b ih => exact .hole x ih

theorem whole (v : Value) : Fills (Mask.whole v) [] v.encode := of_plain _

theorem value (tag : UInt8) (r : Fills m h b) :
    Fills (Mask.value tag m) h (Value.encode ⟨tag, b⟩) := by
  have hlength : Fills (Mask.plain (tag :: Der.lengthBytes m.length)) []
      (tag :: Der.lengthBytes b.length) := by
    rw [r.length_eq]
    exact of_plain _
  exact hlength.append r

theorem octets (r : Fills m h b) : Fills (Mask.octets m) h (Value.octets b).encode := r.value _

theorem explicit (number : UInt8) (r : Fills m h v.encode) :
    Fills (Mask.explicit number m) h (Value.explicit number v).encode := r.value _

theorem sequence {ms : List Mask} {vs : List Value} (r : Fills ms.flatten h (Der.encodeAll vs)) :
    Fills (Mask.sequence ms) h (Value.sequence vs).encode := r.value _

theorem flatten_nil : Fills ([] : List Mask).flatten [] (Der.encodeAll []) := .nil

theorem flatten_cons {ms : List Mask} {vs : List Value} (r : Fills m g v.encode)
    (rs : Fills ms.flatten h (Der.encodeAll vs)) :
    Fills (m :: ms).flatten (g ++ h) (Der.encodeAll (v :: vs)) := by
  rw [List.flatten_cons, Value.encodeAll_cons]
  exact r.append rs

theorem flatten_append {ms ns : List Mask} {vs ws : List Value}
    (r : Fills ms.flatten g (Der.encodeAll vs)) (s : Fills ns.flatten h (Der.encodeAll ws)) :
    Fills (ms ++ ns).flatten (g ++ h) (Der.encodeAll (vs ++ ws)) := by
  rw [List.flatten_append, Value.encodeAll_append]
  exact r.append s

theorem getElem?_eq (r : Fills m g b) (s : Fills m h d) (i : Nat) (hi : m[i]? ≠ some none) :
    b[i]? = d[i]? := by
  induction r generalizing h d i with
  | nil =>
    cases s
    rfl
  | plain x _ ih =>
    cases s with
    | plain _ s =>
      cases i with
      | zero => rfl
      | succ i => exact ih s i hi
  | hole x _ ih =>
    cases s with
    | hole y s =>
      cases i with
      | zero => exact absurd rfl hi
      | succ i => exact ih s i hi

end Fills

namespace Mask

def identifier : Mask :=
  sequence [whole (.oid Scheme.modernOid), sequence [
    sequence [whole (.oid Derivation.iteratedOid), sequence [octets (holes 16),
      whole (.natural Method.iterations), whole Prf.sha256.identifier.value]],
    sequence [whole (.oid (BlockCipher.oid .aes256)), octets (holes 16)]]]

def content (type : Oid) (m : Mask) : Mask := sequence [whole (.oid type), explicit 0 m]

def data (m : Mask) : Mask := content dataOid (octets m)

def encrypted (n : Nat) : Mask :=
  content encryptedDataOid (sequence [whole (.natural 0),
    sequence [whole (.oid dataOid), identifier, value (Der.Tag.implicit 0) (cipher n)]])

def bag (type : Oid) (m : Mask) (labels : Option Value) : Mask :=
  sequence (whole (.oid type) :: explicit 0 m :: labels.toList.map whole)

def key (n : Nat) : Mask := sequence [identifier, octets (cipher n)]

def certificate (n : Nat) : Mask :=
  sequence [whole (.oid x509Oid), explicit 0 (octets (holes n))]

def mac : Mask :=
  sequence [sequence [whole (AlgorithmIdentifier.value ⟨sha256Oid, some .null⟩),
    octets (holes 32)], octets (holes 16), whole (.natural Method.iterations)]

end Mask

def concealed (s : Seal) (cipher : Bytes) : Bytes := s.salt.bytes ++ s.iv.bytes ++ cipher

namespace Fills

variable {m : Mask} {h b : Bytes} {v : Value}

theorem holes {n : Nat} (hn : b.length = n) : Fills (Mask.holes n) b b := hn ▸ of_holes b

theorem identifier (password : Bytes) (s : Seal) : Fills Mask.identifier
    (s.salt.bytes ++ s.iv.bytes) (Method.iterated password s).identifier.value.encode := by
  have hsalt := (holes s.salt.length_bytes).octets
  have hiv := (holes s.iv.length_bytes).octets
  have hparameters := (flatten_cons hsalt (flatten_cons (whole (.natural Method.iterations))
    (flatten_cons (whole Prf.sha256.identifier.value) flatten_nil))).sequence
  have hderivation := (flatten_cons (whole (.oid Derivation.iteratedOid))
    (flatten_cons hparameters flatten_nil)).sequence
  have hcipher := (flatten_cons (whole (.oid (BlockCipher.oid .aes256)))
    (flatten_cons hiv flatten_nil)).sequence
  have hfields := (flatten_cons hderivation (flatten_cons hcipher flatten_nil)).sequence
  have hall := (flatten_cons (whole (.oid Scheme.modernOid))
    (flatten_cons hfields flatten_nil)).sequence
  exact hall.congr (by simp)

theorem cipher (method : Method) (plain : Bytes) :
    Fills (Mask.cipher plain.length) (method.encrypt plain) (method.encrypt plain) :=
  holes (Cbc.length_encrypt ..)

theorem content (type : Oid) (r : Fills m h v.encode) :
    Fills (Mask.content type m) h (Content.encoded ⟨type, some v⟩).encode :=
  (flatten_cons (whole (.oid type)) (flatten_cons (r.explicit 0) flatten_nil)).sequence.congr
    (by simp)

theorem data (r : Fills m h b) : Fills (Mask.data m) h (Content.data b).encoded.encode :=
  r.octets.content dataOid

theorem encrypted (plain : Bytes) (password : String) (s : Seal) :
    Fills (Mask.encrypted plain.length)
      (concealed s ((Method.iterated (Bytes.ofText password) s).encrypt plain))
      (Content.protect plain password s).encoded.encode := by
  have hcipher := (cipher (.iterated (Bytes.ofText password) s) plain).value (Der.Tag.implicit 0)
  have hinfo := (flatten_cons (whole (.oid dataOid)) (flatten_cons
    (identifier (Bytes.ofText password) s) (flatten_cons hcipher flatten_nil))).sequence
  have hall := (flatten_cons (whole (.natural 0)) (flatten_cons hinfo flatten_nil)).sequence
  exact (hall.content encryptedDataOid).congr (by simp [concealed])

theorem bag (type : Oid) (labels : Option Value) (r : Fills m h v.encode) :
    Fills (Mask.bag type m labels) h (Bag.encoded type v labels).encode := by
  have hlabels : Fills (labels.toList.map Mask.whole).flatten [] (Der.encodeAll labels.toList) := by
    cases labels with
    | none => exact flatten_nil
    | some labels => exact flatten_cons (whole labels) flatten_nil
  exact (flatten_cons (whole (.oid type)) (flatten_cons (r.explicit 0) hlabels)).sequence.congr
    (by simp)

theorem key (password : Bytes) (s : Seal) (info : PrivateKeyInfo) :
    Fills (Mask.key info.toDer.length)
      (concealed s ((Method.iterated password s).encrypt info.toDer))
      (EncryptedKeyInfo.encrypt (.iterated password s) info).encode := by
  have hcipher := (cipher (.iterated password s) info.toDer).octets
  have hall := (flatten_cons (identifier password s) (flatten_cons hcipher flatten_nil)).sequence
  exact hall.congr (by simp [concealed])

theorem certificate (c : Certificate) :
    Fills (Mask.certificate c.der.length) c.der (Bag.certificateValue c).encode := by
  have hvalue : Fills _ _ (Value.explicit 0 (.octets c.der)).encode :=
    (of_holes c.der).octets.explicit 0
  have hall := (flatten_cons (whole (.oid x509Oid)) (flatten_cons hvalue flatten_nil)).sequence
  exact hall.congr (by simp)

theorem mac {digest salt : Bytes} (hd : digest.length = 32) (hs : salt.length = 16) :
    Fills Mask.mac (digest ++ salt)
      (Mac.value ⟨⟨sha256Oid, some .null⟩, digest, salt, Method.iterations⟩).encode := by
  have hinfo := (flatten_cons (whole (AlgorithmIdentifier.value ⟨sha256Oid, some .null⟩))
    (flatten_cons (holes hd).octets flatten_nil)).sequence
  have hall := (flatten_cons hinfo (flatten_cons (holes hs).octets
    (flatten_cons (whole (.natural Method.iterations)) flatten_nil))).sequence
  exact hall.congr (by simp)

end Fills

structure Shape where
  name : String
  keyId : Option Bytes
  keyLength : Option Nat
  certificates : List Nat
deriving DecidableEq, Repr

def KeyEntry.shape (e : KeyEntry) : Shape where
  name := e.name
  keyId := e.keyId
  keyLength := (PrivateKeyInfo.ofDer? e.privateKey).map fun info => info.toDer.length
  certificates := e.chain.map fun c => c.der.length

namespace Shape

def labels (x : Shape) : Option Value := x.keyId.bind fun b => Labels.write? x.name b

def key (x : Shape) : Mask := .bag keyBagOid (.key (x.keyLength.getD 0)) x.labels

def bags (x : Shape) : List Mask :=
  match x.certificates with
  | [] => []
  | leaf :: issuers => .bag certificateBagOid (.certificate leaf) x.labels ::
      issuers.map fun n => .bag certificateBagOid (.certificate n) none

end Shape

-- Of the certificates only their length shows: their own mask is never laid out.
def mask (shapes : List Shape) : Mask :=
  let certificates := Mask.encrypted (Mask.sequence (shapes.flatMap Shape.bags)).length
  let keys := Mask.data (.sequence (shapes.map Shape.key))
  .sequence [.whole (.natural version), .data (.sequence [certificates, keys]), .mac]

def KeyEntry.concealed (e : KeyEntry) (s : Seal) : Bytes :=
  match PrivateKeyInfo.ofDer? e.privateKey with
  | none => []
  | some info => Container.concealed s
      ((Method.iterated (Bytes.ofText e.password) s).encrypt info.toDer)

def concealedKeys (seals : Nat → Seal) : (place : Nat) → List KeyEntry → Bytes
  | _, [] => []
  | place, e :: rest => e.concealed (seals place) ++ concealedKeys seals (place + 1) rest

def Conceals (entries : List KeyEntry) (password : String) (d : Draws) (h : Bytes) : Prop :=
  ∃ bags digest, entryBags d.keys 0 entries = .ok bags ∧
    Mac.digest? password d.mac.bytes Method.iterations (safe bags password d).encode =
      some digest ∧
    h = concealed d.certificates
        ((Method.iterated (Bytes.ofText password) d.certificates).encrypt
          (Value.sequence (bags.flatMap (·.certificates))).encode) ++
      concealedKeys d.keys 0 entries ++ digest ++ d.mac.bytes

theorem fills_issuers (issuers : List Certificate) : ∃ h,
    Fills (issuers.map fun c => Mask.bag certificateBagOid (.certificate c.der.length) none).flatten
      h (Der.encodeAll (issuers.map fun c =>
        Bag.encoded certificateBagOid (Bag.certificateValue c) none)) := by
  induction issuers with
  | nil => exact ⟨[], .flatten_nil⟩
  | cons c issuers ih =>
    obtain ⟨h, r⟩ := ih
    exact ⟨_, .flatten_cons ((Fills.certificate c).bag certificateBagOid none) r⟩

theorem KeyEntry.fills_bags {e : KeyEntry} {s : Seal} {b : EntryBags} (hb : e.bags s = .ok b) :
    Fills e.shape.key (e.concealed s) b.key.encode ∧
      ∃ h, Fills e.shape.bags.flatten h (Der.encodeAll b.certificates) := by
  obtain ⟨leaf, issuers, labels, info, hc, hl, hi, rfl⟩ := bags_ok hb
  have hkeyId : e.keyId = some (Sha1.sha1.digest leaf.der) := by
    rw [keyId, hc]
    rfl
  have hlabels : e.shape.labels = some labels := by
    rw [Shape.labels, shape, hkeyId]
    exact hl
  have hlength : e.shape.keyLength = some info.toDer.length := by
    rw [shape, hi]
    rfl
  constructor
  · rw [Shape.key, hlabels, hlength, concealed, hi]
    exact (Fills.key (Bytes.ofText e.password) s info).bag keyBagOid (some labels)
  · obtain ⟨h, r⟩ := fills_issuers issuers
    refine ⟨leaf.der ++ h, ?_⟩
    have hshape : e.shape.certificates = leaf.der.length :: issuers.map fun c => c.der.length := by
      rw [shape, hc]
      rfl
    simp only [Shape.bags, hshape, hlabels, List.map_map]
    exact .flatten_cons ((Fills.certificate leaf).bag certificateBagOid (some labels)) r

theorem fills_entryBags {seals : Nat → Seal} {place : Nat} {entries : List KeyEntry}
    {bags : List EntryBags} (hb : entryBags seals place entries = .ok bags) :
    Fills ((entries.map KeyEntry.shape).map Shape.key).flatten (concealedKeys seals place entries)
        (Der.encodeAll (bags.map (·.key))) ∧
      ∃ h, Fills ((entries.map KeyEntry.shape).flatMap Shape.bags).flatten h
        (Der.encodeAll (bags.flatMap (·.certificates))) := by
  induction entries generalizing place bags with
  | nil =>
    cases hb
    exact ⟨.flatten_nil, [], .flatten_nil⟩
  | cons e rest ih =>
    unfold entryBags at hb
    obtain ⟨b, he, hb⟩ := exists_of_bind_ok hb
    obtain ⟨others, hr, hb⟩ := exists_of_bind_ok hb
    obtain rfl := Except.ok.inj hb
    obtain ⟨hkey, h, hown⟩ := KeyEntry.fills_bags he
    obtain ⟨hkeys, h', hrest⟩ := ih hr
    exact ⟨.flatten_cons hkey hkeys, _, .flatten_append hown hrest⟩

theorem fills_image {entries : List KeyEntry} {password : String} {d : Draws} {v : Value}
    (hv : image entries password d = .ok v) :
    ∃ h, Conceals entries password d h ∧ Fills (mask (entries.map KeyEntry.shape)) h v.encode := by
  obtain ⟨bags, digest, hb, hd, rfl⟩ := image_ok hv
  obtain ⟨hkeys, h, hcertificates⟩ := fills_entryBags hb
  have hplain := hcertificates.sequence.length_eq
  have hencrypted := Fills.encrypted
    (Value.sequence (bags.flatMap (·.certificates))).encode password d.certificates
  rw [← hplain] at hencrypted
  have hsafe := (Fills.flatten_cons hencrypted
    (Fills.flatten_cons hkeys.sequence.data .flatten_nil)).sequence
  have hmac := Fills.mac (length_digest? hd) d.mac.length_bytes
  have hall := (Fills.flatten_cons (Fills.whole (.natural version)) (Fills.flatten_cons hsafe.data
    (Fills.flatten_cons hmac .flatten_nil))).sequence
  refine ⟨_, ⟨bags, digest, hb, hd, rfl⟩, hall.congr ?_⟩
  simp

theorem length_image {entries : List KeyEntry} {password : String} {d : Draws} {v : Value}
    (hv : image entries password d = .ok v) :
    v.encode.length = (mask (entries.map KeyEntry.shape)).length := by
  obtain ⟨h, -, r⟩ := fills_image hv
  exact r.length_eq.symm

theorem encode_conceals (entries others : List KeyEntry) (password other : String) (d e : Draws)
    (der image : Bytes) (hs : entries.map KeyEntry.shape = others.map KeyEntry.shape)
    (hd : encode entries password d = .ok der) (he : encode others other e = .ok image) :
    der.length = image.length ∧
      (∀ i : Nat, (mask (entries.map KeyEntry.shape))[i]? ≠ some none → der[i]? = image[i]?) ∧
      (∃ h, Conceals entries password d h ∧ Fills (mask (entries.map KeyEntry.shape)) h der) ∧
      ∃ h, Conceals others other e h ∧ Fills (mask (entries.map KeyEntry.shape)) h image := by
  obtain ⟨v, hv, -, rfl⟩ := exists_image_of_encode hd
  obtain ⟨w, hw, -, rfl⟩ := exists_image_of_encode he
  obtain ⟨h, hc, r⟩ := fills_image hv
  obtain ⟨g, hg, s⟩ := fills_image hw
  rw [← hs] at s
  refine ⟨?_, ?_, ⟨h, hc, r⟩, g, hg, s⟩
  · rw [← r.length_eq, ← s.length_eq]
  · intro i hi
    exact r.getElem?_eq s i hi

def sampleTwin (second : Bool) : KeyEntry where
  name := "a"
  privateKey := PrivateKeyInfo.toDer ⟨Rsa.algorithm, [if second then 2 else 1], none⟩
  password := if second then "second" else "first"
  chain := [sampleCertificate, sampleCertificate]

theorem sampleTwin_shape : [sampleTwin false].map KeyEntry.shape =
    [sampleTwin true].map KeyEntry.shape := by
  have hlength : ((PrivateKeyInfo.ofDer? (sampleTwin false).privateKey).map fun info =>
      info.toDer.length) =
        (PrivateKeyInfo.ofDer? (sampleTwin true).privateKey).map fun info => info.toDer.length := by
    decide_cbv
  simp only [List.map_cons, List.map_nil, KeyEntry.shape, hlength]
  rfl

theorem exists_encode_sampleTwin (second : Bool) (password : String)
    (hp : (Text.Bmp.encode? password).isSome = true) (d : Draws) :
    ∃ der, encode [sampleTwin second] password d = .ok der := by
  have hkey : (PrivateKeyInfo.ofDer? (sampleTwin second).privateKey).isSome = true := by
    cases second <;> decide_cbv
  have hsize : size [sampleTwin second] + 500 ≤ Der.maxLength := by
    cases second <;> decide_cbv
  refine exists_encode ?_ hp hsize d
  intro e he
  obtain rfl := List.mem_singleton.1 he
  exact ⟨List.cons_ne_nil _ _, show (Text.Bmp.encode? "a").isSome = true by decide, hkey⟩

theorem encode_conceals_sample : ∃ der image,
    [sampleTwin false].map KeyEntry.shape = [sampleTwin true].map KeyEntry.shape ∧
      encode [sampleTwin false] "store" (.draw ⟨[]⟩) = .ok der ∧
      encode [sampleTwin true] "other" (.draw ⟨[1]⟩) = .ok image ∧
      der.length = image.length ∧
      ∀ i : Nat, (mask ([sampleTwin false].map KeyEntry.shape))[i]? ≠ some none →
        der[i]? = image[i]? := by
  obtain ⟨der, hd⟩ := exists_encode_sampleTwin false "store" (by decide) (.draw ⟨[]⟩)
  obtain ⟨image, hi⟩ := exists_encode_sampleTwin true "other" (by decide) (.draw ⟨[1]⟩)
  obtain ⟨hlength, hplain, -⟩ := encode_conceals _ _ _ _ _ _ der image sampleTwin_shape hd hi
  exact ⟨der, image, sampleTwin_shape, hd, hi, hlength, hplain⟩

end Credential.Container
