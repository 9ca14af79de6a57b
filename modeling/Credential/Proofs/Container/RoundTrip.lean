import Credential.Proofs.Container.Gate
import Credential.Proofs.Container.Sizes
import Credential.Proofs.Rsa.Encoding

namespace Credential.Container

open Der (Value)

namespace Contents

def append (c d : Contents) : Contents := ⟨c.keys ++ d.keys, c.certificates ++ d.certificates⟩

theorem append_empty (c : Contents) : c.append empty = c := by
  simp [append, empty]

theorem append_assoc (a b c : Contents) : (a.append b).append c = a.append (b.append c) := by
  simp [append]

def Adds (v : Value) (c : Contents) : Prop :=
  ∃ bag, Bag.ofValue? v = some bag ∧ ∀ base : Contents, base.addBag bag = .ok (base.append c)

def AddsAll (vs : List Value) (c : Contents) : Prop :=
  ∃ bags, vs.mapM Bag.ofValue? = some bags ∧
    ∀ base : Contents, bags.foldlM addBag base = .ok (base.append c)

variable {v : Value} {vs ws : List Value} {c d : Contents}

theorem addsAll_nil : AddsAll [] empty := by
  refine ⟨[], rfl, ?_⟩
  intro base
  rw [append_empty]
  rfl

theorem Adds.cons (hv : Adds v c) (hvs : AddsAll vs d) : AddsAll (v :: vs) (c.append d) := by
  obtain ⟨bag, hb, ha⟩ := hv
  obtain ⟨bags, hbs, has⟩ := hvs
  refine ⟨bag :: bags, by simp [hb, hbs], ?_⟩
  intro base
  rw [List.foldlM_cons, ha, ← append_assoc]
  exact has (base.append c)

theorem AddsAll.append (hvs : AddsAll vs c) (hws : AddsAll ws d) :
    AddsAll (vs ++ ws) (c.append d) := by
  obtain ⟨bags, hb, ha⟩ := hvs
  obtain ⟨others, ho, hoa⟩ := hws
  refine ⟨bags ++ others, by simp [hb, ho], ?_⟩
  intro base
  rw [List.foldlM_append, ha, ← append_assoc]
  exact hoa (base.append c)

theorem AddsAll.ofContents? (ha : AddsAll vs c) (hk : ∀ v ∈ vs, v.Known)
    (hf : (Value.sequence vs).Fits) :
    ∃ bags, Bag.ofContents? (Value.sequence vs).encode = some bags ∧
      ∀ base : Contents, bags.foldlM addBag base = .ok (base.append c) := by
  obtain ⟨bags, hb, ha⟩ := ha
  refine ⟨bags, ?_, ha⟩
  rw [Bag.ofContents?, Value.decodeSequence?_sequence hk hf]
  exact hb

theorem addContent_protect {password : String} {s : Seal} (ha : AddsAll vs c)
    (hk : ∀ v ∈ vs, v.Known) (hs : (Value.sequence vs).Fits)
    (hf : (Content.protect (Value.sequence vs).encode password s).encoded.Fits)
    (base : Contents) :
    base.addContent password (Content.protect (Value.sequence vs).encode password s) =
      .ok (base.append c) := by
  obtain ⟨bags, hb, ha⟩ := ha.ofContents? hk hs
  rw [Content.addContent_eq ⟨_, .encrypted rfl (Content.unprotect_protect hf), hb⟩]
  exact ha base

theorem addContent_data {password : String} (ha : AddsAll vs c)
    (hk : ∀ v ∈ vs, v.Known) (hs : (Value.sequence vs).Fits) (base : Contents) :
    base.addContent password (Content.data (Value.sequence vs).encode) = .ok (base.append c) := by
  obtain ⟨bags, hb, ha⟩ := ha.ofContents? hk hs
  rw [Content.addContent_eq ⟨_, .plain _, hb⟩]
  exact ha base

end Contents

namespace Content

variable {v : Value} {b : Bytes} {password : String} {s : Seal}

theorem fits_of_protect (hf : (protect v.encode password s).encoded.Fits) : v.Fits := by
  have hv := fits_value hf
  have hi := hv.second
  have hc := hi.mem_sequence (v := ⟨Der.Tag.implicit 0,
    (Encryption.Method.iterated (Bytes.ofText password) s).encrypt v.encode⟩) (by simp)
  exact hc.of_content (Encryption.Method.length_encrypt ..)

theorem fits_of_data (hf : (data v.encode).encoded.Fits) : v.Fits :=
  (fits_value hf).of_content (Nat.le_refl _)

end Content

namespace KeyEntry

def keyId (e : KeyEntry) : Option Bytes := e.chain.head?.map fun c => Sha1.sha1.digest c.der

def storedCertificates (e : KeyEntry) : List StoredCertificate :=
  match e.chain with
  | [] => []
  | leaf :: issuers => ⟨some e.name, some (Sha1.sha1.digest leaf.der), leaf⟩ ::
      issuers.map fun c => ⟨none, none, c⟩

structure StoredAs (e : KeyEntry) (k : StoredKey) : Prop where
  name : k.name = e.name
  keyId : k.keyId = e.keyId
  key : ∃ info, PrivateKeyInfo.ofDer? e.privateKey = some info ∧
    k.decrypt e.password = .ok info.toDer

variable {e : KeyEntry} {s : Seal} {b : EntryBags}

theorem bags_ok (h : e.bags s = .ok b) : ∃ leaf issuers labels info, e.chain = leaf :: issuers ∧
    Labels.write? e.name (Sha1.sha1.digest leaf.der) = some labels ∧
    PrivateKeyInfo.ofDer? e.privateKey = some info ∧
    b = ⟨Bag.encoded keyBagOid
        (EncryptedKeyInfo.encrypt (.iterated (Bytes.ofText e.password) s) info) (some labels),
      Bag.encoded certificateBagOid (Bag.certificateValue leaf) (some labels) ::
        issuers.map fun c => Bag.encoded certificateBagOid (Bag.certificateValue c) none⟩ := by
  unfold bags at h
  split at h
  · cases h
  · rename_i leaf issuers hc
    split at h
    · cases h
    · rename_i labels hl
      split at h
      · cases h
      · rename_i info hi
        cases h
        exact ⟨leaf, issuers, labels, info, hc, hl, hi, rfl⟩

theorem known_key (h : e.bags s = .ok b) : b.key.Known := by
  obtain ⟨leaf, issuers, labels, info, -, -, -, rfl⟩ := bags_ok h
  exact Bag.known_encoded ..

theorem known_certificates (h : e.bags s = .ok b) : ∀ v ∈ b.certificates, v.Known := by
  obtain ⟨leaf, issuers, labels, info, -, -, -, rfl⟩ := bags_ok h
  intro v hv
  rcases List.mem_cons.1 hv with rfl | hv
  · exact Bag.known_encoded ..
  · obtain ⟨c, -, rfl⟩ := List.mem_map.1 hv
    exact Bag.known_encoded ..

theorem adds_key (h : e.bags s = .ok b) (hf : b.key.Fits) :
    ∃ k, e.StoredAs k ∧ Contents.Adds b.key ⟨[k], []⟩ := by
  obtain ⟨leaf, issuers, labels, info, hc, hl, hi, rfl⟩ := bags_ok h
  obtain ⟨attributes, hv, ha⟩ := Bag.ofValue?_labelled keyBagOid_readable
    (EncryptedKeyInfo.known_encrypt ..) hl hf
  refine ⟨⟨e.name, some (Sha1.sha1.digest leaf.der),
    EncryptedKeyInfo.encrypt (.iterated (Bytes.ofText e.password) s) info⟩,
    ⟨rfl, ?_, info, hi, ?_⟩, _, hv, ?_⟩
  · simp [keyId, hc]
  · have hk := Bag.fits_value hf
    have ho := Encryption.Method.opens_iterated (Bytes.ofText e.password) s
    simp only [StoredKey.decrypt, EncryptedKeyInfo.ofValue?_encrypt ho hk,
      EncryptedKeyInfo.decrypt_encrypt ho hk]
  · intro base
    simp [Contents.addBag, ha, Contents.append]

theorem fits_key (h : e.bags s = .ok b) (hf : b.key.Fits) {info : PrivateKeyInfo}
    (hi : PrivateKeyInfo.ofDer? e.privateKey = some info) : info.value.Fits := by
  obtain ⟨leaf, issuers, labels, own, -, -, ho, rfl⟩ := bags_ok h
  obtain rfl := Option.some.inj (ho.symm.trans hi)
  exact EncryptedKeyInfo.fits_info (Bag.fits_value hf)

theorem adds_leaf {c : Certificate} {labels : Value} {name : String} {keyId : Bytes}
    (hl : Labels.write? name keyId = some labels)
    (hf : (Bag.encoded certificateBagOid (Bag.certificateValue c) (some labels)).Fits) :
    Contents.Adds (Bag.encoded certificateBagOid (Bag.certificateValue c) (some labels))
      ⟨[], [⟨some name, some keyId, c⟩]⟩ := by
  obtain ⟨attributes, hv, ha⟩ := Bag.ofValue?_labelled certificateBagOid_readable
    (Bag.known_certificateValue c) hl hf
  refine ⟨_, hv, ?_⟩
  have hc := Bag.fits_value hf
  intro base
  simp [Contents.addBag, ha, certificateBagOid_ne, Bag.readCertificate_certificateValue hc,
    Contents.append]

theorem addsAll_issuers (issuers : List Certificate)
    (hf : ∀ c ∈ issuers, (Bag.encoded certificateBagOid (Bag.certificateValue c) none).Fits) :
    Contents.AddsAll (issuers.map fun c =>
        Bag.encoded certificateBagOid (Bag.certificateValue c) none)
      ⟨[], issuers.map fun c => ⟨none, none, c⟩⟩ := by
  induction issuers with
  | nil => exact Contents.addsAll_nil
  | cons c issuers ih =>
    have hc := hf c (by simp)
    have ha : Contents.Adds (Bag.encoded certificateBagOid (Bag.certificateValue c) none)
        ⟨[], [⟨none, none, c⟩]⟩ := by
      refine ⟨_, Bag.ofValue?_plain certificateBagOid_readable (Bag.known_certificateValue c) hc, ?_⟩
      have hv := Bag.fits_value hc
      intro base
      simp [Contents.addBag, Labels.ofAttributes?, Labels.empty, certificateBagOid_ne,
        Bag.readCertificate_certificateValue hv, Contents.append]
    exact ha.cons (ih fun d hd => hf d (by simp [hd]))

theorem addsAll_certificates (h : e.bags s = .ok b) (hf : ∀ v ∈ b.certificates, v.Fits) :
    Contents.AddsAll b.certificates ⟨[], e.storedCertificates⟩ := by
  obtain ⟨leaf, issuers, labels, info, hc, hl, hi, rfl⟩ := bags_ok h
  have hleaf := adds_leaf hl (hf _ (List.mem_cons_self ..))
  have hissuers := addsAll_issuers issuers fun c hc =>
    hf _ (List.mem_cons_of_mem _ (List.mem_map_of_mem hc))
  have hall := hleaf.cons hissuers
  simpa [Contents.append, storedCertificates, hc] using hall

end KeyEntry

def BagsOf (entries : List KeyEntry) (bags : List EntryBags) : Prop :=
  List.Forall₂ (fun e b => ∃ s, e.bags s = .ok b) entries bags

theorem entryBags_ok {seals : Nat → Seal} {entries : List KeyEntry} {place : Nat}
    {bags : List EntryBags} (h : entryBags seals place entries = .ok bags) :
    BagsOf entries bags := by
  induction entries generalizing place bags with
  | nil =>
    cases h
    exact .nil
  | cons e rest ih =>
    unfold entryBags at h
    obtain ⟨b, hb, h⟩ := exists_of_bind_ok h
    obtain ⟨others, hr, h⟩ := exists_of_bind_ok h
    obtain rfl := Except.ok.inj h
    exact .cons ⟨_, hb⟩ (ih hr)

variable {entries : List KeyEntry} {bags : List EntryBags}

theorem BagsOf.known_keys (h : BagsOf entries bags) : ∀ v ∈ bags.map (·.key), v.Known := by
  induction h with
  | nil => simp
  | cons hb _ ih =>
    obtain ⟨s, hb⟩ := hb
    intro v hv
    rcases List.mem_cons.1 hv with rfl | hv
    · exact KeyEntry.known_key hb
    · exact ih v hv

theorem BagsOf.known_certificates (h : BagsOf entries bags) :
    ∀ v ∈ bags.flatMap (·.certificates), v.Known := by
  induction h with
  | nil => simp
  | cons hb _ ih =>
    obtain ⟨s, hb⟩ := hb
    intro v hv
    rw [List.flatMap_cons] at hv
    rcases List.mem_append.1 hv with hv | hv
    · exact KeyEntry.known_certificates hb v hv
    · exact ih v hv

theorem BagsOf.addsAll_keys (h : BagsOf entries bags)
    (hf : ∀ v ∈ bags.map (·.key), v.Fits) :
    ∃ keys, List.Forall₂ KeyEntry.StoredAs entries keys ∧
      Contents.AddsAll (bags.map (·.key)) ⟨keys, []⟩ := by
  induction h with
  | nil => exact ⟨[], .nil, Contents.addsAll_nil⟩
  | cons hb _ ih =>
    obtain ⟨s, hb⟩ := hb
    obtain ⟨k, hk, ha⟩ := KeyEntry.adds_key hb (hf _ (List.mem_cons_self ..))
    obtain ⟨keys, hks, has⟩ := ih fun v hv => hf v (List.mem_cons_of_mem _ hv)
    exact ⟨k :: keys, .cons hk hks, ha.cons has⟩

theorem BagsOf.fits_keys (h : BagsOf entries bags) (hf : ∀ v ∈ bags.map (·.key), v.Fits) :
    ∀ e ∈ entries, ∀ info, PrivateKeyInfo.ofDer? e.privateKey = some info → info.value.Fits := by
  induction h with
  | nil => exact List.forall_mem_nil _
  | cons hb _ ih =>
    obtain ⟨s, hb⟩ := hb
    obtain ⟨hfirst, hrest⟩ := List.forall_mem_cons.1 hf
    exact List.forall_mem_cons.2 ⟨fun _ => KeyEntry.fits_key hb hfirst, ih hrest⟩

theorem BagsOf.addsAll_certificates (h : BagsOf entries bags)
    (hf : ∀ v ∈ bags.flatMap (·.certificates), v.Fits) :
    Contents.AddsAll (bags.flatMap (·.certificates))
      ⟨[], entries.flatMap KeyEntry.storedCertificates⟩ := by
  induction h with
  | nil => exact Contents.addsAll_nil
  | cons hb _ ih =>
    obtain ⟨s, hb⟩ := hb
    have ha := KeyEntry.addsAll_certificates hb fun v hv =>
      hf v (by rw [List.flatMap_cons]; exact List.mem_append_left _ hv)
    have has := ih fun v hv => hf v (by rw [List.flatMap_cons]; exact List.mem_append_right _ hv)
    exact ha.append has

def coded (content digest salt : Bytes) : Pfx :=
  ⟨version, Content.data content,
    some ⟨⟨sha256Oid, some .null⟩, digest, salt, Encryption.Method.iterations⟩⟩

def image (entries : List KeyEntry) (password : String) (d : Draws) : Except Error Value := do
  let bags ← entryBags d.keys 0 entries
  let content := (safe bags password d).encode
  match Mac.digest? password d.mac.bytes Encryption.Method.iterations content with
  | none => .error .encoding
  | some digest => .ok (coded content digest d.mac.bytes).value

variable {password : String} {d : Draws} {v : Value} {der : Bytes}

theorem encode_eq_image (entries : List KeyEntry) (password : String) (d : Draws) :
    encode entries password d = (image entries password d).bind fun v => v.toDer .encoding := by
  unfold encode image
  cases entryBags d.keys 0 entries with
  | error e => rfl
  | ok bags =>
    simp only [bind, Except.bind]
    cases Mac.digest? password d.mac.bytes Encryption.Method.iterations
      (safe bags password d).encode <;> rfl

theorem image_ok (h : image entries password d = .ok v) : ∃ bags digest,
    entryBags d.keys 0 entries = .ok bags ∧
      Mac.digest? password d.mac.bytes Encryption.Method.iterations (safe bags password d).encode =
        some digest ∧
      v = (coded (safe bags password d).encode digest d.mac.bytes).value := by
  unfold image at h
  obtain ⟨bags, hb, h⟩ := exists_of_bind_ok h
  dsimp only at h
  split at h
  · cases h
  · rename_i digest hd
    exact ⟨bags, digest, hb, hd, (Except.ok.inj h).symm⟩

theorem KeyEntry.exists_bags_iff (e : KeyEntry) (s : Seal) :
    (∃ b, e.bags s = .ok b) ↔ e.Writable := by
  constructor
  · rintro ⟨b, hb⟩
    obtain ⟨leaf, issuers, labels, info, hc, hl, hi, -⟩ := bags_ok hb
    obtain ⟨name, hn, -⟩ := Option.map_eq_some_iff.1 hl
    exact ⟨by rw [hc]; exact List.cons_ne_nil _ _, Option.isSome_of_eq_some hn,
      Option.isSome_of_eq_some hi⟩
  · intro hw
    obtain ⟨leaf, issuers, hc⟩ := List.exists_cons_of_ne_nil hw.chain
    obtain ⟨name, hn⟩ := Option.isSome_iff_exists.1 hw.name
    obtain ⟨info, hi⟩ := Option.isSome_iff_exists.1 hw.key
    unfold bags Labels.write?
    rw [hc, hn, hi]
    exact ⟨_, rfl⟩

theorem exists_entryBags_iff (seals : Nat → Seal) (place : Nat) (entries : List KeyEntry) :
    (∃ bags, entryBags seals place entries = .ok bags) ↔ ∀ e ∈ entries, e.Writable := by
  induction entries generalizing place with
  | nil => exact iff_of_true ⟨_, rfl⟩ (List.forall_mem_nil _)
  | cons e rest ih =>
    rw [List.forall_mem_cons, ← ih (place + 1), ← e.exists_bags_iff (seals place)]
    simp only [entryBags]
    constructor
    · rintro ⟨bags, h⟩
      obtain ⟨b, hb, h⟩ := exists_of_bind_ok h
      obtain ⟨others, hr, -⟩ := exists_of_bind_ok h
      exact ⟨⟨b, hb⟩, others, hr⟩
    · rintro ⟨⟨b, hb⟩, others, hr⟩
      rw [hb, hr]
      exact ⟨_, rfl⟩

theorem exists_image_iff : (∃ v, image entries password d = .ok v) ↔
    (∀ e ∈ entries, e.Writable) ∧ (Text.Bmp.encode? password).isSome = true := by
  rw [← exists_entryBags_iff d.keys 0]
  constructor
  · rintro ⟨v, h⟩
    obtain ⟨bags, digest, hb, hd, -⟩ := image_ok h
    obtain ⟨key, hk, -⟩ := Option.map_eq_some_iff.1 hd
    obtain ⟨text, ht, -⟩ := Option.map_eq_some_iff.1 hk
    exact ⟨⟨bags, hb⟩, Option.isSome_of_eq_some ht⟩
  · rintro ⟨⟨bags, hb⟩, hp⟩
    obtain ⟨text, ht⟩ := Option.isSome_iff_exists.1 hp
    unfold image Mac.digest? Mac.key?
    rw [hb, ht]
    exact ⟨_, rfl⟩

theorem exists_image_of_encode (h : encode entries password d = .ok der) :
    ∃ v, image entries password d = .ok v ∧ v.Fits ∧ der = v.encode := by
  rw [encode_eq_image] at h
  obtain ⟨v, hv, h⟩ := exists_of_bind_ok h
  exact ⟨v, hv, Value.toDer_ok h⟩

theorem encode_ok (h : encode entries password d = .ok der) : ∃ bags digest,
      BagsOf entries bags ∧
      Mac.digest? password d.mac.bytes Encryption.Method.iterations (safe bags password d).encode =
        some digest ∧
      (coded (safe bags password d).encode digest d.mac.bytes).value.Fits ∧
      der = (coded (safe bags password d).encode digest d.mac.bytes).value.encode := by
  obtain ⟨v, hv, hf, hder⟩ := exists_image_of_encode h
  obtain ⟨bags, digest, hb, hd, rfl⟩ := image_ok hv
  exact ⟨bags, digest, entryBags_ok hb, hd, hf, hder⟩

theorem fits_keys_of_encode (h : encode entries password d = .ok der) :
    ∀ e ∈ entries, ∀ info, PrivateKeyInfo.ofDer? e.privateKey = some info → info.value.Fits := by
  obtain ⟨bags, digest, hb, -, hf, -⟩ := encode_ok h
  have hsafe : (safe bags password d).Fits := Content.fits_of_data hf.second
  have hkeys : (Value.sequence (bags.map (·.key))).Fits := Content.fits_of_data hsafe.second
  exact hb.fits_keys fun v => hkeys.mem_sequence

theorem carries_coded {content digest salt : Bytes} (hf : (coded content digest salt).value.Fits) :
    Carries (coded content digest salt).value.encode content
      ⟨⟨sha256Oid, some .null⟩, digest, salt, Encryption.Method.iterations⟩ where
  bytes := ⟨_, .inl rfl, rfl⟩
  length := hf
  algorithm := rfl
  parameters := by
    rintro p ⟨⟩
    exact Value.known_null
  iterations := (by decide : Encryption.Method.iterations < 2 ^ 32)

theorem authenticate_coded {password : String} {content digest salt : Bytes}
    (hd : Mac.digest? password salt Encryption.Method.iterations content = some digest)
    (hf : (coded content digest salt).value.Fits) :
    authenticate (coded content digest salt).value.encode password = .ok content := by
  rw [authenticate_eq (carries_coded hf), Mac.verify_digest? hd]
  rfl

theorem decode_of_encode {password : String} {d : Draws} {der : Bytes}
    (h : encode entries password d = .ok der) :
    ∃ keys, decode der password =
        .ok ⟨keys, entries.flatMap KeyEntry.storedCertificates⟩ ∧
      List.Forall₂ KeyEntry.StoredAs entries keys := by
  obtain ⟨bags, digest, hb, hd, hf, rfl⟩ := encode_ok h
  have hauth := authenticate_coded hd hf
  have hsafe : (safe bags password d).Fits := Content.fits_of_data hf.second
  have hcs := hsafe.mem_sequence (List.mem_cons_self ..)
  have hks := hsafe.second
  have hcf := Content.fits_of_protect hcs
  have hkf := Content.fits_of_data hks
  obtain ⟨keys, hkeys, hka⟩ := hb.addsAll_keys fun v => hkf.mem_sequence
  have hca := hb.addsAll_certificates fun v => hcf.mem_sequence
  refine ⟨keys, ?_, hkeys⟩
  have hread : (Value.decodeSequence? (safe bags password d).encode).bind
      (fun vs => vs.mapM Content.ofValue?) =
        some [Content.protect (Value.sequence (bags.flatMap (·.certificates))).encode password
          d.certificates, Content.data (Value.sequence (bags.map (·.key))).encode] := by
    rw [safe, Value.decodeSequence?_sequence (by simp) hsafe]
    simp [Content.ofValue?_protect hcs, Content.ofValue?_data hks]
  have hfirst := Contents.addContent_protect hca hb.known_certificates hcf hcs Contents.empty
  have hsecond : Contents.addContent password
      ⟨[], entries.flatMap KeyEntry.storedCertificates⟩
      (Content.data (Value.sequence (bags.map (·.key))).encode) =
        .ok ⟨keys, entries.flatMap KeyEntry.storedCertificates⟩ := by
    rw [Contents.addContent_data hka hb.known_keys hkf]
    simp [Contents.append]
  rw [Opens.decode_eq (opens_iff.2 ⟨_, hauth, hread⟩)]
  have hempty : Contents.empty.append ⟨[], entries.flatMap KeyEntry.storedCertificates⟩ =
      ⟨[], entries.flatMap KeyEntry.storedCertificates⟩ := rfl
  simp only [List.foldlM_cons, List.foldlM_nil, hfirst, hempty, hsecond, bind, Except.bind]
  rfl

structure Restores (entries : List KeyEntry) (c : Contents) : Prop where
  names : c.keys.map (·.name) = entries.map (·.name)
  keys : List.Forall₂ (fun e k => ∃ info, PrivateKeyInfo.ofDer? e.privateKey = some info ∧
    k.decrypt e.password = .ok info.toDer) entries c.keys
  ownKeys : List.Forall₂ (fun e k => ∀ pair : Rsa.KeyPair, pair.toDer = .ok e.privateKey →
    k.decrypt e.password = .ok e.privateKey) entries c.keys
  certificates : c.certificates = entries.flatMap KeyEntry.storedCertificates

theorem names_of_storedAs {keys : List StoredKey}
    (h : List.Forall₂ KeyEntry.StoredAs entries keys) :
    keys.map (·.name) = entries.map (·.name) := by
  induction h with
  | nil => rfl
  | cons hk _ ih => rw [List.map_cons, List.map_cons, hk.name, ih]

theorem KeyEntry.StoredAs.decrypt_own {e : KeyEntry} {k : StoredKey} (h : e.StoredAs k)
    {pair : Rsa.KeyPair} (hp : pair.toDer = .ok e.privateKey) :
    k.decrypt e.password = .ok e.privateKey := by
  obtain ⟨info, hi, hk⟩ := h.key
  obtain ⟨own, ho, hb⟩ := Rsa.KeyPair.ofDer?_toDer hp
  rw [hi] at ho
  cases ho
  rw [hk, hb]

theorem decode_encode (entries : List KeyEntry) (password : String) (d : Draws) (der : Bytes)
    (h : encode entries password d = .ok der) :
    ∃ contents, decode der password = .ok contents ∧ Restores entries contents := by
  obtain ⟨keys, hd, hk⟩ := decode_of_encode h
  refine ⟨_, hd, names_of_storedAs hk, hk.imp ?_, hk.imp ?_, rfl⟩
  · intro e k hs
    exact hs.key
  · intro e k hs pair hp
    exact hs.decrypt_own hp

def sampleCertificate : Certificate where
  der := [
    0x30, 0x40, 0x30, 0x36, 0x02, 0x01, 0x01, 0x30, 0x03, 0x06, 0x01, 0x2A, 0x30, 0x00, 0x30, 0x1E,
    0x17, 0x0D, 0x37, 0x30, 0x30, 0x31, 0x30, 0x31, 0x30, 0x30, 0x30, 0x30, 0x30, 0x30, 0x5A,
    0x17, 0x0D, 0x37, 0x30, 0x30, 0x31, 0x30, 0x31, 0x30, 0x30, 0x30, 0x30, 0x30, 0x30, 0x5A,
    0x30, 0x00, 0x30, 0x08, 0x30, 0x03, 0x06, 0x01, 0x2A, 0x03, 0x01, 0x00, 0x30, 0x03, 0x06, 0x01,
    0x2A, 0x03, 0x01, 0x00]
  fields := {
    version := 0
    serial := [1]
    innerAlgorithm := ⟨[0x2A]⟩
    issuer := [0x30, 0x00]
    notBefore := 0
    notAfter := 0
    subject := [0x30, 0x00]
    publicKey := [0x30, 0x08, 0x30, 0x03, 0x06, 0x01, 0x2A, 0x03, 0x01, 0x00]
    extensions := []
    signed := [
      0x30, 0x36, 0x02, 0x01, 0x01, 0x30, 0x03, 0x06, 0x01, 0x2A, 0x30, 0x00, 0x30, 0x1E,
      0x17, 0x0D, 0x37, 0x30, 0x30, 0x31, 0x30, 0x31, 0x30, 0x30, 0x30, 0x30, 0x30, 0x30, 0x5A,
      0x17, 0x0D, 0x37, 0x30, 0x30, 0x31, 0x30, 0x31, 0x30, 0x30, 0x30, 0x30, 0x30, 0x30, 0x5A,
      0x30, 0x00, 0x30, 0x08, 0x30, 0x03, 0x06, 0x01, 0x2A, 0x03, 0x01, 0x00]
    outerAlgorithm := ⟨[0x2A]⟩
    signature := []
  }
  parse_der := by decide_cbv

def sampleKey : Bytes := PrivateKeyInfo.toDer ⟨Rsa.algorithm, [], none⟩

def sampleEntries : List KeyEntry :=
  [⟨"a", sampleKey, "first", [sampleCertificate, sampleCertificate]⟩,
    ⟨"a", sampleKey, "second", [sampleCertificate]⟩]

theorem decode_encode_sample : ∃ der,
    encode sampleEntries "store" (.draw ⟨[]⟩) = .ok der ∧
      ∃ contents, decode der "store" = .ok contents ∧ Restores sampleEntries contents := by
  have hw : ∀ e ∈ sampleEntries, e.Writable := by
    intro e he
    rcases List.mem_pair.1 he with rfl | rfl
    · exact ⟨by simp, by decide, by decide_cbv⟩
    · exact ⟨by simp, by decide, by decide_cbv⟩
  obtain ⟨der, h⟩ : ∃ der, encode sampleEntries "store" (.draw ⟨[]⟩) = .ok der :=
    exists_encode hw (by decide) (by decide +kernel) _
  exact ⟨der, h, decode_encode sampleEntries "store" (.draw ⟨[]⟩) der h⟩

end Credential.Container
