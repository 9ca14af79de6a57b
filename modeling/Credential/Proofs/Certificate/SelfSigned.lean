import Credential.Proofs.Certificate.Forging
import Credential.Proofs.Certificate.Verdict
import Credential.Proofs.Certificate.Name
import Credential.Proofs.Rsa.Encoding
import Credential.Proofs.Rsa.Signature
/-!
The forge of self-signed certificates is sound and complete: what it returns reads back as the
certificate that was asked for, and it returns one for every sound key with room for the digest.
-/

namespace Credential.Certificate

open Der (Value)

variable {subject : Name} {identifier : AlgorithmIdentifier} {key : Rsa.KeyPair}
  {notBefore notAfter : Instant} {start stop : Moment} {signature : Bytes} {name : String}
  {algorithm : SignatureAlgorithm} {c : Certificate}

-- The name and the identifier are copied as they stand, so that two fields depend on how they were
-- made: a part without attributes ends a name early for the reader, and an identifier is compared
-- by its text.
structure SelfSigned (n : Name) (a : SignatureAlgorithm) (i : AlgorithmIdentifier)
    (k : Rsa.KeyPair) (c : Certificate) : Prop where
  read : readFields c.der = .ok (c.fields, [])
  version : c.fields.version = 2
  serial : c.fields.serial = [1]
  issuer : n.Readable → c.fields.issuer = n.toDer
  subject : n.Readable → c.fields.subject = n.toDer
  oid : i.oid.Canonical → i.oid = a.oid
  innerAlgorithm : c.fields.innerAlgorithm = ⟨i.oid.content⟩
  outerAlgorithm : c.fields.outerAlgorithm = ⟨i.oid.content⟩
  bytes : ∃ start stop, c.fields.signed = (body n i k start stop).encode ∧
    c.der = (forged n i k start stop c.fields.signature).encode
  publicKey : c.fields.publicKey = k.publicDer
  extensions : c.fields.extensions = []
  verified : Rsa.PublicKey.ofDer c.fields.publicKey = .ok k.publicKey ∧
    k.publicKey.verify a c.fields.signed c.fields.signature = .ok ()

theorem fits_publicKey (hf : (forged subject identifier key start stop signature).Fits) :
    (Value.sequence [Rsa.algorithm.value, .bits key.publicKey.value.encode]).Fits :=
  (fits_body hf).mem_sequence (by simp)

theorem readableName_of_readable (hn : subject.Readable)
    (hf : (forged subject identifier key start stop signature).Fits) :
    readableName subject = subject.toDer := by
  have hname : subject.value.Fits := (fits_body hf).mem_sequence (by simp)
  have hread := (readName_encode hname []).symm.trans (readName_readable hn hname [])
  exact (Prod.mk.inj (Except.ok.inj hread)).1

example : readableName ⟨[[]]⟩ ≠ Name.toDer ⟨[[]]⟩ := by decide_cbv

theorem Forging.selfSigned
    (h : Forging subject name identifier key notBefore notAfter c algorithm start stop signature) :
    SelfSigned subject algorithm identifier key c := by
  have hfields := h.fields
  obtain ⟨-, hnames, k, hk, hverify⟩ := verifySelfSigned_ok_iff.1 h.verified
  have hpublic : c.fields.publicKey = key.publicDer := by
    rw [hfields]
    rfl
  have hcheck : key.publicKey.check = .ok k := by
    rw [← hk, hpublic]
    exact (Rsa.PublicKey.ofDer_toDer (fits_publicKey h.fits)).symm
  obtain rfl : key.publicKey = k := (Rsa.PublicKey.check_ok_iff.1 hcheck).1
  have houter : c.fields.outerAlgorithm = ⟨identifier.oid.content⟩ := by
    rw [hfields]
    rfl
  rw [houter] at hnames
  exact {
    read := parse_ok c.parse_der
    version := by
      rw [hfields]
      rfl
    serial := by
      rw [hfields]
      rfl
    issuer := fun hn => by
      rw [hfields]
      exact readableName_of_readable hn h.fits
    subject := fun hn => by
      rw [hfields]
      exact readableName_of_readable hn h.fits
    oid := fun hi => congrArg Oid.mk ((RawOid.names_iff_of_canonical hi).1 hnames)
    innerAlgorithm := by
      rw [hfields]
      rfl
    outerAlgorithm := houter
    bytes := by
      rw [hfields]
      exact ⟨start, stop, rfl, h.der⟩
    publicKey := hpublic
    extensions := by
      rw [hfields]
      rfl
    verified := ⟨hk, hverify⟩ }

def draft (subject : Name) (identifier : AlgorithmIdentifier) (key : Rsa.KeyPair)
    (notBefore notAfter : Instant) : Value :=
  forged subject identifier key ⟨notBefore.date, notBefore.timeOfDay⟩
    ⟨notAfter.date, notAfter.timeOfDay⟩ (List.replicate key.publicKey.size 0)

theorem fits_forged_congr {other : Bytes} (hl : signature.length = other.length)
    (hf : (forged subject identifier key start stop signature).Fits) :
    (forged subject identifier key start stop other).Fits := by
  have hbits : (Value.bits signature).encode.length = (Value.bits other).encode.length :=
    Value.length_encode_congr (congrArg (· + 1) hl)
  have hlength : (forged subject identifier key start stop signature).encode.length =
      (forged subject identifier key start stop other).encode.length := by
    refine Value.length_encode_congr ?_
    show (Der.encodeAll [_, _, _]).length = (Der.encodeAll [_, _, _]).length
    simp only [Value.encodeAll_cons, List.length_append, hbits]
  exact Nat.le_trans (Nat.le_of_eq hlength.symm) hf

structure Admissible (algorithm : SignatureAlgorithm) (key : Rsa.KeyPair)
    (notBefore notAfter : Instant) : Prop where
  primes : key.numbers.PrimesDistinct
  size : Rsa.bitLength key.publicKey.modulus ≤ Rsa.maxKeySize
  room : (Rsa.digestInfo algorithm []).length + 11 ≤ key.publicKey.size
  starts : 1970 ≤ notBefore.date.year ∧ notBefore.date.year ≤ 9999
  stops : 1970 ≤ notAfter.date.year ∧ notAfter.date.year ≤ 9999

theorem exists_forge (ha : Admissible algorithm key notBefore notAfter)
    (hp : SignatureAlgorithm.parse name = .ok algorithm) (hs : Skippable identifier)
    (ht : RawOid.Names ⟨identifier.oid.content⟩ algorithm)
    (hf : (draft subject identifier key notBefore notAfter).Fits) :
    ∃ c, forge subject name identifier key notBefore notAfter = .ok c := by
  obtain ⟨start, hstart⟩ : ∃ start, Moment.ofInstant notBefore = .ok start ∧
      start = ⟨notBefore.date, notBefore.timeOfDay⟩ :=
    ⟨_, Moment.ofInstant_of_year ha.starts.1 ha.starts.2, rfl⟩
  obtain ⟨stop, hstop⟩ : ∃ stop, Moment.ofInstant notAfter = .ok stop ∧
      stop = ⟨notAfter.date, notAfter.timeOfDay⟩ :=
    ⟨_, Moment.ofInstant_of_year ha.stops.1 ha.stops.2, rfl⟩
  rw [draft, ← hstart.2, ← hstop.2] at hf
  obtain ⟨signature, hsign, hlength, hverify⟩ := Rsa.KeyPair.exists_sign ha.primes ha.room
    (body subject identifier key start stop).encode
  have hforged : (forged subject identifier key start stop signature).Fits :=
    fits_forged_congr (by rw [hlength, List.length_replicate]) hf
  have hsigned : (body subject identifier key start stop).toDer .encoding =
      .ok (body subject identifier key start stop).encode := if_pos (fits_body hforged)
  have hder : (forged subject identifier key start stop signature).toDer .encoding =
      .ok (forged subject identifier key start stop signature).encode := if_pos hforged
  obtain ⟨c, hc, hfields⟩ := ofDer_forged (Moment.written_of_ofInstant hstart.1)
    (Moment.written_of_ofInstant hstop.1) hforged hs
  have hpublic : Rsa.PublicKey.ofDer c.fields.publicKey = .ok key.publicKey := by
    rw [hfields]
    exact (Rsa.PublicKey.ofDer_toDer (fits_publicKey hforged)).trans
      (Rsa.KeyPair.check_publicKey ha.size)
  have hself : c.verifySelfSigned algorithm = .ok () := by
    refine verifySelfSigned_ok_iff.2 ⟨?_, ?_, key.publicKey, hpublic, ?_⟩
    · rw [hfields]
      rfl
    · rw [hfields]
      exact ht
    · rw [hfields]
      exact hverify
  refine ⟨c, ?_⟩
  rw [forged] at hder hc
  simp only [forge, hp, hstart.1, hstop.1, hsigned, hsign, hder, hc, hself, lift_ok, bind,
    Except.bind, pure, Except.pure]

theorem forge_sound_complete (subject : Name) (name : String) (identifier : AlgorithmIdentifier)
    (key : Rsa.KeyPair) (notBefore notAfter : Instant) :
    (∀ c, forge subject name identifier key notBefore notAfter = .ok c →
      ∃ algorithm, SignatureAlgorithm.parse name = .ok algorithm ∧
        SelfSigned subject algorithm identifier key c) ∧
    (∀ host algorithm, Name.ofHost host = .ok subject →
      SignatureAlgorithm.parse name = .ok algorithm →
      SignatureAlgorithm.findIdentifier name = .ok identifier →
      Admissible algorithm key notBefore notAfter →
      (draft subject identifier key notBefore notAfter).Fits →
        subject.Readable ∧ identifier.oid.Canonical ∧
          ∃ c, forge subject name identifier key notBefore notAfter = .ok c) := by
  constructor
  · intro c h
    obtain ⟨algorithm, start, stop, signature, hf⟩ := forge_ok h
    exact ⟨algorithm, hf.parsed, hf.selfSigned⟩
  · intro host algorithm hh hp hi ha hf
    obtain rfl := SignatureAlgorithm.findIdentifier_ok hp hi
    exact ⟨Name.readable_of_ofHost hh, SignatureAlgorithm.oid_canonical algorithm,
      exists_forge ha hp (SignatureAlgorithm.skippable_identifier algorithm)
        (RawOid.spelled_oid algorithm) hf⟩

-- Two texts are read as identifiers, so there are two places for an arc that is too large: the name
-- of the algorithm, and the identifier in the finished certificate.
theorem forge_overflow (h : forge subject name identifier key notBefore notAfter =
    .error .overflow) : SignatureAlgorithm.parse name = .error .overflow ∨
      RawOid.Overflows ⟨identifier.oid.content⟩ := by
  have hlift {α : Type} {y : Except Error α} :
      (liftM y : Except (Failure Error) α) ≠ .error .overflow := by
    cases y <;> nofun
  unfold forge at h
  rcases bind_error_iff.1 h with h | ⟨algorithm, -, h⟩
  · exact .inl h
  obtain ⟨start, hstart, h⟩ := (bind_error_iff.1 h).resolve_left hlift
  obtain ⟨stop, hstop, h⟩ := (bind_error_iff.1 h).resolve_left hlift
  obtain ⟨signed, -, h⟩ := (bind_error_iff.1 h).resolve_left hlift
  obtain ⟨signature, -, h⟩ := (bind_error_iff.1 h).resolve_left hlift
  obtain ⟨der, hder, h⟩ := (bind_error_iff.1 h).resolve_left hlift
  obtain ⟨certificate, hc, h⟩ := (bind_error_iff.1 h).resolve_left hlift
  obtain ⟨hfits, hforged⟩ := Value.toDer_ok (lift_ok_iff.1 hder)
  have hfields := fields_of_der (lift_ok_iff.1 hstart) (lift_ok_iff.1 hstop) hfits
    ((ofDer_ok (lift_ok_iff.1 hc)).trans hforged)
  rcases bind_error_iff.1 h with h | ⟨_, -, h⟩
  · cases verifySelfSigned_eq_iff.1 h with
    | overflow _ ho =>
      rw [hfields] at ho
      exact .inr ho
  · cases h

def sampleNumbers : Rsa.PrivateNumbers where
  modulus := (29 * 2 ^ 245 + 1) * (167 * 2 ^ 247 + 1)
  publicExponent := 65537
  privateExponent :=
    0xf5a000ffff0000ffff0000ffff0000ffff0000ffff0000ffff0000ffff0000ffff0000ffff0000ffff0000ffff0000ffff0000ffff0000ffff0000ffff0001
  prime1 := 29 * 2 ^ 245 + 1
  prime2 := 167 * 2 ^ 247 + 1

theorem sampleNumbers_primesDistinct : sampleNumbers.PrimesDistinct where
  prime1 := Rsa.prime_of_root (b := 3) (by norm_num) (by decide +kernel)
  prime2 := Rsa.prime_of_root (b := 3) (by norm_num) (by decide +kernel)
  distinct := by decide

def sampleKey : Rsa.KeyPair := ⟨sampleNumbers, by decide⟩

def sampleStart : Instant := ⟨1700000000, 0, 0⟩

def sampleStop : Instant := ⟨1731536000, 0, 0⟩

theorem sample_admissible : Admissible .sha256WithRsa sampleKey sampleStart sampleStop where
  primes := sampleNumbers_primesDistinct
  size := by decide +kernel
  room := by decide +kernel
  starts := by decide_cbv
  stops := by decide_cbv

def sampleSubject : Name := ⟨[[⟨NameAttribute.commonName, Der.Tag.utf8String, [0x61, 0x62]⟩]]⟩

theorem sample_parse : SignatureAlgorithm.parse "SHA256withRSA" = .ok .sha256WithRsa := by
  decide_cbv

def paddedIdentifier : AlgorithmIdentifier :=
  ⟨⟨[0x2A, 0x86, 0x48, 0x86, 0xF7, 0x0D, 0x01, 0x01, 0x80, 0x0B]⟩, some .null⟩

theorem fits_draft_sample :
    (draft sampleSubject SignatureAlgorithm.sha256WithRsa.identifier sampleKey sampleStart
      sampleStop).encode.length ≤ Der.maxLength := by
  decide +kernel

theorem forge_sound_complete_sample : sampleSubject.Readable ∧
    SignatureAlgorithm.sha256WithRsa.identifier.oid.Canonical ∧ ∃ c,
      forge sampleSubject "SHA256withRSA" SignatureAlgorithm.sha256WithRsa.identifier sampleKey
        sampleStart sampleStop = .ok c ∧
      ∃ algorithm, SignatureAlgorithm.parse "SHA256withRSA" = .ok algorithm ∧
        SelfSigned sampleSubject algorithm SignatureAlgorithm.sha256WithRsa.identifier sampleKey
          c := by
  have hhost : Name.ofHost "ab" = .ok sampleSubject := rfl
  have hfind : SignatureAlgorithm.findIdentifier "SHA256withRSA" =
      .ok SignatureAlgorithm.sha256WithRsa.identifier := by decide_cbv
  obtain ⟨hsound, hcomplete⟩ := forge_sound_complete sampleSubject "SHA256withRSA"
    SignatureAlgorithm.sha256WithRsa.identifier sampleKey sampleStart sampleStop
  obtain ⟨hn, hi, c, hc⟩ := hcomplete "ab" .sha256WithRsa hhost sample_parse hfind
    sample_admissible fits_draft_sample
  exact ⟨hn, hi, c, hc, hsound c hc⟩

theorem exists_forge_padded : ∃ c, forge sampleSubject "SHA256withRSA" paddedIdentifier sampleKey
    sampleStart sampleStop = .ok c := by
  have hfits : (draft sampleSubject paddedIdentifier sampleKey sampleStart
      sampleStop).encode.length ≤ Der.maxLength := by
    decide +kernel
  exact exists_forge sample_admissible sample_parse (by decide_cbv)
    (show RawOid.spelled _ = _ by decide_cbv) hfits

theorem forge_foreign_identifier :
    SignatureAlgorithm.parse "SHA256withRSA" = .ok .sha256WithRsa ∧
    paddedIdentifier.oid ≠ SignatureAlgorithm.sha256WithRsa.oid ∧ ∃ c,
      forge sampleSubject "SHA256withRSA" paddedIdentifier sampleKey sampleStart sampleStop =
        .ok c :=
  ⟨sample_parse, by decide_cbv, exists_forge_padded⟩

end Credential.Certificate
