import Credential.Proofs.Certificate.Reading
import Credential.Proofs.Certificate.Time

namespace Credential.Certificate

open Der (Value)

variable {subject : Name} {identifier : AlgorithmIdentifier} {key : Rsa.KeyPair}
  {notBefore notAfter : Instant} {start stop : Moment} {signature : Bytes}

def forged (subject : Name) (identifier : AlgorithmIdentifier) (key : Rsa.KeyPair)
    (start stop : Moment) (signature : Bytes) : Value :=
  .sequence [body subject identifier key start stop, identifier.value, .bits signature]

theorem fits_body (hf : (forged subject identifier key start stop signature).Fits) :
    (body subject identifier key start stop).Fits := hf.mem_sequence (by simp)

structure Forging (subject : Name) (name : String) (identifier : AlgorithmIdentifier)
    (key : Rsa.KeyPair) (notBefore notAfter : Instant) (c : Certificate)
    (algorithm : SignatureAlgorithm) (start stop : Moment) (signature : Bytes) : Prop where
  parsed : SignatureAlgorithm.parse name = .ok algorithm
  starts : Moment.ofInstant notBefore = .ok start
  stops : Moment.ofInstant notAfter = .ok stop
  signed : key.sign algorithm (body subject identifier key start stop).encode = .ok signature
  fits : (forged subject identifier key start stop signature).Fits
  der : c.der = (forged subject identifier key start stop signature).encode
  verified : c.verifySelfSigned algorithm = .ok ()

theorem forge_ok {name : String} {c : Certificate}
    (h : forge subject name identifier key notBefore notAfter = .ok c) :
    ∃ algorithm start stop signature, Forging subject name identifier key notBefore notAfter c
      algorithm start stop signature := by
  unfold forge at h
  obtain ⟨algorithm, ha, h⟩ := exists_of_bind_ok h
  obtain ⟨start, hstart, h⟩ := exists_of_bind_ok h
  obtain ⟨stop, hstop, h⟩ := exists_of_bind_ok h
  obtain ⟨signed, hsigned, h⟩ := exists_of_bind_ok h
  obtain ⟨signature, hs, h⟩ := exists_of_bind_ok h
  obtain ⟨der, hder, h⟩ := exists_of_bind_ok h
  obtain ⟨certificate, hc, h⟩ := exists_of_bind_ok h
  obtain ⟨_, hv, h⟩ := exists_of_bind_ok h
  obtain rfl := Except.ok.inj h
  obtain ⟨-, hbody⟩ := Value.toDer_ok (lift_ok_iff.1 hsigned)
  obtain ⟨hfits, hforged⟩ := Value.toDer_ok (lift_ok_iff.1 hder)
  rw [hbody] at hs
  exact ⟨algorithm, start, stop, signature, ha, lift_ok_iff.1 hstart, lift_ok_iff.1 hstop,
    lift_ok_iff.1 hs, hfits, (ofDer_ok (lift_ok_iff.1 hc)).trans hforged, hv⟩

theorem parse_ok {b : Bytes} {fields : Fields} (h : parse b = .ok fields) :
    readFields b = .ok (fields, []) := by
  unfold parse at h
  split at h
  · rename_i f hf
    cases h
    exact hf
  · cases h
  · cases h

def readableName (n : Name) : Bytes :=
  n.toDer.take (n.toDer.length - (dropParts n.value.content).length)

def forgedFields (subject : Name) (identifier : AlgorithmIdentifier) (key : Rsa.KeyPair)
    (start stop : Moment) (signature : Bytes) : Fields where
  version := 2
  serial := [1]
  innerAlgorithm := ⟨identifier.oid.content⟩
  issuer := readableName subject
  notBefore := start.seconds
  notAfter := stop.seconds
  subject := readableName subject
  publicKey := key.publicDer
  extensions := []
  signed := (body subject identifier key start stop).encode
  outerAlgorithm := ⟨identifier.oid.content⟩
  signature := signature

theorem readTime_value (hm : start.Written) (hf : start.value.Fits) (rest : Bytes) :
    readTime (start.value.encode ++ rest) = .ok (start.seconds, rest) := by
  have ht : start.value.tag &&& 0x1F ≠ 0x1F := by
    show start.form.tag &&& 0x1F ≠ 0x1F
    cases start.form <;> decide
  have hread : readTime? (header start.value).number start.value.content = some start.seconds :=
    Moment.readTime?_value hm
  rw [readTime, readElement_encode ht hf]
  simp only [hread]

theorem step_cons {α : Type} {step : Step α} {v : Value} {a : α}
    (h : ∀ rest, step (v.encode ++ rest) = .ok (a, rest)) (vs : List Value) :
    step (Der.encodeAll (v :: vs)) = .ok (a, Der.encodeAll vs) := by
  rw [Value.encodeAll_cons, h]

theorem readValidity_encode (hstart : start.Written) (hstop : stop.Written)
    (hf : (Value.sequence [start.value, stop.value]).Fits) (rest : Bytes) :
    readValidity ((Value.sequence [start.value, stop.value]).encode ++ rest) =
      .ok ((start.seconds, stop.seconds), rest) := by
  have hfirst := step_cons (readTime_value hstart (hf.mem_sequence (by simp)))
  have hlast := step_cons (readTime_value hstop (hf.mem_sequence (by simp)))
  simp only [readValidity, container_sequence hf, hfirst, hlast, bind, Except.bind, pure,
    Except.pure]

theorem take_cons (v : Value) (vs : List Value) : (Der.encodeAll (v :: vs)).take
    ((Der.encodeAll (v :: vs)).length - (Der.encodeAll vs).length) = v.encode := by
  rw [Value.encodeAll_cons, List.length_append, Nat.add_sub_cancel, List.take_left]

-- The only part of the input that can keep its own certificate from being read is the parameter
-- of the algorithm, which is copied as it stands.
theorem readFields_forged (hstart : start.Written) (hstop : stop.Written)
    (hf : (forged subject identifier key start stop signature).Fits) :
    readFields (forged subject identifier key start stop signature).encode =
      if Skippable identifier then
        .ok (forgedFields subject identifier key start stop signature, [])
      else layoutError := by
  have hbody := fits_body hf
  have hwhole := container_sequence hf []
  rw [List.append_nil] at hwhole
  have hinside := step_cons (container_sequence hbody)
  have hversion := step_cons readVersion_explicit
  have hserial := step_cons readSerial_natural
  have hname := step_cons (readName_encode (n := subject)
    (hbody.mem_sequence (by simp [Name.value])))
  have hvalidity := step_cons (readValidity_encode hstart hstop (hbody.mem_sequence (by simp)))
  have hpublic := step_cons (readPublicKey_encode (b := key.publicKey.value.encode)
    (hbody.mem_sequence (by simp)))
  have hbits := step_cons (readBits_bits .signature (b := signature) (hf.mem_sequence (by simp)))
  have hinner := readAlgorithm_encode (a := identifier) (hbody.mem_sequence (by simp))
  simp only [readFields, forged, body] at hwhole hinside ⊢
  by_cases hs : Skippable identifier
  · simp only [hs, if_true] at hinner ⊢
    have halgorithm := step_cons hinner
    simp only [hwhole, hinside, hversion, hserial, halgorithm, hname, hvalidity, hpublic, hbits,
      take_cons, bind, Except.bind]
    rfl
  · simp only [hs, if_false] at hinner ⊢
    simp only [hwhole, hinside, hversion, hserial, Value.encodeAll_cons identifier.value, hinner,
      bind, Except.bind]
    rfl

theorem ofDer_forged (hstart : start.Written) (hstop : stop.Written)
    (hf : (forged subject identifier key start stop signature).Fits) (hs : Skippable identifier) :
    ∃ c, ofDer (forged subject identifier key start stop signature).encode = .ok c ∧
      c.fields = forgedFields subject identifier key start stop signature := by
  have hparse : parse (forged subject identifier key start stop signature).encode =
      .ok (forgedFields subject identifier key start stop signature) := by
    rw [parse, readFields_forged hstart hstop hf, if_pos hs]
  exact ⟨⟨_, _, hparse⟩, ofDer_der ⟨_, _, hparse⟩, rfl⟩

theorem fields_of_der {c : Certificate} (hstart : Moment.ofInstant notBefore = .ok start)
    (hstop : Moment.ofInstant notAfter = .ok stop)
    (hf : (forged subject identifier key start stop signature).Fits)
    (hd : c.der = (forged subject identifier key start stop signature).encode) :
    c.fields = forgedFields subject identifier key start stop signature := by
  have hp := parse_ok c.parse_der
  rw [hd, readFields_forged (Moment.written_of_ofInstant hstart)
    (Moment.written_of_ofInstant hstop) hf] at hp
  split at hp
  · exact (Prod.mk.inj (Except.ok.inj hp)).1.symm
  · cases hp

theorem Forging.fields {name : String} {c : Certificate} {algorithm : SignatureAlgorithm}
    (h : Forging subject name identifier key notBefore notAfter c algorithm start stop signature) :
    c.fields = forgedFields subject identifier key start stop signature :=
  fields_of_der h.starts h.stops h.fits h.der

theorem publicKey_forge {name : String} {c : Certificate}
    (h : forge subject name identifier key notBefore notAfter = .ok c) :
    c.fields.publicKey = key.publicDer := by
  obtain ⟨algorithm, start, stop, signature, hf⟩ := forge_ok h
  rw [hf.fields]
  rfl

theorem validity_forge {name : String} {c : Certificate}
    (h : forge subject name identifier key notBefore notAfter = .ok c) :
    c.fields.notBefore = notBefore.seconds ∧ c.fields.notAfter = notAfter.seconds := by
  obtain ⟨algorithm, start, stop, signature, hf⟩ := forge_ok h
  rw [hf.fields]
  exact ⟨Moment.seconds_of_ofInstant hf.starts, Moment.seconds_of_ofInstant hf.stops⟩

end Credential.Certificate
