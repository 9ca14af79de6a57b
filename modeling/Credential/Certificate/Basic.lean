import Credential.Certificate.Reading
import Credential.Certificate.Name
import Credential.Rsa.Encoding
import Credential.Rsa.Signature
import Credential.Text.Armor

namespace Credential

structure Certificate where
  der : Bytes
  fields : Certificate.Fields
  parse_der : Certificate.parse der = .ok fields

namespace Certificate

theorem eq_of_der {c d : Certificate} (h : c.der = d.der) : c = d := by
  obtain ⟨b, f, hf⟩ := c
  obtain ⟨b', g, hg⟩ := d
  cases h
  have : f = g := by simpa [hf] using hg
  cases this
  rfl

instance : DecidableEq Certificate := fun c d =>
  if h : c.der = d.der then .isTrue (eq_of_der h) else .isFalse fun he => h (he ▸ rfl)

def ofDer (b : Bytes) : Except Error Certificate :=
  match h : parse b with
  | .ok fields => .ok ⟨b, fields, h⟩
  | .error e => .error e

theorem ofDer_der (c : Certificate) : ofDer c.der = .ok c := by
  obtain ⟨b, f, hf⟩ := c
  unfold ofDer
  split
  · rename_i g hg
    have : g = f := by simpa [hf] using hg.symm
    cases this
    rfl
  · rename_i hg
    simp [hf] at hg

theorem ofDer_ok {b : Bytes} {c : Certificate} (h : ofDer b = .ok c) : c.der = b := by
  unfold ofDer at h
  split at h
  · cases h
    rfl
  · cases h

def pem (c : Certificate) : String :=
  Text.Armor.write .crlf "CERTIFICATE" c.der

def verifySelfSigned (c : Certificate) (expected : SignatureAlgorithm) :
    Except (Failure Error) Unit :=
  let outer := c.fields.outerAlgorithm.toText
  let inner := c.fields.innerAlgorithm.toText
  if outer ≠ inner then .error (.raised (.verification (.algorithmsDiffer outer inner)))
  else
    match SignatureAlgorithm.parse outer with
    | .error .overflow => .error .overflow
    | .error (.raised _) => .error (.raised (.verification (.unknownAlgorithm outer)))
    | .ok algorithm =>
      if algorithm ≠ expected then
        .error (.raised (.verification (.otherAlgorithm algorithm.name expected.name)))
      else do
        let key ← Rsa.PublicKey.ofDer c.fields.publicKey
        key.verify algorithm c.fields.signed c.fields.signature

def serialNumber : Nat := 1

def body (subject : Name) (identifier : AlgorithmIdentifier) (key : Rsa.KeyPair)
    (notBefore notAfter : Moment) : Der.Value :=
  .sequence [
    .explicit 0 (.natural 2),
    .natural serialNumber,
    identifier.value,
    subject.value,
    .sequence [notBefore.value, notAfter.value],
    subject.value,
    .sequence [Rsa.algorithm.value, .bits key.publicKey.value.encode]]

/-- A certificate for the subject, signed with its own key, read back and verified. The order of
the two instants is not looked at. -/
def forge (subject : Name) (algorithmName : String) (identifier : AlgorithmIdentifier)
    (key : Rsa.KeyPair) (notBefore notAfter : Instant) :
    Except (Failure Error) Certificate := do
  let algorithm ← SignatureAlgorithm.parse algorithmName
  let start ← Moment.ofInstant notBefore
  let stop ← Moment.ofInstant notAfter
  let signed := body subject identifier key start stop
  let signature ← key.sign algorithm (← signed.toDer .encoding)
  let der ← (Der.Value.sequence [signed, identifier.value, .bits signature]).toDer .encoding
  let certificate ← ofDer der
  certificate.verifySelfSigned algorithm
  return certificate

end Certificate

end Credential
