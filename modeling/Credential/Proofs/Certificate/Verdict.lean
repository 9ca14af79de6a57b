import Credential.Proofs.Certificate.Identifier
import Credential.Proofs.Rsa.Signature

namespace Credential.Certificate

variable {c : Certificate} {expected : SignatureAlgorithm} {same overflows : Prop}
  {names : SignatureAlgorithm → Prop} {r : Except (Failure Error) Unit}

def Signs (c : Certificate) (a : SignatureAlgorithm) : Prop :=
  ∃ key, Rsa.PublicKey.ofDer c.fields.publicKey = .ok key ∧
    key.verify a c.fields.signed c.fields.signature = .ok ()

-- What it means for the two identifiers to be the same and for one to name an algorithm is left
-- open: the check compares texts, its reader thinks of the identifiers themselves.
inductive Verdict (c : Certificate) (expected : SignatureAlgorithm) (same : Prop)
    (names : SignatureAlgorithm → Prop) (overflows : Prop) : Except (Failure Error) Unit → Prop
  | differ : ¬ same → Verdict c expected same names overflows (.error (.raised (.verification
    (.algorithmsDiffer c.fields.outerAlgorithm.toText c.fields.innerAlgorithm.toText))))
  | overflow : same → overflows → Verdict c expected same names overflows (.error .overflow)
  | unknown : same → ¬ overflows → (∀ a, ¬ names a) → Verdict c expected same names overflows
    (.error (.raised (.verification (.unknownAlgorithm c.fields.outerAlgorithm.toText))))
  | other {a : SignatureAlgorithm} : same → names a → a ≠ expected →
    Verdict c expected same names overflows
      (.error (.raised (.verification (.otherAlgorithm a.name expected.name))))
  | unreadable {e : Error} : same → names expected →
    Rsa.PublicKey.ofDer c.fields.publicKey = .error e →
    Verdict c expected same names overflows (.error (.raised e))
  | refused {key : Rsa.PublicKey} : same → names expected →
    Rsa.PublicKey.ofDer c.fields.publicKey = .ok key →
    key.verify expected c.fields.signed c.fields.signature ≠ .ok () →
    Verdict c expected same names overflows (.error (.raised (.verification .badSignature)))
  | accepted : same → names expected → c.Signs expected →
    Verdict c expected same names overflows (.ok ())

theorem Verdict.ok_iff : Verdict c expected same names overflows (.ok ()) ↔
    same ∧ names expected ∧ c.Signs expected := by
  constructor
  · intro h
    cases h with
    | accepted hs hn hk => exact ⟨hs, hn, hk⟩
  · rintro ⟨hs, hn, hk⟩
    exact .accepted hs hn hk

theorem verifySelfSigned_of_names
    (hs : c.fields.outerAlgorithm.toText = c.fields.innerAlgorithm.toText)
    (hn : c.fields.outerAlgorithm.Names expected) : c.verifySelfSigned expected =
      ((Rsa.PublicKey.ofDer c.fields.publicKey).bind
        (·.verify expected c.fields.signed c.fields.signature)).mapError .raised := by
  rw [verifySelfSigned, if_neg (not_not.2 hs), RawOid.parse_toText_ok_iff.2 hn]
  simp only [ne_eq, not_true_eq_false, if_false]
  cases Rsa.PublicKey.ofDer c.fields.publicKey <;> rfl

theorem verdict_verifySelfSigned (c : Certificate) (expected : SignatureAlgorithm) :
    Verdict c expected (c.fields.outerAlgorithm.toText = c.fields.innerAlgorithm.toText)
      c.fields.outerAlgorithm.Names c.fields.outerAlgorithm.Overflows
      (c.verifySelfSigned expected) := by
  by_cases hs : c.fields.outerAlgorithm.toText = c.fields.innerAlgorithm.toText
  · by_cases hn : c.fields.outerAlgorithm.Names expected
    · rw [verifySelfSigned_of_names hs hn]
      cases hk : Rsa.PublicKey.ofDer c.fields.publicKey with
      | error e => exact .unreadable hs hn hk
      | ok key =>
        rcases key.verify_ok_or expected c.fields.signed c.fields.signature with hv | hv
        · simp only [Except.bind, hv]
          exact .accepted hs hn ⟨key, hk, hv⟩
        · simp only [Except.bind, hv]
          exact .refused hs hn hk (by rw [hv]; nofun)
    · rw [verifySelfSigned, if_neg (not_not.2 hs)]
      cases hp : SignatureAlgorithm.parse c.fields.outerAlgorithm.toText with
      | ok a =>
        have ha := RawOid.parse_toText_ok_iff.1 hp
        have hne : a ≠ expected := by
          rintro rfl
          exact hn ha
        simp only [hne, ne_eq, not_false_eq_true, if_true]
        exact .other hs ha hne
      | error f =>
        cases f with
        | overflow => exact .overflow hs (RawOid.parse_toText_overflow_iff.1 hp)
        | raised e =>
          refine .unknown hs ?_ fun a ha => ?_
          · rw [← RawOid.parse_toText_overflow_iff, hp]
            nofun
          · rw [RawOid.parse_toText_ok_iff.2 ha] at hp
            cases hp
  · rw [verifySelfSigned, if_pos hs]
    exact .differ hs

theorem verifySelfSigned_eq_iff : c.verifySelfSigned expected = r ↔
    Verdict c expected (c.fields.outerAlgorithm.toText = c.fields.innerAlgorithm.toText)
      c.fields.outerAlgorithm.Names c.fields.outerAlgorithm.Overflows r := by
  constructor
  · rintro rfl
    exact verdict_verifySelfSigned c expected
  · intro h
    cases h with
    | differ hne => rw [verifySelfSigned, if_pos hne]
    | overflow hs ho =>
      rw [verifySelfSigned, if_neg (not_not.2 hs), RawOid.parse_toText_overflow_iff.2 ho]
    | unknown hs ho hn =>
      rw [verifySelfSigned, if_neg (not_not.2 hs)]
      cases hp : SignatureAlgorithm.parse c.fields.outerAlgorithm.toText with
      | ok a => exact absurd (RawOid.parse_toText_ok_iff.1 hp) (hn a)
      | error f =>
        cases f with
        | overflow => exact absurd (RawOid.parse_toText_overflow_iff.1 hp) ho
        | raised e => rfl
    | other hs hn hne =>
      rw [verifySelfSigned, if_neg (not_not.2 hs), RawOid.parse_toText_ok_iff.2 hn]
      exact if_pos hne
    | unreadable hs hn hk =>
      rw [verifySelfSigned_of_names hs hn, hk]
      rfl
    | @refused key hs hn hk hv =>
      rw [verifySelfSigned_of_names hs hn, hk]
      have hbad := key.verify_ok_or expected c.fields.signed c.fields.signature
      exact congrArg (Except.mapError Failure.raised) (hbad.resolve_left hv)
    | accepted hs hn hk =>
      obtain ⟨key, hk, hv⟩ := hk
      rw [verifySelfSigned_of_names hs hn, hk]
      exact congrArg (Except.mapError Failure.raised) hv

theorem verifySelfSigned_ok_iff : c.verifySelfSigned expected = .ok () ↔
    c.fields.outerAlgorithm.toText = c.fields.innerAlgorithm.toText ∧
      c.fields.outerAlgorithm.Names expected ∧ c.Signs expected :=
  verifySelfSigned_eq_iff.trans Verdict.ok_iff

end Credential.Certificate
