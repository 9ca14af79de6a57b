import Credential.Proofs.Certificate.Layout
import Credential.Proofs.Certificate.SelfSigned
/-!
Which certificates verify under their own key, for every certificate that can be read and wherever
its fields stand.
-/

namespace Credential.Certificate

variable {c : Certificate} {expected : SignatureAlgorithm} {o p : RawOid} {der : Bytes}

theorem sameText_and_names_iff : o.toText = p.toText ∧ o.Names expected ↔
    o.spelled = some expected.arcs ∧ p.spelled = some expected.arcs := by
  constructor
  · rintro ⟨ht, ho⟩
    exact ⟨ho, (RawOid.toText_eq_iff ho).1 ht⟩
  · rintro ⟨ho, hp⟩
    exact ⟨(RawOid.toText_eq_iff ho).2 hp, ho⟩

theorem names_eq_of_canonical (ho : Oid.Canonical ⟨o.content⟩) :
    o.Names = fun a => o.content = a.oid.content := by
  funext a
  exact propext (RawOid.names_iff_of_canonical ho)

theorem verifySelfSigned_eq_iff_of_canonical {r : Except (Failure Error) Unit}
    (ho : Oid.Canonical ⟨c.fields.outerAlgorithm.content⟩)
    (hi : Oid.Canonical ⟨c.fields.innerAlgorithm.content⟩) :
    c.verifySelfSigned expected = r ↔ Verdict c expected
      (c.fields.outerAlgorithm.content = c.fields.innerAlgorithm.content)
      (fun a => c.fields.outerAlgorithm.content = a.oid.content)
      c.fields.outerAlgorithm.Overflows r := by
  rw [verifySelfSigned_eq_iff, names_eq_of_canonical ho, RawOid.toText_eq_iff_of_canonical ho hi]

theorem exists_verified {identifier : AlgorithmIdentifier} (h : ∃ c, forge sampleSubject
    "SHA256withRSA" identifier sampleKey sampleStart sampleStop = .ok c) :
    ∃ c, ofDer c.der = .ok c ∧ c.verifySelfSigned .sha256WithRsa = .ok () ∧
      c.fields.outerAlgorithm = ⟨identifier.oid.content⟩ ∧
      c.fields.innerAlgorithm = ⟨identifier.oid.content⟩ := by
  obtain ⟨c, hc⟩ := h
  obtain ⟨algorithm, start, stop, signature, hf⟩ := forge_ok hc
  obtain rfl := Except.ok.inj (sample_parse.symm.trans hf.parsed)
  refine ⟨c, ofDer_der c, hf.verified, ?_, ?_⟩
  · rw [hf.fields]
    rfl
  · rw [hf.fields]
    rfl

end Credential.Certificate
