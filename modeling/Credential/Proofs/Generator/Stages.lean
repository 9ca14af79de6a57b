import Credential.Generator
import Credential.Proofs.Results

namespace Credential

open Disk Script

def Generated.event (g : Generated) : Event := .created g.destination g.keyAlias

namespace Generator

variable {c : Configuration} {d : Destination} {x : Circumstances} {r : Resolved}
  {key : Rsa.KeyPair} {certificate : Certificate} {m : Material} {conduct : Conduct} {w : World}
  {e : GenerationError} {f : Failure GenerationError}

theorem atStage_of_ok {α ε : Type} (stage : GenerationStage) (cause : ε → GenerationCause) (a : α) :
    atStage stage cause (.ok a) = .ok a := rfl

theorem atStage_of_error {α ε : Type} (stage : GenerationStage) (cause : ε → GenerationCause)
    (e : ε) : atStage stage cause (.error e : Except ε α) = .error ⟨stage, cause e⟩ := rfl

theorem atStage_error {α ε : Type} {stage : GenerationStage} {cause : ε → GenerationCause}
    {y : Except ε α} (h : atStage stage cause y = .error e) : e.stage = stage := by
  cases y with
  | error f =>
    obtain rfl := Except.error.inj h
    rfl
  | ok a => cases h

theorem assemble_error (h : assemble r key certificate = .error e) : e.stage = .storing := by
  unfold assemble at h
  rcases bind_error_iff.1 h with h | ⟨b, -, h⟩
  · exact atStage_error h
  · rcases bind_error_iff.1 h with h | ⟨s, -, h⟩
    · exact atStage_error h
    · cases h

theorem prepare_of_unresolved {cause : ConfigurationError} (hr : c.resolve = .error cause) :
    prepare c x = .error (.raised ⟨.validating, .configuration cause⟩) := by
  simp only [prepare, hr, atStage_of_error, lift_error, Bind.bind, Except.bind]

theorem prepare_of_keyless (hr : c.resolve = .ok r) (hk : x.keyPair r.keySize = none) :
    prepare c x = .error (.raised ⟨.keyGeneration, .crypto (.keyGeneration r.keySize)⟩) := by
  simp only [prepare, hr, hk, atStage_of_ok, atStage_of_error, lift_ok, lift_error, Bind.bind,
    Except.bind]

theorem prepare_of_uncertified {cause : Failure Error} (hr : c.resolve = .ok r)
    (hk : x.keyPair r.keySize = some key)
    (hc : certify key r.signatureAlgorithm r.period x = .error cause) :
    prepare c x = .error (cause.map fun e => ⟨.certificateForging, .crypto e⟩) := by
  simp only [prepare, hr, hk, hc, atStage_of_ok, lift_ok, mapError_of_error, Bind.bind, Except.bind]

theorem prepare_of_certified (hr : c.resolve = .ok r) (hk : x.keyPair r.keySize = some key)
    (hc : certify key r.signatureAlgorithm r.period x = .ok certificate) :
    prepare c x = liftM ((assemble r key certificate).map (Prod.mk r)) := by
  simp only [prepare, hr, hk, hc, atStage_of_ok, lift_ok, mapError_of_ok, Bind.bind, Except.bind]
  cases assemble r key certificate <;> rfl

theorem generate_of_error (d : Destination) (conduct : Conduct) (w : World)
    (h : prepare c x = .error f) :
    (generate c d x).run conduct w = ((c.defaulted, .error f), w) := by
  simp only [generate, h, run_pure]

theorem generate_of_unwritten {cause : WriteError} (h : prepare c x = .ok (r, m))
    (hw : ((d.write m x.draws).run conduct w).1 = .error cause) :
    (generate c d x).run conduct w = ((c.defaulted, .error (.raised ⟨.storing, .write cause⟩)),
      ((d.write m x.draws).run conduct w).2) := by
  simp only [generate, h, run_bind, hw, run_pure]

theorem generate_of_written (h : prepare c x = .ok (r, m))
    (hw : ((d.write m x.draws).run conduct w).1 = .ok ()) :
    (generate c d x).run conduct w =
      ((c.defaulted ++ [.created d.toText r.keyAlias], .ok ⟨r.keyAlias, d.toText, m.certificate⟩),
        ((d.write m x.draws).run conduct w).2) := by
  simp only [generate, h, run_bind, hw, run_pure]

theorem events_generate (c : Configuration) (d : Destination) (x : Circumstances)
    (conduct : Conduct) (w : World) : ((generate c d x).run conduct w).1.1 =
      c.defaulted ++ (((generate c d x).run conduct w).1.2.toOption.map Generated.event).toList := by
  cases hp : prepare c x with
  | error e =>
    rw [generate_of_error d conduct w hp]
    exact (List.append_nil _).symm
  | ok p =>
    cases hw : ((d.write p.2 x.draws).run conduct w).1 with
    | error f =>
      rw [generate_of_unwritten hp hw]
      exact (List.append_nil _).symm
    | ok u =>
      rw [generate_of_written hp hw]
      rfl

end Generator

end Credential
