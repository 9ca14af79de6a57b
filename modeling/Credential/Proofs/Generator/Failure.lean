import Credential.Proofs.Generator.Validity
/-!
How a run fails. The first step that does not come out names the stage and the cause, and before
anything is stored nothing is touched.
-/

namespace Credential

open Disk Script

namespace Generator

variable {c : Configuration} {d : Destination} {x : Circumstances} {r : Resolved}
  {key : Rsa.KeyPair} {certificate : Certificate} {conduct : Conduct} {w : World}
  {e : GenerationError} {f : Failure Error}

inductive Uncertifiable (key : Rsa.KeyPair) (r : Resolved) (x : Circumstances) :
    Failure Error → Prop
  | algorithm {f : Failure Error}
    (h : SignatureAlgorithm.findIdentifier r.signatureAlgorithm = .error f) :
    Uncertifiable key r x f
  | subject {e : Error} {identifier : AlgorithmIdentifier}
    (hi : SignatureAlgorithm.findIdentifier r.signatureAlgorithm = .ok identifier)
    (h : Name.ofHost x.host = .error e) : Uncertifiable key r x (.raised e)
  | window {e : Error} {identifier : AlgorithmIdentifier} {subject : Name}
    (hi : SignatureAlgorithm.findIdentifier r.signatureAlgorithm = .ok identifier)
    (hs : Name.ofHost x.host = .ok subject)
    (h : stop (start x.clock) r.period = .error e) : Uncertifiable key r x (.raised e)
  | forging {f : Failure Error} {identifier : AlgorithmIdentifier} {subject : Name}
    {ending : Instant}
    (hi : SignatureAlgorithm.findIdentifier r.signatureAlgorithm = .ok identifier)
    (hs : Name.ofHost x.host = .ok subject)
    (he : stop (start x.clock) r.period = .ok ending)
    (h : Certificate.forge subject r.signatureAlgorithm identifier key (start x.clock) ending =
      .error f) : Uncertifiable key r x f

theorem certify_error_iff :
    certify key r.signatureAlgorithm r.period x = .error f ↔ Uncertifiable key r x f := by
  unfold certify
  constructor
  · intro h
    rcases bind_error_iff.1 h with h | ⟨identifier, hi, h⟩
    · exact .algorithm h
    rcases bind_error_iff.1 h with h | ⟨subject, hs, h⟩
    · obtain ⟨e, he, rfl⟩ := lift_error_iff.1 h
      exact .subject hi he
    rcases bind_error_iff.1 h with h | ⟨ending, he, h⟩
    · obtain ⟨e, he, rfl⟩ := lift_error_iff.1 h
      exact .window hi (lift_ok_iff.1 hs) he
    · exact .forging hi (lift_ok_iff.1 hs) (lift_ok_iff.1 he) h
  · intro h
    cases h with
    | algorithm h => exact bind_error_iff.2 (.inl h)
    | subject hi h =>
      exact bind_error_iff.2 (.inr ⟨_, hi, bind_error_iff.2 (.inl (lift_error_iff.2 ⟨_, h, rfl⟩))⟩)
    | window hi hs h =>
      exact bind_error_iff.2 (.inr ⟨_, hi, bind_error_iff.2 (.inr ⟨_, lift_ok_iff.2 hs,
        bind_error_iff.2 (.inl (lift_error_iff.2 ⟨_, h, rfl⟩))⟩)⟩)
    | forging hi hs he h =>
      exact bind_error_iff.2 (.inr ⟨_, hi, bind_error_iff.2 (.inr ⟨_, lift_ok_iff.2 hs,
        bind_error_iff.2 (.inr ⟨_, lift_ok_iff.2 he, h⟩)⟩)⟩)

-- The certificate carries the identifier that was found by the name, whose arcs are small: only the
-- name itself can overflow.
theorem uncertifiable_overflow_iff : Uncertifiable key r x .overflow ↔
    Oid.Overflows (Text.trim r.signatureAlgorithm).toList := by
  rw [← SignatureAlgorithm.parse_overflow_iff]
  constructor
  · intro h
    cases h with
    | algorithm h => exact SignatureAlgorithm.findIdentifier_error_iff.1 h
    | forging hi hs he h =>
      obtain ⟨a, hp, rfl⟩ := SignatureAlgorithm.findIdentifier_ok_iff.1 hi
      refine (Certificate.forge_overflow h).resolve_right fun ho => ?_
      rw [← Certificate.RawOid.parse_toText_overflow_iff, a.parse_toText_oid] at ho
      cases ho
  · intro h
    exact .algorithm (SignatureAlgorithm.findIdentifier_error_iff.2 h)

def Unresolved (c : Configuration) (f : ConfigurationError) : Prop := c.resolve = .error f

def Keyless (c : Configuration) (x : Circumstances) (bits : Nat) : Prop :=
  ∃ r, c.resolve = .ok r ∧ r.keySize = bits ∧ x.keyPair bits = none

def Unforged (c : Configuration) (x : Circumstances) (f : Failure Error) : Prop :=
  ∃ r key, c.resolve = .ok r ∧ x.keyPair r.keySize = some key ∧ Uncertifiable key r x f

structure Classifies (c : Configuration) (x : Circumstances) (e : GenerationError) : Prop where
  validating : e.stage = .validating ↔ ∃ f, Unresolved c f
  keyGeneration : e.stage = .keyGeneration ↔ ∃ bits, Keyless c x bits
  certificateForging : e.stage = .certificateForging ↔ ∃ f, Unforged c x f
  storing : e.stage = .storing ↔
    ¬((∃ f, Unresolved c f) ∨ (∃ bits, Keyless c x bits) ∨ ∃ f, Unforged c x f)
  unresolved : ∀ f, Unresolved c f → e.cause = .configuration f
  keyless : ∀ bits, Keyless c x bits → e.cause = .crypto (.keyGeneration bits)
  unforged : ∀ f, Unforged c x f → ∃ cause, f = .raised cause ∧ e.cause = .crypto cause

theorem unforged_iff : Unforged c x f ↔ ∃ r key, c.resolve = .ok r ∧
    x.keyPair r.keySize = some key ∧ certify key r.signatureAlgorithm r.period x = .error f := by
  simp only [Unforged, certify_error_iff]

theorem unforged_overflow_iff : Unforged c x .overflow ↔ ∃ r key, c.resolve = .ok r ∧
    x.keyPair r.keySize = some key ∧ Oid.Overflows (Text.trim c.signatureAlgorithm).toList := by
  simp only [Unforged, uncertifiable_overflow_iff]
  constructor
  · rintro ⟨r, key, hr, hk, ho⟩
    rw [(Configuration.settles_of_resolve hr).signatureAlgorithm] at ho
    exact ⟨r, key, hr, hk, ho⟩
  · rintro ⟨r, key, hr, hk, ho⟩
    rw [← (Configuration.settles_of_resolve hr).signatureAlgorithm] at ho
    exact ⟨r, key, hr, hk, ho⟩

theorem classifies_of_unresolved {f : ConfigurationError} (hr : c.resolve = .error f) :
    Classifies c x ⟨.validating, .configuration f⟩ := by
  constructor <;> simp [Unresolved, Keyless, Unforged, hr]

theorem classifies_of_keyless (hr : c.resolve = .ok r) (hk : x.keyPair r.keySize = none) :
    Classifies c x ⟨.keyGeneration, .crypto (.keyGeneration r.keySize)⟩ := by
  constructor <;> simp [Unresolved, Keyless, Unforged, hr, hk]

theorem classifies_of_uncertified {cause : Error} (hr : c.resolve = .ok r)
    (hk : x.keyPair r.keySize = some key)
    (hc : certify key r.signatureAlgorithm r.period x = .error (.raised cause)) :
    Classifies c x ⟨.certificateForging, .crypto cause⟩ := by
  constructor <;> simp [Unresolved, Keyless, unforged_iff, hr, hk, hc]

theorem classifies_of_certified (hr : c.resolve = .ok r) (hk : x.keyPair r.keySize = some key)
    (hc : certify key r.signatureAlgorithm r.period x = .ok certificate)
    (he : e.stage = .storing) : Classifies c x e := by
  constructor <;> simp [Unresolved, Keyless, unforged_iff, hr, hk, hc, he]

theorem not_created_defaulted (c : Configuration) (destination name : String) :
    .created destination name ∉ c.defaulted := by
  unfold Configuration.defaulted
  split <;> split <;> simp

-- The outcome is one of a stage, or that of a name with an arc that is too large, which stands in
-- the place of the certificate.
inductive Ended (c : Configuration) (x : Circumstances) (w : World) :
    Failure GenerationError → World → Prop
  | raised {e : GenerationError} {w' : World} (h : Classifies c x e)
    (hw : e.stage ≠ .storing → w' = w) : Ended c x w (.raised e) w'
  | overflow (h : Unforged c x .overflow) : Ended c x w .overflow w

theorem ended_generate {f : Failure GenerationError}
    (h : ((generate c d x).run conduct w).1.2 = .error f) :
    Ended c x w f ((generate c d x).run conduct w).2 := by
  have hearly {f' : Failure GenerationError} (hp : prepare c x = .error f') :
      f = f' ∧ ((generate c d x).run conduct w).2 = w := by
    rw [generate_of_error d conduct w hp] at h ⊢
    exact ⟨(Except.error.inj h).symm, rfl⟩
  cases hr : c.resolve with
  | error cause =>
    obtain ⟨rfl, hw⟩ := hearly (prepare_of_unresolved hr)
    exact .raised (classifies_of_unresolved hr) fun _ => hw
  | ok r =>
    cases hk : x.keyPair r.keySize with
    | none =>
      obtain ⟨rfl, hw⟩ := hearly (prepare_of_keyless hr hk)
      exact .raised (classifies_of_keyless hr hk) fun _ => hw
    | some key =>
      cases hc : certify key r.signatureAlgorithm r.period x with
      | error cause =>
        obtain ⟨rfl, hw⟩ := hearly (prepare_of_uncertified hr hk hc)
        cases cause with
        | raised cause => exact .raised (classifies_of_uncertified hr hk hc) fun _ => hw
        | overflow =>
          rw [hw]
          exact .overflow (unforged_iff.2 ⟨r, key, hr, hk, hc⟩)
      | ok certificate =>
        obtain ⟨e, rfl, hs⟩ := (generate_of_certified hr hk hc d conduct w).2 f h
        exact .raised (classifies_of_certified hr hk hc hs) fun hn => absurd hs hn

theorem not_created_of_error {f : Failure GenerationError}
    (h : ((generate c d x).run conduct w).1.2 = .error f) (destination name : String) :
    .created destination name ∉ ((generate c d x).run conduct w).1.1 := by
  have hevents : ((generate c d x).run conduct w).1.1 = c.defaulted := by
    rw [events_generate, h]
    exact List.append_nil _
  rw [hevents]
  exact not_created_defaulted c destination name

theorem generate_classifies (c : Configuration) (d : Destination) (x : Circumstances)
    (conduct : Conduct) (w : World) (f : Failure GenerationError)
    (h : ((generate c d x).run conduct w).1.2 = .error f) :
    (∀ e, f = .raised e →
      Classifies c x e ∧ (e.stage ≠ .storing → ((generate c d x).run conduct w).2 = w)) ∧
    (f = .overflow ↔ ∃ r key, c.resolve = .ok r ∧ x.keyPair r.keySize = some key ∧
      Oid.Overflows (Text.trim c.signatureAlgorithm).toList) ∧
    (f = .overflow → ((generate c d x).run conduct w).2 = w) ∧
    ∀ destination name,
      .created destination name ∉ ((generate c d x).run conduct w).1.1 := by
  rw [← unforged_overflow_iff]
  have hended := ended_generate h
  have hcreated := not_created_of_error h
  generalize ((generate c d x).run conduct w).2 = after at hended ⊢
  cases hended with
  | raised hc hw =>
    refine ⟨?_, ⟨nofun, fun ho => ?_⟩, nofun, hcreated⟩
    · intro e' he
      obtain rfl := Failure.raised.inj he
      exact ⟨hc, hw⟩
    · obtain ⟨cause, hcause, -⟩ := hc.unforged _ ho
      cases hcause
  | overflow ho => exact ⟨nofun, ⟨fun _ => ho, fun _ => rfl⟩, fun _ => rfl, hcreated⟩

def unknownConfiguration : Configuration :=
  { sampleConfiguration with signatureAlgorithm := "MD5withRSA" }

def blankConfiguration : Configuration := { unknownConfiguration with keyPassword := " " }

def blockedDestination : Destination := .file ⟨⟨"a/k.p12"⟩, none, true⟩

def blockedWorld : World := .start ⟨⟨[(["a"], .file [120])]⟩, none⟩

theorem generate_blank : ((generate blankConfiguration blockedDestination sampleCircumstances).run
    sampleConduct blockedWorld).1.2 =
      .error (.raised ⟨.validating, .configuration (.blank "key_password")⟩) := by
  have hr : blankConfiguration.resolve = .error (.blank "key_password") := by decide
  rw [generate_of_error _ _ _ (prepare_of_unresolved hr)]

theorem generate_unknown : ((generate unknownConfiguration blockedDestination
    sampleCircumstances).run sampleConduct blockedWorld).1.2 =
      .error (.raised ⟨.certificateForging, .crypto (.unsupportedAlgorithm "MD5withRSA")⟩) := by
  have hr : unknownConfiguration.resolve =
      .ok { windowResolved ⟨86400⟩ with signatureAlgorithm := "MD5withRSA" } := by decide
  have hc : certify sampleKey "MD5withRSA" ⟨86400⟩ sampleCircumstances =
      .error (.raised (.unsupportedAlgorithm "MD5withRSA")) := rfl
  rw [generate_of_error _ _ _ (prepare_of_uncertified hr rfl hc)]
  rfl

theorem generate_blocked : ((generate sampleConfiguration blockedDestination
    sampleCircumstances).run sampleConduct blockedWorld).1.2 =
      .error (.raised ⟨.storing, .write (.io ⟨"a"⟩)⟩) := by
  obtain ⟨r, m, b, hp, -⟩ := sample_prepare
  have hw : ((blockedDestination.write m sampleCircumstances.draws).run sampleConduct
      blockedWorld).1 = .error (.io ⟨"a"⟩) := rfl
  rw [generate_of_unwritten hp hw]

-- The first of three faults, the first of two, and one that only the destination has.
theorem generate_classifies_sample :
    (((generate blankConfiguration blockedDestination sampleCircumstances).run sampleConduct
        blockedWorld).1.2 = .error (.raised ⟨.validating, .configuration (.blank "key_password")⟩) ∧
      Classifies blankConfiguration sampleCircumstances
        ⟨.validating, .configuration (.blank "key_password")⟩) ∧
    (((generate unknownConfiguration blockedDestination sampleCircumstances).run sampleConduct
        blockedWorld).1.2 =
          .error (.raised ⟨.certificateForging, .crypto (.unsupportedAlgorithm "MD5withRSA")⟩) ∧
      ((generate unknownConfiguration blockedDestination sampleCircumstances).run sampleConduct
        blockedWorld).2 = blockedWorld) ∧
    ((generate sampleConfiguration blockedDestination sampleCircumstances).run sampleConduct
        blockedWorld).1.2 = .error (.raised ⟨.storing, .write (.io ⟨"a"⟩)⟩) ∧
      ¬∃ f, Unforged sampleConfiguration sampleCircumstances f := by
  obtain ⟨hblank, -⟩ := generate_classifies _ _ _ _ _ _ generate_blank
  obtain ⟨hunknown, -⟩ := generate_classifies _ _ _ _ _ _ generate_unknown
  obtain ⟨hblocked, -⟩ := generate_classifies _ _ _ _ _ _ generate_blocked
  refine ⟨⟨generate_blank, (hblank _ rfl).1⟩, ⟨generate_unknown, (hunknown _ rfl).2 nofun⟩,
    generate_blocked, ?_⟩
  exact fun hf => (hblocked _ rfl).1.storing.1 rfl (.inr (.inr hf))

end Generator

end Credential
