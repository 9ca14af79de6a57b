import Credential.Proofs.Certificate.SelfSigned
import Credential.Proofs.Generator.Output
/-!
The window of a generated certificate. It opens one second before the clock and closes after exactly
the period, or the run is refused while the certificate is made.
-/

namespace Credential

open Disk Script

namespace Certificate

variable {subject : Name} {identifier : AlgorithmIdentifier} {key : Rsa.KeyPair}
  {start : Moment}

theorem forge_of_stop_error {name : String} {algorithm : SignatureAlgorithm}
    {notBefore notAfter : Instant} {cause : Error}
    (hp : SignatureAlgorithm.parse name = .ok algorithm)
    (hs : Moment.ofInstant notBefore = .ok start)
    (he : Moment.ofInstant notAfter = .error cause) :
    forge subject name identifier key notBefore notAfter = .error (.raised cause) := by
  simp only [forge, hp, hs, he]
  rfl

end Certificate

namespace Generator

variable {c : Configuration} {d : Destination} {x : Circumstances} {r : Resolved}
  {key : Rsa.KeyPair} {algorithm : SignatureAlgorithm} {subject : Name} {name : String}
  {period : Period} {certificate : Certificate} {conduct : Conduct} {w : World}

def ending (x : Circumstances) (period : Period) : Instant :=
  { start x.clock with seconds := (start x.clock).seconds + period.seconds }

def Datable (i : Instant) : Prop := 1970 ≤ i.date.year ∧ i.date.year ≤ 9999

-- An end that cannot be reckoned with is found before the one that only has no place in a
-- certificate.
def windowFault (x : Circumstances) (period : Period) : ValidityFault :=
  let i := ending x period
  if isReckonable i then
    if i.date.year < 0 then .year i.date.year else .unrepresentable i.toText
  else .outOfRange (start x.clock).toText period.seconds

structure Forgeable (c : Configuration) (x : Circumstances) (r : Resolved) (key : Rsa.KeyPair)
    (algorithm : SignatureAlgorithm) (subject : Name) : Prop where
  resolved : c.resolve = .ok r
  drawn : x.keyPair r.keySize = some key
  parsed : SignatureAlgorithm.parse r.signatureAlgorithm = .ok algorithm
  hosted : Name.ofHost x.host = .ok subject
  primes : key.numbers.PrimesDistinct
  size : Rsa.bitLength key.publicKey.modulus ≤ Rsa.maxKeySize
  room : (Rsa.digestInfo algorithm []).length + 11 ≤ key.publicKey.size

theorem datable_start (hlow : 1 ≤ x.clock.seconds) (hhigh : x.clock.date.year ≤ 9999) :
    Datable (start x.clock) := by
  have hnext := x.clock.le_year_iff 10000
  have hseconds : (Date.newYear 10000).toDays * 86400 = 253402300800 := rfl
  refine (Instant.years_iff _).2 ?_
  unfold start
  dsimp only
  omega

theorem stop_eq (x : Circumstances) (period : Period) : stop (start x.clock) period =
    if isReckonable (ending x period) then .ok (ending x period)
    else .error (.invalidValidity (.outOfRange (start x.clock).toText period.seconds)) := rfl

theorem isReckonable_of_datable {i : Instant} (h : Datable i) : isReckonable i = true := by
  obtain ⟨hlow, hhigh⟩ := h
  simp only [isReckonable, Bool.and_eq_true, decide_eq_true_eq]
  omega

theorem certify_eq (hp : SignatureAlgorithm.parse name = .ok algorithm)
    (hh : Name.ofHost x.host = .ok subject) : certify key name period x =
      liftM (stop (start x.clock) period) >>= fun stop =>
        Certificate.forge subject name algorithm.identifier key (start x.clock) stop := by
  simp only [certify, SignatureAlgorithm.findIdentifier, hp, hh]
  rfl

theorem certify_of_reckonable (hp : SignatureAlgorithm.parse name = .ok algorithm)
    (hh : Name.ofHost x.host = .ok subject) (hr : isReckonable (ending x period) = true) :
    certify key name period x = Certificate.forge subject name algorithm.identifier key
      (start x.clock) (ending x period) := by
  rw [certify_eq hp hh, stop_eq, if_pos hr, lift_ok]
  rfl

theorem certify_of_undatable (key : Rsa.KeyPair)
    (hp : SignatureAlgorithm.parse name = .ok algorithm) (hh : Name.ofHost x.host = .ok subject)
    (hs : Datable (start x.clock)) (he : ¬Datable (ending x period)) :
    certify key name period x = .error (.raised (.invalidValidity (windowFault x period))) := by
  have hstart := Certificate.Moment.ofInstant_of_year hs.1 hs.2
  unfold windowFault
  dsimp only
  cases hr : isReckonable (ending x period) with
  | false =>
    rw [certify_eq hp hh, stop_eq, hr]
    rfl
  | true =>
    have hnear : ¬ 65535 < (ending x period).date.year := by
      simp only [isReckonable, Bool.and_eq_true, decide_eq_true_eq] at hr
      omega
    rw [certify_of_reckonable hp hh hr]
    refine Certificate.forge_of_stop_error hp hstart ?_
    rw [Certificate.Moment.ofInstant_eq]
    refine (if_neg he).trans ?_
    simp only [hnear, or_false, if_true]

theorem exists_certify (h : Forgeable c x r key algorithm subject) (hs : Datable (start x.clock))
    (he : Datable (ending x period))
    (hf : (Certificate.draft subject algorithm.identifier key (start x.clock)
      (ending x period)).Fits) :
    ∃ certificate, certify key r.signatureAlgorithm period x = .ok certificate := by
  rw [certify_of_reckonable h.parsed h.hosted (isReckonable_of_datable he)]
  exact Certificate.exists_forge ⟨h.primes, h.size, h.room, hs, he⟩ h.parsed
    (SignatureAlgorithm.skippable_identifier algorithm)
    (Certificate.RawOid.spelled_oid algorithm) hf

theorem validity_certify (h : certify key name period x = .ok certificate) :
    certificate.fields.notBefore = x.clock.seconds - 1 ∧
      certificate.fields.notAfter = certificate.fields.notBefore + period.seconds := by
  unfold certify at h
  obtain ⟨identifier, -, h⟩ := exists_of_bind_ok h
  obtain ⟨subject, -, h⟩ := exists_of_bind_ok h
  obtain ⟨stop, hs, h⟩ := exists_of_bind_ok h
  obtain ⟨hbefore, hafter⟩ := Certificate.validity_forge h
  rw [lift_ok_iff, stop_eq] at hs
  split at hs
  · obtain rfl := Except.ok.inj hs
    rw [hbefore, hafter]
    exact ⟨rfl, rfl⟩
  · cases hs

theorem generate_of_certified (hr : c.resolve = .ok r) (hk : x.keyPair r.keySize = some key)
    (hc : certify key r.signatureAlgorithm r.period x = .ok certificate) (d : Destination)
    (conduct : Conduct) (w : World) :
    (∀ g, ((generate c d x).run conduct w).1.2 = .ok g → g.certificate = certificate) ∧
    ∀ f, ((generate c d x).run conduct w).1.2 = .error f → ∃ e, f = .raised e ∧
      e.stage = .storing := by
  have hp := prepare_of_certified hr hk hc
  cases ha : assemble r key certificate with
  | error e =>
    rw [ha] at hp
    rw [generate_of_error d conduct w hp]
    refine ⟨nofun, fun f hf => ?_⟩
    obtain rfl := Except.error.inj hf
    exact ⟨e, rfl, assemble_error ha⟩
  | ok m =>
    rw [ha] at hp
    obtain ⟨-, -, hm, -⟩ := assemble_ok ha
    cases hw : ((d.write m x.draws).run conduct w).1 with
    | error f =>
      rw [generate_of_unwritten hp hw]
      refine ⟨nofun, fun e he => ?_⟩
      obtain rfl := Except.error.inj he
      exact ⟨_, rfl, rfl⟩
    | ok u =>
      rw [generate_of_written hp hw]
      refine ⟨fun g hg => ?_, nofun⟩
      obtain rfl := Except.ok.inj hg
      exact hm

theorem generate_window (c : Configuration) (d : Destination) (x : Circumstances) (r : Resolved)
    (key : Rsa.KeyPair) (algorithm : SignatureAlgorithm) (subject : Name) (conduct : Conduct)
    (w : World) (h : Forgeable c x r key algorithm subject) (hlow : 1 ≤ x.clock.seconds)
    (hhigh : x.clock.date.year ≤ 9999) :
    (Datable (ending x c.period) →
      (Certificate.draft subject algorithm.identifier key (start x.clock)
        (ending x c.period)).Fits → ∃ certificate,
      certify key r.signatureAlgorithm c.period x = .ok certificate ∧
      certificate.fields.notBefore = x.clock.seconds - 1 ∧
      certificate.fields.notAfter = certificate.fields.notBefore + c.period.seconds ∧
      (∀ g, ((generate c d x).run conduct w).1.2 = .ok g → g.certificate = certificate) ∧
      ∀ f, ((generate c d x).run conduct w).1.2 = .error f → ∃ e, f = .raised e ∧
        e.stage = .storing) ∧
    (¬Datable (ending x c.period) → (generate c d x).run conduct w =
      ((c.defaulted, .error (.raised ⟨.certificateForging,
        .crypto (.invalidValidity (windowFault x c.period))⟩)), w)) := by
  have hs := datable_start hlow hhigh
  have hperiod : r.period = c.period := (Configuration.settles_of_resolve h.resolved).period
  constructor
  · intro he hf
    obtain ⟨certificate, hc⟩ := exists_certify h hs he hf
    obtain ⟨hbefore, hafter⟩ := validity_certify hc
    refine ⟨certificate, hc, hbefore, hafter, ?_⟩
    rw [← hperiod] at hc
    exact generate_of_certified h.resolved h.drawn hc d conduct w
  · intro he
    have hc := certify_of_undatable key h.parsed h.hosted hs he
    rw [← hperiod] at hc ⊢
    exact generate_of_error d conduct w (prepare_of_uncertified h.resolved h.drawn hc)

def windowNumbers : Rsa.PrivateNumbers where
  modulus := (757 * 2 ^ 246 + 1) * (467 * 2 ^ 247 + 1)
  publicExponent := 65537
  privateExponent := 0x1d067f0000ffff0000ffff0000ffff0000ffff0000ffff0000ffff0000ffff0001
  prime1 := 757 * 2 ^ 246 + 1
  prime2 := 467 * 2 ^ 247 + 1

theorem windowNumbers_primesDistinct : windowNumbers.PrimesDistinct where
  prime1 := Rsa.prime_of_root (b := 3) (by norm_num) (by decide +kernel)
  prime2 := Rsa.prime_of_root (b := 3) (by norm_num) (by decide +kernel)
  distinct := by decide

def windowKey : Rsa.KeyPair := ⟨windowNumbers, by decide⟩

def windowConfiguration (period : Period) : Configuration :=
  { sampleConfiguration with period := period }

def windowResolved (period : Period) : Resolved where
  keyAlias := "KeystoreGenerator"
  storeType := .pkcs12
  storePassword := "store"
  keyPassword := "key"
  keySize := 512
  signatureAlgorithm := "SHA256withRSA"
  period := period

def windowCircumstances : Circumstances :=
  { sampleCircumstances with
    clock := ⟨1700000000, 999999999, 0⟩
    host := "ab"
    keyPair := fun bits => if bits = 512 then some windowKey else none }

theorem resolve_window (period : Period) :
    (windowConfiguration period).resolve = .ok (windowResolved period) := by
  have hname : Text.isBlank (windowConfiguration period).keyAlias = true := rfl
  have htype : Text.isBlank (windowConfiguration period).storeType = true := rfl
  have hkey : Text.isBlank "key" = false := by decide
  have hstore : Text.isBlank "store" = false := by decide
  have hsize : Configuration.minKeySize ≤ 512 ∧ 512 ≤ Configuration.maxKeySize := by decide
  refine Configuration.resolve_ok_iff.2 ⟨⟨.inl htype, hkey, hstore, hsize⟩, ?_⟩
  exact {
    isNamed := Configuration.isBlank_defaultAlias
    keyAlias := fun hb => absurd (hname.symm.trans hb) nofun
    newAlias := fun _ => rfl
    storeType := fun hb => absurd (htype.symm.trans hb) nofun
    newStoreType := fun _ => rfl
    storePassword := rfl
    keyPassword := rfl
    keySize := rfl
    signatureAlgorithm := rfl
    period := rfl }

theorem forgeable_window (period : Period) : Forgeable (windowConfiguration period)
    windowCircumstances (windowResolved period) windowKey .sha256WithRsa
      Certificate.sampleSubject where
  resolved := resolve_window period
  drawn := rfl
  parsed := Certificate.sample_parse
  hosted := rfl
  primes := windowNumbers_primesDistinct
  size := by decide +kernel
  room := by decide +kernel

-- A window that closes, one that would close before 1970, and one that would close after 9999.
theorem generate_window_sample :
    (∃ certificate, certify windowKey "SHA256withRSA" ⟨86400⟩ windowCircumstances =
        .ok certificate ∧
      certificate.fields.notBefore = 1699999999 ∧ certificate.fields.notAfter = 1700086399) ∧
    ((generate (windowConfiguration ⟨-1700000000⟩) .memory windowCircumstances).run sampleConduct
        FileTarget.sampleWorld).1.2 = .error (.raised ⟨.certificateForging, .crypto (.invalidValidity
          (.unrepresentable "1969-12-31 23:59:59.0 +00:00:00"))⟩) ∧
    ((generate (windowConfiguration ⟨9223372036854775807⟩) .memory windowCircumstances).run
        sampleConduct FileTarget.sampleWorld).1.2 = .error (.raised ⟨.certificateForging, .crypto
          (.invalidValidity (.outOfRange "2023-11-14 22:13:19.0 +00:00:00" 9223372036854775807))⟩) := by
  have hlow : 1 ≤ windowCircumstances.clock.seconds := by decide
  have hhigh : windowCircumstances.clock.date.year ≤ 9999 := by decide
  have hwindow (period : Period) := generate_window (windowConfiguration period) .memory
    windowCircumstances (windowResolved period) windowKey .sha256WithRsa Certificate.sampleSubject
    sampleConduct FileTarget.sampleWorld (forgeable_window period) hlow hhigh
  refine ⟨?_, ?_, ?_⟩
  · have hopen : Datable (ending windowCircumstances ⟨86400⟩) := by
      unfold Datable
      decide
    have hfits : (Certificate.draft Certificate.sampleSubject
        SignatureAlgorithm.sha256WithRsa.identifier windowKey (start windowCircumstances.clock)
        (ending windowCircumstances ⟨86400⟩)).encode.length ≤ Der.maxLength := by
      decide +kernel
    obtain ⟨certificate, hc, hbefore, hafter, -⟩ := (hwindow ⟨86400⟩).1 hopen hfits
    rw [hbefore] at hafter
    exact ⟨certificate, hc, hbefore, hafter⟩
  · have hearly : ¬Datable (ending windowCircumstances ⟨-1700000000⟩) := by
      unfold Datable
      decide
    have hfault : windowFault windowCircumstances ⟨-1700000000⟩ =
        .unrepresentable "1969-12-31 23:59:59.0 +00:00:00" := by decide
    rw [← hfault, (hwindow ⟨-1700000000⟩).2 hearly]
    rfl
  · have hlate : ¬Datable (ending windowCircumstances ⟨9223372036854775807⟩) := by
      unfold Datable
      decide
    have hfault : windowFault windowCircumstances ⟨9223372036854775807⟩ =
        .outOfRange "2023-11-14 22:13:19.0 +00:00:00" 9223372036854775807 := by decide
    rw [← hfault, (hwindow ⟨9223372036854775807⟩).2 hlate]
    rfl

end Generator

end Credential
