import Credential.Configuration.Basic
import Credential.Destination.Writing
import Credential.Rsa.Generation
/-!
Generating a key store: a fresh key pair, its self-signed certificate, and both written to the
destination. Everything is decided before anything is written.
-/

namespace Credential

inductive GenerationStage where
  | validating
  | keyGeneration
  | certificateForging
  | storing
deriving DecidableEq, Repr

def GenerationStage.message : GenerationStage → String
  | validating => "validating the configuration"
  | keyGeneration => "generating the key pair"
  | certificateForging => "creating the certificate"
  | storing => "storing the keystore"

inductive GenerationCause where
  | configuration (cause : ConfigurationError)
  | crypto (cause : Error)
  | store (cause : StoreError)
  | write (cause : WriteError)
deriving DecidableEq, Repr

def GenerationCause.message : GenerationCause → String
  | configuration cause => cause.message
  | crypto cause => cause.message
  | store cause => cause.message
  | write cause => cause.message

structure GenerationError where
  stage : GenerationStage
  cause : GenerationCause
deriving DecidableEq, Repr

def GenerationError.message (e : GenerationError) : String :=
  s!"Could not create keystore while {e.stage.message}"

/-- What a run finds around it: the time, the name of the host, and everything drawn at random. -/
structure Circumstances where
  clock : Instant
  host : String
  keyPair : Nat → Option Rsa.KeyPair
  draws : WriteDraws

structure Generated where
  keyAlias : String
  destination : String
  certificate : Certificate

inductive Outcome where
  | skipped
  | stored (generated : Generated)

namespace Circumstances

def hostOrDefault (name : Option String) : String :=
  match name with
  | some name => if Text.isBlank name then "localhost" else name
  | none => "localhost"

def draw (e : Entropy) (clock : Instant) (host : String) : Circumstances where
  clock := clock
  host := host
  keyPair := Rsa.KeyPair.generate? (e.child 0)
  draws := ⟨.draw (e.child 1), .draw (e.child 2)⟩

end Circumstances

namespace Generator

def start (clock : Instant) : Instant := ⟨clock.seconds - 1, 0, 0⟩

def isReckonable (i : Instant) : Bool :=
  -9999 ≤ i.date.year && i.date.year ≤ 9999

def stop (start : Instant) (period : Period) : Except Error Instant :=
  let i : Instant := { start with seconds := start.seconds + period.seconds }
  if isReckonable i then .ok i
  else .error (.invalidValidity (.outOfRange start.toText period.seconds))

def certify (key : Rsa.KeyPair) (algorithm : String) (period : Period) (x : Circumstances) :
    Except (Failure Error) Certificate := do
  let identifier ← SignatureAlgorithm.findIdentifier algorithm
  let subject ← Name.ofHost x.host
  let stop ← stop (start x.clock) period
  Certificate.forge subject algorithm identifier key (start x.clock) stop

def atStage {α ε : Type} (stage : GenerationStage) (cause : ε → GenerationCause) :
    Except ε α → Except GenerationError α :=
  Except.mapError fun e => ⟨stage, cause e⟩

def assemble (r : Resolved) (key : Rsa.KeyPair) (c : Certificate) :
    Except GenerationError Material := do
  let privateKey ← atStage .storing .crypto key.toDer
  let store ← atStage .storing .store
    ((KeyStore.empty r.storeType r.storePassword).set ⟨r.keyAlias, privateKey, r.keyPassword, [c]⟩)
  return ⟨store, c, privateKey⟩

def prepare (c : Configuration) (x : Circumstances) :
    Except (Failure GenerationError) (Resolved × Material) := do
  let r ← atStage .validating .configuration c.resolve
  let key ← atStage .keyGeneration .crypto
    (match x.keyPair r.keySize with
    | some key => .ok key
    | none => .error (.keyGeneration r.keySize))
  let certificate ← (certify key r.signatureAlgorithm r.period x).mapError
    (.map fun e => ⟨.certificateForging, .crypto e⟩)
  let material ← assemble r key certificate
  return (r, material)

open Disk

abbrev Report (α : Type) := List Event × Except (Failure GenerationError) α

def generate (c : Configuration) (d : Destination) (x : Circumstances) :
    Script (Report Generated) := do
  match prepare c x with
  | .error e => return (c.defaulted, .error e)
  | .ok (r, material) =>
    match ← d.write material x.draws with
    | .error e => return (c.defaulted, .error (.raised ⟨.storing, .write e⟩))
    | .ok () =>
      return (c.defaulted ++ [.created d.toText r.keyAlias],
        .ok ⟨r.keyAlias, d.toText, material.certificate⟩)

def isNeeded (c : Configuration) (d : Destination) : Script Bool := do
  let taken ← d.isTaken
  return c.isForced || !taken

def generateIfNeeded (c : Configuration) (d : Destination) (x : Circumstances) :
    Script (Report Outcome) := do
  if ← isNeeded c d then
    let (events, result) ← generate c d x
    return (events, result.map .stored)
  else return ([], .ok .skipped)

end Generator

end Credential
