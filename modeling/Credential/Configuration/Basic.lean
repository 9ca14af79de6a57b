import Credential.Configuration.Period
import Credential.StoreType
/-!
What a key store should hold and how it is protected, as asked for and as settled on. Settling
fills in a blank alias and a blank store type, and checks the rest.
-/

namespace Credential

inductive ConfigurationError where
  | blank (field : String)
  | unknownStoreType (name : String)
  | keyTooSmall (bits : Nat)
  | keyTooLarge (bits : Nat)
  | invalidPeriod (text : String) (fault : Period.Fault)
deriving DecidableEq, Repr

inductive Event where
  | defaultedAlias (name : String)
  | defaultedStoreType (name : String)
  | created (destination name : String)
deriving DecidableEq, Repr

structure Configuration where
  keyAlias : String
  storeType : String
  storePassword : String
  keyPassword : String
  keySize : Nat
  signatureAlgorithm : String
  period : Period
  isForced : Bool
deriving DecidableEq, Repr

namespace Configuration

def defaultAlias : String := "KeystoreGenerator"

def minKeySize : Nat := 512

def maxKeySize : Nat := 16384

def default : Configuration where
  keyAlias := ""
  storeType := ""
  storePassword := ""
  keyPassword := ""
  keySize := 2048
  signatureAlgorithm := "SHA256withRSA"
  period := ⟨20 * 365 * 86400⟩
  isForced := false

end Configuration

def ConfigurationError.message : ConfigurationError → String
  | blank field => s!"`{field}` cannot be blank"
  | unknownStoreType name => s!"unknown keystore type `{name}`"
  | keyTooSmall bits =>
    s!"a key size of {bits} bits is below the minimum of {Configuration.minKeySize} bits"
  | keyTooLarge bits =>
    s!"a key size of {bits} bits is above the maximum of {Configuration.maxKeySize} bits"
  | invalidPeriod text fault => s!"invalid period `{text}`: {fault.message}"

def StoreType.parse (name : String) : Except ConfigurationError StoreType :=
  match StoreType.ofText? name with
  | some t => .ok t
  | none => .error (.unknownStoreType name)

def Period.ofText (s : String) : Except ConfigurationError Period :=
  (Period.parse s).mapError (.invalidPeriod s)

structure Resolved where
  keyAlias : String
  storeType : StoreType
  storePassword : String
  keyPassword : String
  keySize : Nat
  signatureAlgorithm : String
  period : Period
deriving DecidableEq, Repr

namespace Configuration

def resolvedAlias (c : Configuration) : String :=
  if Text.isBlank c.keyAlias then defaultAlias else c.keyAlias

def resolvedStoreType (c : Configuration) : Except ConfigurationError StoreType :=
  if Text.isBlank c.storeType then .ok .pkcs12 else StoreType.parse c.storeType

def defaulted (c : Configuration) : List Event :=
  (if Text.isBlank c.keyAlias then [.defaultedAlias defaultAlias] else []) ++
    (if Text.isBlank c.storeType then [.defaultedStoreType StoreType.pkcs12.name] else [])

def requireText (field value : String) : Except ConfigurationError Unit :=
  if Text.isBlank value then .error (.blank field) else .ok ()

def checkKeySize (bits : Nat) : Except ConfigurationError Unit :=
  if bits < minKeySize then .error (.keyTooSmall bits)
  else if maxKeySize < bits then .error (.keyTooLarge bits)
  else .ok ()

def resolve (c : Configuration) : Except ConfigurationError Resolved := do
  let storeType ← c.resolvedStoreType
  requireText "alias" c.resolvedAlias
  requireText "key_password" c.keyPassword
  requireText "store_password" c.storePassword
  checkKeySize c.keySize
  return {
    keyAlias := c.resolvedAlias
    storeType
    storePassword := c.storePassword
    keyPassword := c.keyPassword
    keySize := c.keySize
    signatureAlgorithm := c.signatureAlgorithm
    period := c.period }

theorem isBlank_defaultAlias : Text.isBlank defaultAlias = false := by
  decide

theorem isBlank_resolvedAlias (c : Configuration) : Text.isBlank c.resolvedAlias = false := by
  unfold resolvedAlias
  split
  · exact isBlank_defaultAlias
  · simp_all

end Configuration

def Resolved.toConfiguration (r : Resolved) (isForced : Bool) : Configuration where
  keyAlias := r.keyAlias
  storeType := r.storeType.name
  storePassword := r.storePassword
  keyPassword := r.keyPassword
  keySize := r.keySize
  signatureAlgorithm := r.signatureAlgorithm
  period := r.period
  isForced := isForced

end Credential
