namespace Credential

/-- Why a computation has no result: an error, which its caller receives, or an overflow of its
arithmetic, which ends the program. -/
inductive Failure (ε : Type) where
  | raised (error : ε)
  | overflow
deriving DecidableEq, Repr

def Failure.map {ε δ : Type} (f : ε → δ) : Failure ε → Failure δ
  | raised e => .raised (f e)
  | overflow => .overflow

instance {ε : Type} : MonadLift (Except ε) (Except (Failure ε)) where
  monadLift := Except.mapError .raised

inductive KeyFault where
  | malformed
  | notRsa (algorithm : String)
  | unusedBits
  | modulusTooLarge
  | exponentTooLarge
  | exponentTooSmall
  | invalidModulus
  | invalidExponent
  | invalidNumbers
  | unsupportedEncryption
  | decryption
deriving DecidableEq, Repr

def KeyFault.message : KeyFault → String
  | malformed => "malformed key encoding"
  | notRsa algorithm => s!"`{algorithm}` is not an RSA public key"
  | unusedBits => "public key has unused bits"
  | modulusTooLarge => "modulus too large"
  | exponentTooLarge => "public exponent too large"
  | exponentTooSmall => "public exponent too small"
  | invalidModulus => "invalid modulus"
  | invalidExponent => "invalid exponent"
  | invalidNumbers => "PKCS#8 cryptographic key data malformed"
  | unsupportedEncryption => "unsupported encryption parameters"
  | decryption => "PKCS#5 encryption failed"

inductive SigningFault where
  | messageTooLong
  | inconsistentKey
deriving DecidableEq, Repr

def SigningFault.message : SigningFault → String
  | messageTooLong => "signature error: message too long"
  | inconsistentKey => "signature error: inconsistent private key"

inductive CertificateField where
  | layout
  | version
  | serial
  | algorithm
  | name
  | date
  | publicKey
  | issuerId
  | subjectId
  | extensions
  | signature
deriving DecidableEq, Repr

def CertificateField.message : CertificateField → String
  | layout => "malformed certificate"
  | version => "Parsing Error: InvalidVersion"
  | serial => "Parsing Error: InvalidSerial"
  | algorithm => "Parsing Error: InvalidAlgorithmIdentifier"
  | name => "Parsing Error: InvalidX509Name"
  | date => "Parsing Error: InvalidDate"
  | publicKey => "Parsing Error: InvalidSPKI"
  | issuerId => "Parsing Error: InvalidIssuerUID"
  | subjectId => "Parsing Error: InvalidSubjectUID"
  | extensions => "Parsing Error: InvalidExtensions"
  | signature => "Parsing Error: InvalidSignatureValue"

inductive CertificateFault where
  | unreadable (field : CertificateField)
  | trailing (count : Nat)
deriving DecidableEq, Repr

def CertificateFault.message : CertificateFault → String
  | unreadable field => field.message
  | trailing count => s!"{count} trailing bytes after the certificate"

inductive VerificationFault where
  | algorithmsDiffer (outer inner : String)
  | unknownAlgorithm (outer : String)
  | otherAlgorithm (actual expected : String)
  | badSignature
deriving DecidableEq, Repr

def VerificationFault.message : VerificationFault → String
  | algorithmsDiffer outer inner =>
    s!"signature algorithm `{outer}` differs from the signed one `{inner}`"
  | unknownAlgorithm outer => s!"unknown signature algorithm `{outer}`"
  | otherAlgorithm actual expected =>
    s!"certificate is signed with `{actual}` but `{expected}` was requested"
  | badSignature => "signature error: verification error"

inductive ContainerFault where
  | malformed
  | emptyChain (name : String)
  | version (number : Nat)
  | noMac
  | contentType (type : String)
  | namelessKey
  | certificateType (type : String)
  | notData (type : String)
  | missingData
  | missingCiphertext
  | macDigest (algorithm : String)
deriving DecidableEq, Repr

def ContainerFault.message : ContainerFault → String
  | malformed => "malformed encoding"
  | emptyChain name => s!"the certificate chain of `{name}` is empty"
  | version number => s!"unsupported version `{number}`"
  | noMac => "the store has no integrity MAC"
  | contentType type => s!"unsupported content type `{type}`"
  | namelessKey => "key bag without a name"
  | certificateType type => s!"unsupported certificate type `{type}`"
  | notData type => s!"expected data content, found `{type}`"
  | missingData => "data content is missing"
  | missingCiphertext => "encrypted content is missing"
  | macDigest algorithm => s!"unsupported MAC digest `{algorithm}`"

inductive ValidityFault where
  | year (number : Int)
  | unrepresentable (instant : String)
  | outOfRange (start : String) (seconds : Int)
deriving DecidableEq, Repr

def spanText (seconds : Int) : String :=
  let n := seconds.natAbs
  let part (count : Nat) (unit : String) := if count = 0 then "" else s!"{count}{unit}"
  if n = 0 then "0s"
  else (if seconds < 0 then "-" else "") ++ part (n / 86400) "d" ++ part (n / 3600 % 24) "h" ++
    part (n / 60 % 60) "m" ++ part (n % 60) "s"

def ValidityFault.message : ValidityFault → String
  | year number => s!"year {number} is out of range"
  | unrepresentable instant => s!"{instant}: date/time error"
  | outOfRange start seconds => s!"`{start}` plus `{spanText seconds}` is out of range"

inductive Locked where
  | keystore
  | keyEntry (name : String)
deriving DecidableEq, Repr

def Locked.message : Locked → String
  | keystore => "keystore"
  | keyEntry name => s!"key entry `{name}`"

inductive Error where
  | unsupportedAlgorithm (name : String)
  | keyGeneration (bits : Nat)
  | keyEncoding (fault : KeyFault)
  | encoding
  | signing (fault : SigningFault)
  | invalidValidity (fault : ValidityFault)
  | invalidName (text : String)
  | parse (fault : CertificateFault)
  | verification (fault : VerificationFault)
  | container (fault : ContainerFault)
  | incorrectPassword (locked : Locked)
deriving DecidableEq, Repr

def Error.message : Error → String
  | unsupportedAlgorithm name => s!"unsupported signature algorithm `{name}`"
  | keyGeneration bits => s!"could not generate a {bits} bits RSA key pair"
  | keyEncoding fault => s!"could not encode key material: {fault.message}"
  | encoding => "could not DER encode the certificate: malformed value"
  | signing fault => s!"could not sign the certificate: {fault.message}"
  | invalidValidity fault => s!"invalid certificate validity: {fault.message}"
  | invalidName text => s!"invalid distinguished name `{text}`"
  | parse fault => s!"could not parse the assembled certificate: {fault.message}"
  | verification fault => s!"certificate self-verification failed: {fault.message}"
  | container fault => s!"malformed PKCS#12 store: {fault.message}"
  | incorrectPassword locked => s!"incorrect password for the {locked.message}"

end Credential
