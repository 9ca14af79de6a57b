import Credential.Main
import Credential.Proofs.Powers
import Credential.Proofs.Calendar
import Credential.Proofs.Oid
import Credential.Proofs.Der.RoundTrip
import Credential.Proofs.Cipher.Inversion
import Credential.Proofs.Encryption.Opening
import Credential.Proofs.Encryption.Sizes
import Credential.Proofs.Container.Parts
import Credential.Proofs.Container.RoundTrip
import Credential.Proofs.Container.Sizes
import Credential.Proofs.Container.Secrecy
import Credential.Proofs.KeyStore.Reload
import Credential.Proofs.KeyStore.Resaving
import Credential.Proofs.Disk.Operation
import Credential.Proofs.Destination.Installing
import Credential.Proofs.Destination.Writing
import Credential.Proofs.Certificate.Reading
import Credential.Proofs.Certificate.Forging
import Credential.Proofs.Certificate.SelfSigned
import Credential.Proofs.Generator.Output
import Credential.Proofs.Generator.Session
import Credential.Proofs.KeyFile
import Credential.Proofs.Configuration.Period
import Credential.Proofs.Certificate.HostName
import Credential.Proofs.Destination.Effect
import Credential.Proofs.Der.Reading
import Credential.Proofs.Container.Gate
import Credential.Proofs.Rsa.SoleSignature
import Credential.Proofs.Container.MacKey
import Credential.Proofs.Container.Protection
import Credential.Proofs.Container.Bags
import Credential.Proofs.Certificate.Verification
import Credential.Proofs.Rsa.Reencoding
import Credential.Proofs.Rsa.PublicKey
import Credential.Proofs.Certificate.ClockReading
import Credential.Proofs.Container.Pairing
import Credential.Proofs.KeyStore.Loading
import Credential.Proofs.Generator.Validity
import Credential.Proofs.Generator.Failure
import Credential.Proofs.Disk.Child
import Credential.Proofs.Generator.Presence
import Credential.Proofs.Destination.Neighbours
import Credential.Proofs.Destination.Ordering
import Credential.Proofs.Text.Order
import Credential.Proofs.Text.Trimming
import Credential.Proofs.KeyStore.Mapping
import Credential.Proofs.Container.Outcome
import Credential.Proofs.KeyStore.Saving
import Credential.Proofs.Algorithm
import Credential.Proofs.Settings.Quoting
import Credential.Proofs.Settings.Number
import Credential.Proofs.Settings.Notation
import Credential.Proofs.Settings.Content
import Credential.Proofs.Settings.Override
