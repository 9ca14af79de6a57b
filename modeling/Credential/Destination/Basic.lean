import Credential.Disk.Path
import Credential.Text.Blank

namespace Credential

/-- A file for the key store. Its companions are the certificate in two forms and the private key;
they lie next to it under a name of their own. -/
structure FileTarget where
  path : Disk.Path
  certificateName : Option String
  hasCompanions : Bool
deriving DecidableEq, Repr

namespace FileTarget

def companionName (t : FileTarget) : String :=
  match t.certificateName.map Text.trim with
  | none => "signing-cert"
  | some name => if name = "" then "signing-cert" else "signing-cert-" ++ name

def companion (t : FileTarget) (ending : String) : Disk.Path :=
  t.path.directory.join (t.companionName ++ ending)

def certificatePath (t : FileTarget) : Disk.Path := t.companion ".crt"
def pemPath (t : FileTarget) : Disk.Path := t.companion ".pem"
def keyPath (t : FileTarget) : Disk.Path := t.companion ".key"

end FileTarget

inductive Destination where
  | file (target : FileTarget)
  | memory
deriving DecidableEq, Repr

def Destination.toText : Destination → String
  | file target => target.path.text
  | memory => "memory"

end Credential
