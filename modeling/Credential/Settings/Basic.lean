import Credential.Settings.Decoding
import Credential.Settings.Environment
import Credential.Settings.Toml.Document

namespace Credential

structure Settings where
  generation : Configuration
  destination : Destination
deriving DecidableEq, Repr

namespace Settings

/-- The destination has to be there; a configuration that is left out is the default one. -/
def ofEntries (entries : List (String × Value)) : Decoded Settings := do
  let destination ← match entries.lookup "destination" with
    | some v => (under "destination" (Destination.ofValue v)).map some
    | none => .ok none
  let generation ← match entries.lookup "generation" with
    | some v => under "generation" (Configuration.ofValue false v)
    | none => .ok Configuration.default
  match destination with
  | some destination => return ⟨generation, destination⟩
  | none => fail (.missingField "destination")

def ofValue : Value → Decoded Settings
  | .table entries => ofEntries entries
  | _ => fail .wrongType

def readFile : Option String → Decoded Value
  | none => .ok (.table [])
  | some s =>
    match Toml.readDocument s with
    | some v => .ok v
    | none => fail .malformed

def load (file : Option String) (environment : List (String × String)) : Decoded Settings := do
  let v ← readFile file
  ofValue (v.merge (Environment.toValue environment))

end Settings

end Credential
