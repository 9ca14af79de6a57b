import Credential.Text.Blank

namespace Credential

inductive StoreType where
  | pkcs12
deriving DecidableEq, Repr

namespace StoreType

def name : StoreType → String
  | pkcs12 => "PKCS12"

def ofText? (s : String) : Option StoreType :=
  if Text.upper (Text.trim s) ∈ ["PKCS12", "P12", "PFX"] then some pkcs12 else none

theorem ofText?_name (t : StoreType) : ofText? t.name = some t := by
  cases t; decide

end StoreType

end Credential
