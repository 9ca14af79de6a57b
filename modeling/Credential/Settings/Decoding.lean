import Credential.Configuration.Basic
import Credential.Destination.Basic
import Credential.Settings.Value
/-!
The configuration and the destination that values stand for. Both are tables of named fields, or
lists of the same fields in order. Of several faults in a table the first one by the order of the
keys is reported.
-/

namespace Credential.Settings

inductive Fault where
  | malformed
  | period (cause : ConfigurationError)
  | wrongType
  | wrongValue
  | wrongLength
  | unknownVariant (name : String)
  | missingField (name : String)
deriving DecidableEq, Repr

structure DecodingError where
  fault : Fault
  path : List String
deriving DecidableEq, Repr

abbrev Decoded (α : Type) := Except DecodingError α

def fail {α : Type} (fault : Fault) : Decoded α := .error ⟨fault, []⟩

def under {α : Type} (key : String) (r : Decoded α) : Decoded α :=
  r.mapError fun e => { e with path := key :: e.path }

namespace Value

def toText : Value → Decoded String
  | text s => .ok s
  | character c => .ok (String.singleton c)
  | _ => fail .wrongType

/-- Inside a variant a single character does not count as text. -/
def toVariantText : Value → Decoded String
  | text s => .ok s
  | _ => fail .wrongType

def toBoolean : Value → Decoded Bool
  | boolean b => .ok b
  | _ => fail .wrongType

def toNatural : Value → Decoded Nat
  | integer n => if 0 ≤ n then .ok n.toNat else fail .wrongValue
  | _ => fail .wrongType

def toPeriod (v : Value) : Decoded Period := do
  let s ← v.toText
  match Period.ofText s with
  | .ok p => .ok p
  | .error e => fail (.period e)

def toOptionalText : Value → Decoded (Option String)
  | null => .ok none
  | v => v.toVariantText.map some

end Value

end Settings

open Settings

namespace Configuration

inductive Field where
  | keyAlias
  | storeType
  | storePassword
  | keyPassword
  | keySize
  | signatureAlgorithm
  | period
  | isForced
deriving DecidableEq, Repr

namespace Field

def key : Field → String
  | keyAlias => "alias"
  | storeType => "store_type"
  | storePassword => "store_password"
  | keyPassword => "key_password"
  | keySize => "key_size"
  | signatureAlgorithm => "signature_algorithm"
  | period => "expiration_period"
  | isForced => "force_generation"

def inOrder : List Field :=
  [keyAlias, storeType, storePassword, keyPassword, keySize, signatureAlgorithm, period, isForced]

def byKey : List Field :=
  [keyAlias, period, isForced, keyPassword, keySize, signatureAlgorithm, storePassword, storeType]

def set (c : Configuration) (v : Value) : Field → Decoded Configuration
  | keyAlias => v.toText.map fun s => { c with keyAlias := s }
  | storeType => v.toText.map fun s => { c with storeType := s }
  | storePassword => v.toText.map fun s => { c with storePassword := s }
  | keyPassword => v.toText.map fun s => { c with keyPassword := s }
  | keySize => v.toNatural.map fun n => { c with keySize := n }
  | signatureAlgorithm => v.toText.map fun s => { c with signatureAlgorithm := s }
  | period => v.toPeriod.map fun p => { c with period := p }
  | isForced => v.toBoolean.map fun b => { c with isForced := b }

end Field

def setByKey (entries : List (String × Value)) (c : Configuration) (f : Field) :
    Decoded Configuration :=
  match entries.lookup f.key with
  | some v => under f.key (f.set c v)
  | none => .ok c

def ofTable (entries : List (String × Value)) : Decoded Configuration :=
  Field.byKey.foldlM (setByKey entries) default

def setInOrder : (place : Nat) → List Field → List Value → Configuration → Decoded Configuration
  | place, f :: fs, v :: vs, c => do
    let c ← under (toString place) (f.set c v)
    setInOrder (place + 1) fs vs c
  | _, _, _, c => .ok c

/-- Reads a table or a list of fields. Values after the last field are refused if `isExact`. -/
def ofValue (isExact : Bool) : Value → Decoded Configuration
  | .table entries => ofTable entries
  | .list vs => do
    let c ← setInOrder 0 Field.inOrder vs default
    if isExact ∧ Field.inOrder.length < vs.length then fail .wrongLength else return c
  | _ => fail .wrongType

end Configuration

namespace Destination

inductive Variant where
  | file
  | memory
deriving DecidableEq, Repr

def Variant.ofValue (v : Value) : Decoded Variant := do
  let name ← v.toText
  if name = "file" then return .file
  else if name = "memory" then return .memory
  else fail (.unknownVariant name)

def optional {α : Type} (read : Value → Decoded α) (other : α) : Option Value → Decoded α
  | some v => read v
  | none => .ok other

def fileOfTable (entries : List (String × Value)) : Decoded Destination := do
  let name ← optional Value.toOptionalText none (entries.lookup "certificate_name_to_append")
  let hasCompanions ← optional Value.toBoolean true (entries.lookup "companion_files")
  match entries.lookup "path" with
  | none => fail (.missingField "path")
  | some v => return .file ⟨⟨← v.toVariantText⟩, name, hasCompanions⟩

def fileOfList : List Value → Decoded Destination
  | [] => fail .wrongLength
  | path :: rest => do
    let path ← path.toVariantText
    let name ← optional Value.toOptionalText none rest[0]?
    let hasCompanions ← optional Value.toBoolean true rest[1]?
    if 2 < rest.length then fail .wrongLength else return .file ⟨⟨path⟩, name, hasCompanions⟩

def ofValue : Value → Decoded Destination
  | .table entries =>
    match entries.lookup "kind" with
    | none => fail (.missingField "kind")
    | some v => do
      match ← under "kind" (Variant.ofValue v) with
      | .file => fileOfTable entries
      | .memory => return .memory
  | .list [] => fail (.missingField "kind")
  | .list (v :: rest) => do
    match ← under "0" (Variant.ofValue v) with
    | .file => fileOfList rest
    | .memory => if rest.isEmpty then return .memory else fail .wrongLength
  | _ => fail .wrongType

end Destination

end Credential
