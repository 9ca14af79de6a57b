import Credential.Der.Primitive
/-!
Sets of values. They are written in the order of their encodings; reading accepts any order but no
value twice.
-/

namespace Credential.Der.Value

def precedes (v w : Value) : Bool := decide (v.encode ≤ w.encode)

def sort (vs : List Value) : List Value := vs.mergeSort precedes

def set (vs : List Value) : Value := ⟨Tag.set, encodeAll (sort vs)⟩

def set? (v : Value) : Option (List Value) :=
  if v.tag = Tag.set then
    match readValues v.content with
    | some vs => if vs.Nodup then some (sort vs) else none
    | none => none
  else none

end Credential.Der.Value
