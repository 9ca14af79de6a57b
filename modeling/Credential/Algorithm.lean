import Credential.Der.Primitive
import Credential.Error
import Credential.Text.Blank
import Credential.Digest.Sha1
import Credential.Digest.Sha256
import Credential.Digest.Sha512

namespace Credential

structure AlgorithmIdentifier where
  oid : Oid
  parameters : Option Der.Value
deriving DecidableEq, Repr

namespace AlgorithmIdentifier

def value (a : AlgorithmIdentifier) : Der.Value :=
  .sequence (.oid a.oid :: a.parameters.toList)

def ofValue? (v : Der.Value) : Option AlgorithmIdentifier :=
  match v.sequence? with
  | some [o] => o.oid?.map (⟨·, none⟩)
  | some [o, p] => o.oid?.map (⟨·, some p⟩)
  | _ => none

end AlgorithmIdentifier

inductive SignatureAlgorithm where
  | sha1WithRsa
  | sha256WithRsa
  | sha384WithRsa
  | sha512WithRsa
deriving DecidableEq, Repr

namespace SignatureAlgorithm

def all : List SignatureAlgorithm :=
  [sha1WithRsa, sha256WithRsa, sha384WithRsa, sha512WithRsa]

theorem mem_all (a : SignatureAlgorithm) : a ∈ all := by
  cases a <;> decide

def name : SignatureAlgorithm → String
  | sha1WithRsa => "SHA1withRSA"
  | sha256WithRsa => "SHA256withRSA"
  | sha384WithRsa => "SHA384withRSA"
  | sha512WithRsa => "SHA512withRSA"

def lastArc : SignatureAlgorithm → Nat
  | sha1WithRsa => 5
  | sha256WithRsa => 11
  | sha384WithRsa => 12
  | sha512WithRsa => 13

def oid (a : SignatureAlgorithm) : Oid :=
  .ofArcs [1, 2, 840, 113549, 1, 1, a.lastArc]

def identifier (a : SignatureAlgorithm) : AlgorithmIdentifier :=
  ⟨a.oid, some .null⟩

def ofOid? (o : Oid) : Option SignatureAlgorithm :=
  all.find? (·.oid = o)

def hash : SignatureAlgorithm → Hash
  | sha1WithRsa => Sha1.sha1
  | sha256WithRsa => Sha256.sha256
  | sha384WithRsa => Sha512.sha384
  | sha512WithRsa => Sha512.sha512

def hashOid : SignatureAlgorithm → Oid
  | sha1WithRsa => .ofArcs [1, 3, 14, 3, 2, 26]
  | sha256WithRsa => .ofArcs [2, 16, 840, 1, 101, 3, 4, 2, 1]
  | sha384WithRsa => .ofArcs [2, 16, 840, 1, 101, 3, 4, 2, 2]
  | sha512WithRsa => .ofArcs [2, 16, 840, 1, 101, 3, 4, 2, 3]

def normalize (s : String) : String :=
  String.ofList ((s.toList.filter (· ≠ '-')).map Char.toUpper)

def orUnsupported (s : String) :
    Option SignatureAlgorithm → Except (Failure Error) SignatureAlgorithm
  | some a => .ok a
  | none => .error (.raised (.unsupportedAlgorithm s))

def parse (s : String) : Except (Failure Error) SignatureAlgorithm :=
  match Oid.ofText (Text.trim s) with
  | .ok o => orUnsupported s (ofOid? o)
  | .error .overflow => .error .overflow
  | .error (.raised _) =>
    orUnsupported s (all.find? fun a => normalize a.name = normalize (Text.trim s))

def findIdentifier (s : String) : Except (Failure Error) AlgorithmIdentifier :=
  (parse s).map identifier

theorem oid_injective {a b : SignatureAlgorithm} (h : a.oid = b.oid) : a = b := by
  cases a <;> cases b <;> first | rfl | (revert h; decide +kernel)

end SignatureAlgorithm

end Credential
