import Credential.Digest.Sha256
/-!
Random draws, expanded from a seed. What is drawn for different purposes comes from different
children of the seed, so no draw depends on how much another one takes.
-/

namespace Credential

structure Entropy where
  seed : Bytes
deriving DecidableEq, Repr

namespace Entropy

def expand (e : Entropy) (use : UInt8) (place : Nat) : Bytes :=
  Sha256.sha256.digest (use :: Bytes.ofNatWidth 8 place ++ e.seed)

def child (e : Entropy) (place : Nat) : Entropy :=
  ⟨e.expand 0 place⟩

def bytes (e : Entropy) (count : Nat) : Bytes :=
  ((List.range ((count + 31) / 32)).flatMap (e.expand 1)).take count

def natural (e : Entropy) (bits : Nat) : Nat :=
  Bytes.toNat (e.bytes ((bits + 7) / 8)) % 1 <<< bits

end Entropy

end Credential
