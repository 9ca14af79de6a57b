import Credential.Digest.Hash
/-!
Keyed hashing. The two states that depend on the key alone are kept, so that many messages under
one key cost two runs of the hash each and no more.
-/

namespace Credential

structure Hmac (H : Hash) where
  inner : H.State
  outer : H.State

namespace Hmac

variable {H : Hash}

def keyBlock (H : Hash) (key : Bytes) : Bytes :=
  let short := if key.length ≤ H.blockSize then key else H.digest key
  short ++ List.replicate (H.blockSize - short.length) 0

def ofKey (H : Hash) (key : Bytes) : Hmac H :=
  let block := keyBlock H key
  ⟨H.absorb H.start (block.map (· ^^^ 0x36)), H.absorb H.start (block.map (· ^^^ 0x5C))⟩

def mac (k : Hmac H) (m : Bytes) : Bytes :=
  H.finish k.outer H.blockSize (H.finish k.inner H.blockSize m)

@[simp] theorem length_mac (k : Hmac H) (m : Bytes) : (k.mac m).length = H.outputSize :=
  H.length_finish _ _ _

end Hmac

end Credential
