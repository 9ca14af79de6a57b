import Credential.Digest.Hmac

namespace Credential.Pbkdf2

variable (mac : Bytes → Bytes)

def iterate : (count : Nat) → (last sum : Bytes) → Bytes
  | 0, _, sum => sum
  | count + 1, last, sum =>
    let next := mac last
    iterate count next (Bytes.xor sum next)

def block (salt : Bytes) (count index : Nat) : Bytes :=
  let first := mac (salt ++ Bytes.ofNatWidth 4 index)
  iterate mac (count - 1) first first

def derive (blockSize : Nat) (salt : Bytes) (count length : Nat) : Bytes :=
  ((List.range ((length + blockSize - 1) / blockSize)).flatMap
    fun i => block mac salt count (i + 1)).take length

def ofPassword (H : Hash) (password salt : Bytes) (count length : Nat) : Bytes :=
  let key := Hmac.ofKey H password
  derive key.mac H.outputSize salt count length

end Credential.Pbkdf2
