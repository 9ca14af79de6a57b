import Credential.Bytes
/-!
Text of two-byte characters. The characters above the basic plane and U+FFFF have no form in it.
-/

namespace Credential.Text.Bmp

def fits (c : Char) : Bool := c.val < 0xFFFF

def encodeChars? : List Char → Option Bytes
  | [] => some []
  | c :: rest =>
    if fits c then
      (encodeChars? rest).map ([UInt8.ofNat (c.toNat / 256), UInt8.ofNat c.toNat] ++ ·)
    else none

def encode? (s : String) : Option Bytes :=
  encodeChars? s.toList

def isSurrogate (n : Nat) : Bool := 0xD800 ≤ n && n < 0xE000

def decodeChars? : Bytes → Option (List Char)
  | [] => some []
  | [_] => none
  | high :: low :: rest =>
    let n := high.toNat * 256 + low.toNat
    if isSurrogate n || n = 0xFFFF then none
    else (decodeChars? rest).map (Char.ofNat n :: ·)

def decode? (b : Bytes) : Option String :=
  (decodeChars? b).map String.ofList

theorem encodeChars?_isSome (cs : List Char) :
    (encodeChars? cs).isSome = true ↔ cs.all fits = true := by
  induction cs with
  | nil => simp [encodeChars?]
  | cons c cs ih => by_cases h : fits c = true <;> simp [encodeChars?, h, ih]

end Credential.Text.Bmp
