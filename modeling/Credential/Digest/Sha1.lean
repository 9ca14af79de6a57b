import Credential.Digest.Hash

namespace Credential.Sha1

structure State where
  a : UInt32
  b : UInt32
  c : UInt32
  d : UInt32
  e : UInt32
deriving DecidableEq, Repr

@[inline] def rotl (x n : UInt32) : UInt32 := (x <<< n) ||| (x >>> (32 - n))

def choice (x y z : UInt32) : UInt32 := (x &&& y) ||| (~~~x &&& z)
def parity (x y z : UInt32) : UInt32 := x ^^^ y ^^^ z
def majority (x y z : UInt32) : UInt32 := (x &&& y) ||| (x &&& z) ||| (y &&& z)

def nextWord : List UInt32 → UInt32
  | w0 :: _ :: w2 :: _ :: _ :: _ :: _ :: _ :: w8 :: _ :: _ :: _ :: _ :: w13 :: _ =>
    rotl (w13 ^^^ w8 ^^^ w2 ^^^ w0) 1
  | _ => 0

def rounds (mix : UInt32 → UInt32 → UInt32 → UInt32) (k : UInt32) :
    Nat → State × List UInt32 → State × List UInt32
  | 0, x => x
  | count + 1, (s, window) =>
    let t := rotl s.a 5 + mix s.b s.c s.d + s.e + k + window.headD 0
    rounds mix k count (⟨t, s.a, rotl s.b 30, s.c, s.d⟩, window.tail ++ [nextWord window])

def compress (s : State) (block : List UInt32) : State :=
  let r := (rounds parity 0xca62c1d6 20 (rounds majority 0x8f1bbcdc 20
    (rounds parity 0x6ed9eba1 20 (rounds choice 0x5a827999 20 (s, block))))).1
  ⟨s.a + r.a, s.b + r.b, s.c + r.c, s.d + r.d, s.e + r.e⟩

def words : Bytes → List UInt32
  | b0 :: b1 :: b2 :: b3 :: rest =>
    ((b0.toUInt32 <<< 24) ||| (b1.toUInt32 <<< 16) ||| (b2.toUInt32 <<< 8) ||| b3.toUInt32) ::
      words rest
  | _ => []

def absorbWords (s : State) (ws : List UInt32) : State :=
  if ws.length < 16 then s else absorbWords (compress s (ws.take 16)) (ws.drop 16)
termination_by ws.length
decreasing_by simp only [List.length_drop]; omega

def wordBytes (x : UInt32) : Bytes :=
  [(x >>> 24).toUInt8, (x >>> 16).toUInt8, (x >>> 8).toUInt8, x.toUInt8]

def State.output (s : State) : Bytes :=
  wordBytes s.a ++ wordBytes s.b ++ wordBytes s.c ++ wordBytes s.d ++ wordBytes s.e

def sha1 : Hash where
  State := State
  blockSize := 64
  lengthSize := 8
  outputSize := 20
  start := ⟨0x67452301, 0xefcdab89, 0x98badcfe, 0x10325476, 0xc3d2e1f0⟩
  absorb s b := absorbWords s (words b)
  output s := s.output
  length_output s := by simp [State.output, wordBytes]

end Credential.Sha1
