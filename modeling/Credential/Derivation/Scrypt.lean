import Credential.Derivation.Pbkdf2
import Credential.Digest.Sha256

namespace Credential.Scrypt

structure Cell where
  w0 : UInt32
  w1 : UInt32
  w2 : UInt32
  w3 : UInt32
  w4 : UInt32
  w5 : UInt32
  w6 : UInt32
  w7 : UInt32
  w8 : UInt32
  w9 : UInt32
  w10 : UInt32
  w11 : UInt32
  w12 : UInt32
  w13 : UInt32
  w14 : UInt32
  w15 : UInt32
deriving DecidableEq, Repr

namespace Cell

def xor (x y : Cell) : Cell :=
  ⟨x.w0 ^^^ y.w0, x.w1 ^^^ y.w1, x.w2 ^^^ y.w2, x.w3 ^^^ y.w3, x.w4 ^^^ y.w4, x.w5 ^^^ y.w5,
      x.w6 ^^^ y.w6, x.w7 ^^^ y.w7, x.w8 ^^^ y.w8, x.w9 ^^^ y.w9, x.w10 ^^^ y.w10,
      x.w11 ^^^ y.w11, x.w12 ^^^ y.w12, x.w13 ^^^ y.w13, x.w14 ^^^ y.w14, x.w15 ^^^ y.w15⟩

def add (x y : Cell) : Cell :=
  ⟨x.w0 + y.w0, x.w1 + y.w1, x.w2 + y.w2, x.w3 + y.w3, x.w4 + y.w4, x.w5 + y.w5, x.w6 + y.w6,
      x.w7 + y.w7, x.w8 + y.w8, x.w9 + y.w9, x.w10 + y.w10, x.w11 + y.w11, x.w12 + y.w12,
      x.w13 + y.w13, x.w14 + y.w14, x.w15 + y.w15⟩

@[inline] def rotl (x n : UInt32) : UInt32 := (x <<< n) ||| (x >>> (32 - n))

def doubleRounds : (count : Nat) → (x0 x1 x2 x3 x4 x5 x6 x7 x8 x9 x10 x11 x12 x13 x14
      x15 : UInt32) →
    Cell
  | 0, x0, x1, x2, x3, x4, x5, x6, x7, x8, x9, x10, x11, x12, x13, x14, x15 =>
    ⟨x0, x1, x2, x3, x4, x5, x6, x7, x8, x9, x10, x11, x12, x13, x14, x15⟩
  | count + 1, x0, x1, x2, x3, x4, x5, x6, x7, x8, x9, x10, x11, x12, x13, x14, x15 =>
    let x4 := x4 ^^^ rotl (x0 + x12) 7
    let x8 := x8 ^^^ rotl (x4 + x0) 9
    let x12 := x12 ^^^ rotl (x8 + x4) 13
    let x0 := x0 ^^^ rotl (x12 + x8) 18
    let x9 := x9 ^^^ rotl (x5 + x1) 7
    let x13 := x13 ^^^ rotl (x9 + x5) 9
    let x1 := x1 ^^^ rotl (x13 + x9) 13
    let x5 := x5 ^^^ rotl (x1 + x13) 18
    let x14 := x14 ^^^ rotl (x10 + x6) 7
    let x2 := x2 ^^^ rotl (x14 + x10) 9
    let x6 := x6 ^^^ rotl (x2 + x14) 13
    let x10 := x10 ^^^ rotl (x6 + x2) 18
    let x3 := x3 ^^^ rotl (x15 + x11) 7
    let x7 := x7 ^^^ rotl (x3 + x15) 9
    let x11 := x11 ^^^ rotl (x7 + x3) 13
    let x15 := x15 ^^^ rotl (x11 + x7) 18
    let x1 := x1 ^^^ rotl (x0 + x3) 7
    let x2 := x2 ^^^ rotl (x1 + x0) 9
    let x3 := x3 ^^^ rotl (x2 + x1) 13
    let x0 := x0 ^^^ rotl (x3 + x2) 18
    let x6 := x6 ^^^ rotl (x5 + x4) 7
    let x7 := x7 ^^^ rotl (x6 + x5) 9
    let x4 := x4 ^^^ rotl (x7 + x6) 13
    let x5 := x5 ^^^ rotl (x4 + x7) 18
    let x11 := x11 ^^^ rotl (x10 + x9) 7
    let x8 := x8 ^^^ rotl (x11 + x10) 9
    let x9 := x9 ^^^ rotl (x8 + x11) 13
    let x10 := x10 ^^^ rotl (x9 + x8) 18
    let x12 := x12 ^^^ rotl (x15 + x14) 7
    let x13 := x13 ^^^ rotl (x12 + x15) 9
    let x14 := x14 ^^^ rotl (x13 + x12) 13
    let x15 := x15 ^^^ rotl (x14 + x13) 18
    doubleRounds count x0 x1 x2 x3 x4 x5 x6 x7 x8 x9 x10 x11 x12 x13 x14 x15

def salsa (x : Cell) : Cell :=
  (doubleRounds 4 x.w0 x.w1 x.w2 x.w3 x.w4 x.w5 x.w6 x.w7 x.w8 x.w9 x.w10 x.w11 x.w12 x.w13 x.w14
      x.w15).add x

def wordBytes (x : UInt32) : Bytes :=
  [x.toUInt8, (x >>> 8).toUInt8, (x >>> 16).toUInt8, (x >>> 24).toUInt8]

def bytes (x : Cell) : Bytes :=
  wordBytes x.w0 ++ wordBytes x.w1 ++ wordBytes x.w2 ++ wordBytes x.w3 ++ wordBytes x.w4 ++
      wordBytes x.w5 ++ wordBytes x.w6 ++ wordBytes x.w7 ++ wordBytes x.w8 ++ wordBytes x.w9 ++
      wordBytes x.w10 ++ wordBytes x.w11 ++ wordBytes x.w12 ++ wordBytes x.w13 ++
      wordBytes x.w14 ++ wordBytes x.w15

end Cell

def words : Bytes → List UInt32
  | b0 :: b1 :: b2 :: b3 :: rest =>
    (b0.toUInt32 ||| (b1.toUInt32 <<< 8) ||| (b2.toUInt32 <<< 16) ||| (b3.toUInt32 <<< 24)) ::
      words rest
  | _ => []

def cellsOfWords : List UInt32 → List Cell
  | w0 :: w1 :: w2 :: w3 :: w4 :: w5 :: w6 :: w7 :: w8 :: w9 :: w10 :: w11 :: w12 :: w13 ::
      w14 :: w15 :: rest =>
    ⟨w0, w1, w2, w3, w4, w5, w6, w7, w8, w9, w10, w11, w12, w13, w14, w15⟩ :: cellsOfWords rest
  | _ => []

def cells (b : Bytes) : List Cell :=
  cellsOfWords (words b)

def mixFrom : Cell → List Cell → List Cell
  | _, [] => []
  | x, y :: ys =>
    let z := (x.xor y).salsa
    z :: mixFrom z ys

def evens : List Cell → List Cell
  | [] => []
  | [x] => [x]
  | x :: _ :: xs => x :: evens xs

def odds : List Cell → List Cell
  | [] => []
  | [_] => []
  | _ :: y :: xs => y :: odds xs

def blockMix (xs : List Cell) : List Cell :=
  match xs.getLast? with
  | none => []
  | some x =>
    let ys := mixFrom x xs
    evens ys ++ odds ys

def fill : (count : Nat) → List Cell → Array (List Cell) → Array (List Cell) × List Cell
  | 0, xs, kept => (kept, xs)
  | count + 1, xs, kept => fill count (blockMix xs) (kept.push xs)

def selector (xs : List Cell) : Nat :=
  match xs.getLast? with
  | none => 0
  | some x => x.w0.toNat + x.w1.toNat <<< 32

def revisit (kept : Array (List Cell)) : (count : Nat) → List Cell → List Cell
  | 0, xs => xs
  | count + 1, xs =>
    let earlier := kept.getD (selector xs % kept.size) []
    revisit kept count (blockMix (List.zipWith Cell.xor xs earlier))

def roMix (cost : Nat) (b : Bytes) : Bytes :=
  let (kept, xs) := fill cost (cells b) #[]
  (revisit kept cost xs).flatMap Cell.bytes

structure Parameters where
  cost : Nat
  blockSize : Nat
  lanes : Nat
deriving DecidableEq, Repr

def Parameters.Valid (p : Parameters) : Prop :=
  p.cost = 1 <<< p.cost.log2 ∧ 0 < p.blockSize ∧ 0 < p.lanes ∧ p.cost.log2 < 16 * p.blockSize ∧
    p.blockSize * p.lanes < 1 <<< 30

instance (p : Parameters) : Decidable p.Valid := by
  unfold Parameters.Valid
  infer_instance

def derive (p : Parameters) (password salt : Bytes) (length : Nat) : Bytes :=
  let key := Hmac.ofKey Sha256.sha256 password
  let lane := 128 * p.blockSize
  let expanded := Pbkdf2.derive key.mac 32 salt 1 (p.lanes * lane)
  let mixed := (List.range p.lanes).flatMap fun i =>
    roMix p.cost ((expanded.drop (i * lane)).take lane)
  Pbkdf2.derive key.mac 32 mixed 1 length

end Credential.Scrypt
