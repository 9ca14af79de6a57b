import Credential.Cipher.Aes

namespace Credential.Cbc

open Aes (Block)

inductive KeySize where
  | aes128
  | aes192
  | aes256
deriving DecidableEq, Repr

def KeySize.length : KeySize → Nat
  | aes128 => 16
  | aes192 => 24
  | aes256 => 32

def padLength (n : Nat) : Nat := 16 - n % 16

def pad (b : Bytes) : Bytes :=
  b ++ List.replicate (padLength b.length) (UInt8.ofNat (padLength b.length))

def unpad? (b : Bytes) : Option Bytes :=
  match b.getLast? with
  | none => none
  | some x =>
    let n := x.toNat
    if 1 ≤ n ∧ n ≤ 16 ∧ n ≤ b.length ∧ b.drop (b.length - n) = List.replicate n x then
      some (b.take (b.length - n))
    else none

def chain (keys : List Block) : Block → List Block → List Block
  | _, [] => []
  | previous, x :: xs =>
    let y := Aes.encryptBlock keys (x.xor previous)
    y :: chain keys y xs

def unchain (keys : List Block) : Block → List Block → List Block
  | _, [] => []
  | previous, y :: ys => (Aes.decryptBlock keys y).xor previous :: unchain keys y ys

def encrypt (key : Bytes) (iv : Block) (plain : Bytes) : Bytes :=
  Aes.bytes (chain (Aes.roundKeys key) iv (Aes.blocks (pad plain)))

def decrypt? (key : Bytes) (iv : Block) (cipher : Bytes) : Option Bytes :=
  if cipher.length % 16 = 0 then
    unpad? (Aes.bytes (unchain (Aes.roundKeys key) iv (Aes.blocks cipher)))
  else none

@[simp] theorem length_chain (keys : List Block) (iv : Block) (xs : List Block) :
    (chain keys iv xs).length = xs.length := by
  induction xs generalizing iv with
  | nil => rfl
  | cons x xs ih => simp [chain, ih]

theorem length_pad (b : Bytes) : (pad b).length % 16 = 0 := by
  simp only [pad, padLength, List.length_append, List.length_replicate]
  omega

end Credential.Cbc
