import Credential.Entropy
import Credential.Rsa.Key
/-!
Fresh key pairs from random draws: two primes whose product has exactly the length asked for.
-/

namespace Credential.Rsa

def smallPrimes : List Nat := [2, 3, 5, 7, 11, 13, 17, 19, 23, 29, 31, 37, 41, 43, 47]

def splitTwos (n : Nat) : Nat × Nat :=
  if _h : n ≠ 0 ∧ n % 2 = 0 then
    let (twos, odd) := splitTwos (n / 2)
    (twos + 1, odd)
  else (0, n)
termination_by n
decreasing_by omega

def reachesMinusOne (n : Nat) : (count x : Nat) → Bool
  | 0, _ => false
  | count + 1, x => x = n - 1 || reachesMinusOne n count (x * x % n)

def passes (n base : Nat) : Bool :=
  let (twos, odd) := splitTwos (n - 1)
  let x := powMod n base odd
  x = 1 || reachesMinusOne n twos x

/-- Whether `n` is prime, up to a vanishing chance of error for numbers drawn at random. -/
def isLikelyPrime (n : Nat) : Bool :=
  if n < 2 then false
  else if n ∈ smallPrimes then true
  else smallPrimes.all (n % · ≠ 0) && smallPrimes.all (passes n)

/-- An odd number of exactly `bits` bits whose second bit is set too, so that two of them make a
product of full length. -/
def candidate (e : Entropy) (bits : Nat) : Nat :=
  1 <<< (bits - 1) + 1 <<< (bits - 2) + e.natural (bits - 2) / 2 * 2 + 1

/-- Draws so rarely run out that the bound is never met in practice. -/
def maxAttempts : Nat := 100000

def findPrime? (e : Entropy) (bits : Nat) : (attempts place : Nat) → Option Nat
  | 0, _ => none
  | attempts + 1, place =>
    let n := candidate (e.child place) bits
    if isLikelyPrime n then some n else findPrime? e bits attempts (place + 1)

def publicExponent : Nat := 65537

def KeyPair.ofPrimes? (bits p q : Nat) : Option KeyPair :=
  if p = q ∨ bitLength (p * q) ≠ bits then none
  else
    match inverse? ((p - 1) * (q - 1)) publicExponent with
    | some d => KeyPair.ofNumbers? ⟨p * q, publicExponent, d, p, q⟩
    | none => none

def KeyPair.findFrom? (e : Entropy) (bits : Nat) : (attempts place : Nat) → Option KeyPair
  | 0, _ => none
  | attempts + 1, place =>
    let source := e.child place
    let p := findPrime? (source.child 0) (bits / 2) maxAttempts 0
    let q := findPrime? (source.child 1) (bits - bits / 2) maxAttempts 0
    match p, q with
    | some p, some q =>
      match KeyPair.ofPrimes? bits p q with
      | some pair => some pair
      | none => findFrom? e bits attempts (place + 1)
    | _, _ => none

/-- A fresh pair with a modulus of `bits` bits; there is none so short that the modulus does not
exceed the public exponent. -/
def KeyPair.generate? (e : Entropy) (bits : Nat) : Option KeyPair :=
  if bits < bitLength publicExponent then none else findFrom? e bits maxAttempts 0

end Credential.Rsa
