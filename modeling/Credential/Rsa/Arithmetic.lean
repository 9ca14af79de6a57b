namespace Credential.Rsa

def powMod (m b e : Nat) : Nat :=
  if e = 0 then 1 % m
  else
    let h := powMod m (b * b % m) (e / 2)
    if e % 2 = 1 then b * h % m else h
termination_by e

def bezout (r0 r1 : Nat) (t0 t1 : Int) : Nat × Int :=
  if r1 = 0 then (r0, t0)
  else bezout r1 (r0 % r1) t1 (t0 - (r0 / r1 : Nat) * t1)
termination_by r1
decreasing_by exact Nat.mod_lt _ (by omega)

def inverse? (m a : Nat) : Option Nat :=
  let (g, t) := bezout m (a % m) 0 1
  if g = 1 then some (t % m).toNat else none

end Credential.Rsa
