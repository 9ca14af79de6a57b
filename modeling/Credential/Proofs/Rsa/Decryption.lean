import Mathlib
import Credential.Rsa.Key
import Credential.Proofs.Powers
/-!
Decryption prime by prime undoes the public exponent: the inverse that the Euclidean algorithm
finds, Fermat's theorem for each prime, and the two remainders put together.
-/

namespace Credential.Rsa

theorem bezout_spec {m : Nat} {b : Int} {r0 r1 : Nat} {t0 t1 : Int}
    (h0 : (r0 : Int) ≡ t0 * b [ZMOD m]) (h1 : (r1 : Int) ≡ t1 * b [ZMOD m]) :
    (bezout r0 r1 t0 t1).1 = Nat.gcd r0 r1 ∧
      ((bezout r0 r1 t0 t1).1 : Int) ≡ (bezout r0 r1 t0 t1).2 * b [ZMOD m] := by
  induction r1 using Nat.strongRecOn generalizing r0 t0 t1 with
  | ind r1 ih =>
    unfold bezout
    split
    · rename_i hz
      rw [hz, Nat.gcd_zero_right]
      exact ⟨rfl, h0⟩
    · rename_i hn
      have hstep : ((r0 % r1 : Nat) : Int) ≡ (t0 - (r0 / r1 : Nat) * t1) * b [ZMOD m] := by
        have hr : ((r0 % r1 : Nat) : Int) = r0 - (r0 / r1 : Nat) * r1 := by
          push_cast
          rw [Int.emod_def]
          ring
        rw [hr, sub_mul, mul_assoc]
        exact h0.sub (h1.mul_left _)
      obtain ⟨hg, ht⟩ := ih (r0 % r1) (Nat.mod_lt _ (Nat.pos_of_ne_zero hn)) h1 hstep
      refine ⟨?_, ht⟩
      rw [hg, ← Nat.gcd_comm (r0 % r1), ← Nat.gcd_rec, Nat.gcd_comm]

theorem bezout_inverse (m a : Nat) : (bezout m (a % m) 0 1).1 = Nat.gcd m a ∧
    ((bezout m (a % m) 0 1).1 : Int) ≡ (bezout m (a % m) 0 1).2 * a [ZMOD m] := by
  have hstart : (m : Int) ≡ 0 * a [ZMOD m] := by
    rw [zero_mul]
    exact Int.emod_self
  have hnext : ((a % m : Nat) : Int) ≡ 1 * a [ZMOD m] := by
    push_cast
    rw [one_mul]
    exact Int.mod_modEq _ _
  obtain ⟨hg, ht⟩ := bezout_spec hstart hnext
  refine ⟨?_, ht⟩
  rw [hg, ← Nat.gcd_comm (a % m), ← Nat.gcd_rec]

theorem inverse?_spec {m a x : Nat} (hm : 0 < m) (h : inverse? m a = some x) :
    x < m ∧ (x : Int) * a ≡ 1 [ZMOD m] := by
  obtain ⟨-, ht⟩ := bezout_inverse m a
  simp only [inverse?] at h
  split at h
  · rename_i hone
    obtain rfl := Option.some.inj h
    have hcast : (((bezout m (a % m) 0 1).2 % m).toNat : Int) = (bezout m (a % m) 0 1).2 % m :=
      Int.toNat_of_nonneg (Int.emod_nonneg _ (by omega))
    have hlt := Int.emod_lt_of_pos (bezout m (a % m) 0 1).2 (by omega : (0 : Int) < m)
    refine ⟨by omega, ?_⟩
    rw [hcast]
    rw [hone] at ht
    exact ((Int.mod_modEq _ _).mul_right _).trans ht.symm
  · cases h

theorem inverse?_of_coprime {m a : Nat} (hm : 0 < m) (h : Nat.Coprime m a) :
    ∃ x, inverse? m a = some x ∧ (x : Int) * a ≡ 1 [ZMOD m] := by
  have hone : (bezout m (a % m) 0 1).1 = 1 := (bezout_inverse m a).1.trans h
  obtain ⟨x, hx⟩ : ∃ x, inverse? m a = some x := by
    simp only [inverse?, if_pos hone]
    exact ⟨_, rfl⟩
  exact ⟨x, hx, (inverse?_spec hm hx).2⟩

theorem inverse?_eq_some_iff {m a x : Nat} (hm : 1 < m) :
    inverse? m a = some x ↔ x < m ∧ x * a % m = 1 := by
  have hsound {y : Nat} (h : inverse? m a = some y) : y < m ∧ y * a ≡ 1 [MOD m] := by
    obtain ⟨hlt, hone⟩ := inverse?_spec (Nat.lt_of_succ_lt hm) h
    exact ⟨hlt, (Int.natCast_modEq_iff).1 (by push_cast; exact hone)⟩
  constructor
  · intro h
    obtain ⟨hlt, hone⟩ := hsound h
    exact ⟨hlt, Eq.trans hone (Nat.mod_eq_of_lt hm)⟩
  · rintro ⟨hlt, hone⟩
    have hx : x * a ≡ 1 [MOD m] := Eq.trans hone (Nat.mod_eq_of_lt hm).symm
    have hcoprime : Nat.Coprime m a := by
      have hgcd := hx.gcd_eq
      rw [Nat.gcd_one_left] at hgcd
      exact (Nat.Coprime.coprime_mul_left hgcd).symm
    obtain ⟨y, hy, -⟩ := inverse?_of_coprime (Nat.lt_of_succ_lt hm) hcoprime
    obtain ⟨hylt, hyone⟩ := hsound hy
    have hxy : x ≡ y [MOD m] := by
      calc x = x * 1 := (Nat.mul_one x).symm
        _ ≡ x * (y * a) [MOD m] := (hyone.mul_left x).symm
        _ = y * (x * a) := Nat.mul_left_comm ..
        _ ≡ y * 1 [MOD m] := hx.mul_left y
        _ = y := Nat.mul_one y
    rw [hy, hxy.eq_of_lt_of_lt hlt hylt]

theorem pow_modEq_of_prime {p k : Nat} (hp : p.Prime) (hk : k % (p - 1) = 1) (b : Nat) :
    b ^ k ≡ b [MOD p] := by
  have hpos : k ≠ 0 := by
    rintro rfl
    rw [Nat.zero_mod] at hk
    cases hk
  by_cases hb : p ∣ b
  · have hz : b ≡ 0 [MOD p] := (Nat.modEq_zero_iff_dvd).2 hb
    have hzk := hz.pow k
    rw [zero_pow hpos] at hzk
    exact hzk.trans hz.symm
  · have hfermat : b ^ (p - 1) ≡ 1 [MOD p] := by
      rw [← Nat.totient_prime hp]
      exact Nat.ModEq.pow_totient ((Nat.Prime.coprime_iff_not_dvd hp).2 hb).symm
    have hsplit : (p - 1) * (k / (p - 1)) + 1 = k := by
      have hd := Nat.div_add_mod k (p - 1)
      rwa [hk] at hd
    calc b ^ k = (b ^ (p - 1)) ^ (k / (p - 1)) * b := by
          rw [← Nat.pow_mul, ← pow_succ, hsplit]
      _ ≡ 1 ^ (k / (p - 1)) * b [MOD p] := (hfermat.pow _).mul_right _
      _ = b := by rw [one_pow, one_mul]

theorem prime_of_root {h m b : Nat} (hh : h.Prime)
    (hroot : powMod (h * 2 ^ m + 1) b (h * 2 ^ m) = 1 ∧
      powMod (h * 2 ^ m + 1) b (h * 2 ^ m / 2) ≠ 1 ∧
        powMod (h * 2 ^ m + 1) b (h * 2 ^ m / h) ≠ 1) : (h * 2 ^ m + 1).Prime := by
  obtain ⟨hone, htwo, hfactor⟩ := hroot
  have hbig : 1 < h * 2 ^ m + 1 :=
    Nat.lt_add_of_pos_left (Nat.mul_pos hh.pos (Nat.pow_pos Nat.two_pos))
  have hcast (n : Nat) :
      (b : ZMod (h * 2 ^ m + 1)) ^ n = 1 ↔ powMod (h * 2 ^ m + 1) b n = 1 := by
    have hiff := ZMod.natCast_eq_natCast_iff (b ^ n) 1 (h * 2 ^ m + 1)
    rw [Nat.ModEq, Nat.mod_eq_of_lt hbig, Nat.cast_pow, Nat.cast_one] at hiff
    rw [powMod_eq, hiff]
  refine lucas_primality _ (b : ZMod (h * 2 ^ m + 1)) ((hcast _).2 hone) fun q hq hd => ?_
  rw [Nat.add_sub_cancel] at hd
  rw [Ne, Nat.add_sub_cancel, hcast]
  rcases (Nat.Prime.dvd_mul hq).1 hd with hd | hd
  · rwa [(Nat.prime_dvd_prime_iff_eq hq hh).1 hd]
  · rwa [(Nat.prime_dvd_prime_iff_eq hq Nat.prime_two).1 (hq.dvd_of_dvd_pow hd)]

namespace PrivateNumbers

variable {k : PrivateNumbers} {c : Nat}

structure PrimesDistinct (k : PrivateNumbers) : Prop where
  prime1 : k.prime1.Prime
  prime2 : k.prime2.Prime
  distinct : k.prime1 ≠ k.prime2

theorem share_pow {p d e : Nat} (hp : p.Prime) (he : e * d % (p - 1) = 1) (c : Nat) :
    powMod p c (d % (p - 1)) ^ e ≡ c [MOD p] := by
  have hexp : d % (p - 1) * e % (p - 1) = 1 := by rw [Nat.mod_mul_mod, Nat.mul_comm, he]
  rw [powMod_eq]
  calc (c ^ (d % (p - 1)) % p) ^ e ≡ (c ^ (d % (p - 1))) ^ e [MOD p] := (Nat.mod_modEq _ _).pow e
    _ = c ^ (d % (p - 1) * e) := (Nat.pow_mul ..).symm
    _ ≡ c [MOD p] := pow_modEq_of_prime hp hexp c

theorem decrypt_spec (hp : k.PrimesDistinct) (c : Nat) :
    k.decrypt c < k.prime1 * k.prime2 ∧
      k.decrypt c ≡ powMod k.prime1 c k.exponent1 [MOD k.prime1] ∧
      k.decrypt c ≡ powMod k.prime2 c k.exponent2 [MOD k.prime2] := by
  obtain ⟨x, hx, hinv⟩ := inverse?_of_coprime hp.prime1.pos
    ((Nat.coprime_primes hp.prime1 hp.prime2).2 hp.distinct)
  have hcoefficient : k.coefficient? = some x := hx
  have hp1 : (0 : Int) < k.prime1 := by exact_mod_cast hp.prime1.pos
  have hm2 : powMod k.prime2 c k.exponent2 < k.prime2 := by
    rw [powMod_eq]
    exact Nat.mod_lt _ hp.prime2.pos
  simp only [decrypt, hcoefficient]
  generalize powMod k.prime1 c k.exponent1 = m1 at *
  generalize powMod k.prime2 c k.exponent2 = m2 at *
  have hh : (((((m1 : Int) - m2) * x) % k.prime1).toNat : Int) = ((m1 : Int) - m2) * x % k.prime1 :=
    Int.toNat_of_nonneg (Int.emod_nonneg _ hp1.ne')
  have hlt : ((((m1 : Int) - m2) * x) % k.prime1).toNat < k.prime1 := by
    have hl := Int.emod_lt_of_pos (((m1 : Int) - m2) * x) hp1
    omega
  refine ⟨?_, ?_, ?_⟩
  · calc _ < ((((m1 : Int) - m2) * x) % k.prime1).toNat * k.prime2 + k.prime2 :=
          Nat.add_lt_add_left hm2 _
      _ = (((((m1 : Int) - m2) * x) % k.prime1).toNat + 1) * k.prime2 := (Nat.succ_mul ..).symm
      _ ≤ k.prime1 * k.prime2 := Nat.mul_le_mul_right _ hlt
  · rw [← Int.natCast_modEq_iff]
    push_cast
    rw [hh]
    calc ((m1 : Int) - m2) * x % k.prime1 * k.prime2 + m2
        ≡ ((m1 : Int) - m2) * x * k.prime2 + m2 [ZMOD k.prime1] :=
          ((Int.mod_modEq _ _).mul_right _).add_right _
      _ = ((m1 : Int) - m2) * (x * k.prime2) + m2 := by ring
      _ ≡ ((m1 : Int) - m2) * 1 + m2 [ZMOD k.prime1] := (hinv.mul_left _).add_right _
      _ = m1 := by ring
  · exact Nat.mul_add_mod' ..

theorem decrypt_pow (hv : k.Valid) (hp : k.PrimesDistinct) (hc : c < k.modulus) :
    k.decrypt c < k.modulus ∧ powMod k.modulus (k.decrypt c) k.publicExponent = c := by
  obtain ⟨-, hmodulus, he1, he2⟩ := hv
  obtain ⟨hlt, h1, h2⟩ := decrypt_spec hp c
  have hpow1 : k.decrypt c ^ k.publicExponent ≡ c [MOD k.prime1] :=
    (h1.pow _).trans (share_pow hp.prime1 he1 c)
  have hpow2 : k.decrypt c ^ k.publicExponent ≡ c [MOD k.prime2] :=
    (h2.pow _).trans (share_pow hp.prime2 he2 c)
  have hboth : k.decrypt c ^ k.publicExponent ≡ c [MOD k.prime1 * k.prime2] :=
    (Nat.modEq_and_modEq_iff_modEq_mul
      ((Nat.coprime_primes hp.prime1 hp.prime2).2 hp.distinct)).1 ⟨hpow1, hpow2⟩
  rw [hmodulus] at hlt hboth
  refine ⟨hlt, ?_⟩
  rw [powMod_eq]
  exact Eq.trans hboth (Nat.mod_eq_of_lt hc)

end PrivateNumbers

end Credential.Rsa
