import Mathlib.Algebra.Ring.Nat
import Mathlib.Data.List.Induction
import Credential.Bytes
import Credential.Rsa.Arithmetic

namespace Credential

theorem Bytes.toNat_ofNatWidth (width n : Nat) : toNat (ofNatWidth width n) = n % 256 ^ width := by
  induction width generalizing n with
  | zero => simp [ofNatWidth, toNat, Nat.mod_one]
  | succ width ih =>
    have hs : n % 256 ^ (width + 1) = n % 256 + 256 * (n / 256 % 256 ^ width) := by
      rw [Nat.pow_succ, Nat.mul_comm, Nat.mod_mul]
    rw [ofNatWidth, toNat_append_singleton, ih, UInt8.toNat_ofNat', hs]
    omega

theorem Bytes.toNat_lt (b : Bytes) : toNat b < 256 ^ b.length := by
  induction b using List.reverseRecOn with
  | nil => exact Nat.one_pos
  | append_singleton b x ih =>
    have hx := x.toNat_lt
    rw [toNat_append_singleton, List.length_append, List.length_singleton, Nat.pow_succ]
    omega

theorem Bytes.ofNatWidth_toNat (b : Bytes) : ofNatWidth b.length (toNat b) = b := by
  induction b using List.reverseRecOn with
  | nil => rfl
  | append_singleton b x ih =>
    have hx := x.toNat_lt
    have hdiv : (toNat b * 256 + x.toNat) / 256 = toNat b := by omega
    have hlast : UInt8.ofNat (toNat b * 256 + x.toNat) = x := by
      rw [← UInt8.toNat_inj, UInt8.toNat_ofNat']
      omega
    rw [toNat_append_singleton, List.length_append, List.length_singleton, ofNatWidth, hdiv, ih,
      hlast]

theorem Bytes.ofNatWidth_inj {width m n : Nat} (hm : m < 256 ^ width) (hn : n < 256 ^ width)
    (h : ofNatWidth width m = ofNatWidth width n) : m = n := by
  have hnumbers := congrArg toNat h
  rwa [toNat_ofNatWidth, toNat_ofNatWidth, Nat.mod_eq_of_lt hm, Nat.mod_eq_of_lt hn] at hnumbers

theorem Rsa.powMod_eq (m b e : Nat) : powMod m b e = b ^ e % m := by
  induction e using Nat.strongRecOn generalizing b with
  | ind e ih =>
    unfold powMod
    split
    · simp_all
    · have he : b ^ e = b ^ (e % 2) * (b * b) ^ (e / 2) := by
        rw [← Nat.pow_two, ← Nat.pow_mul, ← Nat.pow_add, Nat.mod_add_div]
      simp only [ih (e / 2) (by omega), ← Nat.pow_mod]
      split
      · rename_i h1
        rw [he, h1, Nat.pow_one, Nat.mul_mod_mod]
      · rename_i h1
        have h0 : e % 2 = 0 := by omega
        rw [he, h0, Nat.pow_zero, Nat.one_mul]

end Credential
