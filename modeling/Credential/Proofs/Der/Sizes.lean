import Credential.Proofs.Der.RoundTrip

namespace Credential.Der.Value

theorem length_sequence_le {vs : List Value} {n : Nat} (h : (encodeAll vs).length ≤ n)
    (hn : n ≤ maxLength) : (sequence vs).encode.length ≤ n + 6 := length_encode_le h hn

theorem length_explicit_le {v : Value} {n : Nat} (number : UInt8) (h : v.encode.length ≤ n)
    (hn : n ≤ maxLength) : (explicit number v).encode.length ≤ n + 6 := length_encode_le h hn

theorem length_octets_le {b : Bytes} {n : Nat} (h : b.length ≤ n) (hn : n ≤ maxLength) :
    (octets b).encode.length ≤ n + 6 := length_encode_le h hn

theorem length_encodeAll (vs : List Value) :
    (encodeAll vs).length = (vs.map fun v => v.encode.length).sum := by
  induction vs with
  | nil => rfl
  | cons v vs ih => simp [ih]

theorem length_set_le {vs : List Value} {n : Nat} (h : (encodeAll vs).length ≤ n)
    (hn : n ≤ maxLength) : (set vs).encode.length ≤ n + 6 := by
  have hs : (encodeAll (sort vs)).length = (encodeAll vs).length := by
    rw [length_encodeAll, length_encodeAll]
    exact ((sort_perm vs).map _).sum_nat
  refine length_encode_le ?_ hn
  show (encodeAll (sort vs)).length ≤ n
  omega

theorem encodeAll_append (vs ws : List Value) :
    encodeAll (vs ++ ws) = encodeAll vs ++ encodeAll ws := List.flatMap_append

section Headers

variable {v : Value}

theorem length_encode (v : Value) :
    v.encode.length = v.content.length + (lengthBytes v.content.length).length + 1 := by
  simp only [encode, List.cons_append, List.length_cons, List.length_append]
  omega

theorem add_two_le_length_encode (v : Value) : v.content.length + 2 ≤ v.encode.length := by
  have hpos : 0 < (lengthBytes v.content.length).length := by
    unfold lengthBytes
    split
    · exact Nat.one_pos
    · exact Nat.succ_pos _
  rw [length_encode]
  omega

theorem add_six_le_length_encode (h : 256 ^ 3 ≤ v.content.length) :
    v.content.length + 6 ≤ v.encode.length := by
  have hdigits : 3 < (Bytes.ofNat v.content.length).length := by
    refine Nat.lt_of_not_le ?_
    intro hle
    have hlt := Bytes.toNat_lt (Bytes.ofNat v.content.length)
    rw [Bytes.toNat_ofNat] at hlt
    have hpow := Nat.pow_le_pow_right (by decide : 0 < 256) hle
    omega
  rw [length_encode, lengthBytes, if_neg (by omega), List.length_cons]
  omega

end Headers

section Limits

variable {n : Nat} (hlow : 256 ^ 3 + 6 ≤ n) (hn : n ≤ maxLength)

include hlow hn

theorem length_encode_le_iff (v : Value) :
    v.encode.length ≤ n ↔ v.content.length + 6 ≤ n := by
  constructor
  · intro h
    by_cases hlong : 256 ^ 3 ≤ v.content.length
    · exact Nat.le_trans (add_six_le_length_encode hlong) h
    · omega
  · intro h
    have hle := length_encode_le (v := v) (n := n - 6) (by omega) (by omega)
    omega

theorem length_sequence_le_iff (vs : List Value) :
    (sequence vs).encode.length ≤ n ↔ (encodeAll vs).length + 6 ≤ n :=
  length_encode_le_iff hlow hn (sequence vs)

theorem length_explicit_le_iff (number : UInt8) (v : Value) :
    (explicit number v).encode.length ≤ n ↔ v.encode.length + 6 ≤ n :=
  length_encode_le_iff hlow hn (explicit number v)

theorem length_octets_le_iff (b : Bytes) : (octets b).encode.length ≤ n ↔ b.length + 6 ≤ n :=
  length_encode_le_iff hlow hn (octets b)

end Limits

section Numbers

theorem length_naturalBytes_le {n k : Nat} (h : n < 256 ^ k) : (naturalBytes n).length ≤ k + 1 := by
  have hle := Bytes.length_ofNat_le k n h
  unfold naturalBytes
  split
  · exact Nat.le_add_left 1 k
  · rename_i hb
    rw [hb, List.length_cons] at hle
    split
    · exact Nat.le_succ_of_le hle
    · exact Nat.succ_le_succ hle

theorem lt_pow_length_naturalBytes (n : Nat) : n < 256 ^ (naturalBytes n).length := by
  have h := Bytes.toNat_lt (naturalBytes n)
  rwa [toNat_naturalBytes] at h

theorem length_naturalBytes_mul_le (m n : Nat) :
    (naturalBytes (m * n)).length ≤ (naturalBytes m).length + (naturalBytes n).length + 1 := by
  refine length_naturalBytes_le ?_
  rw [Nat.pow_add]
  exact Nat.mul_lt_mul'' (lt_pow_length_naturalBytes m) (lt_pow_length_naturalBytes n)

theorem length_naturals_le {ns : List Nat} {k : Nat} (h : ∀ n ∈ ns, n < 256 ^ k)
    (hk : k < maxLength) : (encodeAll (ns.map natural)).length ≤ ns.length * (k + 7) := by
  induction ns with
  | nil => exact Nat.zero_le _
  | cons n ns ih =>
    obtain ⟨hn, hns⟩ := List.forall_mem_cons.1 h
    have hfirst : (natural n).encode.length ≤ k + 1 + 6 :=
      length_encode_le (length_naturalBytes_le hn) hk
    have hrest := ih hns
    rw [List.map_cons, encodeAll_cons, List.length_append, List.length_cons, Nat.succ_mul]
    omega

end Numbers

end Credential.Der.Value
