import Credential.Cipher.Cbc
/-!
Decryption undoes encryption: on single bytes and columns, on blocks under any round keys, and on
chained blocks with their padding.
-/

namespace Credential

theorem forall_byte {p : UInt8 → Prop} (h : ∀ n : Fin 256, p (UInt8.ofNat n)) (x : UInt8) : p x := by
  have hx := h ⟨x.toNat, x.toNat_lt⟩
  rwa [UInt8.ofNat_toNat] at hx

namespace Aes

theorem substitute_eq (x : UInt8) : substitute x = substitution.toList.getD x.toNat 0 := by
  simp [substitute]

theorem unsubstitute_eq (x : UInt8) :
    unsubstitute x = inverseSubstitution.toList.getD x.toNat 0 := by
  simp [unsubstitute]

-- On lists the kernel looks the bytes up without building the arrays again for each of them.
theorem unsubstitute_substitute (x : UInt8) : unsubstitute (substitute x) = x := by
  rw [substitute_eq, unsubstitute_eq]
  exact forall_byte (p := fun x => inverseSubstitution.toList.getD
    (substitution.toList.getD x.toNat 0).toNat 0 = x) (by decide +kernel) x

theorem xor_cancel (x y : UInt8) : x ^^^ y ^^^ y = x := by
  rw [UInt8.xor_assoc, UInt8.xor_self, UInt8.xor_zero]

theorem Column.xor_xor (x y : Column) : (x.xor y).xor y = x := by
  simp only [Column.xor, xor_cancel]

theorem Block.xor_xor (x y : Block) : (x.xor y).xor y = x := by
  simp only [Block.xor, Column.xor_xor]

theorem Block.unmap_map (x : Block) : (x.map substitute).map unsubstitute = x := by
  simp only [Block.map, Column.map, unsubstitute_substitute]

theorem lt_half_iff (x : UInt8) : x < 0x80 ↔ x.toBitVec.msb = false := by
  rw [BitVec.msb_eq_decide, UInt8.lt_iff_toNat_lt, decide_eq_false_iff_not, UInt8.toNat_toBitVec]
  simp

def carry (x : UInt8) : UInt8 := if x.toBitVec.msb then 0x1B else 0

theorem carry_xor (x y : UInt8) : carry (x ^^^ y) = carry x ^^^ carry y := by
  simp only [carry, UInt8.toBitVec_xor, BitVec.msb_xor]
  cases x.toBitVec.msb <;> cases y.toBitVec.msb <;> rfl

theorem double_eq (x : UInt8) : double x = (x <<< 1) ^^^ carry x := by
  unfold double carry
  by_cases h : x < 0x80
  · rw [if_pos h, (lt_half_iff x).1 h]
    simp
  · have hm : x.toBitVec.msb = true := by
      rw [lt_half_iff] at h
      simpa using h
    rw [if_neg h, hm]
    simp

theorem double_xor (x y : UInt8) : double (x ^^^ y) = double x ^^^ double y := by
  simp only [double_eq, UInt8.shiftLeft_xor, carry_xor]
  ac_rfl

theorem triple_xor (x y : UInt8) : triple (x ^^^ y) = triple x ^^^ triple y := by
  simp only [triple, double_xor]
  ac_rfl

theorem times9_xor (x y : UInt8) : times9 (x ^^^ y) = times9 x ^^^ times9 y := by
  simp only [times9, double_xor]
  ac_rfl

theorem times11_xor (x y : UInt8) : times11 (x ^^^ y) = times11 x ^^^ times11 y := by
  simp only [times11, double_xor]
  ac_rfl

theorem times13_xor (x y : UInt8) : times13 (x ^^^ y) = times13 x ^^^ times13 y := by
  simp only [times13, double_xor, triple_xor]
  ac_rfl

theorem times14_xor (x y : UInt8) : times14 (x ^^^ y) = times14 x ^^^ times14 y := by
  simp only [times14, double_xor, triple_xor]
  ac_rfl

theorem product_diagonal (x : UInt8) :
    times14 (double x) ^^^ times11 x ^^^ times13 x ^^^ times9 (triple x) = x :=
  forall_byte (p := fun x =>
    times14 (double x) ^^^ times11 x ^^^ times13 x ^^^ times9 (triple x) = x) (by decide +kernel) x

theorem product_above (x : UInt8) :
    times14 (triple x) ^^^ times11 (double x) ^^^ times13 x ^^^ times9 x = 0 :=
  forall_byte (p := fun x =>
    times14 (triple x) ^^^ times11 (double x) ^^^ times13 x ^^^ times9 x = 0) (by decide +kernel) x

theorem product_across (x : UInt8) :
    times14 x ^^^ times11 (triple x) ^^^ times13 (double x) ^^^ times9 x = 0 :=
  forall_byte (p := fun x =>
    times14 x ^^^ times11 (triple x) ^^^ times13 (double x) ^^^ times9 x = 0) (by decide +kernel) x

theorem product_below (x : UInt8) :
    times14 x ^^^ times11 x ^^^ times13 (triple x) ^^^ times9 (double x) = 0 :=
  forall_byte (p := fun x =>
    times14 x ^^^ times11 x ^^^ times13 (triple x) ^^^ times9 (double x) = 0) (by decide +kernel) x

theorem unmix_entry (a b c d : UInt8) :
    times14 (double a ^^^ triple b ^^^ c ^^^ d) ^^^ times11 (a ^^^ double b ^^^ triple c ^^^ d) ^^^
      times13 (a ^^^ b ^^^ double c ^^^ triple d) ^^^
      times9 (triple a ^^^ b ^^^ c ^^^ double d) = a := by
  simp only [times9_xor, times11_xor, times13_xor, times14_xor]
  calc _ = (times14 (double a) ^^^ times11 a ^^^ times13 a ^^^ times9 (triple a)) ^^^
      (times14 (triple b) ^^^ times11 (double b) ^^^ times13 b ^^^ times9 b) ^^^
      (times14 c ^^^ times11 (triple c) ^^^ times13 (double c) ^^^ times9 c) ^^^
      (times14 d ^^^ times11 d ^^^ times13 (triple d) ^^^ times9 (double d)) := by ac_rfl
    _ = a := by
      rw [product_diagonal, product_above, product_across, product_below]
      simp

theorem Column.unmix_mix (x : Column) : x.mix.unmix = x := by
  obtain ⟨a, b, c, d⟩ := x
  have ha := unmix_entry a b c d
  have hb := unmix_entry b c d a
  have hc := unmix_entry c d a b
  have hd := unmix_entry d a b c
  simp only [Column.mix, Column.unmix, Column.mk.injEq]
  refine ⟨ha, Eq.trans ?_ hb, Eq.trans ?_ hc, Eq.trans ?_ hd⟩
  all_goals
    simp only [times9_xor, times11_xor, times13_xor, times14_xor]
    ac_rfl

theorem Block.unmix_mix (x : Block) : (x.onColumns Column.mix).onColumns Column.unmix = x := by
  simp only [Block.onColumns, Column.unmix_mix]

theorem encryptRounds_singleton (k x : Block) :
    encryptRounds [k] x = (x.map substitute).shiftRows.xor k := rfl

theorem decryptRounds_singleton (k x : Block) :
    decryptRounds [k] x = (x.xor k).unshiftRows.map unsubstitute := rfl

theorem encryptRounds_cons_cons (k l : Block) (ks : List Block) (x : Block) :
    encryptRounds (k :: l :: ks) x =
      encryptRounds (l :: ks) (((x.map substitute).shiftRows.onColumns Column.mix).xor k) := rfl

theorem decryptRounds_cons_cons (k l : Block) (ks : List Block) (x : Block) :
    decryptRounds (k :: l :: ks) x =
      (((decryptRounds (l :: ks) x).xor k).onColumns Column.unmix).unshiftRows.map unsubstitute :=
  rfl

theorem decryptRounds_encryptRounds (ks : List Block) (x : Block) :
    decryptRounds ks (encryptRounds ks x) = x := by
  induction ks generalizing x with
  | nil => rfl
  | cons k ks ih =>
    cases ks with
    | nil =>
      rw [encryptRounds_singleton, decryptRounds_singleton, Block.xor_xor,
        Block.unshiftRows_shiftRows, Block.unmap_map]
    | cons l ks =>
      rw [encryptRounds_cons_cons, decryptRounds_cons_cons, ih, Block.xor_xor, Block.unmix_mix,
        Block.unshiftRows_shiftRows, Block.unmap_map]

theorem decryptBlock_encryptBlock (ks : List Block) (x : Block) :
    decryptBlock ks (encryptBlock ks x) = x := by
  cases ks with
  | nil => rfl
  | cons k ks => rw [encryptBlock, decryptBlock, decryptRounds_encryptRounds, Block.xor_xor]

end Aes

namespace Cbc

open Aes (Block)

theorem unchain_chain (keys : List Block) (iv : Block) (xs : List Block) :
    unchain keys iv (chain keys iv xs) = xs := by
  induction xs generalizing iv with
  | nil => rfl
  | cons x xs ih => rw [chain, unchain, ih, Aes.decryptBlock_encryptBlock, Block.xor_xor]

theorem padLength_pos (n : Nat) : 1 ≤ padLength n := by
  unfold padLength
  omega

theorem padLength_le (n : Nat) : padLength n ≤ 16 := by
  unfold padLength
  omega

theorem unpad?_pad (b : Bytes) : unpad? (pad b) = some b := by
  have hpos := padLength_pos b.length
  have hle := padLength_le b.length
  have hn : (UInt8.ofNat (padLength b.length)).toNat = padLength b.length := by
    rw [UInt8.toNat_ofNat']
    omega
  have hlast : (pad b).getLast? = some (UInt8.ofNat (padLength b.length)) := by
    obtain ⟨m, hm⟩ : ∃ m, padLength b.length = m + 1 := ⟨padLength b.length - 1, by omega⟩
    rw [pad, hm, List.replicate_succ', ← List.append_assoc, List.getLast?_concat]
  have hlen : (pad b).length = b.length + padLength b.length := by simp [pad]
  have hcut : (pad b).length - padLength b.length = b.length := by omega
  unfold unpad?
  rw [hlast]
  simp only [hn, hcut]
  rw [if_pos]
  · rw [pad, List.take_left]
  · refine ⟨hpos, hle, by omega, ?_⟩
    rw [pad, List.drop_left]

theorem bytes_blocks (n : Nat) (b : Bytes) (h : b.length = 16 * n) : Aes.bytes (Aes.blocks b) = b := by
  induction n generalizing b with
  | zero =>
    have hb : b = [] := List.length_eq_zero_iff.1 (by omega)
    subst hb
    rfl
  | succ n ih =>
    match b, h with
    | a0 :: a1 :: a2 :: a3 :: a4 :: a5 :: a6 :: a7 :: a8 :: a9 :: a10 :: a11 :: a12 :: a13 :: a14 ::
        a15 :: rest, h =>
      have hr : rest.length = 16 * n := by
        simp only [List.length_cons] at h
        omega
      have := ih rest hr
      simp only [Aes.blocks, Aes.columns, Aes.blocksOfColumns, Aes.bytes, List.flatMap_cons,
        Aes.Block.bytes, Aes.Column.bytes, List.cons_append, List.nil_append] at this ⊢
      rw [this]

theorem bytes_blocks_pad (b : Bytes) : Aes.bytes (Aes.blocks (pad b)) = pad b := by
  have h := length_pad b
  exact bytes_blocks ((pad b).length / 16) _ (by omega)

theorem length_encrypt (key : Bytes) (iv : Block) (plain : Bytes) :
    (encrypt key iv plain).length = plain.length + padLength plain.length := by
  have h := congrArg List.length (bytes_blocks_pad plain)
  rw [Aes.length_bytes] at h
  rw [encrypt, Aes.length_bytes, length_chain, h]
  simp [pad]

theorem decrypt?_encrypt (key : Bytes) (iv : Block) (plain : Bytes) :
    decrypt? key iv (encrypt key iv plain) = some plain := by
  have hl : (encrypt key iv plain).length % 16 = 0 := by
    rw [encrypt, Aes.length_bytes]
    omega
  rw [decrypt?, if_pos hl, encrypt, Aes.blocks_bytes, unchain_chain, bytes_blocks_pad, unpad?_pad]

end Cbc

end Credential
