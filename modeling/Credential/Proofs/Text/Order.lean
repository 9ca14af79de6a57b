import Mathlib
import Credential.Bytes

namespace Credential.Bytes

variable {c d : Char} {cs ds : List Char} {m n : Nat} {r s : Bytes}

theorem ofText_eq (s : String) : ofText s = s.toList.flatMap String.utf8EncodeChar := by
  rw [ofText, String.toUTF8, ← String.utf8Encode_toList]
  simp [List.utf8Encode]

theorem ofNat_cons_lt (hm : m < 256) (hn : n < 256) :
    UInt8.ofNat m :: r < UInt8.ofNat n :: s ↔ m < n ∨ m = n ∧ r < s := by
  rw [List.cons_lt_cons_iff, UInt8.lt_iff_toNat_lt, ← UInt8.toNat_inj, UInt8.toNat_ofNat',
    UInt8.toNat_ofNat', Nat.mod_eq_of_lt hm, Nat.mod_eq_of_lt hn]

theorem utf8EncodeChar_append_lt (h : c < d) (r s : Bytes) :
    String.utf8EncodeChar c ++ r < String.utf8EncodeChar d ++ s := by
  have hlt : c.val.toNat < d.val.toNat := h
  have hlimit : d.val.toNat < 0x110000 := by
    have hvalid := d.valid
    simp only [UInt32.isValidChar, Nat.isValidChar] at hvalid
    omega
  have hdigits (v : Nat) : v / 4096 = v / 64 / 64 ∧ v / 262144 = v / 64 / 64 / 64 := by
    rw [Nat.div_div_eq_div_mul, Nat.div_div_eq_div_mul]
    exact ⟨rfl, rfl⟩
  unfold String.utf8EncodeChar
  dsimp only
  generalize c.val.toNat = m at *
  generalize d.val.toNat = n at *
  -- one case for each pair of lengths: the first byte grows with the length
  repeat' split
  all_goals
    simp (disch := omega) only [List.cons_append, List.nil_append, ofNat_cons_lt, hdigits]
    omega

theorem flatMap_utf8EncodeChar_lt (h : cs < ds) :
    cs.flatMap String.utf8EncodeChar < ds.flatMap String.utf8EncodeChar := by
  induction h with
  | nil =>
    rename_i d ds
    obtain ⟨x, xs, hx⟩ := List.exists_cons_of_ne_nil (String.utf8EncodeChar_ne_nil (c := d))
    rw [List.flatMap_nil, List.flatMap_cons, hx]
    exact .nil
  | rel hcd =>
    rw [List.flatMap_cons, List.flatMap_cons]
    exact utf8EncodeChar_append_lt hcd _ _
  | cons _ ih =>
    rw [List.flatMap_cons, List.flatMap_cons]
    exact List.append_left_lt ih

theorem ofText_lt_iff (t u : String) : ofText t < ofText u ↔ t < u := by
  have hlt {t u : String} (h : t < u) : ofText t < ofText u := by
    rw [ofText_eq, ofText_eq]
    exact flatMap_utf8EncodeChar_lt (String.lt_iff.1 h)
  refine ⟨?_, hlt⟩
  intro h
  rcases lt_trichotomy t u with htu | rfl | hut
  · exact htu
  · exact absurd h (List.lt_irrefl _)
  · exact absurd h (List.lt_asymm (hlt hut))

end Credential.Bytes
