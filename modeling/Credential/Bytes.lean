namespace Credential

abbrev Bytes := List UInt8

namespace Bytes

def toNat (b : Bytes) : Nat :=
  b.foldl (fun n x => n * 256 + x.toNat) 0

def ofNat (n : Nat) : Bytes :=
  if n = 0 then [] else ofNat (n / 256) ++ [UInt8.ofNat n]
termination_by n

def ofNatWidth : Nat → Nat → Bytes
  | 0, _ => []
  | width + 1, n => ofNatWidth width (n / 256) ++ [UInt8.ofNat n]

def xor (a b : Bytes) : Bytes :=
  List.zipWith (· ^^^ ·) a b

def ofText (s : String) : Bytes :=
  s.toUTF8.data.toList

def cycle (b : Bytes) (length : Nat) : Bytes :=
  ((List.replicate length b).flatten).take length

theorem toNat_append_singleton (b : Bytes) (x : UInt8) :
    toNat (b ++ [x]) = toNat b * 256 + x.toNat := by
  simp [toNat]

theorem toNat_ofNat (n : Nat) : toNat (ofNat n) = n := by
  induction n using Nat.strongRecOn with
  | ind n ih =>
    unfold ofNat
    split
    · simp_all [toNat]
    · rw [toNat_append_singleton, ih (n / 256) (by omega), UInt8.toNat_ofNat']
      omega

@[simp] theorem length_ofNatWidth (width n : Nat) : (ofNatWidth width n).length = width := by
  induction width generalizing n with
  | zero => rfl
  | succ width ih => simp [ofNatWidth, ih]

end Bytes

end Credential
