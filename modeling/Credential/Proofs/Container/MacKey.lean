import Mathlib
import Credential.Container.Basic
/-!
The key of the integrity code is the one of RFC 7292, appendix B.2, whose general method derives any
number of bytes for any purpose. As many bytes as one hash has come out of its first round alone.
-/

namespace Credential

namespace Bytes

variable {b : Bytes} {m n length : Nat}

def copies (b : Bytes) (length : Nat) : Bytes :=
  ((List.replicate (length ⌈/⌉ b.length) b).flatten).take length

theorem take_flatten_replicate (hmn : m ≤ n) (h : length ≤ m * b.length) :
    ((List.replicate n b).flatten).take length = ((List.replicate m b).flatten).take length := by
  obtain ⟨k, rfl⟩ := Nat.exists_eq_add_of_le hmn
  have hlength : ((List.replicate m b).flatten).length = m * b.length := by
    rw [List.length_flatten, List.map_replicate, List.sum_replicate, smul_eq_mul]
  rw [List.replicate_add, List.flatten_append, List.take_append_of_le_length (by rwa [hlength])]

theorem cycle_eq_copies (h : b = [] → length = 0) : cycle b length = copies b length := by
  rcases Nat.eq_zero_or_pos b.length with hz | hpos
  · rw [h (List.length_eq_zero_iff.1 hz), cycle, copies, List.take_zero, List.take_zero]
  · have henough : length ≤ length ⌈/⌉ b.length * b.length := by
      rw [Nat.mul_comm]
      exact le_smul_ceilDiv hpos
    have hfew : length ⌈/⌉ b.length ≤ length := by
      rw [ceilDiv_le_iff_le_smul hpos]
      exact Nat.le_mul_of_pos_left length hpos
    exact take_flatten_replicate hfew henough

end Bytes

namespace Hash

variable (H : Hash)

def fill (b : Bytes) : Bytes := b.copies (H.blockSize * (b.length ⌈/⌉ H.blockSize))

def advance (b input : Bytes) : Bytes :=
  (input.toChunks H.blockSize).flatMap fun block =>
    Bytes.ofNatWidth H.blockSize ((Bytes.toNat block + Bytes.toNat b + 1) % 256 ^ H.blockSize)

def rounds (diversifier : Bytes) (iterations : Nat) : (count : Nat) → (input : Bytes) → List Bytes
  | 0, _ => []
  | count + 1, input =>
    let a := H.digest^[iterations] (diversifier ++ input)
    a :: rounds diversifier iterations count (H.advance (a.copies H.blockSize) input)

def deriveKey (purpose : UInt8) (size : Nat) (password salt : Bytes) (iterations : Nat) : Bytes :=
  ((H.rounds (List.replicate H.blockSize purpose) iterations (size ⌈/⌉ H.outputSize)
    (H.fill salt ++ H.fill password)).flatten).take size

variable {H} {purpose : UInt8} {size iterations : Nat} {password salt : Bytes}

theorem deriveKey_of_le (hpos : 0 < size) (hle : size ≤ H.outputSize) :
    H.deriveKey purpose size password salt iterations =
      (H.digest^[iterations] (List.replicate H.blockSize purpose ++
        (H.fill salt ++ H.fill password))).take size := by
  have hone : size ⌈/⌉ H.outputSize = 1 := by
    rw [Nat.ceilDiv_eq_add_pred_div]
    exact Nat.div_eq_of_lt_le (by omega) (by omega)
  rw [deriveKey, hone, rounds, rounds, List.flatten_singleton]

-- A published answer that takes a second round, from the password "smeg".
example : Sha1.sha1.deriveKey 1 24 [0, 0x73, 0, 0x6D, 0, 0x65, 0, 0x67, 0, 0]
    [0x0A, 0x58, 0xCF, 0x64, 0x53, 0x0D, 0x82, 0x3F] 1 =
      [0x8A, 0xAA, 0xE6, 0x29, 0x7B, 0x6C, 0xB0, 0x46, 0x42, 0xAB, 0x5B, 0x07,
        0x78, 0x51, 0x28, 0x4E, 0xB7, 0x12, 0x8F, 0x1A, 0x2A, 0x7F, 0xBC, 0xA3] := by
  decide +kernel

end Hash

namespace Text.Bmp

def zeroTerminated (s : String) : Bytes :=
  (s.toList ++ ['\x00']).flatMap fun c => Bytes.ofNatWidth 2 c.toNat

theorem encodeChars?_eq {cs : List Char} {b : Bytes} (h : encodeChars? cs = some b) :
    b = cs.flatMap fun c => Bytes.ofNatWidth 2 c.toNat := by
  induction cs generalizing b with
  | nil =>
    cases h
    rfl
  | cons c cs ih =>
    unfold encodeChars? at h
    split at h
    · obtain ⟨r, hr, rfl⟩ := Option.map_eq_some_iff.1 h
      rw [List.flatMap_cons, ← ih hr]
      rfl
    · cases h

theorem zeroTerminated_eq {s : String} {b : Bytes} (h : encode? s = some b) :
    zeroTerminated s = b ++ [0, 0] := by
  rw [zeroTerminated, List.flatMap_append, ← encodeChars?_eq h]
  rfl

end Text.Bmp

namespace Container.Mac

theorem fillBlocks_eq (b : Bytes) : fillBlocks b = Sha256.sha256.fill b := by
  have hlength : (b.length + blockSize - 1) / blockSize * blockSize =
      Sha256.sha256.blockSize * (b.length ⌈/⌉ Sha256.sha256.blockSize) := by
    rw [Nat.ceilDiv_eq_add_pred_div, Nat.mul_comm]
    rfl
  rw [fillBlocks, hlength, Hash.fill]
  refine Bytes.cycle_eq_copies ?_
  rintro rfl
  rfl

theorem rehash_eq_iterate (count : Nat) (b : Bytes) :
    rehash count b = Sha256.sha256.digest^[count] b := by
  induction count generalizing b with
  | zero => rfl
  | succ count ih => rw [rehash, ih, Function.iterate_succ_apply]

theorem key?_eq_deriveKey (password : String) (h : (Text.Bmp.encode? password).isSome = true)
    (salt : Bytes) (iterations : Nat) :
    (1 ≤ iterations → key? password salt iterations =
      some (Sha256.sha256.deriveKey 3 32 (Text.Bmp.zeroTerminated password) salt iterations)) ∧
    key? password salt 0 = key? password salt 1 := by
  obtain ⟨b, hb⟩ := Option.isSome_iff_exists.1 h
  refine ⟨?_, rfl⟩
  intro hone
  obtain ⟨count, rfl⟩ := Nat.exists_eq_add_of_le' hone
  have hwhole (m : Bytes) : (Sha256.sha256.digest^[count + 1] m).take 32 =
      Sha256.sha256.digest^[count + 1] m := by
    rw [Function.iterate_succ_apply']
    exact List.take_of_length_le (Nat.le_of_eq (Hash.length_digest _ _))
  calc key? password salt (count + 1)
      = some (rehash count (Sha256.sha256.digest (List.replicate blockSize purpose ++
          fillBlocks salt ++ fillBlocks (b ++ [0, 0])))) := by
        rw [key?, hb]
        rfl
    _ = some (Sha256.sha256.digest^[count + 1] (List.replicate Sha256.sha256.blockSize 3 ++
          (Sha256.sha256.fill salt ++
            Sha256.sha256.fill (Text.Bmp.zeroTerminated password)))) := by
        rw [rehash_eq_iterate, fillBlocks_eq, fillBlocks_eq, Text.Bmp.zeroTerminated_eq hb,
          List.append_assoc, Function.iterate_succ_apply]
        rfl
    _ = some (Sha256.sha256.deriveKey 3 32 (Text.Bmp.zeroTerminated password) salt
          (count + 1)) := by
        rw [Hash.deriveKey_of_le (by decide) (Nat.le_refl 32), hwhole]

theorem key?_eq_deriveKey_sample :
    key? "ge" [1, 2, 3] 2 =
      some (Sha256.sha256.deriveKey 3 32 [0, 0x67, 0, 0x65, 0, 0] [1, 2, 3] 2) ∧
    key? "ge" [1, 2, 3] 0 = key? "ge" [1, 2, 3] 1 := by
  obtain ⟨htwice, hzero⟩ := key?_eq_deriveKey "ge" (by decide) [1, 2, 3] 2
  exact ⟨htwice (by decide), hzero⟩

end Container.Mac

end Credential
