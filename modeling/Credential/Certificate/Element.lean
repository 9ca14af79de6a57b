import Credential.Bytes
/-!
Elements of a certificate as other tools may write them: tags of any class, lengths in any long
form. Only the number of a tag is looked at where a type is asked for.
-/

namespace Credential.Certificate

structure Header where
  first : UInt8
  number : Nat
  length : Option Nat
deriving DecidableEq, Repr

structure Element where
  header : Header
  content : Bytes
deriving DecidableEq, Repr

namespace Element

def isPrimitive (e : Element) : Bool := e.header.first &&& 0x20 == 0

def isContext (e : Element) : Bool := e.header.first &&& 0xC0 == 0x80

end Element

def readLongNumber : (room value : Nat) → Bytes → Option (Nat × Bytes)
  | 0, _, _ => none
  | _, _, [] => none
  | room + 1, value, b :: rest =>
    let value := (value * 128 + b.toNat % 128) % 1 <<< 32
    if b < 0x80 then some (value, rest) else readLongNumber room value rest

def readNumber : Bytes → Option (UInt8 × Nat × Bytes)
  | [] => none
  | b :: rest =>
    if b &&& 0x1F = 0x1F then
      (readLongNumber 5 0 rest).map fun (n, rest) => (b, n, rest)
    else some (b, (b &&& 0x1F).toNat, rest)

def readLength : Bytes → Option (Option Nat × Bytes)
  | [] => none
  | b :: rest =>
    if b < 0x80 then some (some b.toNat, rest)
    else if b = 0x80 then some (none, rest)
    else
      let count := b.toNat - 0x80
      let n := Bytes.toNat (rest.take count)
      if b = 0xFF ∨ rest.length < count ∨ 1 <<< 64 ≤ n then none else some (some n, rest.drop count)

def readHeader (b : Bytes) : Option (Header × Bytes) :=
  match readNumber b with
  | some (first, number, rest) =>
    (readLength rest).map fun (length, rest) => (⟨first, number, length⟩, rest)
  | none => none

theorem readLongNumber_length {room value n : Nat} {b rest : Bytes}
    (h : readLongNumber room value b = some (n, rest)) : rest.length < b.length := by
  induction room generalizing value b with
  | zero => simp [readLongNumber] at h
  | succ room ih =>
    cases b with
    | nil => simp [readLongNumber] at h
    | cons x xs =>
      simp only [readLongNumber] at h
      split at h
      · simp only [Option.some.injEq, Prod.mk.injEq] at h
        simp [← h.2]
      · have := ih h
        simp only [List.length_cons]
        omega

theorem readHeader_length {b rest : Bytes} {header : Header}
    (h : readHeader b = some (header, rest)) : rest.length < b.length := by
  have hl {c r : Bytes} {l : Option Nat} (h : readLength c = some (l, r)) :
      r.length < c.length := by
    unfold readLength at h
    split at h
    · simp at h
    · split at h
      · simp only [Option.some.injEq, Prod.mk.injEq] at h
        simp [← h.2]
      · split at h
        · simp only [Option.some.injEq, Prod.mk.injEq] at h
          simp [← h.2]
        · simp only [] at h
          split at h
          · simp at h
          · simp only [Option.some.injEq, Prod.mk.injEq] at h
            simp only [← h.2, List.length_drop, List.length_cons]
            omega
  have hn {c r : Bytes} {f : UInt8} {n : Nat} (h : readNumber c = some (f, n, r)) :
      r.length < c.length := by
    unfold readNumber at h
    split at h
    · simp at h
    · split at h
      · obtain ⟨⟨m, s⟩, hm, he⟩ := Option.map_eq_some_iff.1 h
        have := readLongNumber_length hm
        simp only [Prod.mk.injEq] at he
        simp only [← he.2.2, List.length_cons]
        omega
      · simp only [Option.some.injEq, Prod.mk.injEq] at h
        simp [← h.2.2]
  unfold readHeader at h
  split at h
  · rename_i hnum
    obtain ⟨⟨l, s⟩, hm, he⟩ := Option.map_eq_some_iff.1 h
    simp only [Prod.mk.injEq] at he
    have := hl hm
    have := hn hnum
    rw [← he.2]
    omega
  · simp at h

def readElement (b : Bytes) : Option (Element × Bytes) :=
  match readHeader b with
  | some (header, rest) =>
    match header.length with
    | some n => if n ≤ rest.length then some (⟨header, rest.take n⟩, rest.drop n) else none
    | none => none
  | none => none

def maxDepth : Nat := 50

def skipOpened (opened : Nat) (b : Bytes) : Option Bytes :=
  if opened = 0 then some b
  else
    match h : readHeader b with
    | none => none
    | some (header, rest) =>
      have := readHeader_length h
      match header.length with
      | some n =>
        if n = 0 ∧ header.number = 0 then skipOpened (opened - 1) rest
        else if n ≤ rest.length then skipOpened opened (rest.drop n)
        else none
      | none =>
        if header.first &&& 0x20 ≠ 0 ∧ opened < maxDepth then skipOpened (opened + 1) rest
        else none
termination_by b.length
decreasing_by
  · omega
  · simp only [List.length_drop]
    omega
  · omega

/-- Reads an element of known length, or one that runs to an end mark, which is not part of its
content. -/
def readOpenElement (b : Bytes) : Option (Element × Bytes) :=
  match readHeader b with
  | some (header, rest) =>
    match header.length with
    | some n => if n ≤ rest.length then some (⟨header, rest.take n⟩, rest.drop n) else none
    | none =>
      if header.first &&& 0x20 ≠ 0 then
        (skipOpened 1 rest).map fun after =>
          (⟨header, rest.take (rest.length - after.length - 2)⟩, after)
      else none
  | none => none

end Credential.Certificate
