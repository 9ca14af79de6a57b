import Credential.Bytes

namespace Credential

structure Hash where
  State : Type
  blockSize : Nat
  lengthSize : Nat
  outputSize : Nat
  start : State
  absorb : State → Bytes → State
  output : State → Bytes
  length_output : ∀ s, (output s).length = outputSize

namespace Hash

variable (H : Hash)

/-- A one bit, zero bits up to a block boundary, and the bit length of everything hashed, `before`
bytes of which have been absorbed already. -/
def pad (before : Nat) (m : Bytes) : Bytes :=
  let used := m.length + 1 + H.lengthSize
  m ++ 0x80 :: List.replicate ((H.blockSize - used % H.blockSize) % H.blockSize) 0 ++
    Bytes.ofNatWidth H.lengthSize ((before + m.length) * 8)

def finish (s : H.State) (before : Nat) (m : Bytes) : Bytes :=
  H.output (H.absorb s (H.pad before m))

def digest (m : Bytes) : Bytes :=
  H.finish H.start 0 m

@[simp] theorem length_finish (s : H.State) (before : Nat) (m : Bytes) :
    (H.finish s before m).length = H.outputSize :=
  H.length_output _

@[simp] theorem length_digest (m : Bytes) : (H.digest m).length = H.outputSize :=
  H.length_finish _ _ m

end Hash

end Credential
