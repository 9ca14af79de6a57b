import Credential.Algorithm
import Credential.Cipher.Cbc
import Credential.Derivation.Scrypt
import Credential.Entropy
import Credential.Rsa.Encoding

namespace Credential

open Der (Value)

structure Salt where
  bytes : Bytes
  length_bytes : bytes.length = 16

structure Seal where
  salt : Salt
  iv : Aes.Block

def Salt.draw (e : Entropy) : Salt :=
  ⟨Bytes.ofNatWidth 16 (e.natural 128), Bytes.length_ofNatWidth ..⟩

def Seal.draw (e : Entropy) : Seal :=
  ⟨.draw (e.child 0), .ofNat ((e.child 1).natural 128)⟩

namespace Encryption

inductive Prf where
  | sha1
  | sha224
  | sha256
  | sha384
  | sha512
deriving DecidableEq, Repr

namespace Prf

def all : List Prf := [sha1, sha224, sha256, sha384, sha512]

def lastArc : Prf → Nat
  | sha1 => 7
  | sha224 => 8
  | sha256 => 9
  | sha384 => 10
  | sha512 => 11

def oid (f : Prf) : Oid := .ofArcs [1, 2, 840, 113549, 2, f.lastArc]

/-- The hash to derive keys with; SHA-1 is only recognized. -/
def hash? : Prf → Option Hash
  | sha1 => none
  | sha224 => some Sha256.sha224
  | sha256 => some Sha256.sha256
  | sha384 => some Sha512.sha384
  | sha512 => some Sha512.sha512

def identifier (f : Prf) : AlgorithmIdentifier := ⟨f.oid, some .null⟩

def ofIdentifier? (a : AlgorithmIdentifier) : Option Prf :=
  all.find? fun f => f.identifier = a

end Prf

inductive Derivation where
  | iterated (salt : Bytes) (count : Nat) (keyLength : Option Nat) (prf : Prf)
  | memoryHard (salt : Bytes) (parameters : Scrypt.Parameters) (keyLength : Option Nat)
deriving DecidableEq, Repr

structure BlockCipher where
  size : Cbc.KeySize
  iv : Aes.Block
deriving DecidableEq, Repr

inductive Scheme where
  | modern (derivation : Derivation) (cipher : BlockCipher)
  /-- One of the early schemes, which are recognized but not carried out. -/
  | early
deriving DecidableEq, Repr

inductive Fault where
  | unsupported
  | undecryptable
deriving DecidableEq, Repr

namespace Derivation

def iteratedOid : Oid := .ofArcs [1, 2, 840, 113549, 1, 5, 12]
def memoryHardOid : Oid := .ofArcs [1, 3, 6, 1, 4, 1, 11591, 4, 11]

def identifier : Derivation → AlgorithmIdentifier
  | iterated salt count keyLength prf =>
    ⟨iteratedOid, some (.sequence ([.octets salt, .natural count] ++
      keyLength.toList.map .natural ++
      (if prf = .sha1 then [] else [prf.identifier.value])))⟩
  | memoryHard salt p keyLength =>
    ⟨memoryHardOid, some (.sequence ([.octets salt, .natural p.cost, .natural p.blockSize,
      .natural p.lanes] ++ keyLength.toList.map .natural))⟩

def takeNatural? (limit : Nat) : List Value → Option (Option Nat × List Value)
  | [] => some (none, [])
  | v :: rest =>
    if v.tag = Der.Tag.integer then (v.naturalBelow? limit).map fun n => (some n, rest)
    else some (none, v :: rest)

def takePrf? : List Value → Option Prf
  | [] => some .sha1
  | [v] => (AlgorithmIdentifier.ofValue? v).bind Prf.ofIdentifier?
  | _ => none

def ofIterated? (fields : List Value) : Option Derivation :=
  match fields with
  | salt :: count :: rest =>
    match salt.octets?, count.naturalBelow? (1 <<< 32), takeNatural? (1 <<< 16) rest with
    | some s, some n, some (keyLength, rest) => (takePrf? rest).map (iterated s n keyLength ·)
    | _, _, _ => none
  | _ => none

def ofMemoryHard? (fields : List Value) : Option Derivation :=
  match fields with
  | salt :: cost :: blockSize :: lanes :: rest =>
    match salt.octets?, cost.naturalBelow? (1 <<< 64), blockSize.naturalBelow? (1 <<< 16),
        lanes.naturalBelow? (1 <<< 16), takeNatural? (1 <<< 16) rest with
    | some s, some n, some r, some p, some (keyLength, []) =>
      some (memoryHard s ⟨n, r, p⟩ keyLength)
    | _, _, _, _, _ => none
  | _ => none

def ofIdentifier? (a : AlgorithmIdentifier) : Option Derivation :=
  match a.parameters.bind Value.sequence? with
  | some fields =>
    if a.oid = iteratedOid then ofIterated? fields
    else if a.oid = memoryHardOid then ofMemoryHard? fields
    else none
  | none => none

def keyLength? : Derivation → Option Nat
  | iterated _ _ keyLength _ => keyLength
  | memoryHard _ _ keyLength => keyLength

def key (d : Derivation) (password : Bytes) (length : Nat) : Except Fault Bytes :=
  if d.keyLength?.getD length ≠ length then .error .unsupported
  else
    match d with
    | iterated salt count _ prf =>
      match prf.hash? with
      | some H => .ok (Pbkdf2.ofPassword H password salt count length)
      | none => .error .unsupported
    | memoryHard salt p _ =>
      if p.Valid then .ok (Scrypt.derive p password salt length) else .error .unsupported

end Derivation

namespace BlockCipher

def lastArc : Cbc.KeySize → Nat
  | .aes128 => 2
  | .aes192 => 22
  | .aes256 => 42

def oid (size : Cbc.KeySize) : Oid := .ofArcs [2, 16, 840, 1, 101, 3, 4, 1, lastArc size]

def identifier (c : BlockCipher) : AlgorithmIdentifier := ⟨oid c.size, some (.octets c.iv.bytes)⟩

def ofIdentifier? (a : AlgorithmIdentifier) : Option BlockCipher :=
  match [Cbc.KeySize.aes128, .aes192, .aes256].find? fun size => oid size = a.oid,
      a.parameters.bind Value.octets? with
  | some size, some b =>
    match b.length, Aes.blocks b with
    | 16, [iv] => some ⟨size, iv⟩
    | _, _ => none
  | _, _ => none

end BlockCipher

namespace Scheme

def modernOid : Oid := .ofArcs [1, 2, 840, 113549, 1, 5, 13]

def earlyOids : List Oid := [1, 3, 4, 6, 10, 11].map fun n => .ofArcs [1, 2, 840, 113549, 1, 5, n]

def modernOfFields? (fields : List Value) : Option Scheme :=
  match fields.mapM AlgorithmIdentifier.ofValue? with
  | some [d, c] =>
    match Derivation.ofIdentifier? d, BlockCipher.ofIdentifier? c with
    | some d, some c => some (modern d c)
    | _, _ => none
  | _ => none

def earlyOfFields? (fields : List Value) : Option Scheme :=
  match fields with
  | [salt, count] =>
    match salt.octets?, count.naturalBelow? (1 <<< 16) with
    | some s, some _ => if s.length = 8 then some early else none
    | _, _ => none
  | _ => none

def ofIdentifier? (a : AlgorithmIdentifier) : Option Scheme :=
  match a.parameters.bind Value.sequence? with
  | some fields =>
    if a.oid = modernOid then modernOfFields? fields
    else if a.oid ∈ earlyOids then earlyOfFields? fields
    else none
  | none => none

def decrypt (s : Scheme) (password cipher : Bytes) : Except Fault Bytes :=
  match s with
  | early => .error .unsupported
  | modern d c => do
    let key ← d.key password c.size.length
    match Cbc.decrypt? key c.iv cipher with
    | some plain => .ok plain
    | none => .error .undecryptable

end Scheme

structure Method where
  derivation : Derivation
  key : Bytes
  iv : Aes.Block

namespace Method

def iterations : Nat := 10000

def iterated (password : Bytes) (s : Seal) : Method :=
  ⟨.iterated s.salt.bytes iterations none .sha256,
    Pbkdf2.ofPassword Sha256.sha256 password s.salt.bytes iterations 32, s.iv⟩

def slow : Scrypt.Parameters := ⟨1 <<< 17, 8, 1⟩

def memoryHard (password : Bytes) (s : Seal) : Method :=
  ⟨.memoryHard s.salt.bytes slow none, Scrypt.derive slow password s.salt.bytes 32, s.iv⟩

def identifier (m : Method) : AlgorithmIdentifier :=
  ⟨Scheme.modernOid, some (.sequence [m.derivation.identifier.value,
    (BlockCipher.identifier ⟨.aes256, m.iv⟩).value])⟩

def encrypt (m : Method) (plain : Bytes) : Bytes := Cbc.encrypt m.key m.iv plain

end Method

end Encryption

structure EncryptedKeyInfo where
  scheme : Encryption.Scheme
  cipher : Bytes
deriving DecidableEq, Repr

namespace EncryptedKeyInfo

open Encryption

def encrypt (m : Method) (info : PrivateKeyInfo) : Value :=
  .sequence [m.identifier.value, .octets (m.encrypt info.toDer)]

def ofValue? (v : Value) : Option EncryptedKeyInfo :=
  match v.sequence? with
  | some [algorithm, cipher] =>
    match (AlgorithmIdentifier.ofValue? algorithm).bind Scheme.ofIdentifier?, cipher.octets? with
    | some s, some c => some ⟨s, c⟩
    | _, _ => none
  | _ => none

def decrypt (k : EncryptedKeyInfo) (password : Bytes) : Except KeyFault Bytes :=
  match k.scheme.decrypt password k.cipher with
  | .ok plain => if Value.isSequence plain then .ok plain else .error .malformed
  | .error .unsupported => .error .unsupportedEncryption
  | .error .undecryptable => .error .decryption

end EncryptedKeyInfo

end Credential
