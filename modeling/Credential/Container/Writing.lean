import Credential.Container.Reading

namespace Credential.Container

open Der (Value)

structure KeyEntry where
  name : String
  privateKey : Bytes
  password : String
  chain : List Certificate
deriving DecidableEq

structure Draws where
  keys : Nat → Seal
  certificates : Seal
  mac : Salt

def Draws.draw (e : Entropy) : Draws where
  keys place := .draw ((e.child 0).child place)
  certificates := .draw (e.child 1)
  mac := .draw (e.child 2)

structure EntryBags where
  key : Value
  certificates : List Value
deriving DecidableEq, Repr

namespace KeyEntry

def bags (e : KeyEntry) (s : Seal) : Except Error EntryBags :=
  match e.chain with
  | [] => .error (.container (.emptyChain e.name))
  | leaf :: issuers =>
    match Labels.write? e.name (Sha1.sha1.digest leaf.der) with
    | none => .error .encoding
    | some labels =>
      match PrivateKeyInfo.ofDer? e.privateKey with
      | none => .error (.keyEncoding .malformed)
      | some info =>
        let method := Encryption.Method.iterated (Bytes.ofText e.password) s
        .ok {
          key := Bag.encoded keyBagOid (EncryptedKeyInfo.encrypt method info) (some labels)
          certificates :=
            Bag.encoded certificateBagOid (Bag.certificateValue leaf) (some labels) ::
              issuers.map fun c => Bag.encoded certificateBagOid (Bag.certificateValue c) none }

end KeyEntry

def entryBags (seals : Nat → Seal) : (place : Nat) → List KeyEntry → Except Error (List EntryBags)
  | _, [] => .ok []
  | place, e :: rest => do
    let first ← e.bags (seals place)
    let others ← entryBags seals (place + 1) rest
    return first :: others

def safe (bags : List EntryBags) (password : String) (d : Draws) : Value :=
  .sequence [
    (Content.protect (Value.sequence (bags.flatMap (·.certificates))).encode password
      d.certificates).encoded,
    (Content.data (Value.sequence (bags.map (·.key))).encode).encoded]

def encode (entries : List KeyEntry) (password : String) (d : Draws) : Except Error Bytes := do
  let bags ← entryBags d.keys 0 entries
  let content := (safe bags password d).encode
  match Mac.digest? password d.mac.bytes Encryption.Method.iterations content with
  | none => .error .encoding
  | some digest =>
    let mac : Mac := ⟨⟨sha256Oid, some .null⟩, digest, d.mac.bytes, Encryption.Method.iterations⟩
    (Pfx.value ⟨version, Content.data content, some mac⟩).toDer .encoding

end Credential.Container
