import Credential.Container.Basic

namespace Credential.Container

open Der (Value)

def version : Nat := 3

structure StoredKey where
  name : String
  keyId : Option Bytes
  encrypted : Value
deriving DecidableEq, Repr

structure StoredCertificate where
  name : Option String
  keyId : Option Bytes
  certificate : Certificate
deriving DecidableEq

structure Contents where
  keys : List StoredKey
  certificates : List StoredCertificate
deriving DecidableEq

namespace StoredKey

def decrypt (k : StoredKey) (password : String) : Except Error Bytes :=
  match EncryptedKeyInfo.ofValue? k.encrypted with
  | none => .error malformed
  | some info =>
    match info.decrypt (Bytes.ofText password) with
    | .ok der => .ok der
    | .error _ => .error (.incorrectPassword (.keyEntry k.name))

end StoredKey

namespace Contents

def empty : Contents := ⟨[], []⟩

/-- The certificates with the number of the key, then those without a number. -/
def chain (c : Contents) (k : StoredKey) : List Certificate :=
  let leaf := c.certificates.filter fun s => s.keyId.isSome && s.keyId == k.keyId
  let issuers := c.certificates.filter fun s => s.keyId.isNone
  (leaf ++ issuers).map (·.certificate)

def addBag (c : Contents) (b : Bag) : Except Error Contents :=
  match Labels.ofAttributes? b.attributes with
  | none => .error .encoding
  | some labels =>
    if b.type = keyBagOid then
      match labels.name with
      | none => .error (.container .namelessKey)
      | some name => .ok { c with keys := c.keys ++ [⟨name, labels.keyId, b.value⟩] }
    else if b.type = certificateBagOid then
      match Bag.readCertificate b.value with
      | .error e => .error e
      | .ok certificate =>
        .ok { c with certificates := c.certificates ++ [⟨labels.name, labels.keyId, certificate⟩] }
    else .ok c

def addContent (password : String) (c : Contents) (content : Content) : Except Error Contents := do
  let bytes ←
    if content.type = dataOid then content.readData
    else if content.type = encryptedDataOid then content.unprotect password
    else .error (.container (.contentType content.type.toText))
  match Bag.ofContents? bytes with
  | none => .error malformed
  | some bags => bags.foldlM addBag c

end Contents

def authenticate (der : Bytes) (password : String) : Except Error Bytes :=
  match (Value.decode? der).bind Pfx.ofValue? with
  | none => .error malformed
  | some pfx =>
    if pfx.version ≠ version then .error (.container (.version pfx.version))
    else do
      let content ← pfx.content.readData
      match pfx.mac with
      | none => .error (.container .noMac)
      | some mac =>
        mac.verify password content
        return content

def decode (der : Bytes) (password : String) : Except Error Contents := do
  let safe ← authenticate der password
  match (Value.decodeSequence? safe).bind fun vs => vs.mapM Content.ofValue? with
  | none => .error malformed
  | some contents => contents.foldlM (Contents.addContent password) Contents.empty

end Credential.Container
