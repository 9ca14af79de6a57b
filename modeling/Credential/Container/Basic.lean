import Credential.Certificate.Basic
import Credential.Encryption
import Credential.Text.Bmp

namespace Credential.Container

open Der (Value)

def dataOid : Oid := .ofArcs [1, 2, 840, 113549, 1, 7, 1]
def encryptedDataOid : Oid := .ofArcs [1, 2, 840, 113549, 1, 7, 6]
def keyBagOid : Oid := .ofArcs [1, 2, 840, 113549, 1, 12, 10, 1, 2]
def certificateBagOid : Oid := .ofArcs [1, 2, 840, 113549, 1, 12, 10, 1, 3]
def x509Oid : Oid := .ofArcs [1, 2, 840, 113549, 1, 9, 22, 1]
def friendlyNameOid : Oid := .ofArcs [1, 2, 840, 113549, 1, 9, 20]
def localKeyIdOid : Oid := .ofArcs [1, 2, 840, 113549, 1, 9, 21]
def sha256Oid : Oid := .ofArcs [2, 16, 840, 1, 101, 3, 4, 2, 1]

def malformed : Error := .container .malformed

structure Content where
  type : Oid
  value : Option Value
deriving DecidableEq, Repr

namespace Content

def encoded (c : Content) : Value := .sequence (.oid c.type :: c.value.toList.map (.explicit 0 ·))

def ofValue? (v : Value) : Option Content :=
  match v.sequence? with
  | some [type] => type.oid?.map (⟨·, none⟩)
  | some [type, value] =>
    match type.oid?, value.explicit? 0 with
    | some t, some v => some ⟨t, some v⟩
    | _, _ => none
  | _ => none

def data (b : Bytes) : Content := ⟨dataOid, some (.octets b)⟩

def readData (c : Content) : Except Error Bytes :=
  if c.type ≠ dataOid then .error (.container (.notData c.type.toText))
  else
    match c.value with
    | none => .error (.container .missingData)
    | some v =>
      match v.octets? with
      | some b => .ok b
      | none => .error .encoding

def encrypted (algorithm : AlgorithmIdentifier) (cipher : Bytes) : Content :=
  ⟨encryptedDataOid, some (.sequence [.natural 0,
    .sequence [.oid dataOid, algorithm.value, ⟨Der.Tag.implicit 0, cipher⟩]])⟩

def readEncrypted? (v : Value) : Option (AlgorithmIdentifier × Option Bytes) :=
  match v.sequence? with
  | some [version, info] =>
    match version.naturalBelow? 256, info.sequence? with
    | some _, some (type :: algorithm :: rest) =>
      match type.oid?, AlgorithmIdentifier.ofValue? algorithm, rest with
      | some _, some a, [] => some (a, none)
      | some _, some a, [cipher] =>
        if cipher.tag = Der.Tag.implicit 0 then some (a, some cipher.content) else none
      | _, _, _ => none
    | _, _ => none
  | _ => none

def protect (plain : Bytes) (password : String) (s : Seal) : Content :=
  let method := Encryption.Method.iterated (Bytes.ofText password) s
  encrypted method.identifier (method.encrypt plain)

/-- The value and its algorithm are each read from their own encoding. Whatever keeps the bytes from
being decrypted counts as a wrong password. -/
def unprotect (c : Content) (password : String) : Except Error Bytes :=
  match c.value with
  | none => .error (.container .missingCiphertext)
  | some v => do
    let data ← v.toDer .encoding
    match (Value.decode? data).bind readEncrypted? with
    | none => .error malformed
    | some (_, none) => .error (.container .missingCiphertext)
    | some (a, some cipher) =>
      let algorithm ← a.value.toDer .encoding
      match ((Value.decode? algorithm).bind AlgorithmIdentifier.ofValue?).bind
          Encryption.Scheme.ofIdentifier? with
      | none => .error malformed
      | some scheme =>
        match scheme.decrypt (Bytes.ofText password) cipher with
        | .ok plain => .ok plain
        | .error _ => .error (.incorrectPassword .keystore)

end Content

structure Attribute where
  type : Oid
  values : List Value
deriving DecidableEq, Repr

namespace Attribute

def value (a : Attribute) : Value := .sequence [.oid a.type, .set a.values]

def ofValue? (v : Value) : Option Attribute :=
  match v.sequence? with
  | some [type, values] =>
    match type.oid?, values.set? with
    | some t, some vs => some ⟨t, vs⟩
    | _, _ => none
  | _ => none

end Attribute

structure Labels where
  name : Option String
  keyId : Option Bytes
deriving DecidableEq, Repr

namespace Labels

def empty : Labels := ⟨none, none⟩

def write? (name : String) (keyId : Bytes) : Option Value :=
  (Text.Bmp.encode? name).map fun b =>
    .set [Attribute.value ⟨friendlyNameOid, [⟨Der.Tag.bmpString, b⟩]⟩,
      Attribute.value ⟨localKeyIdOid, [.octets keyId]⟩]

def readName? (v : Value) : Option String :=
  if v.tag = Der.Tag.bmpString then Text.Bmp.decode? v.content else none

/-- Of several attributes of one type the last one counts, and of its values the first. -/
def addAttribute? (l : Labels) (a : Attribute) : Option Labels :=
  match a.values with
  | [] => some l
  | v :: _ =>
    if a.type = friendlyNameOid then (readName? v).map fun s => { l with name := some s }
    else if a.type = localKeyIdOid then v.octets?.map fun b => { l with keyId := some b }
    else some l

def ofAttributes? (attributes : List Attribute) : Option Labels :=
  attributes.foldlM addAttribute? empty

end Labels

structure Bag where
  type : Oid
  value : Value
  attributes : List Attribute
deriving DecidableEq, Repr

namespace Bag

def encoded (type : Oid) (value : Value) (attributes : Option Value) : Value :=
  .sequence (.oid type :: .explicit 0 value :: attributes.toList)

def ofValue? (v : Value) : Option Bag :=
  match v.sequence? with
  | some (type :: value :: rest) =>
    match type.oid?, value.explicit? 0, rest with
    | some t, some v, [] => some ⟨t, v, []⟩
    | some t, some v, [attributes] =>
      match attributes.set? with
      | some vs => (vs.mapM Attribute.ofValue?).map (⟨t, v, ·⟩)
      | none => none
    | _, _, _ => none
  | _ => none

def ofContents? (b : Bytes) : Option (List Bag) :=
  (Value.decodeSequence? b).bind fun vs => vs.mapM ofValue?

def certificateValue (c : Certificate) : Value :=
  .sequence [.oid x509Oid, .explicit 0 (.octets c.der)]

def readCertificate (v : Value) : Except Error Certificate :=
  match v.sequence? with
  | some [type, value] =>
    match type.oid?, (value.explicit? 0).bind Value.octets? with
    | some t, some der =>
      if t ≠ x509Oid then .error (.container (.certificateType t.toText)) else Certificate.ofDer der
    | _, _ => .error malformed
  | _ => .error malformed

end Bag

structure Mac where
  digestAlgorithm : AlgorithmIdentifier
  digest : Bytes
  salt : Bytes
  iterations : Nat
deriving DecidableEq, Repr

namespace Mac

def value (m : Mac) : Value :=
  .sequence ([.sequence [m.digestAlgorithm.value, .octets m.digest], .octets m.salt] ++
    if m.iterations = 1 then [] else [.natural m.iterations])

def ofValue? (v : Value) : Option Mac :=
  match v.sequence? with
  | some (info :: salt :: rest) =>
    match info.sequence?, salt.octets? with
    | some [algorithm, digest], some s =>
      match AlgorithmIdentifier.ofValue? algorithm, digest.octets?, rest with
      | some a, some d, [] => some ⟨a, d, s, 1⟩
      | some a, some d, [count] => (count.naturalBelow? (1 <<< 32)).map (⟨a, d, s, ·⟩)
      | _, _, _ => none
    | _, _ => none
  | _ => none

def purpose : UInt8 := 3

def blockSize : Nat := 64

def fillBlocks (b : Bytes) : Bytes :=
  Bytes.cycle b ((b.length + blockSize - 1) / blockSize * blockSize)

def rehash : (count : Nat) → Bytes → Bytes
  | 0, b => b
  | count + 1, b => rehash count (Sha256.sha256.digest b)

/-- The key of the integrity code. The password is taken with a zero character at its end. -/
def key? (password : String) (salt : Bytes) (iterations : Nat) : Option Bytes :=
  (Text.Bmp.encode? password).map fun b =>
    let input := List.replicate blockSize purpose ++ fillBlocks salt ++ fillBlocks (b ++ [0, 0])
    rehash (iterations - 1) (Sha256.sha256.digest input)

def digest? (password : String) (salt : Bytes) (iterations : Nat) (content : Bytes) :
    Option Bytes :=
  (key? password salt iterations).map fun key => (Hmac.ofKey Sha256.sha256 key).mac content

def verify (m : Mac) (password : String) (content : Bytes) : Except Error Unit :=
  if m.digestAlgorithm.oid ≠ sha256Oid then
    .error (.container (.macDigest m.digestAlgorithm.oid.toText))
  else
    match digest? password m.salt m.iterations content with
    | none => .error .encoding
    | some d => if d = m.digest then .ok () else .error (.incorrectPassword .keystore)

end Mac

structure Pfx where
  version : Nat
  content : Content
  mac : Option Mac
deriving DecidableEq, Repr

namespace Pfx

def value (p : Pfx) : Value :=
  .sequence (.natural p.version :: p.content.encoded :: p.mac.toList.map Mac.value)

def ofValue? (v : Value) : Option Pfx :=
  match v.sequence? with
  | some (version :: content :: rest) =>
    match version.naturalBelow? 256, Content.ofValue? content, rest with
    | some n, some c, [] => some ⟨n, c, none⟩
    | some n, some c, [mac] => (Mac.ofValue? mac).map fun m => ⟨n, c, some m⟩
    | _, _, _ => none
  | _ => none

end Pfx

end Credential.Container
