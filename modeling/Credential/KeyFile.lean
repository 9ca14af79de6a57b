import Credential.Encryption
import Credential.Text.Armor

namespace Credential.KeyFile

def label : String := "ENCRYPTED PRIVATE KEY"

def write (der : Bytes) (password : String) (s : Seal) : Except Error String :=
  match PrivateKeyInfo.ofDer? der with
  | none => .error (.keyEncoding .malformed)
  | some info => do
    let method := Encryption.Method.memoryHard (Bytes.ofText password) s
    let content ← (EncryptedKeyInfo.encrypt method info).toDer (.keyEncoding .malformed)
    return Text.Armor.write .lf label content

def read (text password : String) : Except Error Rsa.KeyPair :=
  match (Text.Armor.read? label text).bind Der.Value.decode? |>.bind EncryptedKeyInfo.ofValue? with
  | none => .error (.keyEncoding .malformed)
  | some key =>
    match key.decrypt (Bytes.ofText password) with
    | .error fault => .error (.keyEncoding fault)
    | .ok der => Rsa.KeyPair.ofDer der

end Credential.KeyFile
