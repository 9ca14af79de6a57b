import Credential.Der.Set
import Credential.Error
import Credential.Text.Blank
import Credential.Text.Digit

namespace Credential

open Der (Value)

structure NameAttribute where
  type : Oid
  value : Value
deriving DecidableEq, Repr

/-- A sequence of sets of attributes, the most general one first. -/
structure Name where
  parts : List (List NameAttribute)
deriving DecidableEq, Repr

namespace NameAttribute

def commonName : Oid := .ofArcs [2, 5, 4, 3]

def shortNames : List (String × Oid × UInt8) :=
  [("CN", commonName, Der.Tag.utf8String),
    ("C", .ofArcs [2, 5, 4, 6], Der.Tag.printableString),
    ("L", .ofArcs [2, 5, 4, 7], Der.Tag.utf8String),
    ("ST", .ofArcs [2, 5, 4, 8], Der.Tag.utf8String),
    ("STREET", .ofArcs [2, 5, 4, 9], Der.Tag.utf8String),
    ("O", .ofArcs [2, 5, 4, 10], Der.Tag.utf8String),
    ("OU", .ofArcs [2, 5, 4, 11], Der.Tag.utf8String),
    ("UID", .ofArcs [0, 9, 2342, 19200300, 100, 1, 1], Der.Tag.utf8String),
    ("DC", .ofArcs [0, 9, 2342, 19200300, 100, 1, 25], Der.Tag.ia5String)]

def encoded (a : NameAttribute) : Value := .sequence [.oid a.type, a.value]

def isSpecial (c : Char) : Bool :=
  c ∈ ['"', '+', ',', ';', '<', '>', ' ', '#', '=', '\\']

def unescape? : List Char → Option Bytes
  | [] => some []
  | ['\\'] => none
  | '\\' :: c :: rest =>
    if isSpecial c then (unescape? rest).map (String.utf8EncodeChar c ++ ·)
    else
      match rest with
      | [] => none
      | d :: rest =>
        match Text.hexValue? c, Text.hexValue? d with
        | some x, some y => (unescape? rest).map (UInt8.ofNat (x * 16 + y) :: ·)
        | _, _ => none
  | c :: rest => (unescape? rest).map (String.utf8EncodeChar c ++ ·)

def ofText? (cs : List Char) : Option NameAttribute :=
  match cs.dropWhile (· ≠ '=') with
  | [] => none
  | _ :: value =>
    let key := Text.upper (String.ofList (cs.takeWhile (· ≠ '=')))
    match shortNames.find? (·.1 = key), unescape? value with
    | some (_, type, tag), some b => if b.length ≤ Der.maxLength then some ⟨type, tag, b⟩ else none
    | _, _ => none

def hexDigit (n : Nat) : Char := (Nat.digitChar n)

def hexByte (n : Nat) : List Char := [hexDigit (n / 16), hexDigit (n % 16)]

def escapeFrom : (isFirst : Bool) → List Char → List Char
  | _, [] => []
  | isFirst, c :: rest =>
    let escaped :=
      if c = '#' ∧ isFirst = true then ['\\', '#']
      else if c = ' ' ∧ (isFirst = true ∨ rest = []) then ['\\', ' ']
      else if c ∈ ['"', '+', ',', ';', '<', '>', '\\'] then ['\\', c]
      else if c.val < 0x20 ∨ c.val = 0x7F then '\\' :: hexByte c.toNat
      else [c]
    escaped ++ escapeFrom false rest

def toText (a : NameAttribute) : String :=
  match shortNames.find? (·.2.1 = a.type), String.fromUTF8? ⟨a.value.content.toArray⟩ with
  | some (key, _, _), some text => key ++ "=" ++ String.ofList (escapeFrom true text.toList)
  | _, _ =>
    a.type.toText ++ "=#" ++
      String.ofList (a.value.encode.flatMap fun b => hexByte b.toNat)

end NameAttribute

namespace Name

def value (n : Name) : Value :=
  .sequence (n.parts.map fun part => .set (part.map NameAttribute.encoded))

def toDer (n : Name) : Bytes := n.value.encode

def toText (n : Name) : String :=
  ",".intercalate (n.parts.reverse.map fun part => "+".intercalate (part.map NameAttribute.toText))

/-- Splits at the separators that no backslash precedes, or that two of them precede; `older` and
`last` are the two characters before the text and `piece` the reversed piece so far. -/
def splitFrom (separator : Char) : (older last : Char) → (piece : List Char) → List Char →
    List (List Char)
  | _, _, piece, [] => [piece.reverse]
  | older, last, piece, c :: rest =>
    if c = separator ∧ (last ≠ '\\' ∨ older = '\\') then
      piece.reverse :: splitFrom separator last c [] rest
    else splitFrom separator last c (c :: piece) rest

def split (separator : Char) (cs : List Char) : List (List Char) :=
  splitFrom separator '\x00' '\x00' [] cs

def partOfText? (cs : List Char) : Option (List NameAttribute) :=
  match (split '+' cs).mapM NameAttribute.ofText? with
  | some attributes => if attributes.Nodup then some attributes else none
  | none => none

def ofText? (s : String) : Option Name :=
  ((split ',' s.toList).mapM partOfText?).map fun parts => ⟨parts.reverse⟩

def escapeHost : (isFirst : Bool) → List Char → List Char
  | _, [] => []
  | isFirst, c :: rest =>
    if (isFirst = true ∧ (c = ' ' ∨ c = '#')) ∨ c ∈ [',', '+', '"', '\\', '<', '>', ';', '='] then
      '\\' :: c :: escapeHost false rest
    else c :: escapeHost false rest

def hostText (host : String) : String :=
  "CN=" ++ String.ofList (escapeHost true host.toList)

def ofHost (host : String) : Except Error Name :=
  let host := Text.trim host
  if host.isEmpty then .error (.invalidName host)
  else
    match ofText? (hostText host) with
    | some name => .ok name
    | none => .error (.invalidName (hostText host))

end Name

end Credential
