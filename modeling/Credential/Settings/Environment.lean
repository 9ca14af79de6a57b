import Credential.Settings.Toml.Text
import Credential.Settings.Value
import Credential.Text.Blank
/-!
Settings from environment variables. The name of a variable is a path of keys, its content a value
in a notation of its own: what does not read as anything else is text.
-/

namespace Credential.Settings.Environment

open Toml (Reader readBasic isBare dropWord?)

def isSpace (c : Char) : Bool :=
  c = ' ' || c = '\t' || c = '\n' || c = '\r' || c = '\x0c'

def skipSpaces (cs : List Char) : List Char := cs.dropWhile isSpace

def isSeparator (c : Char) : Bool := c ∈ [',', '\x7b', '\x7d', '[', ']']

def isDigits (cs : List Char) : Bool := !cs.isEmpty && cs.all Text.isDigit

def dropSign : List Char → List Char
  | '+' :: rest => rest
  | '-' :: rest => rest
  | cs => cs

def isDecimal (cs : List Char) : Bool :=
  let whole := cs.takeWhile (· ≠ '.')
  let fraction := (cs.dropWhile (· ≠ '.')).drop 1
  (whole ++ fraction).all Text.isDigit && !(whole ++ fraction).isEmpty

def isReal (cs : List Char) : Bool :=
  let isMark := fun c => c = 'e' || c = 'E'
  let cs := dropSign cs
  let mantissa := cs.takeWhile (!isMark ·)
  cs.contains '.' && isDecimal mantissa &&
    match cs.dropWhile (!isMark ·) with
    | [] => true
    | _ :: exponent => isDigits (dropSign exponent)

def integer? (cs : List Char) : Option Int :=
  let digits := dropSign cs
  let n := Text.decimalValue digits
  if !isDigits digits then none
  else if cs.head? = some '-' then (if n ≤ 1 <<< 63 then some (-n) else none)
  else if n < 1 <<< 64 then some n
  else none

def readPlain (cs : List Char) : Value :=
  let cs := Text.trimChars cs
  if isReal cs then .real
  else
    match integer? cs with
    | some n => .integer n
    | none => .text (String.ofList cs)

def readKey : Reader String := fun cs =>
  match cs with
  | '"' :: rest =>
    (readBasic (rest.length + 1) rest).map fun (key, rest) => (String.ofList key, rest)
  | _ =>
    match cs.takeWhile isBare with
    | [] => none
    | key => some (String.ofList key, cs.dropWhile isBare)

mutual

/-- A value with the spaces around it. Every step takes fuel, and two of them never leave the text
as it is. -/
def readValue : (fuel : Nat) → Reader Value
  | 0, _ => none
  | fuel + 1, cs =>
    (readBareValue fuel (skipSpaces cs)).map fun (v, rest) => (v, skipSpaces rest)

def readBareValue : (fuel : Nat) → Reader Value
  | 0, _ => none
  | fuel + 1, cs =>
    match dropWord? ['t', 'r', 'u', 'e'] cs, dropWord? ['f', 'a', 'l', 's', 'e'] cs, cs with
    | some rest, _, _ => some (.boolean true, rest)
    | none, some rest, _ => some (.boolean false, rest)
    | none, none, '\x7b' :: rest =>
      (readEntries fuel [] rest).map fun (entries, rest) => (.table entries, rest)
    | none, none, '[' :: rest =>
      (readElements fuel rest).map fun (vs, rest) => (.list vs, rest)
    | none, none, '"' :: rest =>
      (readBasic (rest.length + 1) rest).map fun (s, rest) => (.text (String.ofList s), rest)
    | none, none, '\'' :: c :: '\'' :: rest => some (.character c, rest)
    | none, none, '\'' :: _ => none
    | none, none, cs =>
      some (readPlain (cs.takeWhile (!isSeparator ·)), cs.dropWhile (!isSeparator ·))

def readElements : (fuel : Nat) → Reader (List Value)
  | 0, _ => none
  | fuel + 1, cs =>
    match cs with
    | ']' :: rest => some ([], rest)
    | cs =>
      match readValue fuel cs with
      | some (v, ',' :: rest) => (readElements fuel rest).map fun (vs, rest) => (v :: vs, rest)
      | some (v, ']' :: rest) => some ([v], rest)
      | _ => none

def readEntries : (fuel : Nat) → List (String × Value) → Reader (List (String × Value))
  | 0, _, _ => none
  | fuel + 1, entries, cs =>
    match cs with
    | '\x7d' :: rest => some (entries, rest)
    | cs =>
      match readKey (skipSpaces cs) with
      | none => none
      | some (key, rest) =>
        match skipSpaces rest with
        | '=' :: rest =>
          match readValue fuel rest with
          | some (v, ',' :: rest) => readEntries fuel (Value.insert key v entries) rest
          | some (v, '\x7d' :: rest) => some (Value.insert key v entries, rest)
          | _ => none
        | _ => none

end

def valueOf (content : String) : Value :=
  let cs := content.toList
  match readValue (3 * cs.length + 3) cs with
  | some (v, []) => v
  | _ => .text content

def start : List Char := "KEYSTORE_".toList

def dots : List Char → List Char
  | '_' :: '_' :: rest => '.' :: dots rest
  | c :: rest => c :: dots rest
  | [] => []

def keysOf? (name : String) : Option (List String) :=
  let cs := Text.trimChars name.toList
  if (cs.take start.length).map Char.toUpper = start then
    let pieces := (dots (cs.drop start.length)).splitOn '.'
    if pieces.any List.isEmpty then none
    else some (pieces.map fun piece => String.ofList (piece.map Char.toLower))
  else none

def toValue (assignments : List (String × String)) : Value :=
  assignments.foldl (fun v (name, content) =>
    match keysOf? name with
    | some keys => v.merge (Value.nest keys (valueOf content))
    | none => v) (.table [])

end Credential.Settings.Environment
