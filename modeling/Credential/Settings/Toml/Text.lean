import Credential.Text.Digit

namespace Credential.Settings.Toml

abbrev Reader (α : Type) := List Char → Option (α × List Char)

def isBlank (c : Char) : Bool := c = ' ' || c = '\t'

def skipBlanks (cs : List Char) : List Char := cs.dropWhile isBlank

def isPlain (c : Char) : Bool := c = '\t' || (' ' ≤ c && c ≠ '\x7f')

def dropWord? (word : List Char) (cs : List Char) : Option (List Char) :=
  if cs.take word.length = word then some (cs.drop word.length) else none

def dropNewline? : List Char → Option (List Char)
  | '\n' :: rest => some rest
  | '\r' :: '\n' :: rest => some rest
  | _ => none

def skipComment : List Char → List Char
  | '#' :: rest => rest.dropWhile isPlain
  | cs => cs

def dropLineEnd? (cs : List Char) : Option (List Char) :=
  match skipComment (skipBlanks cs) with
  | [] => some []
  | rest => dropNewline? rest

def skipLines : (fuel : Nat) → List Char → List Char
  | 0, cs => cs
  | fuel + 1, cs =>
    let rest := skipComment (skipBlanks cs)
    match dropNewline? rest with
    | some next => skipLines fuel next
    | none => rest

def charOf? (n : Nat) : Option Char :=
  if n.isValidChar then some (Char.ofNat n) else none

def readHex (count : Nat) : Reader Char := fun cs =>
  match (cs.take count).mapM Text.hexValue? with
  | some digits =>
    if digits.length = count then
      (charOf? (digits.foldl (fun n d => n * 16 + d) 0)).map (·, cs.drop count)
    else none
  | none => none

def readEscape : Reader Char
  | 'b' :: rest => some ('\x08', rest)
  | 't' :: rest => some ('\t', rest)
  | 'n' :: rest => some ('\n', rest)
  | 'f' :: rest => some ('\x0c', rest)
  | 'r' :: rest => some ('\r', rest)
  | '"' :: rest => some ('"', rest)
  | '\\' :: rest => some ('\\', rest)
  | 'u' :: rest => readHex 4 rest
  | 'U' :: rest => readHex 8 rest
  | _ => none

def prepend (c : Char) : Option (List Char × List Char) → Option (List Char × List Char) :=
  Option.map fun (content, rest) => (c :: content, rest)

def readBasic : (fuel : Nat) → Reader (List Char)
  | 0, _ => none
  | _, [] => none
  | fuel + 1, c :: rest =>
    if c = '"' then some ([], rest)
    else if c = '\\' then
      match readEscape rest with
      | some (d, rest) => prepend d (readBasic fuel rest)
      | none => none
    else if isPlain c then prepend c (readBasic fuel rest)
    else none

def readLiteral : Reader (List Char)
  | [] => none
  | c :: rest =>
    if c = '\'' then some ([], rest)
    else if isPlain c then prepend c (readLiteral rest)
    else none

def skipBlankLines : (fuel : Nat) → List Char → List Char
  | 0, cs => cs
  | fuel + 1, cs =>
    match dropNewline? (skipBlanks cs) with
    | some rest => skipBlankLines fuel rest
    | none => skipBlanks cs

def dropContinuation? (cs : List Char) : Option (List Char) :=
  (dropNewline? (skipBlanks cs)).map fun rest => skipBlankLines (rest.length + 1) rest

/-- The end of a string in three quotes: up to two more quotes belong to it. -/
def readClosing (quote : Char) : Reader (List Char) := fun cs =>
  match (cs.take 5).takeWhile (· = quote) with
  | [_, _, _, a, b] => some ([a, b], cs.drop 5)
  | [_, _, _, a] => some ([a], cs.drop 4)
  | [_, _, _] => some ([], cs.drop 3)
  | _ => none

def readLong (quote : Char) (isEscaped : Bool) : (fuel : Nat) → Reader (List Char)
  | 0, _ => none
  | fuel + 1, cs =>
    match readClosing quote cs with
    | some found => some found
    | none =>
      match dropNewline? cs with
      | some rest => prepend '\n' (readLong quote isEscaped fuel rest)
      | none =>
        match cs with
        | [] => none
        | c :: rest =>
          if isEscaped ∧ c = '\\' then
            match readEscape rest with
            | some (d, rest) => prepend d (readLong quote isEscaped fuel rest)
            | none =>
              match dropContinuation? rest with
              | some rest => readLong quote isEscaped fuel rest
              | none => none
          else if isPlain c then prepend c (readLong quote isEscaped fuel rest)
          else none

/-- A line end right after the opening quotes is no part of the string. -/
def readLongBody (quote : Char) (isEscaped : Bool) : Reader (List Char) := fun cs =>
  readLong quote isEscaped (cs.length + 1) ((dropNewline? cs).getD cs)

def readString : Reader String := fun cs =>
  let found := match cs with
    | '"' :: '"' :: '"' :: rest => readLongBody '"' true rest
    | '\'' :: '\'' :: '\'' :: rest => readLongBody '\'' false rest
    | '"' :: rest => readBasic (rest.length + 1) rest
    | '\'' :: rest => readLiteral rest
    | _ => none
  found.map fun (content, rest) => (String.ofList content, rest)

def isBare (c : Char) : Bool := c.isAlphanum || c = '-' || c = '_'

def readSimpleKey : Reader String := fun cs =>
  let found := match cs with
    | '"' :: rest => readBasic (rest.length + 1) rest
    | '\'' :: rest => readLiteral rest
    | _ =>
      match cs.takeWhile isBare with
      | [] => none
      | key => some (key, cs.dropWhile isBare)
  found.map fun (content, rest) => (String.ofList content, rest)

def readKeys : (fuel : Nat) → Reader (List String)
  | 0, _ => none
  | fuel + 1, cs =>
    match readSimpleKey (skipBlanks cs) with
    | none => none
    | some (key, rest) =>
      match skipBlanks rest with
      | '.' :: rest => (readKeys fuel rest).map fun (keys, rest) => (key :: keys, rest)
      | rest => some ([key], rest)

def maxDepth : Nat := 79

def readKey : Reader (List String) := readKeys maxDepth

end Credential.Settings.Toml
