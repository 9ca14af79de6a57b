import Credential.Settings.Toml.Number
import Credential.Settings.Toml.Table

namespace Credential.Settings.Toml

def readScalar : Reader Value := fun cs =>
  match cs with
  | '"' :: _ => (readString cs).map fun (s, rest) => (.text s, rest)
  | '\'' :: _ => (readString cs).map fun (s, rest) => (.text s, rest)
  | 't' :: _ => (dropWord? ['t', 'r', 'u', 'e'] cs).map (.boolean true, ·)
  | 'f' :: _ => (dropWord? ['f', 'a', 'l', 's', 'e'] cs).map (.boolean false, ·)
  | _ =>
    match readDateTime cs with
    | some found => some found
    | none => readNumber cs

mutual

/-- A value nested at most `depth` levels deep. Every step takes fuel, and two of them never leave
the text as it is. -/
def readValue : (fuel depth : Nat) → Reader Value
  | 0, _, _ => none
  | fuel + 1, depth, cs =>
    match cs, depth with
    | '[' :: _, 0 => none
    | '\x7b' :: _, 0 => none
    | '[' :: rest, depth + 1 =>
      (readElements fuel depth rest).map fun (vs, rest) => (.list vs, rest)
    | '\x7b' :: rest, depth + 1 =>
      match skipBlanks rest with
      | '\x7d' :: rest => some (.table [], rest)
      | rest => (readPairs fuel depth [] rest).map fun (entries, rest) => (entries.toValue, rest)
    | _, _ => readScalar cs

def readElements : (fuel depth : Nat) → Reader (List Value)
  | 0, _, _ => none
  | fuel + 1, depth, cs =>
    match skipLines (cs.length + 1) cs with
    | ']' :: rest => some ([], rest)
    | cs =>
      match readValue fuel depth cs with
      | none => none
      | some (v, rest) =>
        match skipLines (rest.length + 1) rest with
        | ',' :: rest => (readElements fuel depth rest).map fun (vs, rest) => (v :: vs, rest)
        | ']' :: rest => some ([v], rest)
        | _ => none

def readPairs : (fuel depth : Nat) → Entries → Reader Entries
  | 0, _, _, _ => none
  | fuel + 1, depth, entries, cs =>
    match readKey cs with
    | some (path, '=' :: rest) =>
      match readValue fuel depth (skipBlanks rest) with
      | none => none
      | some (v, rest) =>
        match entries.addDotted path v with
        | none => none
        | some entries =>
          match skipBlanks rest with
          | ',' :: rest => readPairs fuel depth entries rest
          | '\x7d' :: rest => some (entries, rest)
          | _ => none
    | _ => none

end

structure State where
  current : List String
  entries : Entries

def readEntry (s : State) (cs : List Char) : Option (State × List Char) :=
  match readKey cs with
  | some (path, '=' :: rest) => do
    let (v, rest) ← readValue (2 * rest.length + 2) maxDepth (skipBlanks rest)
    let entries ← s.entries.addUnder s.current path v
    return ({ s with entries }, rest)
  | _ => none

def readHeader (s : State) (cs : List Char) : Option (State × List Char) :=
  match cs with
  | '[' :: rest =>
    match readKey rest with
    | some (path, ']' :: ']' :: rest) =>
      (s.entries.openElement path).map fun entries => (⟨path, entries⟩, rest)
    | _ => none
  | _ =>
    match readKey cs with
    | some (path, ']' :: rest) =>
      (s.entries.openTable path).map fun entries => (⟨path, entries⟩, rest)
    | _ => none

def readLines : (fuel : Nat) → State → List Char → Option State
  | 0, _, _ => none
  | fuel + 1, s, cs =>
    match skipLines (cs.length + 1) cs with
    | [] => some s
    | cs =>
      let found := match cs with
        | '[' :: rest => readHeader s rest
        | _ => readEntry s cs
      match found with
      | none => none
      | some (s, rest) =>
        match dropLineEnd? rest with
        | none => none
        | some rest => readLines fuel s rest

def readDocument (s : String) : Option Value :=
  let cs := match s.toList with
    | '\ufeff' :: rest => rest
    | cs => cs
  (readLines (cs.length + 1) ⟨[], []⟩ cs).map fun s => s.entries.toValue

end Credential.Settings.Toml
