import Credential.Calendar
import Credential.Settings.Toml.Text
import Credential.Settings.Value
/-!
The numbers and dates of a TOML document. Numbers with a fraction are checked and not kept, since no
setting takes one.
-/

namespace Credential.Settings.Toml

def readMoreDigits (isDigit : Char → Bool) : (afterUnderscore : Bool) → Reader (List Char)
  | afterUnderscore, [] => if afterUnderscore then none else some ([], [])
  | afterUnderscore, c :: rest =>
    if isDigit c then prepend c (readMoreDigits isDigit false rest)
    else if afterUnderscore then none
    else if c = '_' then readMoreDigits isDigit true rest
    else some ([], c :: rest)

def readDigits (isDigit : Char → Bool) : Reader (List Char) := readMoreDigits isDigit true

def readInteger : Reader (List Char)
  | '0' :: rest => some (['0'], rest)
  | cs => readDigits Text.isDigit cs

def readSign : List Char → Bool × List Char
  | '+' :: rest => (false, rest)
  | '-' :: rest => (true, rest)
  | cs => (false, cs)

def signed (negative : Bool) (n : Nat) : Int := if negative then -(n : Int) else n

def maxInteger : Int := 0x7fffffffffffffff
def minInteger : Int := -0x8000000000000000

def ofInteger? (n : Int) : Option Value :=
  if minInteger ≤ n ∧ n ≤ maxInteger then some (.integer n) else none

def readBase (base : Nat) : Reader Value := fun cs =>
  let isDigit := fun c => match Text.hexValue? c with
    | some d => decide (d < base)
    | none => false
  match readDigits isDigit cs with
  | none => none
  | some (digits, rest) =>
    let n := digits.foldl (fun n c => n * base + (Text.hexValue? c).getD 0) 0
    (ofInteger? n).map (·, rest)

/-- The least number that is nearer to `2 ^ 1024` than to any smaller one that can be held. -/
def infinite : Nat := 1 <<< 1024 - 1 <<< 970

def overflows (digits : Nat) (exponent : Int) : Bool :=
  if digits = 0 then false
  else
    let size := ((Nat.toDigits 10 digits).length : Int) + exponent
    if 310 < size then true
    else if size < 309 then false
    else if 0 ≤ exponent then infinite ≤ digits * Nat.pow 10 exponent.toNat
    else infinite * Nat.pow 10 (-exponent).toNat ≤ digits

def readExponent : Reader Int := fun cs =>
  let (negative, cs) := readSign cs
  (readDigits Text.isDigit cs).map fun (digits, rest) =>
    (signed negative (Text.decimalValue digits), rest)

def readOptionalExponent : Reader Int
  | 'e' :: rest => readExponent rest
  | 'E' :: rest => readExponent rest
  | cs => some (0, cs)

/-- A number whose digits and fraction have been read; only positive ones are checked for size. -/
def finishReal (negative : Bool) (whole fraction : List Char) (cs : List Char) :
    Option (Value × List Char) :=
  match readOptionalExponent cs with
  | none => none
  | some (exponent, rest) =>
    if !negative ∧ overflows (Text.decimalValue (whole ++ fraction)) (exponent - fraction.length) then
      none
    else some (.real, rest)

def readUnsigned (negative : Bool) : Reader Value := fun cs =>
  match cs with
  | 'i' :: 'n' :: 'f' :: rest => some (.real, rest)
  | 'n' :: 'a' :: 'n' :: rest => some (.real, rest)
  | _ =>
    match readInteger cs with
    | none => none
    | some (whole, rest) =>
      match rest with
      | '.' :: more =>
        match readDigits Text.isDigit more with
        | some (fraction, rest) => finishReal negative whole fraction rest
        | none => none
      | 'e' :: _ => finishReal negative whole [] rest
      | 'E' :: _ => finishReal negative whole [] rest
      | _ => (ofInteger? (signed negative (Text.decimalValue whole))).map (·, rest)

def readNumber : Reader Value
  | '0' :: 'x' :: rest => readBase 16 rest
  | '0' :: 'o' :: rest => readBase 8 rest
  | '0' :: 'b' :: rest => readBase 2 rest
  | cs =>
    let (negative, rest) := readSign cs
    readUnsigned negative rest

def readField (count low high : Nat) : Reader Nat := fun cs =>
  let digits := cs.take count
  let n := Text.decimalValue digits
  if digits.length = count ∧ digits.all Text.isDigit ∧ low ≤ n ∧ n ≤ high then
    some (n, cs.drop count)
  else none

def dropChar? (c : Char) : List Char → Option (List Char)
  | d :: rest => if d = c then some rest else none
  | [] => none

def dropDate? (cs : List Char) : Option (List Char) := do
  let (year, cs) ← readField 4 0 9999 cs
  let cs ← dropChar? '-' cs
  let (month, cs) ← readField 2 1 12 cs
  let cs ← dropChar? '-' cs
  let (_, cs) ← readField 2 1 (Date.daysInMonth year month) cs
  return cs

def dropFraction (cs : List Char) : List Char :=
  match cs with
  | '.' :: d :: rest => if Text.isDigit d then rest.dropWhile Text.isDigit else cs
  | _ => cs

def dropTime? (cs : List Char) : Option (List Char) := do
  let (_, cs) ← readField 2 0 23 cs
  let cs ← dropChar? ':' cs
  let (_, cs) ← readField 2 0 59 cs
  let cs ← dropChar? ':' cs
  let (_, cs) ← readField 2 0 60 cs
  return dropFraction cs

def dropHours? (cs : List Char) : Option (List Char) := do
  let (_, cs) ← readField 2 0 23 cs
  let cs ← dropChar? ':' cs
  let (_, cs) ← readField 2 0 59 cs
  return cs

def dropOffset (cs : List Char) : List Char :=
  match cs with
  | 'Z' :: rest => rest
  | 'z' :: rest => rest
  | '+' :: rest => (dropHours? rest).getD cs
  | '-' :: rest => (dropHours? rest).getD cs
  | _ => cs

def dropTimeAfterDate (cs : List Char) : List Char :=
  match cs with
  | [] => []
  | c :: rest =>
    if c = 'T' ∨ c = 't' ∨ c = ' ' then ((dropTime? rest).map dropOffset).getD cs else cs

def dropDateTime? (cs : List Char) : Option (List Char) :=
  match dropDate? cs with
  | some rest => some (dropTimeAfterDate rest)
  | none => dropTime? cs

/-- A date stands as a table whose only key no setting has. -/
def readDateTime : Reader Value := fun cs =>
  (dropDateTime? cs).map fun rest =>
    (.table [("date", .text (String.ofList (cs.take (cs.length - rest.length))))], rest)

end Credential.Settings.Toml
