import Credential.Text.Base64
/-!
Labelled text armour around base64. Writing wraps at 64 columns. Reading wants exactly those
columns, and allows other lines before the opening boundary only.
-/

namespace Credential.Text.Armor

inductive LineEnd where
  | lf
  | crlf
deriving DecidableEq, Repr

def LineEnd.chars : LineEnd → List Char
  | lf => ['\n']
  | crlf => ['\r', '\n']

def columns : Nat := 64

def opening : List Char := "-----BEGIN ".toList
def closing : List Char := "-----END ".toList
def dashes : List Char := "-----".toList

def wrap (cs : List Char) : List (List Char) :=
  match cs with
  | [] => []
  | c :: rest => (c :: rest).take columns :: wrap ((c :: rest).drop columns)
termination_by cs.length
decreasing_by simp only [columns, List.length_drop, List.length_cons]; omega

def write (lineEnd : LineEnd) (label : String) (content : Bytes) : String :=
  let eol := lineEnd.chars
  String.ofList (opening ++ label.toList ++ dashes ++ eol ++
    (wrap (Base64.encode content)).flatMap (· ++ eol) ++
    closing ++ label.toList ++ dashes ++ eol)

def dropLineEnd? : List Char → Option (List Char)
  | '\r' :: '\n' :: rest => some rest
  | '\n' :: rest => some rest
  | '\r' :: rest => some rest
  | _ => none

def dropLastLineEnd? : List Char → Option (List Char)
  | '\n' :: '\r' :: rest => some rest
  | '\n' :: rest => some rest
  | '\r' :: rest => some rest
  | _ => none

def dropStart? : (start : List Char) → List Char → Option (List Char)
  | [], cs => some cs
  | _ :: _, [] => none
  | s :: ss, c :: cs => if s = c then dropStart? ss cs else none

/-- Skips to the first line that opens a boundary; no NUL may come before it. -/
def skipPreamble? : List Char → Option (List Char)
  | [] => none
  | c :: cs =>
    if c = '\x00' then none
    else if c = '\n' then (dropStart? opening cs).orElse fun _ => skipPreamble? cs
    else skipPreamble? cs

def body? (label : String) (text : List Char) : Option (List Char) := do
  let rest ← (dropStart? opening text).orElse fun _ => skipPreamble? text
  let rest ← dropStart? (label.toList ++ dashes) rest
  let rest ← dropLineEnd? rest
  let reversed := rest.reverse
  let reversed := (dropLastLineEnd? reversed).getD reversed
  let reversed ← dropStart? (closing ++ label.toList ++ dashes).reverse reversed
  let reversed ← dropLastLineEnd? reversed
  return reversed.reverse

theorem dropLineEnd?_length {cs rest : List Char} (h : dropLineEnd? cs = some rest) :
    rest.length < cs.length := by
  unfold dropLineEnd? at h
  split at h
  · cases h
    simp only [List.length_cons]
    omega
  · cases h
    simp only [List.length_cons]
    omega
  · cases h
    simp only [List.length_cons]
    omega
  · cases h

def unwrap? (cs : List Char) : Option (List Char) :=
  match hd : cs.drop columns with
  | [] => some cs
  | c :: rest =>
    match hr : dropLineEnd? (c :: rest) with
    | some more =>
      have : more.length < cs.length := by
        have := dropLineEnd?_length hr
        have := congrArg List.length hd
        simp only [List.length_drop] at this
        omega
      (unwrap? more).map (cs.take columns ++ ·)
    | none => none
termination_by cs.length

def read? (label : String) (text : String) : Option Bytes := do
  let body ← body? label text.toList
  if body.isEmpty then none
  else
    let joined ← unwrap? body
    Base64.decode? joined

end Credential.Text.Armor
