namespace Credential.Disk

structure Path where
  text : String
deriving DecidableEq, Repr

namespace Path

def pieces (p : Path) : List String :=
  (p.text.toList.splitOn '/').map String.ofList

def ofPieces (pieces : List String) : Path :=
  ⟨"/".intercalate pieces⟩

def isVoid (piece : String) : Bool :=
  piece = "" || piece = "."

def dropVoidEnd (pieces : List String) : List String :=
  (pieces.reverse.dropWhile isVoid).reverse

/-- The text up to the last piece that is not void, without the slash before it. The root and the
empty path have no parent. -/
def parent? (p : Path) : Option Path :=
  match p.pieces with
  | [] => none
  | first :: rest =>
    match dropVoidEnd rest with
    | [] => if first = "" then none else some ⟨""⟩
    | named =>
      match dropVoidEnd named.dropLast with
      | [] => if first = "" then some ⟨"/"⟩ else some ⟨first⟩
      | shorter => some (ofPieces (first :: shorter))

/-- The path of a name inside a directory; an absolute name stands for itself. -/
def join (directory : Path) (name : String) : Path :=
  if name.toList.head? = some '/' then ⟨name⟩
  else if directory.text = "" ∨ directory.text.toList.getLast? = some '/' then
    ⟨directory.text ++ name⟩
  else ⟨directory.text ++ "/" ++ name⟩

def directory (p : Path) : Path :=
  match p.parent? with
  | some parent => if parent.text = "" then ⟨"."⟩ else parent
  | none => ⟨"."⟩

def ancestorsUpTo : (depth : Nat) → Path → List Path
  | 0, _ => []
  | depth + 1, p =>
    if p.text = "" then []
    else
      p :: match p.parent? with
        | some parent => ancestorsUpTo depth parent
        | none => []

/-- Every parent is shorter, so the length bounds their number. -/
def ancestors (p : Path) : List Path := ancestorsUpTo (p.text.length + 1) p

end Path

end Credential.Disk
