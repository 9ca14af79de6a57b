import Credential.Bytes
import Credential.Disk.Path
/-!
A tree of directories and files, and what paths lead to in it. The working directory is the root.
-/

namespace Credential.Disk

abbrev Location := List String

inductive Node where
  | directory
  | file (content : Bytes)
deriving DecidableEq, Repr

structure Tree where
  nodes : List (Location × Node)
deriving DecidableEq, Repr

inductive Walk where
  /-- Some directory on the way is missing. -/
  | missing
  /-- A file stands on the way, or the path cannot be one. -/
  | blocked
  | directory (place : Location)
  | entry (place : Location)
deriving DecidableEq, Repr

namespace Tree

def empty : Tree := ⟨[]⟩

def get? (t : Tree) (place : Location) : Option Node :=
  if place = [] then some .directory else t.nodes.lookup place

def erase (t : Tree) (place : Location) : Tree :=
  ⟨t.nodes.filter (·.1 ≠ place)⟩

def put (t : Tree) (place : Location) (node : Node) : Tree :=
  ⟨(place, node) :: (t.erase place).nodes⟩

def maxNameSize : Nat := 255

def maxPathSize : Nat := 4095

def follow (t : Tree) : Location → List String → Walk
  | place, [] => .directory place
  | place, piece :: rest =>
    if Path.isVoid piece then follow t place rest
    else if piece = ".." then follow t place.dropLast rest
    else if maxNameSize < piece.utf8ByteSize then .blocked
    else if rest = [] then .entry (place ++ [piece])
    else
      match t.get? (place ++ [piece]) with
      | some .directory => follow t (place ++ [piece]) rest
      | some (.file _) => .blocked
      | none => .missing

def isPathText (s : String) : Bool :=
  s.utf8ByteSize ≤ maxPathSize && s.toList.all (· ≠ '\x00')

def walk (t : Tree) (p : Path) : Walk :=
  if p.text = "" then .missing
  else if isPathText p.text then t.follow [] p.pieces
  else .blocked

/-- A directory to be made may have slashes at its end. -/
def walkToDirectory (t : Tree) (p : Path) : Walk :=
  if p.text = "" then .missing
  else if isPathText p.text then t.follow [] (p.pieces.reverse.dropWhile (· = "")).reverse
  else .blocked

def inspect? (t : Tree) (p : Path) : Option Node :=
  match t.walk p with
  | .directory _ => some .directory
  | .entry place => t.get? place
  | _ => none

def read? (t : Tree) (p : Path) : Option Bytes :=
  match t.inspect? p with
  | some (.file content) => some content
  | _ => none

def file? (t : Tree) (p : Path) : Option (Location × Bytes) :=
  match t.walk p with
  | .entry place =>
    match t.get? place with
    | some (.file content) => some (place, content)
    | _ => none
  | _ => none

def create? (t : Tree) (p : Path) : Option Tree :=
  match t.walk p with
  | .entry place => if (t.get? place).isNone then some (t.put place (.file [])) else none
  | _ => none

def write? (t : Tree) (p : Path) (content : Bytes) : Option Tree :=
  (t.file? p).map fun (place, _) => t.put place (.file content)

def remove? (t : Tree) (p : Path) : Option Tree :=
  (t.file? p).map fun (place, _) => t.erase place

def move? (t : Tree) (source target : Path) : Option Tree :=
  match t.file? source, t.walk target with
  | some (old, content), .entry new =>
    if t.get? new = some .directory then none else some ((t.erase old).put new (.file content))
  | _, _ => none

theorem lookup_cons_ne (nodes : List (Location × Node)) {a b : Location} (node : Node) (h : b ≠ a) :
    ((a, node) :: nodes).lookup b = nodes.lookup b := by
  rw [List.lookup_cons, beq_false_of_ne h]

theorem lookup_filter_ne (nodes : List (Location × Node)) (a b : Location) :
    (nodes.filter (·.1 ≠ a)).lookup b = if b = a then none else nodes.lookup b := by
  induction nodes with
  | nil => simp
  | cons x xs ih =>
    obtain ⟨c, node⟩ := x
    by_cases hc : c = a
    · subst hc
      rw [List.filter_cons_of_neg (by simp), ih]
      split
      · rfl
      · rename_i hb
        rw [lookup_cons_ne xs node hb]
    · rw [List.filter_cons_of_pos (by simpa using hc)]
      by_cases hb : b = c
      · subst hb
        simp [hc]
      · rw [lookup_cons_ne _ node hb, lookup_cons_ne _ node hb, ih]

theorem get?_erase (t : Tree) (a b : Location) :
    (t.erase a).get? b = if b = [] then some .directory else if b = a then none else t.get? b := by
  unfold get? erase
  split
  · rfl
  · exact lookup_filter_ne ..

theorem get?_put (t : Tree) (a b : Location) (node : Node) :
    (t.put a node).get? b =
      if b = [] then some .directory else if b = a then some node else t.get? b := by
  unfold get? put erase
  split
  · rfl
  · by_cases hb : b = a
    · simp [hb]
    · rw [lookup_cons_ne _ node hb, lookup_filter_ne]
      simp [hb]

end Tree

end Credential.Disk
