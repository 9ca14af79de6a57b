import Credential.Settings.Value
/-!
Tables in the making. A table is opened by a header, on the way to a header below it, or by a key
with dots, and that decides what may still be added to it.
-/

namespace Credential.Settings.Toml

inductive Form where
  | header
  | implied
  | dotted
deriving DecidableEq, Repr

inductive Item where
  | value (v : Value)
  | table (form : Form) (entries : List (String × Item))
  | tables (elements : List (List (String × Item)))

abbrev Entries := List (String × Item)

namespace Item

mutual

def toValue : Item → Value
  | value v => v
  | table _ entries => .table (entriesToValues entries)
  | tables elements => .list (elementsToValues elements)

def entriesToValues : List (String × Item) → List (String × Value)
  | [] => []
  | (key, item) :: rest => (key, toValue item) :: entriesToValues rest

def elementsToValues : List (List (String × Item)) → List Value
  | [] => []
  | entries :: rest => .table (entriesToValues entries) :: elementsToValues rest

end

end Item

namespace Entries

def toValue (entries : Entries) : Value := .table (Item.entriesToValues entries)

/-- Changes the table at the end of a path; tables missing on the way take the form `new`. Dotted
keys do not lead into a table under a header. -/
def change (new : Form) (f : Form → Entries → Option Entries) :
    List String → Form → Entries → Option Entries
  | [], form, entries => f form entries
  | key :: path, _, entries =>
    match entries.lookup key with
    | none =>
      (change new f path new []).map fun inner => Value.insert key (.table new inner) entries
    | some (.value _) => none
    | some (.table form inner) =>
      if new = .dotted ∧ form = .header then none
      else (change new f path form inner).map fun inner =>
        Value.insert key (.table form inner) entries
    | some (.tables elements) =>
      match elements.reverse with
      | [] => none
      | last :: others => (change new f path .header last).map fun inner =>
        Value.insert key (.tables (inner :: others).reverse) entries

def addValue (key : String) (v : Value) (entries : Entries) : Option Entries :=
  match entries.lookup key with
  | some _ => none
  | none => some (Value.insert key (.value v) entries)

def addDotted (path : List String) (v : Value) (entries : Entries) : Option Entries :=
  let add := fun form inner =>
    if path.length = 1 ∨ form = .dotted then addValue (path.getLast?.getD "") v inner else none
  change .dotted add path.dropLast .header entries

def openTable (path : List String) (entries : Entries) : Option Entries :=
  let key := path.getLast?.getD ""
  let add := fun _ inner =>
    match inner.lookup key with
    | none => some (Value.insert key (.table .header []) inner)
    | some (.table .implied old) => some (Value.insert key (.table .header old) inner)
    | some _ => none
  change .implied add path.dropLast .header entries

def openElement (path : List String) (entries : Entries) : Option Entries :=
  let key := path.getLast?.getD ""
  let add := fun _ inner =>
    match inner.lookup key with
    | none => some (Value.insert key (.tables [[]]) inner)
    | some (.tables elements) => some (Value.insert key (.tables (elements ++ [[]])) inner)
    | some _ => none
  change .implied add path.dropLast .header entries

def addUnder (current path : List String) (v : Value) (entries : Entries) : Option Entries :=
  change .implied (fun _ inner => addDotted path v inner) current .header entries

end Entries

end Credential.Settings.Toml
