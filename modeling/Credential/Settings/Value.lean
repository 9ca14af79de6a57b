namespace Credential.Settings

inductive Value where
  | null
  | boolean (b : Bool)
  | integer (n : Int)
  /-- A number with a fraction or an exponent; no setting takes one. -/
  | real
  | character (c : Char)
  | text (s : String)
  | list (elements : List Value)
  | table (entries : List (String × Value))
deriving BEq, Inhabited, Repr

namespace Value

def insert {α : Type} (key : String) (a : α) : List (String × α) → List (String × α)
  | [] => [(key, a)]
  | (k, b) :: rest => if k = key then (key, a) :: rest else (k, b) :: insert key a rest

mutual

def merge : Value → Value → Value
  | table a, table b => table (mergeEntries a b)
  | _, v => v

def mergeEntries : List (String × Value) → List (String × Value) → List (String × Value)
  | a, [] => a
  | a, (key, v) :: rest =>
    match a.lookup key with
    | some old => mergeEntries (insert key (merge old v) a) rest
    | none => mergeEntries (insert key v a) rest

end

def nest : List String → Value → Value
  | [], v => v
  | key :: rest, v => table [(key, nest rest v)]

def get? : Value → String → Option Value
  | table entries, key => entries.lookup key
  | _, _ => none

theorem lookup_cons {α : Type} (key k : String) (a : α) (entries : List (String × α)) :
    ((key, a) :: entries).lookup k = if k = key then some a else entries.lookup k := by
  rw [List.lookup_cons]
  by_cases h : k = key
  · simp [h]
  · simp [h, beq_false_of_ne h]

theorem lookup_insert {α : Type} (key k : String) (a : α) (entries : List (String × α)) :
    (insert key a entries).lookup k = if k = key then some a else entries.lookup k := by
  induction entries with
  | nil => exact lookup_cons ..
  | cons x rest ih =>
    obtain ⟨j, b⟩ := x
    unfold insert
    split
    · rename_i hj
      subst hj
      rw [lookup_cons, lookup_cons]
      split <;> rfl
    · rename_i hj
      rw [lookup_cons, lookup_cons, ih]
      by_cases h : k = j
      · subst h
        simp [hj]
      · simp [h]

end Value

end Credential.Settings
