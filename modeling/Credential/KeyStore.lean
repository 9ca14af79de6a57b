import Credential.Container.Writing
import Credential.StoreType
import Credential.Text.Blank

namespace Credential

open Container (KeyEntry)

inductive StoreError where
  | blankAlias
  | emptyChain (name : String)
  | empty (type : StoreType)
  | encoding (type : StoreType) (cause : Error)
  | decoding (type : StoreType) (cause : Error)
deriving DecidableEq, Repr

def StoreError.message : StoreError → String
  | blankAlias => "keystore alias cannot be blank"
  | emptyChain name => s!"the certificate chain of `{name}` is empty"
  | empty type => s!"the {type.name} keystore holds no key entry"
  | encoding type _ => s!"could not encode the {type.name} keystore"
  | decoding type _ => s!"could not read the {type.name} keystore"

def Container.KeyEntry.fault? (e : KeyEntry) : Option StoreError :=
  if Text.isBlank e.name then some .blankAlias
  else if e.chain = [] then some (.emptyChain e.name)
  else none

structure KeyStore where
  type : StoreType
  password : String
  entries : List KeyEntry
  sorted : entries.Pairwise (·.name < ·.name)
  acceptable : ∀ e ∈ entries, e.fault? = none

namespace KeyStore

def empty (type : StoreType) (password : String) : KeyStore :=
  ⟨type, password, [], .nil, by simp⟩

def insertEntry (e : KeyEntry) : List KeyEntry → List KeyEntry
  | [] => [e]
  | f :: rest =>
    if e.name < f.name then e :: f :: rest
    else if e.name = f.name then e :: rest
    else f :: insertEntry e rest

theorem mem_insertEntry {e f : KeyEntry} {es : List KeyEntry} (h : f ∈ insertEntry e es) :
    f = e ∨ f ∈ es := by
  induction es with
  | nil => simpa [insertEntry] using h
  | cons g rest ih =>
    unfold insertEntry at h
    split at h
    · simpa using h
    · split at h
      · rcases List.mem_cons.1 h with rfl | h
        · exact .inl rfl
        · exact .inr (List.mem_cons_of_mem _ h)
      · rcases List.mem_cons.1 h with rfl | h
        · exact .inr (List.mem_cons_self ..)
        · exact (ih h).imp_right (List.mem_cons_of_mem _)

theorem lt_of_not_lt_of_ne {a b : String} (h : ¬ a < b) (hn : a ≠ b) : b < a :=
  Decidable.by_contra fun h' =>
    hn (String.le_antisymm (String.not_lt.1 h') (String.not_lt.1 h))

theorem sorted_insertEntry {e : KeyEntry} {es : List KeyEntry}
    (h : es.Pairwise (·.name < ·.name)) : (insertEntry e es).Pairwise (·.name < ·.name) := by
  induction es with
  | nil => simp [insertEntry]
  | cons f rest ih =>
    obtain ⟨hf, hr⟩ := List.pairwise_cons.1 h
    unfold insertEntry
    split
    · rename_i hlt
      refine List.pairwise_cons.2 ⟨fun g hg => ?_, h⟩
      rcases List.mem_cons.1 hg with rfl | hg
      · exact hlt
      · exact String.lt_trans hlt (hf g hg)
    · rename_i hlt
      split
      · rename_i he
        exact List.pairwise_cons.2 ⟨fun g hg => he ▸ hf g hg, hr⟩
      · rename_i hne
        refine List.pairwise_cons.2 ⟨fun g hg => ?_, ih hr⟩
        rcases mem_insertEntry hg with rfl | hg
        · exact lt_of_not_lt_of_ne hlt hne
        · exact hf g hg

def set (s : KeyStore) (e : KeyEntry) : Except StoreError KeyStore :=
  match h : e.fault? with
  | some fault => .error fault
  | none => .ok {
      type := s.type
      password := s.password
      entries := insertEntry e s.entries
      sorted := sorted_insertEntry s.sorted
      acceptable := fun _ hf => (mem_insertEntry hf).elim (· ▸ h) (s.acceptable _) }

def get? (s : KeyStore) (name : String) : Option KeyEntry :=
  s.entries.find? (·.name = name)

def aliases (s : KeyStore) : List String := s.entries.map (·.name)

def size (s : KeyStore) : Nat := s.entries.length

def isEmpty (s : KeyStore) : Bool := s.entries.isEmpty

def entryOf (type : StoreType) (keyPassword : String) (c : Container.Contents)
    (k : Container.StoredKey) : Except StoreError KeyEntry :=
  match k.decrypt keyPassword with
  | .ok der => .ok ⟨k.name, der, keyPassword, c.chain k⟩
  | .error e => .error (.decoding type e)

/-- Reads a store all of whose keys open with `keyPassword`. Of several keys with one name the
last one is kept. -/
def load (type : StoreType) (der : Bytes) (password keyPassword : String) :
    Except StoreError KeyStore := do
  let contents ← match type with
    | .pkcs12 => (Container.decode der password).mapError (.decoding type)
  contents.keys.foldlM (fun s k => do s.set (← entryOf type keyPassword contents k))
    (empty type password)

def toBytes (s : KeyStore) (d : Container.Draws) : Except StoreError Bytes :=
  if s.isEmpty then .error (.empty s.type)
  else
    match s.type with
    | .pkcs12 => (Container.encode s.entries s.password d).mapError (.encoding s.type)

end KeyStore

end Credential
