import Credential.Proofs.Container.Secrecy
/-!
Which entries can be written, and what is blamed when they cannot: the entries come one after the
other, and the container's password after them.
-/

namespace Credential

namespace Text.Bmp

def Holds (s : String) : Prop := ∀ c ∈ s.toList, c.val < 0xFFFF

instance : DecidablePred Holds := fun _ => inferInstanceAs (Decidable (∀ _ ∈ _, _))

theorem isSome_encode?_iff {s : String} : (encode? s).isSome = true ↔ Holds s := by
  rw [encode?, encodeChars?_isSome, List.all_eq_true]
  simp only [fits, decide_eq_true_eq]
  rfl

theorem encode?_eq_none_iff {s : String} : encode? s = none ↔ ¬ Holds s := by
  rw [← isSome_encode?_iff, Bool.not_eq_true, Option.isSome_eq_false_iff, Option.isNone_iff_eq_none]

end Text.Bmp

namespace Container

open Text (Bmp.Holds)

variable {entries others : List KeyEntry} {password : String} {d : Draws} {e : KeyEntry}
  {fault : Error}

def KeyEntry.faults (e : KeyEntry) : List Error :=
  faultIf (e.chain = []) (.container (.emptyChain e.name)) ++
    (faultIf (¬ Bmp.Holds e.name) .encoding ++
      (faultIf (PrivateKeyInfo.ofDer? e.privateKey = none) (.keyEncoding .malformed) ++ []))

def faults (entries : List KeyEntry) (password : String) : List Error :=
  entries.flatMap KeyEntry.faults ++ (faultIf (¬ Bmp.Holds password) .encoding ++ [])

def KeyEntry.unlocked (e : KeyEntry) : KeyEntry := { e with password := "" }

theorem KeyEntry.faults_eq_nil_iff : e.faults = [] ↔
    e.chain ≠ [] ∧ Bmp.Holds e.name ∧ ∃ info, PrivateKeyInfo.ofDer? e.privateKey = some info := by
  simp only [faults, List.append_nil, List.append_eq_nil_iff, faultIf_eq_nil_iff, not_not, ← ne_eq,
    Option.ne_none_iff_exists']

theorem faults_eq_nil_iff : faults entries password = [] ↔
    (∀ e ∈ entries, e.faults = []) ∧ Bmp.Holds password := by
  simp only [faults, List.append_nil, List.append_eq_nil_iff, List.flatMap_eq_nil_iff,
    faultIf_eq_nil_iff, not_not]

theorem head?_faultIf_iff {p : Prop} [Decidable p] {own : Error} :
    (faultIf p own).head? = some fault ↔ p ∧ fault = own := by
  unfold faultIf
  split <;> simp_all [eq_comm]

theorem head?_faults_iff : (faults entries password).head? = some fault ↔
    (∃ before e after, entries = before ++ e :: after ∧ e.faults.head? = some fault ∧
      ∀ f ∈ before, f.faults = []) ∨
    ((∀ e ∈ entries, e.faults = []) ∧ ¬ Bmp.Holds password ∧ fault = .encoding) := by
  rw [faults, List.append_nil, List.head?_append, Option.or_eq_some_iff, List.head?_flatMap,
    List.findSome?_eq_some_iff, List.findSome?_eq_none_iff, head?_faultIf_iff]
  simp only [List.head?_eq_none_iff]

theorem blames_bags (e : KeyEntry) (s : Seal) : Blames e.faults (e.bags s) := by
  unfold KeyEntry.bags KeyEntry.faults
  split
  · exact .here ‹_›
  · rename_i leaf issuers hc
    refine .later (hc ▸ List.cons_ne_nil _ _) ?_
    split
    · rename_i hl
      exact .here (Text.Bmp.encode?_eq_none_iff.1 (Option.map_eq_none_iff.1 hl))
    · rename_i labels hl
      obtain ⟨name, hn, -⟩ := Option.map_eq_some_iff.1 hl
      have hholds := Text.Bmp.isSome_encode?_iff.1 (Option.isSome_of_eq_some hn)
      refine .later (not_not.2 hholds) ?_
      split
      · exact .here ‹_›
      · rename_i info hi
        exact .later (hi ▸ Option.some_ne_none _) (.ok _)

theorem blames_entryBags (seals : Nat → Seal) (place : Nat) (entries : List KeyEntry) :
    Blames (entries.flatMap KeyEntry.faults) (entryBags seals place entries) := by
  induction entries generalizing place with
  | nil => exact .ok []
  | cons e rest ih =>
    rw [List.flatMap_cons, ← List.append_nil (rest.flatMap _)]
    exact (blames_bags e (seals place)).bind fun _ _ => (ih (place + 1)).bind fun _ _ => .ok _

theorem blames_image (entries : List KeyEntry) (password : String) (d : Draws) :
    Blames (faults entries password) (image entries password d) := by
  refine (blames_entryBags d.keys 0 entries).bind fun bags _ => ?_
  unfold Mac.digest? Mac.key?
  cases hp : Text.Bmp.encode? password with
  | none => exact .here (Text.Bmp.encode?_eq_none_iff.1 hp)
  | some text =>
    have hholds := Text.Bmp.isSome_encode?_iff.1 (Option.isSome_of_eq_some hp)
    exact .later (not_not.2 hholds) (.ok _)

-- The length does not hang on what is drawn, nor on any password.
def Measured (entries : List KeyEntry) : Prop :=
  (mask (entries.map KeyEntry.shape)).length ≤ Der.maxLength

theorem blames_encode (h : Measured entries) (password : String) (d : Draws) :
    Blames (faults entries password) (encode entries password d) := by
  rw [encode_eq_image, ← List.append_nil (faults _ _)]
  refine (blames_image entries password d).bind fun v hv => ?_
  have hle : v.encode.length ≤ Der.maxLength := (length_image hv).trans_le h
  rw [Der.Value.toDer, if_pos hle]
  exact .ok _

theorem measured_of_encode {der : Bytes} (h : encode entries password d = .ok der) :
    Measured entries := by
  obtain ⟨v, hv, hfits, -⟩ := exists_image_of_encode h
  exact (length_image hv).symm.trans_le hfits

theorem KeyEntry.faults_unlocked (e : KeyEntry) : e.unlocked.faults = e.faults := rfl

theorem KeyEntry.shape_unlocked (e : KeyEntry) : e.unlocked.shape = e.shape := rfl

theorem unlocked_faults (password : String)
    (h : others.map KeyEntry.unlocked = entries.map KeyEntry.unlocked) :
    faults others password = faults entries password ∧ (Measured others ↔ Measured entries) := by
  have hfaults := congrArg (List.flatMap KeyEntry.faults) h
  have hshapes := congrArg (List.map KeyEntry.shape) h
  simp only [List.flatMap_map, KeyEntry.faults_unlocked] at hfaults
  simp only [List.map_map, Function.comp_def, KeyEntry.shape_unlocked] at hshapes
  exact ⟨congrArg (· ++ _) hfaults, by rw [Measured, Measured, hshapes]⟩

end Container

end Credential
