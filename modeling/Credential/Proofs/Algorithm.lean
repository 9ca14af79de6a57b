import Credential.Algorithm
import Credential.Proofs.Certificate.Arcs
/-!
Which texts name an algorithm: the spellings of its name, and the dotted texts of its identifier. A
dotted text with an arc of 2 ^ 32 or more may end in an overflow instead.
-/

namespace Credential

namespace SignatureAlgorithm

open Oid (Dotted Overflow Overflows)

variable {a b : SignatureAlgorithm} {s : String} {o : Oid} {cs ds pre post : List Char}
  {ns : List Nat} {e : Error}

def arcs (a : SignatureAlgorithm) : List Nat := [1, 2, 840, 113549, 1, 1, a.lastArc]

def Called (cs : List Char) (a : SignatureAlgorithm) : Prop :=
  (cs.filter (· ≠ '-')).map Char.toUpper = a.name.toList.map Char.toUpper

def Denotes (cs : List Char) (a : SignatureAlgorithm) : Prop :=
  Dotted cs a.arcs ∨ Called cs a

inductive Respelled : List Char → List Char → Prop
  | nil : Respelled [] []
  | dash {cs ds : List Char} : Respelled cs ds → Respelled cs ('-' :: ds)
  | letter {c d : Char} {cs ds : List Char} : d.toUpper = c.toUpper → Respelled cs ds →
    Respelled (c :: cs) (d :: ds)

theorem arcs_pos (a : SignatureAlgorithm) : ∀ n ∈ a.arcs, n ≠ 0 := by
  cases a <;> decide

theorem arcs_lt (a : SignatureAlgorithm) : ∀ n ∈ a.arcs, n < Oid.arcLimit := by
  cases a <;> decide

theorem isBeginning_arcs (a : SignatureAlgorithm) : Oid.isBeginning a.arcs = true := by
  cases a <;> decide_cbv

theorem arcs_injective (h : a.arcs = b.arcs) : a = b :=
  oid_injective (congrArg Oid.ofArcs h)

theorem toText_oid (a : SignatureAlgorithm) : a.oid.toText = Oid.dotted a.arcs := by
  cases a <;> decide_cbv

theorem name_without_dash (a : SignatureAlgorithm) : '-' ∉ a.name.toList := by
  cases a <;> decide

theorem upper_not_space (a : SignatureAlgorithm) :
    ∀ c ∈ a.name.toList, Text.isSpace c.toUpper = false := by
  cases a <;> simp [name] <;> decide

theorem upper_injective (h : a.name.toList.map Char.toUpper = b.name.toList.map Char.toUpper) :
    a = b := by
  revert h
  cases a <;> cases b <;> decide

theorem ofText_oid_iff : Oid.ofText s = .ok a.oid ↔ Dotted s.toList a.arcs := by
  rw [Oid.ofText_ok_iff]
  constructor
  · rintro ⟨-, ns, hns, hlt, hb, hl, ho⟩
    suffices harcs : ns = a.arcs by
      subst harcs
      exact hns.dotted a.arcs_pos
    cases ns with
    | nil => cases hl
    | cons first ns =>
      cases ns with
      | nil => simp at hl
      | cons second rest =>
        refine Oid.ofArcs_injective hb a.isBeginning_arcs ?_ ?_ ho.symm
        · exact fun k hk => hlt k (List.mem_cons_of_mem _ (List.mem_cons_of_mem _ hk))
        · exact fun k hk => a.arcs_lt k (List.mem_cons_of_mem _ (List.mem_cons_of_mem _ hk))
  · intro hd
    obtain ⟨hns, hhead⟩ := hd.numbers (List.cons_ne_nil _ _)
    exact ⟨hhead, a.arcs, hns, a.arcs_lt, a.isBeginning_arcs, by simp [arcs], rfl⟩

theorem find?_all_iff {p : SignatureAlgorithm → Bool}
    (h : ∀ a b, p a = true → p b = true → a = b) : all.find? p = some a ↔ p a = true := by
  constructor
  · exact List.find?_some
  · intro ha
    cases hf : all.find? p with
    | none => exact absurd ha (List.find?_eq_none.1 hf a (mem_all a))
    | some b => rw [h b a (List.find?_some hf) ha]

theorem ofOid?_iff : ofOid? o = some a ↔ o = a.oid := by
  rw [ofOid?, find?_all_iff]
  · rw [decide_eq_true_eq, eq_comm]
  · intro a b ha hb
    exact oid_injective ((of_decide_eq_true ha).trans (of_decide_eq_true hb).symm)

theorem Called.unique (ha : Called cs a) (hb : Called cs b) : a = b :=
  upper_injective (ha.symm.trans hb)

theorem normalize_eq_iff : normalize a.name = normalize s ↔ Called s.toList a := by
  have hname : a.name.toList.filter (· ≠ '-') = a.name.toList := by
    refine List.filter_eq_self.2 fun c hc => decide_eq_true ?_
    rintro rfl
    exact a.name_without_dash hc
  rw [normalize, normalize, String.ofList_inj, hname, Called, eq_comm]

theorem called_iff : all.find? (fun a => decide (normalize a.name = normalize s)) = some a ↔
    Called s.toList a := by
  rw [find?_all_iff, decide_eq_true_eq, normalize_eq_iff]
  intro a b ha hb
  have hcalled := normalize_eq_iff.1 (of_decide_eq_true ha)
  exact hcalled.unique (normalize_eq_iff.1 (of_decide_eq_true hb))

theorem not_called_of_head? (h : ∀ c ∈ cs.head?, c.isDigit = true) : ¬ Called cs a := by
  intro ha
  have hs : (a.name.toList.map Char.toUpper).head? = some 'S' := by
    cases a <;> decide
  rw [← ha] at hs
  cases cs with
  | nil => cases hs
  | cons c cs =>
    have hc := h c rfl
    have hdash : c ≠ '-' := by
      rintro rfl
      cases hc
    rw [List.filter_cons_of_pos (by simpa using hdash), List.map_cons, List.head?_cons,
      Text.toUpper_of_isDigit hc] at hs
    obtain rfl := Option.some.inj hs
    cases hc

theorem not_called_of_dotted (h : Dotted cs ns) : ¬ Called cs a :=
  not_called_of_head? fun c hc => h.head? c hc

theorem orUnsupported_ok_iff {r : Option SignatureAlgorithm} :
    orUnsupported s r = .ok a ↔ r = some a := by
  cases r <;> simp [orUnsupported]

theorem orUnsupported_error {r : Option SignatureAlgorithm} {f : Failure Error}
    (h : orUnsupported s r = .error f) : f = .raised (.unsupportedAlgorithm s) := by
  cases r with
  | none => exact (Except.error.inj h).symm
  | some a => cases h

theorem parse_ok_iff : parse s = .ok a ↔ Denotes (Text.trim s).toList a := by
  unfold parse Denotes
  rw [← ofText_oid_iff]
  split
  · rename_i o ho
    obtain ⟨⟨c, hc, hd⟩, -⟩ := Oid.ofText_ok_iff.1 ho
    have hnot : ¬ Called (Text.trim s).toList a := not_called_of_head? fun d hd' => by
      rwa [← Option.mem_unique hc hd']
    simp only [orUnsupported_ok_iff, ofOid?_iff, ho, Except.ok.injEq, hnot, or_false]
  · rename_i ho
    obtain ⟨⟨c, hc, hd⟩, -⟩ := Oid.ofText_overflow_iff.1 ho
    have hnot : ¬ Called (Text.trim s).toList a := not_called_of_head? fun d hd' => by
      rwa [← Option.mem_unique hc hd']
    simp only [ho, hnot, reduceCtorEq, or_self]
  · rename_i ho
    simp only [orUnsupported_ok_iff, called_iff, ho, reduceCtorEq, false_or]

theorem parse_overflow_iff :
    parse s = .error .overflow ↔ Overflows (Text.trim s).toList := by
  unfold parse
  rw [← Oid.ofText_overflow_iff]
  split
  · rename_i ho
    rw [ho]
    refine ⟨fun h => ?_, nofun⟩
    cases orUnsupported_error h
  · rename_i ho
    simp only [ho]
  · rename_i ho
    rw [ho]
    refine ⟨fun h => ?_, nofun⟩
    cases orUnsupported_error h

theorem parse_raised (h : parse s = .error (.raised e)) : e = .unsupportedAlgorithm s := by
  unfold parse at h
  split at h
  · exact Failure.raised.inj (orUnsupported_error h)
  · cases h
  · exact Failure.raised.inj (orUnsupported_error h)

theorem parse_raised_iff : parse s = .error (.raised e) ↔
    (∀ a, ¬ Denotes (Text.trim s).toList a) ∧ ¬ Overflows (Text.trim s).toList ∧
      e = .unsupportedAlgorithm s := by
  simp only [← parse_ok_iff, ← parse_overflow_iff]
  constructor
  · intro h
    rw [h]
    exact ⟨nofun, nofun, parse_raised h⟩
  · rintro ⟨hok, hoverflow, rfl⟩
    cases h : parse s with
    | ok a => exact absurd h (hok a)
    | error f =>
      cases f with
      | overflow => exact absurd h hoverflow
      | raised e => rw [parse_raised h]

theorem Denotes.unique (ha : Denotes cs a) (hb : Denotes cs b) : a = b := by
  rcases ha with ha | ha
  · rcases hb with hb | hb
    · exact arcs_injective (ha.unique hb)
    · exact absurd hb (not_called_of_dotted ha)
  · rcases hb with hb | hb
    · exact absurd ha (not_called_of_dotted hb)
    · exact ha.unique hb

theorem denotes_dotted_iff : Denotes (Oid.dotted ns).toList a ↔ ns = a.arcs := by
  have hd := Oid.dotted_dotted ns
  constructor
  · rintro (h | h)
    · exact hd.unique h
    · exact absurd h (not_called_of_dotted hd)
  · rintro rfl
    exact .inl hd

theorem Respelled.refl (cs : List Char) : Respelled cs cs := by
  induction cs with
  | nil => exact .nil
  | cons c cs ih => exact .letter rfl ih

theorem Respelled.upper_eq (h : Respelled cs ds) (hcs : '-' ∉ cs) :
    (ds.filter (· ≠ '-')).map Char.toUpper = cs.map Char.toUpper := by
  induction h with
  | nil => rfl
  | dash _ ih => exact ih hcs
  | @letter c d cs ds hcd _ ih =>
    obtain ⟨hc, hcs⟩ := not_or.1 (mt List.mem_cons.2 hcs)
    have hd : d ≠ '-' := by
      rintro rfl
      exact hc (Text.eq_dash_of_toUpper hcd.symm).symm
    rw [List.filter_cons_of_pos (by simpa using hd), List.map_cons, List.map_cons, hcd, ih hcs]

theorem Respelled.not_space (h : Respelled cs ds)
    (hcs : ∀ c ∈ cs, Text.isSpace c.toUpper = false) : ∀ d ∈ ds, Text.isSpace d = false := by
  induction h with
  | nil => exact List.forall_mem_nil _
  | dash _ ih => exact List.forall_mem_cons.2 ⟨by decide, ih hcs⟩
  | @letter c d cs ds hcd _ ih =>
    obtain ⟨hc, hcs⟩ := List.forall_mem_cons.1 hcs
    refine List.forall_mem_cons.2 ⟨?_, ih hcs⟩
    rw [Bool.eq_false_iff]
    intro hd
    rw [← hcd, Text.toUpper_of_isSpace hd] at hc
    rw [hc] at hd
    cases hd

theorem parse_respelled (h : Respelled a.name.toList ds)
    (hpre : ∀ c ∈ pre, Text.isSpace c = true) (hpost : ∀ c ∈ post, Text.isSpace c = true) :
    parse (String.ofList (pre ++ ds ++ post)) = .ok a := by
  rw [parse_ok_iff, Text.trim, String.toList_ofList, String.toList_ofList,
    Text.trimChars_surrounded hpre hpost (h.not_space a.upper_not_space)]
  exact .inr (h.upper_eq a.name_without_dash)

theorem parse_name (a : SignatureAlgorithm) : parse a.name = .ok a := by
  have h := parse_respelled (.refl a.name.toList) (List.forall_mem_nil _) (List.forall_mem_nil _)
  rwa [List.nil_append, List.append_nil, String.ofList_toList] at h

theorem parse_toText (a : SignatureAlgorithm) : parse a.oid.toText = .ok a := by
  rw [toText_oid, parse_ok_iff, Oid.trim_dotted]
  exact denotes_dotted_iff.2 rfl

theorem findIdentifier_ok_iff {i : AlgorithmIdentifier} : findIdentifier s = .ok i ↔
    ∃ a, parse s = .ok a ∧ i = ⟨a.oid, some .null⟩ := by
  rw [findIdentifier, map_ok_iff]
  simp only [identifier, eq_comm]

theorem findIdentifier_error_iff {f : Failure Error} :
    findIdentifier s = .error f ↔ parse s = .error f := by
  rw [findIdentifier]
  cases parse s <;> simp [Except.map]

end SignatureAlgorithm

end Credential
