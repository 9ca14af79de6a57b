import Mathlib
import Credential.Oid
import Credential.Proofs.Results
import Credential.Proofs.Text.Trimming

namespace Credential

namespace Oid

variable {c : Char} {n : Nat} {arcs ms ns : List Nat} {o : Oid} {cs ds rest : List Char}

def Canonical (o : Oid) : Prop := ∃ arcs, o = ofArcs arcs

inductive Numbers : List Char → List Nat → Prop
  | last {ds : List Char} : (∀ c ∈ ds, c.isDigit = true) → Numbers ds [Nat.ofDigitChars 10 ds 0]
  | more {ds cs : List Char} {ns : List Nat} : (∀ c ∈ ds, c.isDigit = true) → cs ≠ [] →
    Numbers cs ns → Numbers (ds ++ '.' :: cs) (Nat.ofDigitChars 10 ds 0 :: ns)

-- After `arcs` comes a number that is no arc, or arcs that can stand there and then such a number.
inductive Overflow : List Nat → List Nat → Prop
  | here {arcs : List Nat} {n : Nat} {ns : List Nat} : arcLimit ≤ n → Overflow arcs (n :: ns)
  | later {arcs : List Nat} {n : Nat} {ns : List Nat} : n < arcLimit →
    isBeginning (arcs ++ [n]) = true → Overflow (arcs ++ [n]) ns → Overflow arcs (n :: ns)

-- Nothing is looked at after the number that overflows.
def Overflows (cs : List Char) : Prop :=
  (∃ c ∈ cs.head?, c.isDigit = true) ∧
    ∃ front rest ns, cs = front ++ rest ∧ Numbers front ns ∧ Overflow [] ns

theorem isBeginning_of_append (h : isBeginning (ms ++ ns) = true) : isBeginning ms = true := by
  cases ms with
  | nil => rfl
  | cons first ms =>
    cases ms with
    | nil =>
      cases ns with
      | nil => exact h
      | cons second ns =>
        simp only [List.cons_append, List.nil_append, isBeginning, Bool.and_eq_true] at h
        exact h.1.1
    | cons second rest =>
      simp only [List.cons_append, isBeginning, ofArcs, List.flatMap_append, List.length_cons,
        List.length_append, Bool.and_eq_true, decide_eq_true_eq] at h ⊢
      exact ⟨h.1, decide_eq_true (by omega)⟩

theorem le_ofDigitChars (ds : List Char) (n : Nat) : n ≤ Nat.ofDigitChars 10 ds n := by
  induction ds generalizing n with
  | nil => exact Nat.le_refl n
  | cons c ds ih =>
    rw [Nat.ofDigitChars_cons]
    exact Nat.le_trans (by omega) (ih _)

theorem textArcs_cons (hdot : c ≠ '.') (arc : Nat) (rest : List Char) :
    textArcs arcs arc (c :: rest) = if c.isDigit = true then
      if 10 * arc + (c.toNat - '0'.toNat) < arcLimit then
        textArcs arcs (10 * arc + (c.toNat - '0'.toNat)) rest
      else .error .overflow
    else .error (.raised ()) := by
  rw [textArcs, Text.digitValue, Nat.mul_comm arc]
  · rfl
  · exact hdot

theorem ne_dot_of_isDigit (h : c.isDigit = true) : c ≠ '.' := by
  rintro rfl
  cases h

theorem textArcs_digits {arc : Nat} (h : ∀ c ∈ ds, c.isDigit = true) (ha : arc < arcLimit) :
    textArcs arcs arc (ds ++ rest) = if Nat.ofDigitChars 10 ds arc < arcLimit then
      textArcs arcs (Nat.ofDigitChars 10 ds arc) rest else .error .overflow := by
  induction ds generalizing arc with
  | nil => exact (if_pos ha).symm
  | cons c ds ih =>
    obtain ⟨hc, hds⟩ := List.forall_mem_cons.1 h
    rw [List.cons_append, textArcs_cons (ne_dot_of_isDigit hc), if_pos hc, Nat.ofDigitChars_cons]
    split
    · rename_i hstep
      exact ih hds hstep
    · rename_i hstep
      have hle := le_ofDigitChars ds (10 * arc + (c.toNat - '0'.toNat))
      rw [if_neg (by omega)]

theorem textArcs_dot (hd : ∀ c ∈ ds, c.isDigit = true)
    (hlt : Nat.ofDigitChars 10 ds 0 < arcLimit) (hne : cs ≠ []) :
    textArcs arcs 0 (ds ++ '.' :: cs) =
      (extend arcs (Nat.ofDigitChars 10 ds 0)).bind fun arcs => textArcs arcs 0 cs := by
  rw [textArcs_digits hd (by decide), if_pos hlt, textArcs, List.isEmpty_eq_false_iff.2 hne]
  rfl

theorem extend_of (h : isBeginning (arcs ++ [n]) = true) : extend arcs n = .ok (arcs ++ [n]) :=
  if_pos h

theorem extend_ok (h : extend arcs n = .ok ns) :
    ns = arcs ++ [n] ∧ isBeginning (arcs ++ [n]) = true := by
  unfold extend at h
  split at h
  · rename_i hb
    exact ⟨(Except.ok.inj h).symm, hb⟩
  · cases h

theorem extend_ne_overflow (arcs : List Nat) (n : Nat) : extend arcs n ≠ .error .overflow := by
  unfold extend
  split <;> nofun

theorem extend_bind_overflow {next : List Nat → Except (Failure Unit) (List Nat)}
    (h : (extend arcs n).bind next = .error .overflow) :
    isBeginning (arcs ++ [n]) = true ∧ next (arcs ++ [n]) = .error .overflow := by
  unfold extend at h
  split at h
  · rename_i hb
    exact ⟨hb, h⟩
  · cases h

theorem ofDigitChars_concat (ds : List Char) (c : Char) : Nat.ofDigitChars 10 (ds ++ [c]) 0 =
    10 * Nat.ofDigitChars 10 ds 0 + (c.toNat - '0'.toNat) := by
  rw [Nat.ofDigitChars_append, Nat.ofDigitChars_cons, Nat.ofDigitChars_nil]

theorem Numbers.textArcs_ok (h : Numbers cs ns) (hlt : ∀ n ∈ ns, n < arcLimit)
    (hb : isBeginning (arcs ++ ns) = true) : textArcs arcs 0 cs = .ok (arcs ++ ns) := by
  induction h generalizing arcs with
  | @last ds hd =>
    rw [← List.append_nil ds, textArcs_digits hd (by decide), List.append_nil,
      if_pos (List.forall_mem_singleton.1 hlt)]
    exact extend_of hb
  | more hd hne _ ih =>
    obtain ⟨hn, hns⟩ := List.forall_mem_cons.1 hlt
    rw [List.append_cons arcs] at hb ⊢
    rw [textArcs_dot hd hn hne, extend_of (isBeginning_of_append hb)]
    exact ih hns hb

theorem Numbers.textArcs_overflow (h : Numbers cs ns) (ho : Overflow arcs ns)
    (rest : List Char) : textArcs arcs 0 (cs ++ rest) = .error .overflow := by
  induction h generalizing arcs with
  | last hd =>
    rw [textArcs_digits hd (by decide)]
    cases ho with
    | here hn => exact if_neg (Nat.not_lt.2 hn)
    | later _ _ ho => cases ho
  | more hd hne _ ih =>
    rw [List.append_assoc, List.cons_append]
    cases ho with
    | here hn => rw [textArcs_digits hd (by decide), if_neg (Nat.not_lt.2 hn)]
    | later hn hb ho =>
      rw [textArcs_dot hd hn (List.append_ne_nil_of_left_ne_nil hne rest), extend_of hb]
      exact ih ho

theorem Numbers.overflow (h : Numbers cs ns) (ho : textArcs arcs 0 cs = .error .overflow) :
    Overflow arcs ns := by
  induction h generalizing arcs with
  | @last ds hd =>
    rw [← List.append_nil ds, textArcs_digits hd (by decide)] at ho
    split at ho
    · exact absurd ho (extend_ne_overflow arcs _)
    · rename_i hn
      exact .here (Nat.not_lt.1 hn)
  | @more ds cs ns hd hne _ ih =>
    by_cases hn : Nat.ofDigitChars 10 ds 0 < arcLimit
    · rw [textArcs_dot hd hn hne] at ho
      obtain ⟨hb, ho⟩ := extend_bind_overflow ho
      exact .later hn hb (ih ho)
    · exact .here (Nat.not_lt.1 hn)

theorem forall_mem_nil_isDigit : ∀ c ∈ ([] : List Char), c.isDigit = true :=
  List.forall_mem_nil _

-- The reader is in the middle of a number: the digits of it that it has passed are `ds`.
theorem numbers_of_textArcs (hd : ∀ c ∈ ds, c.isDigit = true)
    (hlt : Nat.ofDigitChars 10 ds 0 < arcLimit)
    (h : textArcs arcs (Nat.ofDigitChars 10 ds 0) cs = .ok ns) : ∃ ms, ns = arcs ++ ms ∧
      Numbers (ds ++ cs) ms ∧ (∀ m ∈ ms, m < arcLimit) ∧ isBeginning ns = true := by
  induction cs generalizing arcs ds with
  | nil =>
    obtain ⟨rfl, hb⟩ := extend_ok h
    rw [List.append_nil]
    exact ⟨_, rfl, .last hd, List.forall_mem_singleton.2 hlt, hb⟩
  | cons c cs ih =>
    by_cases hdot : c = '.'
    · subst hdot
      rw [textArcs] at h
      split at h
      · cases h
      · rename_i hne
        obtain ⟨next, he, h⟩ := exists_of_bind_ok h
        obtain ⟨rfl, -⟩ := extend_ok he
        obtain ⟨ms, rfl, hms, hlts, hb⟩ := ih forall_mem_nil_isDigit (by decide) h
        refine ⟨_ :: ms, (List.append_cons ..).symm, .more hd ?_ hms, ?_, hb⟩
        · rintro rfl
          exact hne rfl
        · exact List.forall_mem_cons.2 ⟨hlt, hlts⟩
    · rw [textArcs_cons hdot] at h
      split at h
      · rename_i hc
        split at h
        · rename_i hstep
          rw [← ofDigitChars_concat] at h hstep
          rw [List.append_cons]
          exact ih (List.forall_mem_append.2 ⟨hd, List.forall_mem_singleton.2 hc⟩) hstep h
        · cases h
      · cases h

theorem overflow_of_textArcs (hd : ∀ c ∈ ds, c.isDigit = true)
    (hlt : Nat.ofDigitChars 10 ds 0 < arcLimit)
    (h : textArcs arcs (Nat.ofDigitChars 10 ds 0) cs = .error .overflow) :
    ∃ front rest ns, ds ++ cs = front ++ rest ∧ Numbers front ns ∧ Overflow arcs ns := by
  induction cs generalizing arcs ds with
  | nil => exact absurd h (extend_ne_overflow arcs _)
  | cons c cs ih =>
    by_cases hdot : c = '.'
    · subst hdot
      rw [textArcs] at h
      split at h
      · cases h
      · obtain ⟨hb, h⟩ := extend_bind_overflow h
        obtain ⟨front, rest, ns, hcs, hns, ho⟩ := ih forall_mem_nil_isDigit (by decide) h
        refine ⟨ds ++ '.' :: front, rest, _ :: ns, ?_, .more hd ?_ hns, .later hlt hb ho⟩
        · rw [List.append_assoc, List.cons_append, ← hcs]
          rfl
        · rintro rfl
          exact extend_ne_overflow _ 0 (hns.textArcs_overflow ho [])
    · rw [textArcs_cons hdot] at h
      split at h
      · rename_i hc
        have hdc : ∀ d ∈ ds ++ [c], d.isDigit = true :=
          List.forall_mem_append.2 ⟨hd, List.forall_mem_singleton.2 hc⟩
        rw [← ofDigitChars_concat] at h
        rw [List.append_cons]
        split at h
        · rename_i hstep
          exact ih hdc hstep h
        · rename_i hstep
          exact ⟨ds ++ [c], cs, _, rfl, .last hdc, .here (Nat.not_lt.1 hstep)⟩
      · cases h

theorem numbers_of_textArcs_zero (h : textArcs [] 0 cs = .ok ns) :
    Numbers cs ns ∧ (∀ n ∈ ns, n < arcLimit) ∧ isBeginning ns = true := by
  obtain ⟨ms, rfl, hread⟩ := numbers_of_textArcs forall_mem_nil_isDigit (by decide) h
  exact hread

theorem ofText_eq {s : String} (h : ∃ c ∈ s.toList.head?, c.isDigit = true) :
    ofText s = textArcs [] 0 s.toList >>= fun arcs =>
      if 3 ≤ arcs.length then .ok (ofArcs arcs) else .error (.raised ()) := by
  unfold ofText
  obtain ⟨c, hc, hd⟩ := h
  cases hs : s.toList with
  | nil =>
    rw [hs] at hc
    cases hc
  | cons d rest =>
    rw [hs] at hc
    obtain rfl := Option.some.inj hc
    exact if_pos hd

theorem ofText_eq_raised {s : String} (h : ¬ ∃ c ∈ s.toList.head?, c.isDigit = true) :
    ofText s = .error (.raised ()) := by
  unfold ofText
  cases hs : s.toList with
  | nil => rfl
  | cons c rest =>
    rw [hs] at h
    exact if_neg fun hc => h ⟨c, rfl, hc⟩

theorem ofText_ok_iff {s : String} : ofText s = .ok o ↔
    (∃ c ∈ s.toList.head?, c.isDigit = true) ∧ ∃ ns, Numbers s.toList ns ∧
      (∀ n ∈ ns, n < arcLimit) ∧ isBeginning ns = true ∧ 3 ≤ ns.length ∧ o = ofArcs ns := by
  by_cases hhead : ∃ c ∈ s.toList.head?, c.isDigit = true
  · rw [ofText_eq hhead]
    constructor
    · intro h
      obtain ⟨ns, hread, h⟩ := exists_of_bind_ok h
      obtain ⟨hns, hlt, hb⟩ := numbers_of_textArcs_zero hread
      split at h
      · rename_i hl
        exact ⟨hhead, ns, hns, hlt, hb, hl, (Except.ok.inj h).symm⟩
      · cases h
    · rintro ⟨-, ns, hns, hlt, hb, hl, rfl⟩
      have hread : textArcs [] 0 s.toList = .ok ([] ++ ns) := hns.textArcs_ok hlt hb
      rw [hread]
      exact if_pos hl
  · rw [ofText_eq_raised hhead]
    simp only [reduceCtorEq, hhead, false_and]

theorem ofText_overflow_iff {s : String} :
    ofText s = .error .overflow ↔ Overflows s.toList := by
  by_cases hhead : ∃ c ∈ s.toList.head?, c.isDigit = true
  · rw [ofText_eq hhead, bind_error_iff]
    constructor
    · rintro (h | ⟨ns, -, h⟩)
      · exact ⟨hhead, overflow_of_textArcs forall_mem_nil_isDigit (by decide) h⟩
      · split at h <;> cases h
    · rintro ⟨-, front, rest, ns, hcs, hns, ho⟩
      rw [hcs]
      exact .inl (hns.textArcs_overflow ho rest)
  · rw [ofText_eq_raised hhead]
    simp only [Overflows, hhead, false_and, iff_false]
    nofun

theorem toList_dotted (ns : List Nat) :
    (dotted ns).toList = ['.'].intercalate (ns.map (Nat.toDigits 10)) := by
  have hdigits : String.toList ∘ (fun n : Nat => toString n) = Nat.toDigits 10 := by
    funext n
    rw [Function.comp_apply, Nat.toString_eq_repr, Nat.toList_repr]
  rw [dotted, String.toList_intercalate, List.map_map, hdigits]
  rfl

theorem isDigit_of_mem_toDigits (h : c ∈ Nat.toDigits 10 n) : c.isDigit = true :=
  Nat.isDigit_of_mem_toDigits (by decide) (by decide) h

def Dotted (cs : List Char) (ns : List Nat) : Prop :=
  ∃ parts : List (List Char), cs = ['.'].intercalate parts ∧
    (∀ digits ∈ parts, digits ≠ [] ∧ ∀ c ∈ digits, c.isDigit = true) ∧
    parts.map (fun digits => Nat.ofDigitChars 10 digits 0) = ns

theorem dotted_dotted (ns : List Nat) : Dotted (dotted ns).toList ns := by
  refine ⟨ns.map (Nat.toDigits 10), toList_dotted ns, ?_, ?_⟩
  · intro digits hd
    obtain ⟨n, -, rfl⟩ := List.mem_map.1 hd
    exact ⟨Nat.toDigits_ne_nil, fun c hc => isDigit_of_mem_toDigits hc⟩
  · rw [List.map_map]
    refine (List.map_congr_left fun n _ => ?_).trans (List.map_id ns)
    exact Nat.ofDigitChars_ten_toDigits

theorem Dotted.unique (hm : Dotted cs ms) (hn : Dotted cs ns) : ms = ns := by
  obtain ⟨ps, hp, hps, rfl⟩ := hm
  obtain ⟨qs, hq, hqs, rfl⟩ := hn
  have hsplit {parts : List (List Char)} (hne : parts ≠ [])
      (h : ∀ digits ∈ parts, digits ≠ [] ∧ ∀ c ∈ digits, c.isDigit = true) :
      (['.'].intercalate parts).splitOn '.' = parts := by
    refine List.splitOn_intercalate '.' ?_ hne
    intro digits hd hdot
    cases (h digits hd).2 '.' hdot
  have hempty {parts : List (List Char)} (hne : parts ≠ [])
      (h : ∀ digits ∈ parts, digits ≠ [] ∧ ∀ c ∈ digits, c.isDigit = true)
      (hnil : ['.'].intercalate parts = []) : False := by
    have hs := hsplit hne h
    rw [hnil] at hs
    subst hs
    exact (h [] List.mem_cons_self).1 rfl
  by_cases hpn : ps = []
  · subst hpn
    by_cases hqn : qs = []
    · rw [hqn]
    · exact (hempty hqn hqs (hq.symm.trans hp)).elim
  · by_cases hqn : qs = []
    · subst hqn
      exact (hempty hpn hps (hp.symm.trans hq)).elim
    · rw [← hsplit hpn hps, ← hp, hq, hsplit hqn hqs]

theorem dotted_injective (h : dotted ms = dotted ns) : ms = ns := by
  have hd := dotted_dotted ms
  rw [h] at hd
  exact hd.unique (dotted_dotted ns)

theorem Dotted.numbers (h : Dotted cs ns) (hne : ns ≠ []) :
    Numbers cs ns ∧ ∃ c ∈ cs.head?, c.isDigit = true := by
  obtain ⟨parts, rfl, hparts, rfl⟩ := h
  cases parts with
  | nil => exact absurd rfl hne
  | cons first rest =>
    clear hne
    induction rest generalizing first with
    | nil =>
      obtain ⟨hfull, hfirst⟩ := List.forall_mem_singleton.1 hparts
      obtain ⟨c, digits, rfl⟩ := List.exists_cons_of_ne_nil hfull
      rw [List.intercalate_singleton]
      exact ⟨.last hfirst, c, rfl, hfirst c List.mem_cons_self⟩
    | cons second rest ih =>
      obtain ⟨⟨hfull, hfirst⟩, hrest⟩ := List.forall_mem_cons.1 hparts
      obtain ⟨hnumbers, c, hc, -⟩ := ih second hrest
      obtain ⟨d, digits, rfl⟩ := List.exists_cons_of_ne_nil hfull
      rw [List.intercalate_cons_cons, List.append_assoc, List.singleton_append]
      refine ⟨.more hfirst ?_ hnumbers, d, rfl, hfirst d List.mem_cons_self⟩
      rintro hnil
      rw [hnil] at hc
      cases hc

theorem Numbers.ne_nil (h : Numbers cs ns) : ns ≠ [] := by
  cases h <;> exact List.cons_ne_nil _ _

theorem Numbers.dotted (h : Numbers cs ns) (hpos : ∀ n ∈ ns, n ≠ 0) : Dotted cs ns := by
  induction h with
  | @last ds hd =>
    refine ⟨[ds], (List.intercalate_singleton ..).symm, ?_, rfl⟩
    refine List.forall_mem_singleton.2 ⟨?_, hd⟩
    rintro rfl
    exact hpos 0 List.mem_cons_self rfl
  | @more ds cs ns hd _ hns ih =>
    obtain ⟨hn, hrest⟩ := List.forall_mem_cons.1 hpos
    obtain ⟨parts, rfl, hparts, rfl⟩ := ih hrest
    obtain ⟨first, others, rfl⟩ := List.exists_cons_of_ne_nil (List.map_eq_nil_iff.not.1 hns.ne_nil)
    refine ⟨ds :: first :: others, ?_, List.forall_mem_cons.2 ⟨⟨?_, hd⟩, hparts⟩, rfl⟩
    · rw [List.intercalate_cons_cons, List.append_assoc, List.singleton_append]
    · rintro rfl
      exact hn rfl

theorem Numbers.mem (h : Numbers cs ns) (hc : c ∈ cs) : c.isDigit = true ∨ c = '.' := by
  induction h with
  | last hd => exact .inl (hd c hc)
  | more hd _ _ ih =>
    rcases List.mem_append.1 hc with hc | hc
    · exact .inl (hd c hc)
    · rcases List.mem_cons.1 hc with rfl | hc
      · exact .inr rfl
      · exact ih hc

theorem Dotted.eq_nil (h : Dotted cs []) : cs = [] := by
  obtain ⟨parts, rfl, -, hparts⟩ := h
  rw [List.map_eq_nil_iff.1 hparts]
  rfl

theorem Dotted.mem (h : Dotted cs ns) (hc : c ∈ cs) : c.isDigit = true ∨ c = '.' := by
  by_cases hne : ns = []
  · subst hne
    rw [h.eq_nil] at hc
    cases hc
  · exact (h.numbers hne).1.mem hc

theorem Dotted.head? (h : Dotted cs ns) : ∀ c ∈ cs.head?, c.isDigit = true := by
  intro c hc
  by_cases hne : ns = []
  · subst hne
    rw [h.eq_nil] at hc
    cases hc
  · obtain ⟨-, d, hd, hdigit⟩ := h.numbers hne
    rwa [← Option.mem_unique hd hc]

theorem Dotted.overflows_iff (h : Dotted cs ns) : Overflows cs ↔ Overflow [] ns := by
  by_cases hne : ns = []
  · subst hne
    rw [h.eq_nil]
    constructor
    · rintro ⟨⟨c, hc, -⟩, -⟩
      cases hc
    · intro ho
      cases ho
  · obtain ⟨hnumbers, hhead⟩ := h.numbers hne
    constructor
    · rintro ⟨-, front, rest, ms, rfl, hms, ho⟩
      exact hnumbers.overflow (hms.textArcs_overflow ho rest)
    · intro ho
      exact ⟨hhead, cs, [], ns, (List.append_nil cs).symm, hnumbers, ho⟩

theorem trim_dotted (ns : List Nat) : Text.trim (dotted ns) = dotted ns := by
  have hspace : ∀ c ∈ (dotted ns).toList, Text.isSpace c = false := by
    intro c hc
    rcases (dotted_dotted ns).mem hc with hd | rfl
    · exact Text.isSpace_of_isDigit hd
    · decide
  rw [Text.trim, Text.trimChars_of_forall hspace, String.ofList_toList]

end Oid

end Credential
