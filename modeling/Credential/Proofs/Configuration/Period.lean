import Credential.Configuration.Basic
import Credential.Proofs.Powers
import Credential.Proofs.Results
/-!
The texts that are periods, as a grammar: a sign, components of the date, components of the time.
The reader accepts exactly these up to the longest period, and sums them up.
-/

namespace Credential.Period

inductive IsUnit : Part → Char → Nat → Prop
  | week : IsUnit .date 'W' 604800
  | day : IsUnit .date 'D' 86400
  | hour : IsUnit .time 'H' 3600
  | minute : IsUnit .time 'M' 60
  | second : IsUnit .time 'S' 1

inductive Components (part : Part) : List Char → Nat → Nat → Prop
  | empty : Components part [] 0 0
  | more {digits rest : List Char} {letter : Char} {unit count total : Nat} (hn : digits ≠ [])
    (hd : ∀ c ∈ digits, Text.isDigit c = true) (hu : IsUnit part letter unit)
    (h : Components part rest count total) : Components part (digits ++ letter :: rest) (count + 1)
      (unit * Text.decimalValue digits + total)

inductive Body : List Char → Nat → Prop
  | date {cs : List Char} {count total : Nat} (h : Components .date cs count total)
    (hc : 0 < count) : Body cs total
  | time {ds ts : List Char} {count count' total total' : Nat}
    (hd : Components .date ds count total) (ht : Components .time ts count' total')
    (hc : 0 < count') : Body (ds ++ 'T' :: ts) (total + total')

inductive Spells : List Char → Int → Prop
  | plain {cs : List Char} {n : Nat} (h : Body cs n) : Spells ('P' :: cs) n
  | plus {cs : List Char} {n : Nat} (h : Body cs n) : Spells ('+' :: 'P' :: cs) n
  | minus {cs : List Char} {n : Nat} (h : Body cs n) : Spells ('-' :: 'P' :: cs) (-n)

variable {part : Part} {c : Char} {cs ds digits rest : List Char} {unit value total count n r : Nat}
  {f : Bool}

theorem unit_ok_iff : part.unit c = .ok unit ↔ IsUnit part c unit := by
  constructor
  · intro h
    unfold Part.unit at h
    split at h <;> cases h
    · exact .week
    · exact .day
    · exact .hour
    · exact .minute
    · exact .second
  · intro h
    cases h <;> rfl

theorem IsUnit.pos (h : IsUnit part c unit) : 0 < unit := by
  cases h <;> decide

theorem IsUnit.not_digit (h : IsUnit part c unit) : Text.isDigit c = false := by
  cases h <;> decide

theorem addComponent_ok_iff : addComponent part total value c = .ok n ↔
    ∃ unit, IsUnit part c unit ∧ n = total + unit * value ∧ n ≤ limit := by
  unfold addComponent
  constructor
  · intro h
    split at h
    · cases h
    · split at h
      · cases h
      · rename_i unit hu
        split at h
        · cases h
        · cases h
          exact ⟨unit, unit_ok_iff.1 hu, rfl, by omega⟩
  · rintro ⟨unit, hu, rfl, hl⟩
    have hv : value ≤ unit * value := Nat.le_mul_of_pos_left value hu.pos
    rw [if_neg (by omega), unit_ok_iff.2 hu]
    exact if_neg (by omega)

theorem scan_digits (hd : ∀ c ∈ digits, Text.isDigit c = true) (value : Nat) :
    scan part (some value) total f (digits ++ rest) =
      scan part (some (digits.foldl (fun n c => n * 10 + Text.digitValue c) value)) total f rest := by
  induction digits generalizing value with
  | nil => rfl
  | cons c digits ih =>
    obtain ⟨hc, hds⟩ := List.forall_mem_cons.1 hd
    rw [List.cons_append, scan, if_pos hc, Option.getD_some]
    exact ih hds _

theorem scan_number (hn : digits ≠ []) (hd : ∀ c ∈ digits, Text.isDigit c = true) :
    scan part none total f (digits ++ rest) =
      scan part (some (Text.decimalValue digits)) total f rest := by
  obtain ⟨c, more, rfl⟩ := List.exists_cons_of_ne_nil hn
  obtain ⟨hc, hds⟩ := List.forall_mem_cons.1 hd
  rw [List.cons_append, scan, if_pos hc]
  exact scan_digits hds _

theorem scan_components (h : Components part cs count n) (hl : total + n ≤ limit) (f : Bool)
    (rest : List Char) :
    scan part none total f (cs ++ rest) =
      scan part none (total + n) (f || decide (0 < count)) rest := by
  induction h generalizing total f with
  | empty => simp
  | @more digits cs letter unit count m hn hd hu _ ih =>
    have hadd : addComponent part total (Text.decimalValue digits) letter =
        .ok (total + unit * Text.decimalValue digits) :=
      addComponent_ok_iff.2 ⟨unit, hu, rfl, by omega⟩
    rw [List.append_assoc, scan_number hn hd, List.cons_append, scan, hu.not_digit]
    simp only [Bool.false_eq_true, if_false, hadd]
    rw [ih (by omega), Nat.add_assoc]
    simp

theorem scan_pending_ok (h : scan part (some value) total f cs = .ok r) :
    ∃ digits letter unit rest, cs = digits ++ letter :: rest ∧
      (∀ c ∈ digits, Text.isDigit c = true) ∧ IsUnit part letter unit ∧
      total + unit * digits.foldl (fun n c => n * 10 + Text.digitValue c) value ≤ limit ∧
      scan part none
        (total + unit * digits.foldl (fun n c => n * 10 + Text.digitValue c) value) true rest =
          .ok r := by
  induction cs generalizing value with
  | nil => cases h
  | cons c cs ih =>
    rw [scan] at h
    split at h
    · rename_i hc
      obtain ⟨digits, letter, unit, rest, rfl, hd, hu, hl, hr⟩ := ih h
      exact ⟨c :: digits, letter, unit, rest, rfl, List.forall_mem_cons.2 ⟨hc, hd⟩, hu, hl, hr⟩
    · split at h
      · cases h
      · rename_i m ha
        obtain ⟨unit, hu, rfl, hl⟩ := addComponent_ok_iff.1 ha
        exact ⟨[], c, unit, cs, rfl, List.forall_mem_nil _, hu, hl, h⟩

theorem scan_ok (h : scan part none total f cs = .ok r) (ht : total ≤ limit) :
    ∃ ds count n rest, cs = ds ++ rest ∧ Components part ds count n ∧ total + n ≤ limit ∧
      ((rest = [] ∧ (f = true ∨ 0 < count) ∧ r = total + n) ∨
        part = .date ∧ ∃ ts, rest = 'T' :: ts ∧ scan .time none (total + n) false ts = .ok r) := by
  induction hlen : cs.length using Nat.strongRecOn generalizing cs total f with
  | ind k ih =>
    subst hlen
    cases cs with
    | nil =>
      rw [scan] at h
      split at h
      · rename_i hf
        cases h
        exact ⟨[], 0, 0, [], rfl, .empty, ht, .inl ⟨rfl, .inl hf, rfl⟩⟩
      · cases h
    | cons c cs =>
      rw [scan] at h
      split at h
      · rename_i hc
        obtain ⟨digits, letter, unit, rest, rfl, hd, hu, hl, hr⟩ := scan_pending_ok h
        have hshort : rest.length < (c :: (digits ++ letter :: rest)).length := by
          simp only [List.length_cons, List.length_append]
          omega
        obtain ⟨ds, count, n, rest, rfl, hds, hn, hend⟩ := ih _ hshort hr hl rfl
        refine ⟨(c :: digits) ++ letter :: ds, count + 1, _, rest, by simp,
          .more (List.cons_ne_nil _ _) (List.forall_mem_cons.2 ⟨hc, hd⟩) hu hds, ?_, ?_⟩
        · rw [← Nat.add_assoc]
          exact hn
        · rcases hend with ⟨hrest, -, rfl⟩ | hopen
          · exact .inl ⟨hrest, .inr (Nat.succ_pos _), Nat.add_assoc _ _ _⟩
          · rw [← Nat.add_assoc]
            exact .inr hopen
      · split at h
        · rename_i hT
          obtain ⟨rfl, rfl⟩ := hT
          exact ⟨[], 0, 0, _, rfl, .empty, ht, .inr ⟨rfl, _, rfl, h⟩⟩
        · cases h

theorem scan_ok_iff : scan .date none 0 false cs = .ok r ↔ Body cs r ∧ r ≤ limit := by
  constructor
  · intro h
    obtain ⟨ds, count, n, rest, rfl, hd, hl, hend⟩ := scan_ok h (Nat.zero_le _)
    rw [Nat.zero_add] at hl hend
    rcases hend with ⟨rfl, hc, rfl⟩ | ⟨-, ts, rfl, ht⟩
    · rw [List.append_nil]
      exact ⟨.date hd (hc.resolve_left Bool.false_ne_true), hl⟩
    · obtain ⟨us, count', n', rest, rfl, hu, hl', hend'⟩ := scan_ok ht hl
      rcases hend' with ⟨rfl, hc', rfl⟩ | ⟨hp, -⟩
      · rw [List.append_nil]
        exact ⟨.time hd hu (hc'.resolve_left Bool.false_ne_true), hl'⟩
      · cases hp
  · rintro ⟨h, hl⟩
    have hstart : 0 + r ≤ limit := by omega
    cases h with
    | @date _ count _ h hc =>
      have hs := scan_components h hstart false []
      rw [List.append_nil] at hs
      rw [hs]
      simp [scan, hc]
    | @time ds ts count count' n n' hd ht hc =>
      have hs := scan_components ht hl false []
      rw [List.append_nil] at hs
      have hT : Text.isDigit 'T' = false := rfl
      rw [scan_components hd (by omega : 0 + n ≤ limit), scan, hT]
      simp only [Bool.false_eq_true, if_false, and_self, if_true, Nat.zero_add]
      rw [hs]
      simp [scan, hc]

theorem readLength_ok_iff : readLength cs = .ok n ↔ ∃ body, cs = 'P' :: body ∧ Body body n ∧
    n ≤ limit := by
  unfold readLength
  split
  · rw [scan_ok_iff]
    simp
  · rename_i hne
    constructor
    · intro h
      cases h
    · rintro ⟨body, rfl, -⟩
      exact absurd rfl (hne body)

theorem readSigned_ok_iff {seconds : Int} : readSigned cs = .ok seconds ↔
    Spells cs seconds ∧ seconds.natAbs ≤ limit := by
  constructor
  · intro h
    unfold readSigned at h
    split at h
    · obtain ⟨n, hn, rfl⟩ := map_ok_iff.1 h
      obtain ⟨body, rfl, hb, hl⟩ := readLength_ok_iff.1 hn
      exact ⟨.minus hb, by rwa [Int.natAbs_neg]⟩
    · obtain ⟨n, hn, rfl⟩ := map_ok_iff.1 h
      obtain ⟨body, rfl, hb, hl⟩ := readLength_ok_iff.1 hn
      exact ⟨.plus hb, hl⟩
    · obtain ⟨n, hn, rfl⟩ := map_ok_iff.1 h
      obtain ⟨body, rfl, hb, hl⟩ := readLength_ok_iff.1 hn
      exact ⟨.plain hb, hl⟩
  · rintro ⟨h, hl⟩
    cases h with
    | plain h => exact map_ok_iff.2 ⟨_, readLength_ok_iff.2 ⟨_, rfl, h, hl⟩, rfl⟩
    | plus h => exact map_ok_iff.2 ⟨_, readLength_ok_iff.2 ⟨_, rfl, h, hl⟩, rfl⟩
    | minus h =>
      rw [Int.natAbs_neg] at hl
      exact map_ok_iff.2 ⟨_, readLength_ok_iff.2 ⟨_, rfl, h, hl⟩, rfl⟩

theorem parse_ok_iff {s : String} {p : Period} : parse s = .ok p ↔
    Spells (Text.upper (Text.trim s)).toList p.seconds ∧ p.seconds.natAbs ≤ limit := by
  unfold parse
  rw [map_ok_iff, ← readSigned_ok_iff]
  constructor
  · rintro ⟨seconds, h, rfl⟩
    exact h
  · intro h
    exact ⟨p.seconds, h, rfl⟩

theorem ofText_spells (s : String) :
    (∀ p, ofText s = .ok p ↔ Spells (Text.upper (Text.trim s)).toList p.seconds ∧
      p.seconds.natAbs ≤ 2 ^ 63 - 1) ∧
    ((∃ p, ofText s = .ok p) ∨ ∃ fault, ofText s = .error (.invalidPeriod s fault)) := by
  have hlimit : limit = 2 ^ 63 - 1 := by decide
  rw [← hlimit]
  simp only [← parse_ok_iff, ofText]
  cases parse s with
  | error fault => simp [Except.mapError]
  | ok p => simp [Except.mapError]

end Credential.Period
