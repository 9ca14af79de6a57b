import Mathlib
import Credential.Proofs.Text.Trimming
import Credential.Settings.Environment

namespace Credential.Settings.Environment

variable {cs ds sign : List Char} {p : Char → Bool}

theorem span_append (cs rest : List Char) (h : ∀ c ∈ cs, p c = true)
    (hrest : ∀ c ∈ rest.head?, p c = false) :
    (cs ++ rest).takeWhile p = cs ∧ (cs ++ rest).dropWhile p = rest := by
  have hstop : rest.takeWhile p = [] ∧ rest.dropWhile p = rest := by
    cases rest with
    | nil => exact ⟨rfl, rfl⟩
    | cons c rest => simp [hrest c rfl]
  rw [List.takeWhile_append_of_pos h, List.dropWhile_append_of_pos h, hstop.1, hstop.2,
    List.append_nil]
  exact ⟨rfl, rfl⟩

def Digits (cs : List Char) : Prop := cs ≠ [] ∧ ∀ c ∈ cs, c.isDigit = true

inductive Sign : List Char → Prop
  | none : Sign []
  | plus : Sign ['+']
  | minus : Sign ['-']

def Whole (cs : List Char) : Prop :=
  ∃ sign digits, cs = sign ++ digits ∧ Sign sign ∧ Digits digits ∧
    if sign = ['-'] then Text.decimalValue digits ≤ 2 ^ 63 else Text.decimalValue digits < 2 ^ 64

def Exponent (cs : List Char) : Prop :=
  ∃ mark sign digits, cs = mark :: (sign ++ digits) ∧ (mark = 'e' ∨ mark = 'E') ∧ Sign sign ∧
    Digits digits

def Fractional (cs : List Char) : Prop :=
  ∃ sign whole fraction exponent, cs = sign ++ (whole ++ '.' :: fraction ++ exponent) ∧
    Sign sign ∧ Digits (whole ++ fraction) ∧ (exponent = [] ∨ Exponent exponent)

theorem isDigits_iff : isDigits cs = true ↔ Digits cs := by
  rw [isDigits, Bool.and_eq_true, Bool.not_eq_true', List.isEmpty_eq_false_iff, List.all_eq_true]
  rfl

theorem exists_sign (cs : List Char) :
    ∃ sign, Sign sign ∧ cs = sign ++ dropSign cs ∧ (cs.head? = some '-' ↔ sign = ['-']) := by
  unfold dropSign
  split
  · exact ⟨['+'], .plus, rfl, by simp⟩
  · exact ⟨['-'], .minus, rfl, by simp⟩
  · rename_i hminus
    refine ⟨[], .none, rfl, ?_⟩
    cases cs with
    | nil => simp
    | cons c cs =>
      have hc : c ≠ '-' := fun h => hminus cs (h ▸ rfl)
      simp [hc]

theorem dropSign_append (hsign : Sign sign) (h : ∀ c ∈ ds.head?, c ≠ '+' ∧ c ≠ '-') :
    dropSign (sign ++ ds) = ds ∧ ((sign ++ ds).head? = some '-' ↔ sign = ['-']) := by
  cases hsign with
  | plus => exact ⟨rfl, by simp⟩
  | minus => exact ⟨rfl, by simp⟩
  | none =>
    cases ds with
    | nil => exact ⟨rfl, by simp⟩
    | cons c ds =>
      obtain ⟨hplus, hminus⟩ := h c rfl
      refine ⟨?_, by simp [hminus]⟩
      rw [List.nil_append, dropSign]
      · rintro rest ⟨⟩
        exact hplus rfl
      · rintro rest ⟨⟩
        exact hminus rfl

theorem ne_sign_of_isDigit {c : Char} (h : c.isDigit = true) : c ≠ '+' ∧ c ≠ '-' := by
  constructor <;> (rintro rfl; cases h)

theorem Digits.head?_ne (h : Digits ds) : ∀ c ∈ ds.head?, c ≠ '+' ∧ c ≠ '-' :=
  fun c hc => ne_sign_of_isDigit (h.2 c (List.mem_of_head? hc))

theorem exists_integer?_iff : (∃ n, integer? cs = some n) ↔ Whole cs := by
  have hlow : (1 <<< 63 : Nat) = 2 ^ 63 := rfl
  have hhigh : (1 <<< 64 : Nat) = 2 ^ 64 := rfl
  unfold integer?
  dsimp only
  rw [hlow, hhigh]
  constructor
  · rintro ⟨n, h⟩
    obtain ⟨sign, hsign, hcs, hminus⟩ := exists_sign cs
    split at h
    · cases h
    · rename_i hdigits
      refine ⟨sign, dropSign cs, hcs, hsign, isDigits_iff.1 (by simpa using hdigits), ?_⟩
      simp only [hminus] at h
      split at h
      · rename_i hm
        rw [if_pos hm]
        split at h
        · assumption
        · cases h
      · rename_i hm
        rw [if_neg hm]
        split at h
        · assumption
        · cases h
  · rintro ⟨sign, digits, rfl, hsign, hdigits, hbound⟩
    obtain ⟨hdrop, hminus⟩ := dropSign_append hsign hdigits.head?_ne
    have hread := isDigits_iff.2 hdigits
    simp only [hdrop, hminus, hread, Bool.not_true, Bool.false_eq_true, if_false]
    split
    · rename_i hm
      rw [if_pos hm] at hbound
      exact ⟨_, if_pos hbound⟩
    · rename_i hm
      rw [if_neg hm] at hbound
      exact ⟨_, if_pos hbound⟩

def isMark (c : Char) : Bool := c = 'e' || c = 'E'

theorem isMark_iff {c : Char} : isMark c = true ↔ c = 'e' ∨ c = 'E' := by
  simp [isMark]

theorem isMark_of_isDigit {c : Char} (h : c.isDigit = true) : isMark c = false := by
  rw [Bool.eq_false_iff, ne_eq, isMark_iff]
  rintro (rfl | rfl) <;> cases h

theorem isDecimal_iff : isDecimal cs = true ∧ '.' ∈ cs ↔
    ∃ whole fraction, cs = whole ++ '.' :: fraction ∧ Digits (whole ++ fraction) := by
  have hdigits {xs : List Char} : (xs.all Text.isDigit && !xs.isEmpty) = true ↔ Digits xs := by
    rw [Bool.and_comm, ← isDigits_iff]
    rfl
  unfold isDecimal
  dsimp only
  rw [hdigits]
  constructor
  · rintro ⟨hread, hdot⟩
    have hsplit := List.takeWhile_append_dropWhile (p := fun c => decide (c ≠ '.')) (l := cs)
    cases hd : cs.dropWhile (fun c => decide (c ≠ '.')) with
    | nil =>
      have hall := List.dropWhile_eq_nil_iff.1 hd '.' hdot
      simp at hall
    | cons c fraction =>
      have hc := Text.not_of_mem_head?_dropWhile (Option.mem_def.2 (hd ▸ List.head?_cons))
      rw [hd] at hread hsplit
      obtain rfl : c = '.' := by simpa using hc
      exact ⟨_, fraction, hsplit.symm, hread⟩
  · rintro ⟨whole, fraction, rfl, hread⟩
    have hwhole : ∀ c ∈ whole, (decide (c ≠ '.')) = true := by
      intro c hc
      refine decide_eq_true ?_
      rintro rfl
      cases hread.2 '.' (List.mem_append_left _ hc)
    obtain ⟨htake, hdrop⟩ := span_append whole ('.' :: fraction) hwhole (by simp)
    rw [htake, hdrop]
    exact ⟨hread, by simp⟩

theorem exponent_cons_iff {mark : Char} (hmark : isMark mark = true) :
    isDigits (dropSign cs) = true ↔ Exponent (mark :: cs) := by
  constructor
  · intro h
    obtain ⟨sign, hsign, hcs, -⟩ := exists_sign cs
    exact ⟨mark, sign, dropSign cs, by rw [← hcs], isMark_iff.1 hmark, hsign, isDigits_iff.1 h⟩
  · rintro ⟨_, sign, digits, hcs, -, hsign, hdigits⟩
    obtain ⟨-, rfl⟩ := List.cons.inj hcs
    rw [(dropSign_append hsign hdigits.head?_ne).1]
    exact isDigits_iff.2 hdigits

theorem Exponent.without_dot (h : Exponent cs) : '.' ∉ cs := by
  obtain ⟨mark, sign, digits, rfl, hmark, hsign, hdigits⟩ := h
  rintro (_ | ⟨_, hdot⟩)
  · rcases hmark with h | h <;> cases h
  · rcases List.mem_append.1 hdot with hdot | hdot
    · cases hsign <;> simp at hdot
    · cases hdigits.2 '.' hdot

theorem Exponent.head?_isMark (h : Exponent cs) : ∀ c ∈ cs.head?, isMark c = true := by
  obtain ⟨mark, sign, digits, rfl, hmark, -, -⟩ := h
  rintro c ⟨⟩
  exact isMark_iff.2 hmark

theorem isReal_iff_cut : isReal cs = true ↔ ∃ mantissa exponent,
    dropSign cs = mantissa ++ exponent ∧ (∀ c ∈ mantissa, isMark c = false) ∧
      '.' ∈ dropSign cs ∧ isDecimal mantissa = true ∧ (exponent = [] ∨ Exponent exponent) := by
  unfold isReal
  dsimp only
  rw [Bool.and_eq_true, Bool.and_eq_true, List.contains_iff_mem]
  constructor
  · rintro ⟨⟨hdot, hdecimal⟩, hexponent⟩
    refine ⟨(dropSign cs).takeWhile (!isMark ·), (dropSign cs).dropWhile (!isMark ·),
      List.takeWhile_append_dropWhile.symm, ?_, hdot, hdecimal, ?_⟩
    · intro c hc
      simpa using List.mem_takeWhile_imp hc
    · split at hexponent
      · rename_i hnil
        exact .inl hnil
      · rename_i mark exponent hcons
        have hcons' : (dropSign cs).dropWhile (!isMark ·) = mark :: exponent := hcons
        have hmark := Text.not_of_mem_head?_dropWhile (Option.mem_def.2 (hcons' ▸ List.head?_cons))
        rw [hcons']
        exact .inr ((exponent_cons_iff (by simpa using hmark)).1 hexponent)
  · rintro ⟨mantissa, exponent, hcs, hmantissa, hdot, hdecimal, hexponent⟩
    have hhead : ∀ c ∈ exponent.head?, (!isMark c) = false := by
      intro c hc
      rcases hexponent with rfl | he
      · cases hc
      · rw [he.head?_isMark c hc]
        rfl
    obtain ⟨htake, hdrop⟩ := span_append (p := (!isMark ·)) mantissa exponent
      (fun c hc => by rw [hmantissa c hc]; rfl) hhead
    rw [← hcs] at htake hdrop
    have hdrop' : (dropSign cs).dropWhile (fun c => !(decide (c = 'e') || decide (c = 'E'))) =
      exponent := hdrop
    refine ⟨⟨hdot, htake.symm ▸ hdecimal⟩, ?_⟩
    rw [hdrop']
    cases exponent with
    | nil => rfl
    | cons mark rest =>
      rcases hexponent with h | he
      · cases h
      · exact (exponent_cons_iff (he.head?_isMark mark rfl)).2 he

theorem isReal_iff : isReal cs = true ↔ Fractional cs := by
  rw [isReal_iff_cut]
  constructor
  · rintro ⟨mantissa, exponent, hcs, hmantissa, hdot, hdecimal, hexponent⟩
    have hown : '.' ∈ mantissa := by
      rw [hcs] at hdot
      rcases List.mem_append.1 hdot with h | h
      · exact h
      · rcases hexponent with rfl | he
        · cases h
        · exact absurd h he.without_dot
    obtain ⟨whole, fraction, rfl, hdigits⟩ := isDecimal_iff.1 ⟨hdecimal, hown⟩
    obtain ⟨sign, hsign, hsplit, -⟩ := exists_sign cs
    exact ⟨sign, whole, fraction, exponent, by rw [hsplit, hcs], hsign, hdigits, hexponent⟩
  · rintro ⟨sign, whole, fraction, exponent, rfl, hsign, hdigits, hexponent⟩
    have hhead : ∀ c ∈ (whole ++ '.' :: fraction ++ exponent).head?, c ≠ '+' ∧ c ≠ '-' := by
      cases whole with
      | nil =>
        rintro c ⟨⟩
        decide
      | cons d whole =>
        rintro c ⟨⟩
        exact ne_sign_of_isDigit (hdigits.2 _ List.mem_cons_self)
    rw [(dropSign_append hsign hhead).1]
    obtain ⟨hdecimal, hdot⟩ := isDecimal_iff.2 ⟨whole, fraction, rfl, hdigits⟩
    refine ⟨_, exponent, rfl, ?_, List.mem_append_left _ hdot, hdecimal, hexponent⟩
    intro c hc
    rcases List.mem_append.1 hc with hc | hc
    · exact isMark_of_isDigit (hdigits.2 c (List.mem_append_left _ hc))
    · rcases List.mem_cons.1 hc with rfl | hc
      · decide
      · exact isMark_of_isDigit (hdigits.2 c (List.mem_append_right _ hc))

end Credential.Settings.Environment
