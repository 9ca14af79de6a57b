import Mathlib
import Credential.Proofs.Results
import Credential.Settings.Toml.Text

namespace Credential.Settings.Toml

variable {cs ds rest content : List Char} {c : Char} {count n fuel : Nat}

def hexNumber (ns : List Nat) : Nat := ns.foldl (fun n d => n * 16 + d) 0

structure Hex (count : Nat) (digits : List Char) (c : Char) : Prop where
  length : digits.length = count
  value : ∃ ns, digits.mapM Text.hexValue? = some ns ∧ hexNumber ns = c.toNat

def letters : List (Char × Char) :=
  [('b', '\x08'), ('t', '\t'), ('n', '\n'), ('f', '\x0c'), ('r', '\r'), ('"', '"'), ('\\', '\\')]

inductive Escape : List Char → Char → List Char → Prop
  | letter {l c : Char} {rest : List Char} : (l, c) ∈ letters → Escape (l :: rest) c rest
  | short {digits rest : List Char} {c : Char} : Hex 4 digits c →
    Escape ('u' :: (digits ++ rest)) c rest
  | long {digits rest : List Char} {c : Char} : Hex 8 digits c →
    Escape ('U' :: (digits ++ rest)) c rest

inductive Basic : List Char → List Char → List Char → Prop
  | close {rest : List Char} : Basic ('"' :: rest) [] rest
  | plain {c : Char} {cs content rest : List Char} : c ≠ '"' → c ≠ '\\' → isPlain c = true →
    Basic cs content rest → Basic (c :: cs) (c :: content) rest
  | escape {c : Char} {cs ds content rest : List Char} : Escape cs c ds → Basic ds content rest →
    Basic ('\\' :: cs) (c :: content) rest

theorem charOf?_eq_some_iff : charOf? n = some c ↔ n = c.toNat := by
  unfold charOf?
  constructor
  · intro h
    split at h
    · rename_i hn
      obtain rfl := Option.some.inj h
      rw [Char.ofNat, dif_pos hn]
      exact (UInt32.toNat_ofNatLT ..).symm
    · cases h
  · rintro rfl
    have hvalid : c.toNat.isValidChar := c.valid
    rw [if_pos hvalid, Char.ofNat_toNat]

theorem toNat_lt (c : Char) : c.toNat < 16 ^ 8 := by
  have hvalid : c.toNat < 0xd800 ∨ 0xdfff < c.toNat ∧ c.toNat < 0x110000 := c.valid
  omega

theorem readHex_eq_some_iff : readHex count cs = some (c, rest) ↔
    ∃ digits, cs = digits ++ rest ∧ Hex count digits c := by
  constructor
  · intro h
    unfold readHex at h
    split at h
    · rename_i ns hns
      split at h
      · rename_i hlength
        obtain ⟨d, hd, hpair⟩ := Option.map_eq_some_iff.1 h
        obtain ⟨rfl, rfl⟩ := Prod.mk.inj hpair
        refine ⟨cs.take count, (List.take_append_drop count cs).symm, ?_, ns, hns, ?_⟩
        · rw [← length_of_mapM hns, hlength]
        · exact charOf?_eq_some_iff.1 hd
      · cases h
    · cases h
  · rintro ⟨digits, rfl, hlength, ns, hns, hvalue⟩
    subst hlength
    unfold readHex
    rw [List.take_left, List.drop_left, hns]
    have hchar : charOf? (ns.foldl (fun n d => n * 16 + d) 0) = some c :=
      charOf?_eq_some_iff.2 hvalue
    dsimp only
    rw [if_pos (length_of_mapM hns), hchar]
    rfl

theorem readEscape_eq_some_iff : readEscape cs = some (c, rest) ↔ Escape cs c rest := by
  constructor
  · intro h
    unfold readEscape at h
    split at h
    case h_8 =>
      obtain ⟨digits, rfl, hhex⟩ := readHex_eq_some_iff.1 h
      exact .short hhex
    case h_9 =>
      obtain ⟨digits, rfl, hhex⟩ := readHex_eq_some_iff.1 h
      exact .long hhex
    case h_10 => cases h
    all_goals
      obtain ⟨rfl, rfl⟩ := Prod.mk.inj (Option.some.inj h)
      exact .letter (by simp [letters])
  · intro h
    cases h with
    | letter hl =>
      simp only [letters, List.mem_cons, Prod.mk.injEq, List.not_mem_nil, or_false] at hl
      rcases hl with ⟨rfl, rfl⟩ | ⟨rfl, rfl⟩ | ⟨rfl, rfl⟩ | ⟨rfl, rfl⟩ | ⟨rfl, rfl⟩ | ⟨rfl, rfl⟩ |
        ⟨rfl, rfl⟩ <;> rfl
    | short hhex => exact readHex_eq_some_iff.2 ⟨_, rfl, hhex⟩
    | long hhex => exact readHex_eq_some_iff.2 ⟨_, rfl, hhex⟩

theorem prepend_eq_some_iff {found : Option (List Char × List Char)} :
    prepend c found = some (content, rest) ↔
      ∃ tail, found = some (tail, rest) ∧ content = c :: tail := by
  cases found with
  | none => simp [prepend]
  | some found =>
    obtain ⟨tail, after⟩ := found
    simp only [prepend, Option.map_some, Option.some.injEq, Prod.mk.injEq]
    constructor
    · rintro ⟨rfl, rfl⟩
      exact ⟨tail, ⟨rfl, rfl⟩, rfl⟩
    · rintro ⟨tail', ⟨rfl, rfl⟩, rfl⟩
      exact ⟨rfl, rfl⟩

theorem basic_of_readBasic (h : readBasic fuel cs = some (content, rest)) :
    Basic cs content rest := by
  induction fuel generalizing cs content with
  | zero => cases h
  | succ fuel ih =>
    cases cs with
    | nil => cases h
    | cons c cs =>
      rw [readBasic] at h
      split at h
      · rename_i hquote
        obtain ⟨rfl, rfl⟩ := Prod.mk.inj (Option.some.inj h)
        subst hquote
        exact .close
      · rename_i hquote
        split at h
        · rename_i hslash
          subst hslash
          split at h
          · rename_i d ds hescape
            obtain ⟨tail, htail, rfl⟩ := prepend_eq_some_iff.1 h
            exact .escape (readEscape_eq_some_iff.1 hescape) (ih htail)
          · cases h
        · rename_i hslash
          split at h
          · rename_i hplain
            obtain ⟨tail, htail, rfl⟩ := prepend_eq_some_iff.1 h
            exact .plain hquote hslash hplain (ih htail)
          · cases h

theorem Escape.suffix (h : Escape cs c rest) : rest <:+ cs ∧ rest.length < cs.length := by
  cases h with
  | letter => exact ⟨List.suffix_cons _ _, Nat.lt_succ_self _⟩
  | short =>
    refine ⟨(List.suffix_append _ _).trans (List.suffix_cons _ _), ?_⟩
    rw [List.length_cons, List.length_append]
    omega
  | long =>
    refine ⟨(List.suffix_append _ _).trans (List.suffix_cons _ _), ?_⟩
    rw [List.length_cons, List.length_append]
    omega

theorem Basic.suffix (h : Basic cs content rest) : '"' :: rest <:+ cs := by
  induction h with
  | close => exact List.suffix_rfl
  | plain _ _ _ _ ih => exact ih.trans (List.suffix_cons _ _)
  | escape hescape _ ih => exact (ih.trans hescape.suffix.1).trans (List.suffix_cons _ _)

theorem Basic.readBasic_eq (h : Basic cs content rest) (hfuel : cs.length ≤ fuel) :
    readBasic fuel cs = some (content, rest) := by
  induction h generalizing fuel with
  | close =>
    obtain ⟨fuel, rfl⟩ := Nat.exists_eq_add_one_of_ne_zero (Nat.ne_zero_of_lt hfuel)
    rfl
  | plain hquote hslash hplain _ ih =>
    obtain ⟨fuel, rfl⟩ := Nat.exists_eq_add_one_of_ne_zero (Nat.ne_zero_of_lt hfuel)
    rw [readBasic, if_neg hquote, if_neg hslash, if_pos hplain, ih (Nat.le_of_succ_le_succ hfuel)]
    rfl
  | escape hescape _ ih =>
    obtain ⟨fuel, rfl⟩ := Nat.exists_eq_add_one_of_ne_zero (Nat.ne_zero_of_lt hfuel)
    have hlength := hescape.suffix.2
    rw [readBasic, if_neg (by decide), if_pos rfl, readEscape_eq_some_iff.2 hescape]
    dsimp only
    rw [ih (by rw [List.length_cons] at hfuel; omega)]
    rfl

def hexDigits : (count : Nat) → Nat → List Char
  | 0, _ => []
  | count + 1, n => hexDigits count (n / 16) ++ [Nat.digitChar (n % 16)]

theorem hexValue?_digitChar (h : n < 16) : Text.hexValue? (Nat.digitChar n) = some n := by
  have hall : ∀ n < 16, Text.hexValue? (Nat.digitChar n) = some n := by decide
  exact hall n h

theorem length_hexDigits (count n : Nat) : (hexDigits count n).length = count := by
  induction count generalizing n with
  | zero => rfl
  | succ count ih => rw [hexDigits, List.length_append, ih, List.length_singleton]

theorem mapM_hexDigits (h : n < 16 ^ count) :
    ∃ ns, (hexDigits count n).mapM Text.hexValue? = some ns ∧ hexNumber ns = n := by
  induction count generalizing n with
  | zero => exact ⟨[], rfl, by simpa [hexNumber, eq_comm] using h⟩
  | succ count ih =>
    obtain ⟨ns, hns, hvalue⟩ := ih (n := n / 16) (by rw [Nat.pow_succ] at h; omega)
    refine ⟨ns ++ [n % 16], ?_, ?_⟩
    · rw [hexDigits, List.mapM_append, hns, List.mapM_cons,
        hexValue?_digitChar (Nat.mod_lt n (by decide))]
      rfl
    · rw [hexNumber, List.foldl_append]
      show hexNumber ns * 16 + n % 16 = n
      rw [hvalue, Nat.div_add_mod']

def escaped (cs : List Char) : List Char :=
  cs.flatMap fun c => '\\' :: 'U' :: hexDigits 8 c.toNat

theorem escape_hexDigits (c : Char) (rest : List Char) :
    Escape ('U' :: (hexDigits 8 c.toNat ++ rest)) c rest :=
  .long ⟨length_hexDigits 8 c.toNat, mapM_hexDigits (toNat_lt c)⟩

theorem basic_escaped (cs rest : List Char) : Basic (escaped cs ++ '"' :: rest) cs rest := by
  induction cs with
  | nil => exact .close
  | cons c cs ih =>
    rw [escaped, List.flatMap_cons, List.append_assoc]
    exact .escape (escape_hexDigits c _) ih

end Credential.Settings.Toml
