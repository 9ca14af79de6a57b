import Credential.Proofs.Settings.Notation
import Credential.Proofs.Text.Trimming
import Credential.Settings.Decoding
/-!
What the content of an environment variable gives where a text is asked for: nothing if it reads as
a value of another type, what stands between the quotes if there are any, and else itself.
-/

namespace Credential

namespace Settings.Environment

open Toml (Basic)

variable {cs ds content : List Char} {c : Char} {t : String} {v : Value} {fuel : Nat}

inductive Typed : List Char → Prop
  | yes : Typed ['t', 'r', 'u', 'e']
  | no : Typed ['f', 'a', 'l', 's', 'e']
  | whole {cs : List Char} : Whole cs → Typed cs
  | fractional {cs : List Char} : Fractional cs → Typed cs
  | list {cs : List Char} : Formed .elements cs [] → Typed ('[' :: cs)
  | table {cs : List Char} : Formed .entries cs [] → Typed ('\x7b' :: cs)

inductive Quoted : List Char → List Char → Prop
  | string {cs content : List Char} : Basic cs content [] → Quoted ('"' :: cs) content
  | character {c : Char} : Quoted ['\'', c, '\''] [c]

def isNumeral (c : Char) : Bool := c.isDigit || c ∈ ['+', '-', '.', 'e', 'E']

theorem Sign.isNumeral (h : Sign cs) : ∀ c ∈ cs, isNumeral c = true := by
  cases h <;> simp [Environment.isNumeral]

theorem Digits.isNumeral (h : Digits cs) : ∀ c ∈ cs, isNumeral c = true := by
  intro c hc
  rw [Environment.isNumeral, h.2 c hc]
  rfl

theorem isNumeral_of_number (h : Whole cs ∨ Fractional cs) : ∀ c ∈ cs, isNumeral c = true := by
  rcases h with ⟨sign, digits, rfl, hsign, hdigits, -⟩ |
    ⟨sign, whole, fraction, exponent, rfl, hsign, hdigits, hexponent⟩
  · exact List.forall_mem_append.2 ⟨hsign.isNumeral, hdigits.isNumeral⟩
  · obtain ⟨hwhole, hfraction⟩ := List.forall_mem_append.1 hdigits.isNumeral
    have hmantissa : ∀ c ∈ whole ++ '.' :: fraction, isNumeral c = true :=
      List.forall_mem_append.2 ⟨hwhole, List.forall_mem_cons.2 ⟨by decide, hfraction⟩⟩
    refine List.forall_mem_append.2 ⟨hsign.isNumeral, List.forall_mem_append.2 ⟨hmantissa, ?_⟩⟩
    rcases hexponent with rfl | ⟨mark, sign, digits, rfl, hmark, hown, hpower⟩
    · exact List.forall_mem_nil _
    · have hrest := List.forall_mem_append.2 ⟨hown.isNumeral, hpower.isNumeral⟩
      refine List.forall_mem_cons.2 ⟨?_, hrest⟩
      rcases hmark with rfl | rfl <;> decide

theorem plain_of_isNumeral (h : ∀ c ∈ cs, isNumeral c = true) :
    Plain cs ∧ ∀ c ∈ cs.head?, c ≠ '\x7b' ∧ c ≠ '[' := by
  have hne {c d : Char} (hc : c ∈ cs) (hd : isNumeral d = false) : c ≠ d := by
    rintro rfl
    rw [h c hc] at hd
    cases hd
  have hword {c : Char} (word : List Char) (hc : isNumeral c = false) : ¬ c :: word <+: cs :=
    fun hword => hne (hword.subset List.mem_cons_self) hc rfl
  refine ⟨⟨fun c hc => ?_, fun c hc => ?_, hword _ (by decide), hword _ (by decide)⟩,
    fun c hc => ?_⟩
  · have hmem : c ∉ [',', '\x7b', '\x7d', '[', ']'] := by
      simp only [List.mem_cons, List.not_mem_nil, or_false]
      rintro (rfl | rfl | rfl | rfl | rfl) <;> exact hne hc (by decide) rfl
    exact decide_eq_false hmem
  · exact ⟨hne (List.mem_of_head? hc) (by decide), hne (List.mem_of_head? hc) (by decide)⟩
  · exact ⟨hne (List.mem_of_head? hc) (by decide), hne (List.mem_of_head? hc) (by decide)⟩

theorem toText_readPlain (htrim : Text.trimChars cs = cs) (h : Whole cs ∨ Fractional cs) :
    (readPlain cs).toText = fail .wrongType := by
  unfold readPlain
  dsimp only
  rw [htrim]
  split
  · rfl
  · rename_i hreal
    have hwhole := h.resolve_right (mt isReal_iff.2 hreal)
    obtain ⟨n, hn⟩ := exists_integer?_iff.2 hwhole
    rw [hn]
    rfl

theorem readPlain_eq_text (htrim : Text.trimChars cs = cs) (hwhole : ¬ Whole cs)
    (hfractional : ¬ Fractional cs) : readPlain cs = .text (String.ofList cs) := by
  have hnone : integer? cs = none :=
    Option.eq_none_iff_forall_ne_some.2 fun n hn => hwhole (exists_integer?_iff.1 ⟨n, hn⟩)
  unfold readPlain
  dsimp only
  rw [htrim, if_neg (mt isReal_iff.1 hfractional), hnone]

theorem Typed.exists_bare (h : Typed cs) (htrim : Text.trimChars cs = cs)
    (hfuel : 3 * cs.length ≤ fuel) : ∃ v, Bare fuel cs v [] ∧ v.toText = fail .wrongType := by
  have hnumber (h : Whole cs ∨ Fractional cs) :
      ∃ v, Bare fuel cs v [] ∧ v.toText = fail .wrongType := by
    obtain ⟨hplain, hhead⟩ := plain_of_isNumeral (isNumeral_of_number h)
    have hbare : Bare fuel (cs ++ []) (readPlain cs) [] :=
      .plain hplain nofun (by rwa [List.append_nil])
    rw [List.append_nil] at hbare
    exact ⟨_, hbare, toText_readPlain htrim h⟩
  cases h with
  | yes => exact ⟨_, .yes, rfl⟩
  | no => exact ⟨_, .no, rfl⟩
  | whole h => exact hnumber (.inl h)
  | fractional h => exact hnumber (.inr h)
  | list h =>
    rw [List.length_cons] at hfuel
    obtain ⟨vs, hvs⟩ := h.accepted fuel (by omega)
    exact ⟨_, .list hvs, rfl⟩
  | table h =>
    rw [List.length_cons] at hfuel
    obtain ⟨entries, hentries⟩ := h.accepted fuel [] (by omega)
    exact ⟨_, .table hentries, rfl⟩

theorem Quoted.exists_bare (h : Quoted cs content) (fuel : Nat) :
    ∃ v, Bare fuel cs v [] ∧ v.toText = .ok (String.ofList content) := by
  cases h with
  | string h => exact ⟨_, .quoted h, rfl⟩
  | @character c => exact ⟨_, .character, congrArg Except.ok String.singleton_eq_ofList⟩

theorem Bare.eq_text (h : Bare fuel cs v []) (htrim : Text.trimChars cs = cs) (htyped : ¬ Typed cs)
    (hquoted : ∀ content, ¬ Quoted cs content) : v = .text (String.ofList cs) := by
  generalize hrest : ([] : List Char) = rest at h
  cases h with
  | yes =>
    subst hrest
    exact absurd .yes htyped
  | no =>
    subst hrest
    exact absurd .no htyped
  | table hread =>
    subst hrest
    exact absurd (.table ((sound fuel).entries _ _ _ _ hread)) htyped
  | list hread =>
    subst hrest
    exact absurd (.list ((sound fuel).elements _ _ _ hread)) htyped
  | quoted hread =>
    subst hrest
    exact absurd (.string hread) (hquoted _)
  | character =>
    subst hrest
    exact absurd .character (hquoted _)
  | plain _ _ _ =>
    subst hrest
    rw [List.append_nil] at htrim htyped ⊢
    exact readPlain_eq_text htrim (mt .whole htyped) (mt .fractional htyped)

theorem Bare.suffix (h : Bare fuel cs v rest) : rest <:+ cs := by
  rcases h.formed (sound fuel) with hformed | ⟨ds, -, rfl, -⟩
  · exact hformed.suffix
  · exact List.suffix_append _ _

theorem isSpace_of_text (h : Text.isSpace c = false) : isSpace c = false := by
  rw [Bool.eq_false_iff, ne_eq, isSpace_iff]
  rintro (rfl | rfl | rfl | rfl | rfl) <;> cases h

theorem readValue_trimmed_iff (htrim : Text.trimChars cs = cs) :
    readValue (fuel + 2) cs = some (v, []) ↔ Bare fuel cs v [] := by
  obtain ⟨hfirst, hlast⟩ := Text.ends_of_trimChars htrim
  rw [readValue_eq_some_iff, skipSpaces_eq_self fun c hc => isSpace_of_text (hfirst c hc)]
  constructor
  · rintro ⟨ds, hread, hds⟩
    have hbare := bare_of_readBareValue hread
    obtain rfl | hne := eq_or_ne ds []
    · exact hbare
    · have hspace := List.dropWhile_eq_nil_iff.1 hds _ (List.getLast_mem hne)
      obtain ⟨es, hsplit⟩ := hbare.suffix
      have hown : cs.getLast? = some (ds.getLast hne) := by
        rw [← hsplit, List.getLast?_append_of_ne_nil es hne, List.getLast?_eq_some_getLast hne]
      rw [isSpace_of_text (hlast _ hown)] at hspace
      cases hspace
  · exact fun h => ⟨[], readBareValue_of_bare h, rfl⟩

theorem valueOf_of_bare (htrim : Text.trimChars t.toList = t.toList)
    (h : Bare (3 * t.toList.length + 1) t.toList v []) : valueOf t = v := by
  unfold valueOf
  dsimp only
  rw [(readValue_trimmed_iff htrim).2 h]

theorem toText_of_typed (htrim : Text.trimChars t.toList = t.toList) (h : Typed t.toList) :
    (valueOf t).toText = fail .wrongType := by
  obtain ⟨v, hbare, hv⟩ := h.exists_bare htrim (Nat.le_succ _)
  rw [valueOf_of_bare htrim hbare, hv]

theorem toText_of_quoted (htrim : Text.trimChars t.toList = t.toList)
    (h : Quoted t.toList content) : (valueOf t).toText = .ok (String.ofList content) := by
  obtain ⟨v, hbare, hv⟩ := h.exists_bare (3 * t.toList.length + 1)
  rw [valueOf_of_bare htrim hbare, hv]

theorem toText_of_other (htrim : Text.trimChars t.toList = t.toList) (htyped : ¬ Typed t.toList)
    (hquoted : ∀ content, ¬ Quoted t.toList content) : (valueOf t).toText = .ok t := by
  unfold valueOf
  dsimp only
  split
  · rename_i hread
    have hbare := (readValue_trimmed_iff htrim).1 hread
    rw [hbare.eq_text htrim htyped hquoted, String.ofList_toList]
    rfl
  · rfl

def quote (content : List Char) : List Char := '"' :: (Toml.escaped content ++ ['"'])

theorem quoted_quote (content : List Char) : Quoted (quote content) content :=
  .string (Toml.basic_escaped content [])

theorem trimChars_quote (content : List Char) : Text.trimChars (quote content) = quote content := by
  refine Text.trimChars_of_ends ?_ ?_
  · rintro c ⟨⟩
    decide
  · rw [quote, ← List.cons_append, List.getLast?_concat]
    rintro c ⟨⟩
    decide

end Settings.Environment

end Credential
