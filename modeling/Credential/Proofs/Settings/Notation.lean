import Credential.Proofs.Settings.Number
import Credential.Proofs.Settings.Quoting
/-!
The notation of values in environment variables, as a grammar, and that their readers accept what it
derives and nothing else. A text that is none of its values stands for itself.
-/

namespace Credential.Settings.Environment

open Toml (Basic readBasic isBare dropWord?)

variable {cs ds es rest pre post word : List Char} {c : Char} {v : Value} {fuel n : Nat}

def Spaces (cs : List Char) : Prop := ∀ c ∈ cs, isSpace c = true

structure Plain (cs : List Char) : Prop where
  inner : ∀ c ∈ cs, isSeparator c = false
  unquoted : ∀ c ∈ cs.head?, c ≠ '"' ∧ c ≠ '\''
  notTrue : ¬ ['t', 'r', 'u', 'e'] <+: cs
  notFalse : ¬ ['f', 'a', 'l', 's', 'e'] <+: cs

inductive Key : List Char → List Char → Prop
  | quoted {pre cs content post rest : List Char} : Spaces pre →
    Basic cs content (post ++ '=' :: rest) → Spaces post → Key (pre ++ '"' :: cs) rest
  | bare {pre key post rest : List Char} : Spaces pre → key ≠ [] →
    (∀ c ∈ key, isBare c = true) → Spaces post → Key (pre ++ (key ++ (post ++ '=' :: rest))) rest

inductive Part where
  | closed
  | value
  | elements
  | entries
deriving DecidableEq, Repr

-- A text that begins with a value, or with what stands after the bracket of a list or the brace of
-- a table, and what follows it.
inductive Formed : Part → List Char → List Char → Prop
  | yes {rest : List Char} : Formed .closed (['t', 'r', 'u', 'e'] ++ rest) rest
  | no {rest : List Char} : Formed .closed (['f', 'a', 'l', 's', 'e'] ++ rest) rest
  | quoted {cs content rest : List Char} : Basic cs content rest → Formed .closed ('"' :: cs) rest
  | character {c : Char} {rest : List Char} : Formed .closed ('\'' :: c :: '\'' :: rest) rest
  | list {cs rest : List Char} : Formed .elements cs rest → Formed .closed ('[' :: cs) rest
  | table {cs rest : List Char} : Formed .entries cs rest → Formed .closed ('\x7b' :: cs) rest
  | spaced {pre cs post rest : List Char} : Spaces pre → Formed .closed cs (post ++ rest) →
    Spaces post → Formed .value (pre ++ cs) rest
  | plain {pre cs rest : List Char} : Spaces pre → Plain cs →
    (∀ c ∈ cs.head?, isSpace c = false) → Formed .value (pre ++ (cs ++ rest)) rest
  | noElement {rest : List Char} : Formed .elements (']' :: rest) rest
  | lastElement {cs rest : List Char} : Formed .value cs (']' :: rest) → Formed .elements cs rest
  | element {cs ds rest : List Char} : Formed .value cs (',' :: ds) → Formed .elements ds rest →
    Formed .elements cs rest
  | noEntry {rest : List Char} : Formed .entries ('\x7d' :: rest) rest
  | lastEntry {cs ds rest : List Char} : Key cs ds → Formed .value ds ('\x7d' :: rest) →
    Formed .entries cs rest
  | entry {cs ds es rest : List Char} : Key cs ds → Formed .value ds (',' :: es) →
    Formed .entries es rest → Formed .entries cs rest

inductive Bare (fuel : Nat) : List Char → Value → List Char → Prop
  | yes {rest : List Char} : Bare fuel (['t', 'r', 'u', 'e'] ++ rest) (.boolean true) rest
  | no {rest : List Char} : Bare fuel (['f', 'a', 'l', 's', 'e'] ++ rest) (.boolean false) rest
  | table {cs rest : List Char} {entries : List (String × Value)} :
    readEntries fuel [] cs = some (entries, rest) → Bare fuel ('\x7b' :: cs) (.table entries) rest
  | list {cs rest : List Char} {vs : List Value} : readElements fuel cs = some (vs, rest) →
    Bare fuel ('[' :: cs) (.list vs) rest
  | quoted {cs content rest : List Char} : Basic cs content rest →
    Bare fuel ('"' :: cs) (.text (String.ofList content)) rest
  | character {c : Char} {rest : List Char} :
    Bare fuel ('\'' :: c :: '\'' :: rest) (.character c) rest
  | plain {cs rest : List Char} : Plain cs → (∀ c ∈ rest.head?, isSeparator c = true) →
    (∀ c ∈ (cs ++ rest).head?, c ≠ '\x7b' ∧ c ≠ '[') → Bare fuel (cs ++ rest) (readPlain cs) rest

theorem dropWord?_eq_some_iff : dropWord? word cs = some rest ↔ cs = word ++ rest := by
  unfold dropWord?
  constructor
  · intro h
    split at h
    · rename_i htake
      obtain rfl := Option.some.inj h
      nth_rewrite 1 [← htake]
      exact (List.take_append_drop word.length cs).symm
    · cases h
  · rintro rfl
    rw [List.take_left, if_pos rfl, List.drop_left]

theorem dropWord?_eq_none_iff : dropWord? word cs = none ↔ ¬ word <+: cs := by
  rw [Option.eq_none_iff_forall_ne_some]
  constructor
  · rintro h ⟨rest, rfl⟩
    exact h rest (dropWord?_eq_some_iff.2 rfl)
  · intro h rest hrest
    exact h ⟨rest, (dropWord?_eq_some_iff.1 hrest).symm⟩

theorem isPrefix_of_append (hword : ∀ c ∈ word, isSeparator c = false)
    (hcs : ∀ c ∈ cs, isSeparator c = false) (hrest : ∀ c ∈ rest.head?, isSeparator c = true)
    (h : word <+: cs ++ rest) : word <+: cs := by
  obtain ⟨tail, htail⟩ := h
  have hnot {xs : List Char} (hxs : ∀ c ∈ xs, isSeparator c = false) :
      ∀ c ∈ xs, (!isSeparator c) = true := fun c hc => by rw [hxs c hc]; rfl
  obtain ⟨htake, -⟩ := span_append (p := (!isSeparator ·)) cs rest (hnot hcs)
    fun c hc => by rw [hrest c hc]; rfl
  rw [← htail, List.takeWhile_append_of_pos (hnot hword)] at htake
  exact ⟨_, htake⟩

theorem bare_plain (hhead : ∀ c ∈ cs.head?, (c ≠ '\x7b' ∧ c ≠ '[') ∧ c ≠ '"' ∧ c ≠ '\'')
    (htrue : ¬ ['t', 'r', 'u', 'e'] <+: cs) (hfalse : ¬ ['f', 'a', 'l', 's', 'e'] <+: cs) :
    Bare fuel cs (readPlain (cs.takeWhile (!isSeparator ·))) (cs.dropWhile (!isSeparator ·)) := by
  have hsplit := List.takeWhile_append_dropWhile (p := (!isSeparator ·)) (l := cs)
  have htake : cs.takeWhile (!isSeparator ·) <+: cs := List.takeWhile_prefix _
  generalize htaken : cs.takeWhile (!isSeparator ·) = taken at *
  generalize hleft : cs.dropWhile (!isSeparator ·) = left at *
  have hinner : ∀ c ∈ taken, isSeparator c = false := by
    intro c hc
    rw [← htaken] at hc
    simpa using List.mem_takeWhile_imp hc
  have hstop : ∀ c ∈ left.head?, isSeparator c = true := by
    intro c hc
    rw [← hleft] at hc
    simpa using Text.not_of_mem_head?_dropWhile hc
  subst hsplit
  refine .plain ⟨hinner, ?_, mt (·.trans htake) htrue, mt (·.trans htake) hfalse⟩ hstop
    fun c hc => (hhead c hc).1
  intro c hc
  exact (hhead c (List.mem_head?_append_of_mem_head? hc)).2

theorem forall_head?_append {p : Char → Prop} (hcs : ∀ c ∈ cs.head?, p c)
    (hrest : ∀ c ∈ rest.head?, p c) : ∀ c ∈ (cs ++ rest).head?, p c := by
  cases cs with
  | nil => exact hrest
  | cons c cs => exact hcs

theorem bare_of_readBareValue (h : readBareValue (fuel + 1) cs = some (v, rest)) :
    Bare fuel cs v rest := by
  unfold readBareValue at h
  split at h
  case h_1 hword =>
    obtain ⟨rfl, rfl⟩ := Prod.mk.inj (Option.some.inj h)
    rw [dropWord?_eq_some_iff.1 hword]
    exact .yes
  case h_2 hword =>
    obtain ⟨rfl, rfl⟩ := Prod.mk.inj (Option.some.inj h)
    rw [dropWord?_eq_some_iff.1 hword]
    exact .no
  case h_3 =>
    obtain ⟨⟨entries, after⟩, hread, hpair⟩ := Option.map_eq_some_iff.1 h
    obtain ⟨rfl, rfl⟩ := Prod.mk.inj hpair
    exact .table hread
  case h_4 =>
    obtain ⟨⟨vs, after⟩, hread, hpair⟩ := Option.map_eq_some_iff.1 h
    obtain ⟨rfl, rfl⟩ := Prod.mk.inj hpair
    exact .list hread
  case h_5 =>
    obtain ⟨⟨content, after⟩, hread, hpair⟩ := Option.map_eq_some_iff.1 h
    obtain ⟨rfl, rfl⟩ := Prod.mk.inj hpair
    exact .quoted (Toml.basic_of_readBasic hread)
  case h_6 =>
    obtain ⟨rfl, rfl⟩ := Prod.mk.inj (Option.some.inj h)
    exact .character
  case h_7 => cases h
  case h_8 cs _ _ _ hbrace hbracket hquote _ hapostrophe htrue hfalse =>
    obtain ⟨rfl, rfl⟩ := Prod.mk.inj (Option.some.inj h)
    have hhead : ∀ c ∈ cs.head?, (c ≠ '\x7b' ∧ c ≠ '[') ∧ c ≠ '"' ∧ c ≠ '\'' := by
      cases cs with
      | nil => exact nofun
      | cons c cs =>
        rintro d ⟨⟩
        exact ⟨⟨fun h => hbrace cs (h ▸ rfl), fun h => hbracket cs (h ▸ rfl)⟩,
          fun h => hquote cs (h ▸ rfl), fun h => hapostrophe cs (h ▸ rfl)⟩
    exact bare_plain hhead (dropWord?_eq_none_iff.1 htrue) (dropWord?_eq_none_iff.1 hfalse)

theorem no_word_of_cons (htrue : c ≠ 't') (hfalse : c ≠ 'f') (cs : List Char) :
    dropWord? ['t', 'r', 'u', 'e'] (c :: cs) = none ∧
      dropWord? ['f', 'a', 'l', 's', 'e'] (c :: cs) = none := by
  rw [dropWord?_eq_none_iff, dropWord?_eq_none_iff, List.cons_prefix_cons, List.cons_prefix_cons]
  exact ⟨fun h => htrue h.1.symm, fun h => hfalse h.1.symm⟩

theorem Plain.no_word (hplain : Plain cs) (hrest : ∀ c ∈ rest.head?, isSeparator c = true) :
    dropWord? ['t', 'r', 'u', 'e'] (cs ++ rest) = none ∧
      dropWord? ['f', 'a', 'l', 's', 'e'] (cs ++ rest) = none := by
  have hword {word : List Char} (hw : ∀ c ∈ word, isSeparator c = false)
      (hnot : ¬ word <+: cs) : dropWord? word (cs ++ rest) = none :=
    dropWord?_eq_none_iff.2 (mt (isPrefix_of_append hw hplain.inner hrest) hnot)
  exact ⟨hword (by simp [isSeparator]) hplain.notTrue,
    hword (by simp [isSeparator]) hplain.notFalse⟩

theorem Plain.unquoted_append (hplain : Plain cs) (hrest : ∀ c ∈ rest.head?, isSeparator c = true) :
    ∀ c ∈ (cs ++ rest).head?, c ≠ '"' ∧ c ≠ '\'' := by
  refine forall_head?_append hplain.unquoted fun c hc => ?_
  have hseparator := hrest c hc
  constructor <;> (rintro rfl; revert hseparator; decide)

theorem readBareValue_plain (hplain : Plain cs) (hrest : ∀ c ∈ rest.head?, isSeparator c = true)
    (hhead : ∀ c ∈ (cs ++ rest).head?, c ≠ '\x7b' ∧ c ≠ '[') :
    readBareValue (fuel + 1) (cs ++ rest) = some (readPlain cs, rest) := by
  obtain ⟨htrue, hfalse⟩ := hplain.no_word hrest
  have hquote := hplain.unquoted_append hrest
  obtain ⟨htake, hdrop⟩ := span_append (p := (!isSeparator ·)) cs rest
    (fun c hc => by rw [hplain.inner c hc]; rfl) (fun c hc => by rw [hrest c hc]; rfl)
  unfold readBareValue
  rw [htrue, hfalse]
  generalize cs ++ rest = es at *
  split
  case h_1 hsome => cases hsome
  case h_2 hsome => cases hsome
  case h_3 => exact absurd rfl (hhead _ rfl).1
  case h_4 => exact absurd rfl (hhead _ rfl).2
  case h_5 => exact absurd rfl (hquote _ rfl).1
  case h_6 => exact absurd rfl (hquote _ rfl).2
  case h_7 => exact absurd rfl (hquote _ rfl).2
  case h_8 => rw [htake, hdrop]

theorem readBareValue_of_bare (h : Bare fuel cs v rest) :
    readBareValue (fuel + 1) cs = some (v, rest) := by
  cases h with
  | yes =>
    unfold readBareValue
    rw [dropWord?_eq_some_iff.2 rfl]
  | no =>
    have htrue : dropWord? ['t', 'r', 'u', 'e'] (['f', 'a', 'l', 's', 'e'] ++ rest) = none :=
      dropWord?_eq_none_iff.2 (by simp)
    unfold readBareValue
    rw [htrue, dropWord?_eq_some_iff.2 rfl]
  | @table ds _ entries hread =>
    obtain ⟨htrue, hfalse⟩ := no_word_of_cons (c := '\x7b') (by decide) (by decide) ds
    unfold readBareValue
    rw [htrue, hfalse]
    show (readEntries fuel [] ds).map _ = _
    rw [hread]
    rfl
  | @list ds _ vs hread =>
    obtain ⟨htrue, hfalse⟩ := no_word_of_cons (c := '[') (by decide) (by decide) ds
    unfold readBareValue
    rw [htrue, hfalse]
    show (readElements fuel ds).map _ = _
    rw [hread]
    rfl
  | @quoted ds content _ hread =>
    obtain ⟨htrue, hfalse⟩ := no_word_of_cons (c := '"') (by decide) (by decide) ds
    unfold readBareValue
    rw [htrue, hfalse]
    show (readBasic (ds.length + 1) ds).map _ = _
    rw [hread.readBasic_eq (Nat.le_succ _)]
    rfl
  | @character d =>
    obtain ⟨htrue, hfalse⟩ :=
      no_word_of_cons (c := '\'') (by decide) (by decide) (d :: '\'' :: rest)
    unfold readBareValue
    rw [htrue, hfalse]
    rfl
  | plain hplain hrest hhead => exact readBareValue_plain hplain hrest hhead

theorem skipSpaces_append (h : Spaces pre) (cs : List Char) :
    skipSpaces (pre ++ cs) = skipSpaces cs :=
  List.dropWhile_append_of_pos h

theorem skipSpaces_eq_self (h : ∀ c ∈ cs.head?, isSpace c = false) : skipSpaces cs = cs :=
  (span_append [] cs (List.forall_mem_nil _) h).2

theorem exists_spaces (cs : List Char) : ∃ pre, Spaces pre ∧ cs = pre ++ skipSpaces cs ∧
    ∀ c ∈ (skipSpaces cs).head?, isSpace c = false := by
  refine ⟨cs.takeWhile isSpace, fun c hc => List.mem_takeWhile_imp hc,
    List.takeWhile_append_dropWhile.symm, fun c hc => Text.not_of_mem_head?_dropWhile hc⟩

theorem isSpace_iff : isSpace c = true ↔ c = ' ' ∨ c = '\t' ∨ c = '\n' ∨ c = '\r' ∨ c = '\x0c' := by
  simp [isSpace, or_assoc]

theorem isSpace_of_isBare (h : isBare c = true) : isSpace c = false := by
  rw [Bool.eq_false_iff, ne_eq, isSpace_iff]
  rintro (rfl | rfl | rfl | rfl | rfl) <;> revert h <;> decide

theorem isSpace_of_isSeparator (h : isSeparator c = true) : isSpace c = false := by
  rw [Bool.eq_false_iff, ne_eq, isSpace_iff]
  rintro (rfl | rfl | rfl | rfl | rfl) <;> revert h <;> simp [isSeparator]

theorem skipSpaces_of_separator (h : ∀ c ∈ rest.head?, isSeparator c = true) :
    skipSpaces rest = rest :=
  skipSpaces_eq_self fun c hc => isSpace_of_isSeparator (h c hc)

theorem key_of_readKey {key : String} (hkey : readKey (skipSpaces cs) = some (key, ds))
    (hds : skipSpaces ds = '=' :: rest) : Key cs rest := by
  obtain ⟨pre, hpre, hcs, -⟩ := exists_spaces cs
  obtain ⟨post, hpost, hsplit, -⟩ := exists_spaces ds
  rw [hds] at hsplit
  rw [hcs]
  generalize skipSpaces cs = es at *
  unfold readKey at hkey
  split at hkey
  · obtain ⟨⟨content, after⟩, hread, hpair⟩ := Option.map_eq_some_iff.1 hkey
    obtain ⟨-, rfl⟩ := Prod.mk.inj hpair
    have hbasic := Toml.basic_of_readBasic hread
    rw [hsplit] at hbasic
    exact .quoted hpre hbasic hpost
  · split at hkey
    · cases hkey
    · rename_i hne
      obtain ⟨-, rfl⟩ := Prod.mk.inj (Option.some.inj hkey)
      have hown := List.takeWhile_append_dropWhile (p := isBare) (l := es)
      rw [hsplit] at hown
      rw [← hown]
      exact .bare hpre hne (fun c hc => List.mem_takeWhile_imp hc) hpost

theorem readKey_bare (hne : ds ≠ []) (hds : ∀ c ∈ ds, isBare c = true)
    (hrest : ∀ c ∈ rest.head?, isBare c = false) :
    readKey (ds ++ rest) = some (String.ofList ds, rest) := by
  obtain ⟨htake, hdrop⟩ := span_append ds rest hds hrest
  unfold readKey
  split
  · rename_i after hquote
    obtain ⟨c, tail, rfl⟩ := List.exists_cons_of_ne_nil hne
    obtain ⟨rfl, -⟩ := List.cons.inj hquote
    cases hds _ List.mem_cons_self
  · rw [htake, hdrop]
    split
    · exact absurd rfl hne
    · rfl

theorem Key.exists_readKey (h : Key cs rest) :
    ∃ key ds, readKey (skipSpaces cs) = some (key, ds) ∧ skipSpaces ds = '=' :: rest := by
  have hequals {post : List Char} (hpost : Spaces post) :
      skipSpaces (post ++ '=' :: rest) = '=' :: rest := by
    rw [skipSpaces_append hpost]
    rfl
  cases h with
  | @quoted pre cs content post _ hpre hbasic hpost =>
    refine ⟨String.ofList content, _, ?_, hequals hpost⟩
    rw [skipSpaces_append hpre]
    show (readBasic (cs.length + 1) cs).map _ = _
    rw [hbasic.readBasic_eq (Nat.le_succ _)]
    rfl
  | @bare pre key post _ hpre hne hkey hpost =>
    refine ⟨String.ofList key, _, ?_, hequals hpost⟩
    rw [skipSpaces_append hpre]
    obtain ⟨c, tail, rfl⟩ := List.exists_cons_of_ne_nil hne
    rw [skipSpaces_eq_self, readKey_bare hne hkey]
    · cases post with
      | nil =>
        rintro d ⟨⟩
        decide
      | cons d post =>
        rintro e ⟨⟩
        have hspace := hpost _ List.mem_cons_self
        rw [Bool.eq_false_iff]
        intro hbare
        rw [isSpace_of_isBare hbare] at hspace
        cases hspace
    · rintro d ⟨⟩
      exact isSpace_of_isBare (hkey _ List.mem_cons_self)

theorem readValue_eq_some_iff : readValue (fuel + 1) cs = some (v, rest) ↔
    ∃ ds, readBareValue fuel (skipSpaces cs) = some (v, ds) ∧ skipSpaces ds = rest := by
  unfold readValue
  rw [Option.map_eq_some_iff]
  constructor
  · rintro ⟨⟨w, ds⟩, hread, hpair⟩
    obtain ⟨rfl, rfl⟩ := Prod.mk.inj hpair
    exact ⟨ds, hread, rfl⟩
  · rintro ⟨ds, hread, rfl⟩
    exact ⟨(v, ds), hread, rfl⟩

structure Sound (fuel : Nat) : Prop where
  value : ∀ cs v rest, readValue fuel cs = some (v, rest) → Formed .value cs rest
  elements : ∀ cs vs rest, readElements fuel cs = some (vs, rest) → Formed .elements cs rest
  entries : ∀ cs es fs rest, readEntries fuel es cs = some (fs, rest) → Formed .entries cs rest

theorem Bare.formed (h : Bare fuel cs v rest) (hsound : Sound fuel) :
    Formed .closed cs rest ∨ ∃ ds, Plain ds ∧ cs = ds ++ rest ∧
      ∀ c ∈ rest.head?, isSeparator c = true := by
  cases h with
  | yes => exact .inl .yes
  | no => exact .inl .no
  | table hread => exact .inl (.table (hsound.entries _ _ _ _ hread))
  | list hread => exact .inl (.list (hsound.elements _ _ _ hread))
  | quoted hread => exact .inl (.quoted hread)
  | character => exact .inl .character
  | plain hplain hrest _ => exact .inr ⟨_, hplain, rfl, hrest⟩

theorem formed_value (hsound : Sound fuel) (h : readValue (fuel + 2) cs = some (v, rest)) :
    Formed .value cs rest := by
  obtain ⟨ds, hread, rfl⟩ := readValue_eq_some_iff.1 h
  obtain ⟨pre, hpre, hcs, hhead⟩ := exists_spaces cs
  rw [hcs]
  rcases (bare_of_readBareValue hread).formed hsound with hclosed | ⟨es, hplain, hsplit, hstop⟩
  · obtain ⟨post, hpost, hds, -⟩ := exists_spaces ds
    rw [hds] at hclosed
    exact .spaced hpre hclosed hpost
  · rw [hsplit] at hhead ⊢
    rw [skipSpaces_of_separator hstop]
    exact .plain hpre hplain fun c hc => hhead c (List.mem_head?_append_of_mem_head? hc)

theorem formed_elements (hsound : Sound fuel) {vs : List Value}
    (h : readElements (fuel + 1) cs = some (vs, rest)) : Formed .elements cs rest := by
  unfold readElements at h
  split at h
  · obtain ⟨-, rfl⟩ := Prod.mk.inj (Option.some.inj h)
    exact .noElement
  · split at h
    · rename_i hvalue
      obtain ⟨⟨us, after⟩, hread, hpair⟩ := Option.map_eq_some_iff.1 h
      obtain ⟨-, rfl⟩ := Prod.mk.inj hpair
      exact .element (hsound.value _ _ _ hvalue) (hsound.elements _ _ _ hread)
    · rename_i hvalue
      obtain ⟨-, rfl⟩ := Prod.mk.inj (Option.some.inj h)
      exact .lastElement (hsound.value _ _ _ hvalue)
    · cases h

theorem formed_entries (hsound : Sound fuel) {entries found : List (String × Value)}
    (h : readEntries (fuel + 1) entries cs = some (found, rest)) : Formed .entries cs rest := by
  unfold readEntries at h
  split at h
  · obtain ⟨-, rfl⟩ := Prod.mk.inj (Option.some.inj h)
    exact .noEntry
  · split at h
    · cases h
    · rename_i hkey
      split at h
      · rename_i hequals
        split at h
        · rename_i hvalue
          exact .entry (key_of_readKey hkey hequals) (hsound.value _ _ _ hvalue)
            (hsound.entries _ _ _ _ h)
        · rename_i hvalue
          obtain ⟨-, rfl⟩ := Prod.mk.inj (Option.some.inj h)
          exact .lastEntry (key_of_readKey hkey hequals) (hsound.value _ _ _ hvalue)
        · cases h
      · cases h

theorem sound (fuel : Nat) : Sound fuel := by
  induction fuel using Nat.strongRecOn with
  | ind fuel ih =>
    refine ⟨?_, ?_, ?_⟩
    · intro cs v rest h
      obtain _ | _ | fuel := fuel
      · cases h
      · obtain ⟨ds, hread, -⟩ := readValue_eq_some_iff.1 h
        cases hread
      · exact formed_value (ih fuel (by omega)) h
    · intro cs vs rest h
      obtain _ | fuel := fuel
      · cases h
      · exact formed_elements (ih fuel (Nat.lt_succ_self fuel)) h
    · intro cs entries found rest h
      obtain _ | fuel := fuel
      · cases h
      · exact formed_entries (ih fuel (Nat.lt_succ_self fuel)) h

theorem Key.suffix (h : Key cs rest) : '=' :: rest <:+ cs := by
  cases h with
  | @quoted pre cs content post _ _ hbasic _ =>
    have hpost : '=' :: rest <:+ post ++ '=' :: rest := List.suffix_append _ _
    have hcs := (hpost.trans (List.suffix_cons _ _)).trans hbasic.suffix
    exact (hcs.trans (List.suffix_cons _ _)).trans (List.suffix_append _ _)
  | bare =>
    exact ((List.suffix_append _ _).trans (List.suffix_append _ _)).trans (List.suffix_append _ _)

theorem Key.head (h : Key cs rest) : ∀ c ∈ cs.head?, c ≠ '\x7d' := by
  have hspaces {pre : List Char} (hpre : Spaces pre) {c : Char} (hc : c ∈ pre.head?) :
      c ≠ '\x7d' := by
    rintro rfl
    cases hpre _ (List.mem_of_head? hc)
  cases h with
  | quoted hpre _ _ =>
    refine forall_head?_append (fun c hc => hspaces hpre hc) ?_
    rintro c ⟨⟩
    decide
  | bare hpre hne hkey _ =>
    refine forall_head?_append (fun c hc => hspaces hpre hc) ?_
    obtain ⟨d, tail, rfl⟩ := List.exists_cons_of_ne_nil hne
    rintro c ⟨⟩ rfl
    cases hkey _ List.mem_cons_self

theorem Formed.suffix {part : Part} (h : Formed part cs rest) : rest <:+ cs := by
  induction h with
  | yes => exact List.suffix_append _ _
  | no => exact List.suffix_append _ _
  | quoted hbasic =>
    exact ((List.suffix_cons _ _).trans hbasic.suffix).trans (List.suffix_cons _ _)
  | @character c rest => exact List.suffix_append ['\'', c, '\''] rest
  | list _ ih => exact ih.trans (List.suffix_cons _ _)
  | table _ ih => exact ih.trans (List.suffix_cons _ _)
  | spaced _ _ _ ih => exact ((List.suffix_append _ _).trans ih).trans (List.suffix_append _ _)
  | plain _ _ _ => exact (List.suffix_append _ _).trans (List.suffix_append _ _)
  | noElement => exact List.suffix_cons _ _
  | lastElement _ ih => exact (List.suffix_cons _ _).trans ih
  | element _ _ ihv ih => exact ih.trans ((List.suffix_cons _ _).trans ihv)
  | noEntry => exact List.suffix_cons _ _
  | lastEntry hkey _ ih =>
    exact ((List.suffix_cons _ _).trans ih).trans ((List.suffix_cons _ _).trans hkey.suffix)
  | entry hkey _ _ ihv ih =>
    have hentries := ih.trans ((List.suffix_cons _ _).trans ihv)
    exact hentries.trans ((List.suffix_cons _ _).trans hkey.suffix)

def Stops (rest : List Char) : Prop := ∀ c ∈ rest.head?, c = ',' ∨ c = ']' ∨ c = '\x7d'

-- All that the grammar derives is accepted, with fuel for three steps for each character.
def Accepted : Part → List Char → List Char → Prop
  | .closed, cs, rest => ∀ fuel, 3 * cs.length ≤ fuel → ∃ v, Bare fuel cs v rest
  | .value, cs, rest => Stops rest → ∀ fuel, 3 * cs.length + 2 ≤ fuel →
    ∃ v, readValue fuel cs = some (v, rest)
  | .elements, cs, rest => ∀ fuel, 3 * cs.length + 3 ≤ fuel →
    ∃ vs, readElements fuel cs = some (vs, rest)
  | .entries, cs, rest => ∀ fuel entries, 3 * cs.length + 3 ≤ fuel →
    ∃ found, readEntries fuel entries cs = some (found, rest)

theorem Stops.separator (h : Stops rest) : ∀ c ∈ rest.head?, isSeparator c = true := by
  intro c hc
  rcases h c hc with rfl | rfl | rfl <;> simp [isSeparator]

theorem Formed.head_closed (h : Formed .closed cs rest) :
    ∀ c ∈ cs.head?, isSpace c = false ∧ c ≠ ']' := by
  cases h <;> (rintro c ⟨⟩; exact ⟨by decide, by decide⟩)

theorem accepted_spaced (hpre : Spaces pre) (hformed : Formed .closed cs (post ++ rest))
    (hpost : Spaces post) (h : Accepted .closed cs (post ++ rest)) :
    Accepted .value (pre ++ cs) rest := by
  intro hstop fuel hfuel
  obtain _ | _ | fuel := fuel
  · omega
  · omega
  · rw [List.length_append] at hfuel
    obtain ⟨v, hv⟩ := h fuel (by omega)
    refine ⟨v, readValue_eq_some_iff.2 ⟨post ++ rest, ?_, ?_⟩⟩
    · rw [skipSpaces_append hpre, skipSpaces_eq_self fun c hc => (hformed.head_closed c hc).1]
      exact readBareValue_of_bare hv
    · rw [skipSpaces_append hpost, skipSpaces_of_separator hstop.separator]

theorem accepted_plain (hpre : Spaces pre) (hplain : Plain cs)
    (hhead : ∀ c ∈ cs.head?, isSpace c = false) : Accepted .value (pre ++ (cs ++ rest)) rest := by
  intro hstop fuel hfuel
  obtain _ | _ | fuel := fuel
  · omega
  · omega
  · have hopen : ∀ c ∈ (cs ++ rest).head?, c ≠ '\x7b' ∧ c ≠ '[' := by
      refine forall_head?_append (fun c hc => ?_) fun c hc => ?_
      · have hinner := hplain.inner c (List.mem_of_head? hc)
        constructor <;> (rintro rfl; revert hinner; decide)
      · rcases hstop c hc with rfl | rfl | rfl <;> decide
    have hspace := forall_head?_append hhead fun c hc =>
      isSpace_of_isSeparator (hstop.separator c hc)
    refine ⟨readPlain cs, readValue_eq_some_iff.2 ⟨rest, ?_, ?_⟩⟩
    · rw [skipSpaces_append hpre, skipSpaces_eq_self hspace]
      exact readBareValue_of_bare (.plain hplain hstop.separator hopen)
    · exact skipSpaces_of_separator hstop.separator

theorem Formed.value_bracket (h : Formed .value (']' :: ds) rest) : rest = ']' :: ds := by
  have hspaces {pre es : List Char} (hpre : Spaces pre) (hes : ']' :: ds = pre ++ es) :
      es = ']' :: ds := by
    cases pre with
    | nil => exact hes.symm
    | cons c pre =>
      obtain ⟨rfl, -⟩ := List.cons.inj hes
      cases hpre _ List.mem_cons_self
  generalize hcs : ']' :: ds = cs at h
  cases h with
  | spaced hpre hclosed _ =>
    rw [hspaces hpre hcs] at hclosed
    exact absurd rfl (hclosed.head_closed _ rfl).2
  | @plain pre es _ hpre hplain _ =>
    have hes := hspaces hpre hcs
    cases es with
    | nil => exact hes.trans hcs
    | cons c es =>
      obtain ⟨rfl, -⟩ := List.cons.inj hes
      cases hplain.inner _ List.mem_cons_self

theorem accepted_lastElement (hformed : Formed .value cs (']' :: rest))
    (h : Accepted .value cs (']' :: rest)) : Accepted .elements cs rest := by
  intro fuel hfuel
  obtain _ | fuel := fuel
  · omega
  · obtain ⟨v, hv⟩ := h (by rintro c ⟨⟩; simp) fuel (by omega)
    unfold readElements
    split
    · rename_i ds
      obtain ⟨-, rfl⟩ := List.cons.inj hformed.value_bracket
      exact ⟨[], rfl⟩
    · rw [hv]
      exact ⟨[v], rfl⟩

theorem accepted_element (hformed : Formed .value cs (',' :: ds))
    (hvalue : Accepted .value cs (',' :: ds)) (h : Accepted .elements ds rest) :
    Accepted .elements cs rest := by
  intro fuel hfuel
  obtain _ | fuel := fuel
  · omega
  · have hlength := hformed.suffix.length_le
    rw [List.length_cons] at hlength
    obtain ⟨v, hv⟩ := hvalue (by rintro c ⟨⟩; simp) fuel (by omega)
    obtain ⟨vs, hvs⟩ := h fuel (by omega)
    unfold readElements
    split
    · cases hformed.value_bracket
    · refine ⟨v :: vs, ?_⟩
      rw [hv]
      show (readElements fuel ds).map _ = _
      rw [hvs]
      rfl

theorem accepted_lastEntry (hkey : Key cs ds) (h : Accepted .value ds ('\x7d' :: rest)) :
    Accepted .entries cs rest := by
  intro fuel entries hfuel
  obtain _ | fuel := fuel
  · omega
  · have hlength := hkey.suffix.length_le
    rw [List.length_cons] at hlength
    obtain ⟨key, es, hread, hequals⟩ := hkey.exists_readKey
    obtain ⟨v, hv⟩ := h (by rintro c ⟨⟩; simp) fuel (by omega)
    unfold readEntries
    split
    · exact absurd rfl (hkey.head _ rfl)
    · simp only [hread, hequals, hv]
      exact ⟨Value.insert key v entries, rfl⟩

theorem accepted_entry (hkey : Key cs ds) (hformed : Formed .value ds (',' :: es))
    (hvalue : Accepted .value ds (',' :: es)) (h : Accepted .entries es rest) :
    Accepted .entries cs rest := by
  intro fuel entries hfuel
  obtain _ | fuel := fuel
  · omega
  · have hlength := hkey.suffix.length_le
    have hown := hformed.suffix.length_le
    rw [List.length_cons] at hlength hown
    obtain ⟨key, fs, hread, hequals⟩ := hkey.exists_readKey
    obtain ⟨v, hv⟩ := hvalue (by rintro c ⟨⟩; simp) fuel (by omega)
    obtain ⟨found, hfound⟩ := h fuel (Value.insert key v entries) (by omega)
    unfold readEntries
    split
    · exact absurd rfl (hkey.head _ rfl)
    · simp only [hread, hequals, hv]
      exact ⟨found, hfound⟩

theorem Formed.accepted {part : Part} (h : Formed part cs rest) : Accepted part cs rest := by
  induction h with
  | yes => exact fun fuel _ => ⟨_, .yes⟩
  | no => exact fun fuel _ => ⟨_, .no⟩
  | quoted hbasic => exact fun fuel _ => ⟨_, .quoted hbasic⟩
  | character => exact fun fuel _ => ⟨_, .character⟩
  | list _ ih =>
    intro fuel hfuel
    obtain ⟨vs, hvs⟩ := ih fuel (by rw [List.length_cons] at hfuel; omega)
    exact ⟨_, .list hvs⟩
  | table _ ih =>
    intro fuel hfuel
    obtain ⟨found, hfound⟩ := ih fuel [] (by rw [List.length_cons] at hfuel; omega)
    exact ⟨_, .table hfound⟩
  | spaced hpre hformed hpost ih => exact accepted_spaced hpre hformed hpost ih
  | plain hpre hplain hhead => exact accepted_plain hpre hplain hhead
  | noElement =>
    intro fuel hfuel
    obtain _ | fuel := fuel
    · omega
    · exact ⟨[], rfl⟩
  | lastElement hvalue ih => exact accepted_lastElement hvalue ih
  | element hvalue _ ihv ih => exact accepted_element hvalue ihv ih
  | noEntry =>
    intro fuel entries hfuel
    obtain _ | fuel := fuel
    · omega
    · exact ⟨entries, rfl⟩
  | lastEntry hkey _ ih => exact accepted_lastEntry hkey ih
  | entry hkey hvalue _ ihv ih => exact accepted_entry hkey hvalue ihv ih

end Credential.Settings.Environment
