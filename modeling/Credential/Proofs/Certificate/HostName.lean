import Mathlib.Data.List.Chain
import Credential.Proofs.Certificate.Name
import Credential.Proofs.Text.Order
/-!
The name of a host. Splitting looks at the two characters before a separator, so a backslash of the
host right before a separator of the host tears the escaped text apart; every other host that is not
too long for any encoding comes back as the one common name.
-/

namespace Credential.Name

open Der (Value)

variable {separator older last : Char} {piece cs : List Char} {b : Bool} {host : String}

def Guarded (cs : List Char) : Prop :=
  (',' :: cs).IsChain fun c d => d = '=' → c = '\\'

theorem Guarded.left {ds : List Char} (h : Guarded (cs ++ ds)) : Guarded cs := by
  unfold Guarded at h
  rw [← List.cons_append] at h
  exact (List.isChain_append.1 h).1

theorem Guarded.right {c : Char} {ds : List Char} (hc : c ≠ '\\')
    (h : Guarded (cs ++ c :: ds)) : Guarded ds := by
  unfold Guarded at h
  rw [← List.cons_append] at h
  obtain ⟨hhead, htail⟩ := List.isChain_cons.1 (List.isChain_append.1 h).2.1
  exact List.isChain_cons.2 ⟨fun d hd he => absurd (hhead d hd he) hc, htail⟩

theorem isChain_escapeHost (c : Char) (b : Bool) (cs : List Char) :
    (c :: escapeHost b cs).IsChain fun c d => d = '=' → c = '\\' := by
  induction cs generalizing c b with
  | nil => exact .singleton c
  | cons d cs ih =>
    rw [escapeHost]
    split
    · exact .cons_cons (by simp) (.cons_cons (fun _ => rfl) (ih d false))
    · rename_i hd
      refine .cons_cons ?_ (ih d false)
      rintro rfl
      exact absurd (Or.inr (by simp)) hd

theorem guarded_splitFrom (hs : separator ≠ '\\') (h : Guarded (piece.reverse ++ cs)) :
    ∀ p ∈ splitFrom separator older last piece cs, Guarded p := by
  induction cs generalizing older last piece with
  | nil =>
    rw [List.append_nil] at h
    simpa [splitFrom] using h
  | cons c cs ih =>
    rw [splitFrom]
    split
    · rename_i hc
      refine List.forall_mem_cons.2 ⟨h.left, ih ?_⟩
      exact h.right (by rw [hc.1]; exact hs)
    · exact ih (by simpa using h)

theorem ofText?_guarded (h : Guarded cs) : NameAttribute.ofText? cs = none := by
  unfold NameAttribute.ofText?
  split
  · rfl
  · rename_i d value hd
    have hcs : cs.takeWhile (· ≠ '=') ++ d :: value = cs := by
      rw [← hd, List.takeWhile_append_dropWhile]
    have heq : d = '=' := by
      have := List.head?_dropWhile_not (· ≠ '=') cs
      rw [hd] at this
      simpa using this
    subst heq
    -- the key ends in the backslash that guards the equals sign, as no short name does
    have hmem : '\\' ∈ cs.takeWhile (· ≠ '=') := by
      unfold Guarded at h
      rw [← hcs, ← List.cons_append] at h
      have hlast := (List.isChain_append.1 h).2.2
      have hne : ',' :: cs.takeWhile (· ≠ '=') ≠ [] := List.cons_ne_nil _ _
      have hback := hlast _ (List.getLast?_eq_some_getLast hne) '=' rfl rfl
      have hmem := List.getLast_mem hne
      rw [hback] at hmem
      exact (List.mem_cons.1 hmem).resolve_left (by decide)
    have hshort : ∀ e ∈ NameAttribute.shortNames, '\\' ∉ e.1.toList := by decide_cbv
    have hnone : NameAttribute.shortNames.find?
        (·.1 = Text.upper (String.ofList (cs.takeWhile (· ≠ '=')))) = none := by
      refine List.find?_eq_none.2 fun e he hk => hshort e he ?_
      rw [of_decide_eq_true hk, Text.upper, String.toList_ofList, String.toList_ofList]
      exact List.mem_map.2 ⟨'\\', hmem, rfl⟩
    simp only [hnone]

theorem partOfText?_guarded (h : Guarded cs) : partOfText? cs = none := by
  obtain ⟨p, hp⟩ := List.exists_mem_of_ne_nil _ (splitFrom_ne_nil '+' '\x00' '\x00' [] cs)
  have hstart : Guarded ([].reverse ++ cs) := h
  have hnone : (split '+' cs).mapM NameAttribute.ofText? = none :=
    mapM_eq_none hp (ofText?_guarded (guarded_splitFrom (by decide) hstart p hp))
  rw [partOfText?, hnone]

theorem splitFrom_whole (hs : separator = ',' ∨ separator = '+')
    (h : ¬ ['\\', separator] <:+: last :: cs) :
    splitFrom separator older last piece (escapeHost b cs) =
      [piece.reverse ++ escapeHost b cs] := by
  induction cs generalizing older last piece b with
  | nil => simp [escapeHost, splitFrom]
  | cons c cs ih =>
    rw [List.infix_cons_iff, not_or] at h
    have htear : ¬ (last = '\\' ∧ c = separator) := by
      rintro ⟨rfl, rfl⟩
      exact h.1 (by simp)
    rw [escapeHost]
    split
    · rw [splitFrom, if_neg (by rcases hs with rfl | rfl <;> simp), splitFrom,
        if_neg (by simp only [ne_eq, not_true_eq_false, false_or]; exact fun hc => htear hc.symm),
        ih h.2]
      simp
    · rename_i hc
      rw [splitFrom, if_neg ?_, ih h.2]
      · simp
      · rintro ⟨rfl, -⟩
        exact hc (.inr (by rcases hs with rfl | rfl <;> simp))

theorem splitFrom_torn (hs : separator = ',' ∨ separator = '+')
    (h : ['\\', separator] <:+: last :: cs) (older : Char) (piece : List Char) (b : Bool) :
    ∃ p ps, splitFrom separator older last piece (escapeHost b cs) = p :: ps ∧ ps ≠ [] ∧
      ∀ q ∈ ps, Guarded q := by
  induction cs generalizing older last piece b with
  | nil => simp [List.infix_cons_iff] at h
  | cons c cs ih =>
    have hne : separator ≠ '\\' := by rcases hs with rfl | rfl <;> decide
    by_cases htear : last = '\\' ∧ c = separator
    · obtain ⟨rfl, rfl⟩ := htear
      have hc : (b = true ∧ (c = ' ' ∨ c = '#')) ∨
          c ∈ [',', '+', '"', '\\', '<', '>', ';', '='] :=
        .inr (by rcases hs with rfl | rfl <;> simp)
      rw [escapeHost, if_pos hc, splitFrom, if_neg (fun h => hne h.1.symm), splitFrom,
        if_pos ⟨rfl, .inr rfl⟩]
      exact ⟨_, _, rfl, splitFrom_ne_nil _ _ _ _ _,
        guarded_splitFrom hne (isChain_escapeHost ',' false cs)⟩
    · have hlater : ['\\', separator] <:+: c :: cs := by
        rcases List.infix_cons_iff.1 h with hp | hi
        · simp only [List.cons_prefix_cons, List.nil_prefix, and_true] at hp
          exact absurd ⟨hp.1.symm, hp.2.symm⟩ htear
        · exact hi
      rw [escapeHost]
      split
      · rw [splitFrom, if_neg (fun h => hne h.1.symm), splitFrom, if_neg ?_]
        · exact ih hlater _ _ _
        · simp only [ne_eq, not_true_eq_false, false_or]
          exact fun hc => htear hc.symm
      · rename_i hc
        rw [splitFrom, if_neg ?_]
        · exact ih hlater _ _ _
        · rintro ⟨rfl, -⟩
          exact hc (.inr (by rcases hs with rfl | rfl <;> simp))

theorem unescape?_special {c : Char} (h : NameAttribute.isSpecial c = true) (cs : List Char) :
    NameAttribute.unescape? ('\\' :: c :: cs) =
      (NameAttribute.unescape? cs).map (String.utf8EncodeChar c ++ ·) := by
  conv_lhs => unfold NameAttribute.unescape?
  simp only [h, if_true]

theorem isSpecial_of_escaped {c : Char} (h : (b = true ∧ (c = ' ' ∨ c = '#')) ∨
    c ∈ [',', '+', '"', '\\', '<', '>', ';', '=']) : NameAttribute.isSpecial c = true := by
  have hall : [' ', '#', ',', '+', '"', '\\', '<', '>', ';', '='].all NameAttribute.isSpecial := by
    rfl
  rcases h with ⟨-, rfl | rfl⟩ | h
  · rfl
  · rfl
  · exact List.all_eq_true.1 hall c (List.mem_cons_of_mem _ (List.mem_cons_of_mem _ h))

theorem unescape?_escapeHost (b : Bool) (cs : List Char) :
    NameAttribute.unescape? (escapeHost b cs) = some (cs.flatMap String.utf8EncodeChar) := by
  induction cs generalizing b with
  | nil => rfl
  | cons c cs ih =>
    rw [escapeHost]
    split
    · rename_i hc
      rw [unescape?_special (isSpecial_of_escaped hc), ih, Option.map_some, List.flatMap_cons]
    · rename_i hc
      have hne : c ≠ '\\' := by
        rintro rfl
        exact hc (.inr (by simp))
      rw [NameAttribute.unescape?, ih]
      · rfl
      · simp [hne]
      · simp [hne]

theorem toList_hostText (host : String) :
    (hostText host).toList = 'C' :: 'N' :: '=' :: escapeHost true host.toList := by
  simp [hostText]

def ofCommonName (text : String) : Name :=
  ⟨[[⟨NameAttribute.commonName, ⟨Der.Tag.utf8String, Bytes.ofText text⟩⟩]]⟩

def Torn (text : String) : Prop :=
  ['\\', ','] <:+: text.toList ∨ ['\\', '+'] <:+: text.toList

instance (text : String) : Decidable (Torn text) := inferInstanceAs (Decidable (_ ∨ _))

theorem split_hostText (separator : Char) (hs : separator = ',' ∨ separator = '+')
    (host : String) : split separator (hostText host).toList =
      splitFrom separator 'N' '=' ['=', 'N', 'C'] (escapeHost true host.toList) := by
  rw [toList_hostText]
  rcases hs with rfl | rfl <;> rfl

theorem infix_of_cons {c d e : Char} {cs : List Char} (hc : c ≠ d) :
    [d, e] <:+: c :: cs ↔ [d, e] <:+: cs := by
  rw [List.infix_cons_iff, List.cons_prefix_cons]
  exact or_iff_right fun h => hc h.1.symm

theorem partOfText?_hostText (h : ¬ ['\\', '+'] <:+: host.toList) :
    partOfText? (hostText host).toList =
      if (Bytes.ofText host).length ≤ Der.maxLength then
        some [⟨NameAttribute.commonName, ⟨Der.Tag.utf8String, Bytes.ofText host⟩⟩]
      else none := by
  have hsplit : split '+' (hostText host).toList = [(hostText host).toList] := by
    rw [split_hostText '+' (.inr rfl),
      splitFrom_whole (.inr rfl) ((infix_of_cons (by decide)).not.2 h), toList_hostText]
    rfl
  have hread : NameAttribute.ofText? (hostText host).toList =
      if (Bytes.ofText host).length ≤ Der.maxLength then
        some ⟨NameAttribute.commonName, ⟨Der.Tag.utf8String, Bytes.ofText host⟩⟩
      else none := by
    have hkey : (hostText host).toList.takeWhile (· ≠ '=') = ['C', 'N'] := by
      rw [toList_hostText]
      rfl
    have hvalue : (hostText host).toList.dropWhile (· ≠ '=') = '=' :: escapeHost true host.toList := by
      rw [toList_hostText]
      rfl
    have hfind : NameAttribute.shortNames.find? (·.1 = Text.upper (String.ofList ['C', 'N'])) =
        some ("CN", NameAttribute.commonName, Der.Tag.utf8String) := by decide_cbv
    rw [NameAttribute.ofText?, hvalue]
    simp only [hkey, hfind, unescape?_escapeHost, Bytes.ofText_eq]
  rw [partOfText?, hsplit, List.mapM_cons, hread]
  by_cases hl : (Bytes.ofText host).length ≤ Der.maxLength
  · simp [hl]
  · simp [hl]

theorem ofText?_hostText (host : String) :
    ofText? (hostText host) =
      if Torn host ∨ Der.maxLength < (Bytes.ofText host).length then none
      else some (ofCommonName host) := by
  by_cases hcomma : ['\\', ','] <:+: host.toList
  · rw [if_pos (.inl (.inl hcomma)), ofText?, split_hostText ',' (.inl rfl)]
    obtain ⟨p, ps, hsplit, hne, hps⟩ := splitFrom_torn (.inl rfl)
      ((infix_of_cons (by decide : '=' ≠ '\\')).2 hcomma) 'N' ['=', 'N', 'C'] true
    obtain ⟨q, hq⟩ := List.exists_mem_of_ne_nil ps hne
    rw [hsplit, mapM_eq_none (List.mem_cons_of_mem p hq) (partOfText?_guarded (hps q hq))]
    rfl
  · have hwhole : split ',' (hostText host).toList = [(hostText host).toList] := by
      rw [split_hostText ',' (.inl rfl),
        splitFrom_whole (.inl rfl) ((infix_of_cons (by decide)).not.2 hcomma), toList_hostText]
      rfl
    rw [ofText?, hwhole]
    by_cases hplus : ['\\', '+'] <:+: host.toList
    · have hnone : partOfText? (hostText host).toList = none := by
        obtain ⟨p, ps, hsplit, hne, hps⟩ := splitFrom_torn (.inr rfl)
          ((infix_of_cons (by decide : '=' ≠ '\\')).2 hplus) 'N' ['=', 'N', 'C'] true
        obtain ⟨q, hq⟩ := List.exists_mem_of_ne_nil ps hne
        rw [partOfText?, split_hostText '+' (.inr rfl), hsplit,
          mapM_eq_none (List.mem_cons_of_mem p hq) (ofText?_guarded (hps q hq))]
      rw [if_pos (.inl (.inr hplus)), mapM_eq_none (List.mem_singleton_self _) hnone]
      rfl
    · have htorn : ¬ Torn host := not_or.2 ⟨hcomma, hplus⟩
      rw [List.mapM_cons, partOfText?_hostText hplus]
      by_cases hl : (Bytes.ofText host).length ≤ Der.maxLength
      · rw [if_pos hl, if_neg (not_or.2 ⟨htorn, Nat.not_lt.2 hl⟩)]
        rfl
      · rw [if_neg hl, if_pos (.inr (Nat.lt_of_not_le hl))]
        rfl

end Credential.Name
