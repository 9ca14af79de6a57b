import Credential.Text.Armor
/-!
Armoured text reads back as the bytes it was written from: base64 group by group, lines of full
width, and the boundaries around them.
-/

namespace Credential.Text

namespace Base64

theorem value?_symbol {n : Nat} (h : n < 64) : value? (symbol n) = some n := by
  have hall : ∀ n < 64, value? (symbol n) = some n := by decide
  exact hall n h

theorem ofNat_of_toNat {a : UInt8} {n : Nat} (h : n = a.toNat) : UInt8.ofNat n = a := by
  rw [h, UInt8.ofNat_toNat]

theorem decode?_group {a b c d : Char} {w x y z : Nat} (ha : value? a = some w)
    (hb : value? b = some x) (hc : value? c = some y) (hd : value? d = some z)
    {rest : List Char} {r : Bytes} (h : decode? rest = some r) :
    decode? (a :: b :: c :: d :: rest) =
      some (UInt8.ofNat (w * 4 + x / 16) :: UInt8.ofNat (x % 16 * 16 + y / 4) ::
        UInt8.ofNat (y % 4 * 64 + z) :: r) := by
  cases rest with
  | nil =>
    cases h
    simp only [decode?, decodeLast?, ha, hb, hc, hd]
  | cons e rest =>
    rw [decode?]
    · simp only [ha, hb, hc, hd, h, Option.map_some, List.cons_append, List.nil_append]
    · simp

theorem decode?_encode (b : Bytes) : decode? (encode b) = some b := by
  have hpad : value? '=' = none := rfl
  fun_induction encode b with
  | case1 => rfl
  | case2 a =>
    have h0 := a.toNat_lt
    have h1 := value?_symbol (n := a.toNat / 4) (by omega)
    have h2 := value?_symbol (n := a.toNat % 4 * 16) (by omega)
    simp only [decode?, decodeLast?, h1, h2, hpad]
    rw [if_pos ⟨trivial, trivial, by omega⟩, ofNat_of_toNat (a := a) (by omega)]
  | case3 a b =>
    have h0 := a.toNat_lt
    have h0' := b.toNat_lt
    have h1 := value?_symbol (n := a.toNat / 4) (by omega)
    have h2 := value?_symbol (n := a.toNat % 4 * 16 + b.toNat / 16) (by omega)
    have h3 := value?_symbol (n := b.toNat % 16 * 4) (by omega)
    simp only [decode?, decodeLast?, h1, h2, h3, hpad]
    rw [if_pos ⟨trivial, by omega⟩, ofNat_of_toNat (a := a) (by omega),
      ofNat_of_toNat (a := b) (by omega)]
  | case4 a b c rest ih =>
    have h0 := a.toNat_lt
    have h0' := b.toNat_lt
    have h0'' := c.toNat_lt
    rw [decode?_group (value?_symbol (n := a.toNat / 4) (by omega))
      (value?_symbol (n := a.toNat % 4 * 16 + b.toNat / 16) (by omega))
      (value?_symbol (n := b.toNat % 16 * 4 + c.toNat / 64) (by omega))
      (value?_symbol (n := c.toNat % 64) (by omega)) ih,
      ofNat_of_toNat (a := a) (by omega), ofNat_of_toNat (a := b) (by omega),
      ofNat_of_toNat (a := c) (by omega)]

def IsSymbol (c : Char) : Prop := c = '=' ∨ ∃ n < 64, c = symbol n

theorem isSymbol_encode {b : Bytes} : ∀ c ∈ encode b, IsSymbol c := by
  have hs {n : Nat} (h : n < 64) : IsSymbol (symbol n) := .inr ⟨n, h, rfl⟩
  have hpad : IsSymbol '=' := .inl rfl
  fun_induction encode b with
  | case1 => simp
  | case2 a =>
    have h0 := a.toNat_lt
    simp [hs (n := a.toNat / 4) (by omega), hs (n := a.toNat % 4 * 16) (by omega), hpad]
  | case3 a b =>
    have h0 := a.toNat_lt
    have h0' := b.toNat_lt
    simp [hs (n := a.toNat / 4) (by omega), hs (n := a.toNat % 4 * 16 + b.toNat / 16) (by omega),
      hs (n := b.toNat % 16 * 4) (by omega), hpad]
  | case4 a b c rest ih =>
    have h0 := a.toNat_lt
    have h0' := b.toNat_lt
    have h0'' := c.toNat_lt
    simp only [List.forall_mem_cons]
    exact ⟨hs (by omega), hs (by omega), hs (by omega), hs (by omega), ih⟩

theorem IsSymbol.ne_return {c : Char} (h : IsSymbol c) : c ≠ '\r' := by
  have hall : ∀ n < 64, symbol n ≠ '\r' := by decide
  rcases h with rfl | ⟨n, hn, rfl⟩
  · decide
  · exact hall n hn

end Base64

namespace Armor

theorem dropStart?_append (s rest : List Char) : dropStart? s (s ++ rest) = some rest := by
  induction s with
  | nil => rfl
  | cons c s ih => simpa [dropStart?] using ih

theorem dropLineEnd?_chars (e : LineEnd) (rest : List Char) :
    dropLineEnd? (e.chars ++ rest) = some rest := by
  cases e with
  | lf => rfl
  | crlf => rfl

theorem dropLastLineEnd?_chars (e : LineEnd) {cs : List Char} (h : cs.getLast? ≠ some '\r') :
    dropLastLineEnd? (cs ++ e.chars).reverse = some cs.reverse := by
  rw [List.reverse_append]
  cases e with
  | lf =>
    rw [← List.head?_reverse] at h
    show dropLastLineEnd? ('\n' :: cs.reverse) = some cs.reverse
    unfold dropLastLineEnd?
    split
    · simp_all
    · simp_all
    · simp_all
    · simp_all
  | crlf => rfl

theorem unwrap?_line (e : LineEnd) {line body cs : List Char} (hl : line.length = columns)
    (h : unwrap? body = some cs) : unwrap? (line ++ (e.chars ++ body)) = some (line ++ cs) := by
  have hdrop : (line ++ (e.chars ++ body)).drop columns = e.chars ++ body := List.drop_left' hl
  have htake : (line ++ (e.chars ++ body)).take columns = line := List.take_left' hl
  rw [unwrap?]
  split
  · rename_i hd
    rw [hdrop] at hd
    cases e <;> cases hd
  · rename_i c rest hd
    rw [hdrop] at hd
    split
    · rename_i more hm
      rw [← hd, dropLineEnd?_chars] at hm
      obtain rfl := Option.some.inj hm
      rw [h, htake, Option.map_some]
    · rename_i hm
      rw [← hd, dropLineEnd?_chars] at hm
      cases hm

theorem exists_unwrap? (e : LineEnd) {cs : List Char} (h : cs ≠ []) :
    ∃ body, (wrap cs).flatMap (· ++ e.chars) = body ++ e.chars ∧ unwrap? body = some cs ∧
      body ≠ [] ∧ body.getLast? = cs.getLast? := by
  induction hn : cs.length using Nat.strongRecOn generalizing cs with
  | ind n ih =>
    subst hn
    obtain ⟨c, rest, rfl⟩ := List.exists_cons_of_ne_nil h
    rw [wrap]
    cases hd : (c :: rest).drop columns with
    | nil =>
      refine ⟨c :: rest, ?_, ?_, h, rfl⟩
      · rw [wrap, List.take_of_length_le (List.drop_eq_nil_iff.1 hd)]
        simp
      · rw [unwrap?]
        split
        · rfl
        · rename_i hd'
          rw [hd] at hd'
          cases hd'
    | cons d more =>
      have hcut : (c :: rest).take columns ++ d :: more = c :: rest := by
        rw [← hd, List.take_append_drop]
      have hlen : ((c :: rest).take columns).length = columns := by
        have := congrArg List.length hd
        simp only [List.length_take, List.length_drop, List.length_cons] at this ⊢
        omega
      have hshort : (d :: more).length < (c :: rest).length := by
        rw [← hcut, List.length_append, hlen]
        simp only [columns]
        omega
      obtain ⟨body, hb, hu, hne, hlast⟩ := ih _ hshort (List.cons_ne_nil d more) rfl
      refine ⟨(c :: rest).take columns ++ (e.chars ++ body), ?_, ?_, by simp [hne], ?_⟩
      · rw [List.flatMap_cons, hb]
        simp only [List.append_assoc]
      · rw [unwrap?_line e hlen hu, hcut]
      · rw [← hcut]
        simp [List.getLast?_append, hlast, List.getLast?_cons]

theorem body?_write (e : LineEnd) (label : String) {body : List Char}
    (h : body.getLast? ≠ some '\r') :
    body? label (opening ++ label.toList ++ dashes ++ e.chars ++ (body ++ e.chars) ++ closing ++
      label.toList ++ dashes ++ e.chars) = some body := by
  have hend : (body ++ e.chars ++ (closing ++ label.toList ++ dashes)).getLast? ≠ some '\r' := by
    simp [dashes]
  have hfoot : (body ++ e.chars ++ (closing ++ label.toList ++ dashes)).reverse =
      (closing ++ label.toList ++ dashes).reverse ++ (body ++ e.chars).reverse :=
    List.reverse_append
  have htext : opening ++ label.toList ++ dashes ++ e.chars ++ (body ++ e.chars) ++ closing ++
      label.toList ++ dashes ++ e.chars = opening ++ ((label.toList ++ dashes) ++ (e.chars ++
        ((body ++ e.chars ++ (closing ++ label.toList ++ dashes)) ++ e.chars))) := by
    simp only [List.append_assoc]
  rw [htext, body?]
  simp only [dropStart?_append, Option.orElse_some, Option.bind_eq_bind, Option.bind_some,
    dropLineEnd?_chars, dropLastLineEnd?_chars e hend, Option.getD_some, hfoot,
    dropLastLineEnd?_chars e h, List.reverse_reverse, Option.pure_def]

theorem read?_write (e : LineEnd) (label : String) {content : Bytes} (h : content ≠ []) :
    read? label (write e label content) = some content := by
  have hne : Base64.encode content ≠ [] := by
    intro hn
    have hd := Base64.decode?_encode content
    rw [hn] at hd
    exact h (Option.some.inj hd).symm
  obtain ⟨body, hb, hu, hbody, hlast⟩ := exists_unwrap? e hne
  have hreturn : body.getLast? ≠ some '\r' := by
    rw [hlast]
    intro hr
    exact (Base64.isSymbol_encode _ (List.mem_of_getLast? hr)).ne_return rfl
  simp only [read?, write, String.toList_ofList, hb, body?_write e label hreturn,
    Option.bind_eq_bind, Option.bind_some, hu, Base64.decode?_encode]
  rw [if_neg (by simpa using hbody)]

end Armor

end Credential.Text
