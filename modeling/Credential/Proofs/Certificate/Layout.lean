import Credential.Proofs.Certificate.Forging
/-!
Where the fields of a certificate stand: every reader leaves the end of what it was given, so that
the signed bytes, the key and the signature are parts of the certificate as it came.
-/

namespace Credential.Certificate

variable {b rest content : Bytes}

theorem readLongNumber_suffix {room value n : Nat}
    (h : readLongNumber room value b = some (n, rest)) : rest <:+ b := by
  induction room generalizing value b with
  | zero => cases h
  | succ room ih =>
    cases b with
    | nil => cases h
    | cons x xs =>
      simp only [readLongNumber] at h
      split at h
      · cases h
        exact List.suffix_cons x rest
      · exact (ih h).trans (List.suffix_cons x xs)

theorem readNumber_suffix {first : UInt8} {n : Nat} (h : readNumber b = some (first, n, rest)) :
    rest <:+ b := by
  unfold readNumber at h
  split at h
  · cases h
  · split at h
    · obtain ⟨⟨m, after⟩, hm, he⟩ := Option.map_eq_some_iff.1 h
      cases he
      exact (readLongNumber_suffix hm).trans (List.suffix_cons _ _)
    · cases h
      exact List.suffix_cons _ _

theorem readLength_suffix {n : Option Nat} (h : readLength b = some (n, rest)) : rest <:+ b := by
  unfold readLength at h
  split at h
  · cases h
  · split at h
    · cases h
      exact List.suffix_cons _ _
    · split at h
      · cases h
        exact List.suffix_cons _ _
      · dsimp only at h
        split at h
        · cases h
        · cases h
          exact (List.drop_suffix _ _).trans (List.suffix_cons _ _)

theorem readHeader_suffix {header : Header} (h : readHeader b = some (header, rest)) :
    rest <:+ b := by
  unfold readHeader at h
  split at h
  · rename_i hn
    obtain ⟨⟨n, after⟩, hl, he⟩ := Option.map_eq_some_iff.1 h
    cases he
    exact (readLength_suffix hl).trans (readNumber_suffix hn)
  · cases h

theorem readElement_eq {e : Element} (h : readElement b = some (e, rest)) :
    ∃ front, b = front ++ e.content ++ rest := by
  unfold readElement at h
  split at h
  · rename_i after hh
    obtain ⟨front, rfl⟩ := readHeader_suffix hh
    split at h
    · rename_i n hn
      split at h
      · cases h
        exact ⟨front, by rw [List.append_assoc, List.take_append_drop]⟩
      · cases h
    · cases h
  · cases h

theorem readElement_suffix {e : Element} (h : readElement b = some (e, rest)) : rest <:+ b := by
  obtain ⟨front, rfl⟩ := readElement_eq h
  exact List.suffix_append _ _

theorem skipOpened_suffix {opened : Nat} (h : skipOpened opened b = some rest) : rest <:+ b := by
  fun_induction skipOpened opened b with
  | case1 b =>
    cases h
    exact List.suffix_rfl
  | case2 => cases h
  | case3 b opened _ header after hh _ n hn hend ih => exact (ih h).trans (readHeader_suffix hh)
  | case4 b opened _ header after hh _ n hn hend hle ih =>
    exact ((ih h).trans (List.drop_suffix n after)).trans (readHeader_suffix hh)
  | case5 => cases h
  | case6 b opened _ header after hh _ hn hdeep ih => exact (ih h).trans (readHeader_suffix hh)
  | case7 => cases h

theorem readOpenElement_suffix {e : Element} (h : readOpenElement b = some (e, rest)) :
    rest <:+ b := by
  unfold readOpenElement at h
  split at h
  · rename_i after hh
    have hafter := readHeader_suffix hh
    split at h
    · split at h
      · cases h
        exact (List.drop_suffix _ _).trans hafter
      · cases h
    · split at h
      · obtain ⟨end', hs, he⟩ := Option.map_eq_some_iff.1 h
        cases he
        exact (skipOpened_suffix hs).trans hafter
      · cases h
  · cases h

theorem container_eq {number : Nat} (h : container number b = .ok (content, rest)) :
    ∃ front, b = front ++ content ++ rest := by
  unfold container at h
  split at h
  · rename_i he
    split at h
    · cases h
      exact readElement_eq he
    · cases h
  · cases h

theorem container_suffix {number : Nat} (h : container number b = .ok (content, rest)) :
    rest <:+ b := by
  obtain ⟨front, rfl⟩ := container_eq h
  exact List.suffix_append _ _

theorem readAlgorithm_suffix {o : RawOid} (h : readAlgorithm b = .ok (o, rest)) : rest <:+ b := by
  obtain ⟨⟨content, after⟩, hc, h⟩ := exists_of_bind_ok h
  obtain ⟨⟨oid, parameters⟩, -, h⟩ := exists_of_bind_ok h
  dsimp only at h
  split at h
  · cases h
    exact container_suffix hc
  · cases h

theorem readVersion_suffix {n : Nat} (h : readVersion b = .ok (n, rest)) : rest <:+ b := by
  unfold readVersion at h
  split at h
  · cases h
    exact List.suffix_rfl
  · split at h
    · rename_i he
      split at h
      · cases h
        exact List.suffix_rfl
      · split at h
        · split at h
          · cases h
            exact readElement_suffix he
          · cases h
        · cases h
    · cases h

theorem readSerial_suffix (h : readSerial b = .ok (content, rest)) : rest <:+ b := by
  unfold readSerial at h
  split at h
  · rename_i he
    split at h
    · cases h
      exact readOpenElement_suffix he
    · cases h
  · cases h

theorem readName_suffix (h : readName b = .ok (content, rest)) : rest <:+ b := by
  unfold readName at h
  split at h
  · rename_i hc
    cases h
    exact container_suffix hc
  · cases h

theorem readValidity_suffix {times : Int × Int} (h : readValidity b = .ok (times, rest)) :
    rest <:+ b := by
  obtain ⟨⟨content, after⟩, hc, h⟩ := exists_of_bind_ok h
  obtain ⟨⟨notBefore, content'⟩, -, h⟩ := exists_of_bind_ok h
  obtain ⟨⟨notAfter, left⟩, -, h⟩ := exists_of_bind_ok h
  cases h
  exact container_suffix hc

theorem readPublicKey_prefix {key : Bytes} (h : readPublicKey b = .ok (key, rest)) : key <+: b := by
  obtain ⟨⟨content, after⟩, -, h⟩ := exists_of_bind_ok h
  obtain ⟨⟨oid, bits⟩, -, h⟩ := exists_of_bind_ok h
  obtain ⟨⟨value, remaining⟩, -, h⟩ := exists_of_bind_ok h
  cases h
  exact List.take_prefix _ _

structure Spans (der : Bytes) (f : Fields) (front body after : Bytes) : Prop where
  bytes : der = front ++ f.signed ++ after
  whole : container sequenceNumber der = .ok (f.signed ++ after, [])
  signed : container sequenceNumber (f.signed ++ after) = .ok (body, after)
  ending : body <:+ f.signed
  innerAlgorithm : ∃ rest left, rest <:+ body ∧ readAlgorithm rest = .ok (f.innerAlgorithm, left)
  publicKey : ∃ rest left, rest <:+ body ∧ readPublicKey rest = .ok (f.publicKey, left) ∧
    f.publicKey <+: rest
  outer : ∃ rest left, readAlgorithm after = .ok (f.outerAlgorithm, rest) ∧
    readBits .signature rest = .ok (f.signature, left)

theorem exists_spans {der : Bytes} {f : Fields} (h : readFields der = .ok (f, [])) :
    ∃ front body after, Spans der f front body after := by
  obtain ⟨⟨certificate, trailing⟩, hwhole, h⟩ := exists_of_bind_ok h
  obtain ⟨⟨body, after⟩, hbody, h⟩ := exists_of_bind_ok h
  obtain ⟨⟨version, r₁⟩, hversion, h⟩ := exists_of_bind_ok h
  obtain ⟨⟨serial, r₂⟩, hserial, h⟩ := exists_of_bind_ok h
  obtain ⟨⟨inner, r₃⟩, hinner, h⟩ := exists_of_bind_ok h
  obtain ⟨⟨issuer, r₄⟩, hissuer, h⟩ := exists_of_bind_ok h
  obtain ⟨⟨⟨notBefore, notAfter⟩, r₅⟩, hvalidity, h⟩ := exists_of_bind_ok h
  obtain ⟨⟨subject, r₆⟩, hsubject, h⟩ := exists_of_bind_ok h
  obtain ⟨⟨publicKey, r₇⟩, hkey, h⟩ := exists_of_bind_ok h
  obtain ⟨⟨⟨⟩, r₈⟩, -, h⟩ := exists_of_bind_ok h
  obtain ⟨⟨⟨⟩, r₉⟩, -, h⟩ := exists_of_bind_ok h
  obtain ⟨extensions, -, h⟩ := exists_of_bind_ok h
  obtain ⟨⟨outer, s₁⟩, houter, h⟩ := exists_of_bind_ok h
  obtain ⟨⟨signature, s₂⟩, hbits, h⟩ := exists_of_bind_ok h
  cases h
  have hend : r₂ <:+ body := (readSerial_suffix hserial).trans (readVersion_suffix hversion)
  have hrest : r₆ <:+ body :=
    (readName_suffix hsubject).trans <| (readValidity_suffix hvalidity).trans <|
      (readName_suffix hissuer).trans <| (readAlgorithm_suffix hinner).trans hend
  obtain ⟨front, hder⟩ := container_eq hwhole
  obtain ⟨head, hsigned⟩ := container_eq hbody
  have htake : certificate.take (certificate.length - after.length) = head ++ body := by
    rw [hsigned, List.length_append, Nat.add_sub_cancel, List.take_left]
  have hwith : head ++ body ++ after = certificate := hsigned.symm
  refine ⟨front, body, after, ?_⟩
  rw [htake]
  exact {
    bytes := by
      rw [hder, hsigned, List.append_nil]
      exact (List.append_assoc front (head ++ body) after).symm
    whole := by rw [hwith]; exact hwhole
    signed := by rw [hwith]; exact hbody
    ending := List.suffix_append _ _
    innerAlgorithm := ⟨r₂, r₃, hend, hinner⟩
    publicKey := ⟨r₆, r₇, hrest, hkey, readPublicKey_prefix hkey⟩
    outer := ⟨s₁, s₂, houter, hbits⟩ }

end Credential.Certificate
