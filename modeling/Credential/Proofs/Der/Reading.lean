import Credential.Proofs.Der.RoundTrip

namespace Credential.Der

variable {b rest : Bytes} {n limit : Nat}

theorem lengthBytes_of_readLength (h : readLength b = some (n, rest)) :
    lengthBytes n ++ rest = b := by
  unfold readLength at h
  split at h
  · cases h
  · rename_i c cs
    split at h
    · rename_i hc
      cases h
      have hc : c.toNat < 128 := UInt8.lt_iff_toNat_lt.1 hc
      rw [lengthBytes, if_pos hc, UInt8.ofNat_toNat, List.singleton_append]
    · simp only [] at h
      split at h
      · rename_i hl
        obtain ⟨hn, hr⟩ := Prod.mk.inj (Option.some.inj h)
        rw [← hn, ← hr, hl.2.2.2, List.cons_append, List.take_append_drop]
      · cases h

namespace Value

variable {v w : Value} {vs : List Value} {o : Oid} {number : UInt8} {content : Bytes}

theorem encode_of_readValue (h : readValue b = some (v, rest)) : v.encode ++ rest = b := by
  unfold readValue at h
  split at h
  · cases h
  · split at h
    · split at h
      · rename_i n body hr
        split at h
        · rename_i hn
          cases h
          rw [encode, List.length_take, Nat.min_eq_left hn, List.cons_append, List.cons_append,
            List.append_assoc, List.take_append_drop, lengthBytes_of_readLength hr]
        · cases h
      · cases h
    · cases h

theorem encodeAll_of_readValues (h : readValues b = some vs) : encodeAll vs = b := by
  induction vs generalizing b with
  | nil =>
    unfold readValues at h
    split at h
    · rfl
    · split at h
      · obtain ⟨ws, -, hw⟩ := Option.map_eq_some_iff.1 h
        cases hw
      · cases h
  | cons v vs ih =>
    unfold readValues at h
    split at h
    · cases h
    · split at h
      · rename_i hv
        obtain ⟨ws, hr, hw⟩ := Option.map_eq_some_iff.1 h
        cases hw
        rw [encodeAll_cons, ih hr, encode_of_readValue hv]
      · cases h

theorem decode?_eq_some_iff : decode? b = some v ↔ b = v.encode ∧ v.Known ∧ v.Fits := by
  constructor
  · intro h
    unfold decode? at h
    split at h
    · rename_i w hr
      split at h
      · rename_i hl
        cases h
        have hb := encode_of_readValue hr
        rw [List.append_nil] at hb
        exact ⟨hb.symm, known_of_readValue hr, by rw [Fits, hb]; exact hl⟩
      · cases h
    · cases h
  · rintro ⟨rfl, hk, hf⟩
    exact decode?_encode hk hf

theorem eq_sequence (h : v.sequence? = some vs) : v = sequence vs := by
  obtain ⟨tag, content⟩ := v
  unfold sequence? at h
  split at h
  · rename_i ht
    have ht : tag = Tag.sequence := ht
    rw [sequence, encodeAll_of_readValues h, ht]
  · cases h

theorem octets?_eq_some_iff : v.octets? = some content ↔ v = octets content := by
  constructor
  · intro h
    obtain ⟨tag, b⟩ := v
    unfold octets? at h
    split at h
    · rename_i ht
      have ht : tag = Tag.octetString := ht
      cases h
      rw [octets, ht]
    · cases h
  · rintro rfl
    exact octets?_octets content

theorem natural?_eq_some_iff : v.natural? = some n ↔ v = natural n := by
  constructor
  · intro h
    obtain ⟨tag, b⟩ := v
    unfold natural? at h
    split at h
    · rename_i ht
      have ht : tag = Tag.integer := ht
      simp only [] at h
      split at h
      · rename_i hb
        cases h
        rw [natural, hb, ht]
      · cases h
    · cases h
  · rintro rfl
    exact natural?_natural n

theorem naturalBelow?_eq_some_iff : v.naturalBelow? limit = some n ↔ v = natural n ∧ n < limit := by
  constructor
  · intro h
    unfold naturalBelow? at h
    split at h
    · rename_i k hk
      split at h
      · rename_i hl
        cases h
        exact ⟨natural?_eq_some_iff.1 hk, hl⟩
      · cases h
    · cases h
  · rintro ⟨rfl, hl⟩
    exact naturalBelow?_natural hl

theorem eq_explicit (h : v.explicit? number = some w) : v = explicit number w ∧ w.Known := by
  obtain ⟨tag, content⟩ := v
  unfold explicit? at h
  split at h
  · rename_i ht
    have ht : tag = Tag.context number := ht
    obtain ⟨hc, hk, -⟩ := decode?_eq_some_iff.1 h
    have hc : content = w.encode := hc
    exact ⟨by rw [explicit, ht, hc], hk⟩
  · cases h

theorem eq_oid (h : v.oid? = some o) : v = oid o := by
  obtain ⟨tag, content⟩ := v
  unfold oid? at h
  split at h
  · rename_i ht
    have ht : tag = Tag.oid := ht
    unfold Oid.ofContent? at h
    split at h
    · cases h
      rw [oid, ht]
    · cases h
  · cases h

end Value

end Credential.Der
