import Credential.Proofs.Certificate.Reading

namespace Credential

open Der (Value)

namespace Name

structure Readable (n : Name) : Prop where
  parts : ∀ part ∈ n.parts, part ≠ []
  known : ∀ part ∈ n.parts, ∀ a ∈ part, a.value.Known

end Name

namespace Certificate

variable {rest : Bytes}

theorem number_of_known {v : Value} (hk : v.Known) : v.tag &&& 0x1F ≠ 0x1F := by
  have hk : Der.Tag.isKnown v.tag = true := hk
  unfold Der.Tag.isKnown at hk
  split at hk
  · have hall : ([0x01, 0x02, 0x03, 0x04, 0x05, 0x06, 0x09, 0x0A, 0x0C, 0x12, 0x13, 0x14, 0x15,
        0x16, 0x17, 0x18, 0x1A, 0x1E, 0x30, 0x31] : List UInt8).all (· &&& 0x1F != 0x1F) = true := by
      rfl
    exact bne_iff_ne.1 (List.all_eq_true.1 hall _ (List.contains_iff_mem.1 hk))
  · exact bne_iff_ne.1 hk

theorem isAttribute_encoded {a : NameAttribute} (hk : a.value.Known) (hf : a.encoded.Fits)
    (rest : Bytes) : isAttribute (a.encoded.encode ++ rest) = some rest := by
  have hread := readOid_oid .name (o := a.type) (hf.mem_sequence (by simp))
    (Der.encodeAll [a.value])
  have helement := readElement_encode (number_of_known hk) (hf.mem_sequence (by simp)) []
  rw [← Value.encodeAll_cons] at hread
  rw [isAttribute, NameAttribute.encoded, container_sequence hf]
  simp only [hread]
  rw [Value.encodeAll_cons, Value.encodeAll_nil, helement]
  rfl

theorem container_set {vs : List Value} (hf : (Value.set vs).Fits) (rest : Bytes) :
    container setNumber ((Value.set vs).encode ++ rest) =
      .ok (Der.encodeAll (Value.sort vs), rest) := by
  have hn : (header (Value.set vs)).number = setNumber :=
    (by decide : (Der.Tag.set &&& 0x1F).toNat = setNumber)
  rw [container, readElement_encode (by decide : Der.Tag.set &&& 0x1F ≠ 0x1F) hf]
  simp only [hn, if_true]
  rfl

theorem dropPart?_encode {part : List NameAttribute} (hne : part ≠ [])
    (hk : ∀ a ∈ part, a.value.Known) (hf : (Value.set (part.map NameAttribute.encoded)).Fits)
    (rest : Bytes) :
    dropPart? ((Value.set (part.map NameAttribute.encoded)).encode ++ rest) = some rest := by
  have hsorted : Value.sort (part.map NameAttribute.encoded) ≠ [] := by
    intro hn
    have hperm := Value.sort_perm (part.map NameAttribute.encoded)
    rw [hn] at hperm
    exact hne (List.map_eq_nil_iff.1 hperm.nil_eq.symm)
  obtain ⟨v, vs, hv⟩ := List.exists_cons_of_ne_nil hsorted
  have hm : v ∈ part.map NameAttribute.encoded := by
    rw [← Value.mem_sort, hv]
    exact List.mem_cons_self
  obtain ⟨a, ha, rfl⟩ := List.mem_map.1 hm
  rw [dropPart?, container_set hf, hv]
  simp only [Value.encodeAll_cons, isAttribute_encoded (hk a ha) (hf.mem_set hm)]
  rfl

theorem dropParts_nil : dropParts [] = [] := by
  rw [dropParts]
  rfl

theorem dropParts_encodeAll (parts : List (List NameAttribute)) (hne : ∀ part ∈ parts, part ≠ [])
    (hk : ∀ part ∈ parts, ∀ a ∈ part, a.value.Known)
    (hf : ∀ v ∈ parts.map (fun part => Value.set (part.map NameAttribute.encoded)), v.Fits) :
    dropParts (Der.encodeAll (parts.map fun part => .set (part.map NameAttribute.encoded))) = [] := by
  induction parts with
  | nil => exact dropParts_nil
  | cons part parts ih =>
    rw [List.map_cons, List.forall_mem_cons] at hf
    obtain ⟨hp, hps⟩ := List.forall_mem_cons.1 hne
    obtain ⟨hkp, hkps⟩ := List.forall_mem_cons.1 hk
    have hdrop := dropPart?_encode hp hkp hf.1
      (Der.encodeAll (parts.map fun part => .set (part.map NameAttribute.encoded)))
    rw [List.map_cons, Value.encodeAll_cons, dropParts]
    split
    · rename_i after h
      obtain rfl := Option.some.inj (hdrop.symm.trans h)
      exact ih hps hkps hf.2
    · rename_i h
      rw [hdrop] at h
      cases h

theorem readName_readable {n : Name} (hn : n.Readable) (hf : n.value.Fits) (rest : Bytes) :
    readName (n.toDer ++ rest) = .ok (n.toDer, rest) := by
  have hdrop : dropParts n.value.content = [] :=
    dropParts_encodeAll n.parts hn.parts hn.known fun v => hf.mem_sequence
  rw [readName_encode hf, hdrop, List.length_nil, Nat.sub_zero, List.take_length]

end Certificate

namespace Name

theorem splitFrom_ne_nil (separator older last : Char) (piece cs : List Char) :
    splitFrom separator older last piece cs ≠ [] := by
  induction cs generalizing older last piece with
  | nil => exact List.cons_ne_nil _ _
  | cons c rest ih =>
    unfold splitFrom
    split
    · exact List.cons_ne_nil _ _
    · exact ih last c (c :: piece)

theorem known_of_ofText? {cs : List Char} {a : NameAttribute}
    (h : NameAttribute.ofText? cs = some a) : a.value.Known := by
  unfold NameAttribute.ofText? at h
  split at h
  · cases h
  · dsimp only at h
    split at h
    · rename_i key type tag b hfind _
      obtain ⟨-, h⟩ := Option.ite_none_right_eq_some.1 h
      obtain rfl := Option.some.inj h
      have hall : ∀ e ∈ NameAttribute.shortNames, Der.Tag.isKnown e.2.2 = true := by decide_cbv
      exact hall _ (List.mem_of_find?_eq_some hfind)
    · cases h

theorem readable_of_partOfText? {cs : List Char} {part : List NameAttribute}
    (h : partOfText? cs = some part) : part ≠ [] ∧ ∀ a ∈ part, a.value.Known := by
  unfold partOfText? at h
  split at h
  · rename_i attributes hm
    split at h
    · obtain rfl := Option.some.inj h
      constructor
      · refine List.ne_nil_of_length_pos ?_
        rw [length_of_mapM hm]
        exact List.length_pos_iff.2 (splitFrom_ne_nil '+' '\x00' '\x00' [] cs)
      · intro a ha
        obtain ⟨text, -, ht⟩ := exists_of_mem_mapM hm ha
        exact known_of_ofText? ht
    · cases h
  · cases h

theorem readable_of_ofText? {s : String} {n : Name} (h : ofText? s = some n) : n.Readable := by
  obtain ⟨parts, hm, rfl⟩ := Option.map_eq_some_iff.1 h
  have hall : ∀ part ∈ parts.reverse, part ≠ [] ∧ ∀ a ∈ part, a.value.Known := by
    intro part hp
    obtain ⟨text, -, ht⟩ := exists_of_mem_mapM hm (List.mem_reverse.1 hp)
    exact readable_of_partOfText? ht
  exact ⟨fun part hp => (hall part hp).1, fun part hp => (hall part hp).2⟩

theorem readable_of_ofHost {host : String} {n : Name} (h : ofHost host = .ok n) : n.Readable := by
  unfold ofHost at h
  dsimp only at h
  split at h
  · cases h
  · split at h
    · rename_i name hn
      obtain rfl := Except.ok.inj h
      exact readable_of_ofText? hn
    · cases h

end Name

end Credential
