import Credential.Proofs.Container.Bags
/-!
Which certificates of a container make the chain of a key. Certificates are paired with keys by the
numbers that both carry; one with a number that no key carries is left out of every chain.
-/

namespace Credential.Container

open Der (Value)

namespace StoredKey

def Owns (k : StoredKey) (s : StoredCertificate) : Prop :=
  s.keyId.isSome = true ∧ s.keyId = k.keyId

instance (k : StoredKey) (s : StoredCertificate) : Decidable (k.Owns s) := by
  unfold Owns
  infer_instance

end StoredKey

namespace Contents

variable {c : Contents} {k : StoredKey} {s : StoredCertificate} {x : Certificate}

def Unpaired (c : Contents) (s : StoredCertificate) : Prop := ∀ k ∈ c.keys, ¬ k.Owns s

instance (c : Contents) (s : StoredCertificate) : Decidable (c.Unpaired s) := by
  unfold Unpaired
  infer_instance

def Dangles (c : Contents) (s : StoredCertificate) : Prop :=
  s.keyId.isSome = true ∧ c.Unpaired s

instance (c : Contents) (s : StoredCertificate) : Decidable (c.Dangles s) := by
  unfold Dangles
  infer_instance

def pairedChain (c : Contents) (k : StoredKey) : List Certificate :=
  ((c.certificates.filter fun s => k.Owns s) ++ c.certificates.filter fun s => c.Unpaired s).map
    (·.certificate)

def withoutDangling (c : Contents) : Contents :=
  ⟨c.keys, c.certificates.filter fun s => ¬ c.Dangles s⟩

theorem chain_eq (c : Contents) (k : StoredKey) : c.chain k =
    ((c.certificates.filter fun s => k.Owns s) ++
      c.certificates.filter fun s => s.keyId = none).map (·.certificate) := by
  have howns (s : StoredCertificate) :
      (s.keyId.isSome && s.keyId == k.keyId) = decide (k.Owns s) := by
    rw [Bool.eq_iff_iff, decide_eq_true_eq, Bool.and_eq_true, beq_iff_eq]
    rfl
  have hnone (s : StoredCertificate) : s.keyId.isNone = decide (s.keyId = none) := by
    cases s.keyId <;> rfl
  simp only [chain, howns, hnone]

theorem unpaired_iff : c.Unpaired s ↔ s.keyId = none ∨ c.Dangles s := by
  constructor
  · intro h
    cases hid : s.keyId with
    | none => exact .inl rfl
    | some id => exact .inr ⟨by rw [hid]; rfl, h⟩
  · rintro (hnone | hdangles)
    · rintro k - ⟨hsome, -⟩
      rw [hnone] at hsome
      cases hsome
    · exact hdangles.2

theorem not_dangles_of_none (h : s.keyId = none) : ¬ c.Dangles s := by
  rintro ⟨hsome, -⟩
  rw [h] at hsome
  cases hsome

theorem not_dangles_of_owns (hk : k ∈ c.keys) (h : k.Owns s) : ¬ c.Dangles s :=
  fun hd => hd.2 k hk h

theorem not_dangles_iff : ¬ c.Dangles s ↔ s.keyId = none ∨ ∃ k ∈ c.keys, k.Owns s := by
  constructor
  · intro h
    by_contra hn
    obtain ⟨hid, hnone⟩ := not_or.1 hn
    exact h ⟨Option.isSome_iff_ne_none.2 hid, fun k hk ho => hnone ⟨k, hk, ho⟩⟩
  · rintro (hnone | ⟨k, hk, ho⟩)
    · exact not_dangles_of_none hnone
    · exact not_dangles_of_owns hk ho

theorem mem_chain_iff : x ∈ c.chain k ↔
    ∃ s ∈ c.certificates, (k.Owns s ∨ s.keyId = none) ∧ s.certificate = x := by
  rw [chain_eq, List.mem_map]
  simp only [List.mem_append, List.mem_filter, decide_eq_true_eq, ← and_or_left, and_assoc]

theorem chain_withoutDangling (hk : k ∈ c.keys) :
    c.withoutDangling.pairedChain k = c.chain k := by
  have howns : c.withoutDangling.certificates.filter (fun s => k.Owns s) =
      c.certificates.filter fun s => k.Owns s := by
    rw [withoutDangling, List.filter_filter]
    refine List.filter_congr fun s _ => Bool.eq_iff_iff.2 ?_
    rw [Bool.and_eq_true, decide_eq_true_eq, decide_eq_true_eq]
    exact and_iff_left_of_imp fun ho => not_dangles_of_owns hk ho
  have hnone : c.withoutDangling.certificates.filter (fun s => c.Unpaired s) =
      c.certificates.filter fun s => s.keyId = none := by
    rw [withoutDangling, List.filter_filter]
    refine List.filter_congr fun s _ => Bool.eq_iff_iff.2 ?_
    rw [Bool.and_eq_true, decide_eq_true_eq, decide_eq_true_eq, decide_eq_true_eq, unpaired_iff,
      or_and_right, and_not_self_iff, or_false]
    exact and_iff_left_of_imp not_dangles_of_none
  rw [chain_eq, ← howns, ← hnone]
  rfl

-- The certificates without a number are some of the unpaired ones, and all of them only if as many.
theorem chain_eq_pairedChain_iff (hk : k ∈ c.keys) :
    c.chain k = c.pairedChain k ↔ ∀ s ∈ c.certificates, ¬ c.Dangles s := by
  constructor
  · intro h s hs hd
    have hlength := congrArg List.length h
    rw [chain_eq, pairedChain, List.length_map, List.length_map, List.length_append,
      List.length_append, Nat.add_left_cancel_iff] at hlength
    have hsublist : (c.certificates.filter fun s => s.keyId = none).Sublist
        (c.certificates.filter fun s => c.Unpaired s) := by
      refine List.monotone_filter_right _ fun s hnone => ?_
      exact decide_eq_true (unpaired_iff.2 (.inl (of_decide_eq_true hnone)))
    have hmem : s ∈ c.certificates.filter fun s => s.keyId = none := by
      rw [hsublist.eq_of_length hlength]
      exact List.mem_filter.2 ⟨hs, decide_eq_true hd.2⟩
    exact not_dangles_of_none (of_decide_eq_true (List.mem_filter.1 hmem).2) hd
  · intro h
    have hall : c.withoutDangling = c := by
      rw [withoutDangling, List.filter_eq_self.2 fun s hs => decide_eq_true (h s hs)]
    rw [← chain_withoutDangling hk, hall]

theorem exists_chain_iff : (∃ k ∈ c.keys, x ∈ c.chain k) ↔
    c.keys ≠ [] ∧ ∃ s ∈ c.certificates, ¬ c.Dangles s ∧ s.certificate = x := by
  constructor
  · rintro ⟨k, hk, hx⟩
    obtain ⟨s, hs, hchain, rfl⟩ := mem_chain_iff.1 hx
    refine ⟨List.ne_nil_of_mem hk, s, hs, not_dangles_iff.2 ?_, rfl⟩
    rcases hchain with howns | hnone
    · exact .inr ⟨k, hk, howns⟩
    · exact .inl hnone
  · rintro ⟨hne, s, hs, hd, rfl⟩
    rcases not_dangles_iff.1 hd with hnone | ⟨k, hk, howns⟩
    · obtain ⟨k, hk⟩ := List.exists_mem_of_ne_nil _ hne
      exact ⟨k, hk, mem_chain_iff.2 ⟨s, hs, .inr hnone, rfl⟩⟩
    · exact ⟨k, hk, mem_chain_iff.2 ⟨s, hs, .inl howns, rfl⟩⟩

end Contents

theorem decode_chains (der : Bytes) (password : String) (c : Contents)
    (h : decode der password = .ok c) :
    (∃ bags, HoldsBags der password bags ∧ Contents.Keeps bags c) ∧
    (∀ k ∈ c.keys, c.chain k = c.withoutDangling.pairedChain k ∧
      (c.chain k = c.pairedChain k ↔ ∀ s ∈ c.certificates, ¬ c.Dangles s)) ∧
    ∀ x, (∃ k ∈ c.keys, x ∈ c.chain k) ↔
      c.keys ≠ [] ∧ ∃ s ∈ c.certificates, ¬ c.Dangles s ∧ s.certificate = x := by
  refine ⟨?_, ?_, ?_⟩
  · obtain ⟨bags, hb⟩ := HoldsBags.of_decode h
    exact ⟨bags, hb, (hb.decode_ok_iff.1 h).2⟩
  · intro k hk
    exact ⟨(Contents.chain_withoutDangling hk).symm, Contents.chain_eq_pairedChain_iff hk⟩
  · intro x
    exact Contents.exists_chain_iff

def otherCertificate : Certificate where
  der := sampleCertificate.der.set 6 2
  fields := { sampleCertificate.fields with
    serial := [2]
    signed := sampleCertificate.fields.signed.set 4 2 }
  parse_der := by decide_cbv

def sampleNumber : Value := .set [Attribute.value ⟨localKeyIdOid, [.octets [2]]⟩]

def danglingBags : List Value :=
  [sampleKeyBag,
    Bag.encoded certificateBagOid (Bag.certificateValue otherCertificate) (some sampleNumber),
    Bag.encoded certificateBagOid (Bag.certificateValue sampleCertificate) none]

def danglingContents : Contents where
  keys := [⟨"a", none, .octets [5]⟩]
  certificates := [⟨none, some [2], otherCertificate⟩, ⟨none, none, sampleCertificate⟩]

theorem decode_danglingBags : decode (sampleParts [danglingBags]) "" = .ok danglingContents := by
  have hbags : HoldsBags (sampleParts [danglingBags]) "" _ :=
    holdsBags_sampleParts (by decide +kernel) (by decide +kernel)
  exact hbags.decode_eq.trans (by decide +kernel)

theorem decode_chains_dangling :
    decode (sampleParts [danglingBags]) "" = .ok danglingContents ∧
    ∀ k ∈ danglingContents.keys, danglingContents.chain k = [sampleCertificate] ∧
      danglingContents.chain k = danglingContents.withoutDangling.pairedChain k := by
  refine ⟨decode_danglingBags, ?_⟩
  intro k hk
  have hchain := ((decode_chains _ "" _ decode_danglingBags).2.1 k hk).1
  obtain rfl := List.mem_singleton.1 hk
  exact ⟨by decide +kernel, hchain⟩

theorem chain_loses_dangling :
    decode (sampleParts [danglingBags]) "" = .ok danglingContents ∧
    ∃ k ∈ danglingContents.keys, danglingContents.chain k = [sampleCertificate] ∧
      danglingContents.pairedChain k = [otherCertificate, sampleCertificate] ∧
      ∃ s ∈ danglingContents.certificates, ∀ l ∈ danglingContents.keys,
        s.certificate ∉ danglingContents.chain l := by
  refine ⟨decode_danglingBags, _, List.mem_singleton_self _, by decide +kernel, by decide +kernel,
    ⟨none, some [2], otherCertificate⟩, by decide +kernel, ?_⟩
  decide +kernel

end Credential.Container
