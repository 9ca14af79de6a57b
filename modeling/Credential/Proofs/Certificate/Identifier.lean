import Credential.Proofs.Algorithm
import Credential.Proofs.Certificate.Reading
/-!
Which identifiers of a certificate name an algorithm. A text is compared, not bytes, so that the
identifier of the algorithm is the only one with that text among those in their shortest form.
-/

namespace Credential

namespace Certificate.RawOid

open Oid (Overflow)

variable {a : SignatureAlgorithm} {o : RawOid}

def Names (o : RawOid) (a : SignatureAlgorithm) : Prop := o.spelled = some a.arcs

def Overflows (o : RawOid) : Prop := ∃ ns, o.spelled = some ns ∧ Overflow [] ns

theorem not_denotes_hexText {m n : Nat} {cs : List Char} (hm : m < 16) (hn : n < 16) :
    (∀ a, ¬ SignatureAlgorithm.Denotes (Nat.digitChar m :: Nat.digitChar n :: ' ' :: cs) a) ∧
      ¬ Oid.Overflows (Nat.digitChar m :: Nat.digitChar n :: ' ' :: cs) := by
  constructor
  · rintro a (hd | hc)
    · rcases hd.mem (c := ' ') (by simp) with h | h <;> cases h
    · have hblank : ' ' ∈ a.name.toList.map Char.toUpper := by
        rw [← hc]
        exact List.mem_map.2 ⟨' ', List.mem_filter.2 ⟨by simp, by decide⟩, by decide⟩
      revert hblank
      cases a <;> decide
  · rintro ⟨-, front, rest, ns, hcs, hns, ho⟩
    have hdigit : ∀ k < 16, Nat.digitChar k ≠ '.' ∧
        (Nat.digitChar k).toNat - '0'.toNat < 64 := by decide
    obtain ⟨hmdot, hmlt⟩ := hdigit m hm
    obtain ⟨hndot, hnlt⟩ := hdigit n hn
    have hlimit : 1000 < Oid.arcLimit := by decide
    have h := hns.textArcs_overflow ho rest
    rw [← hcs, Oid.textArcs_cons hmdot] at h
    split at h
    · rw [if_pos (by omega), Oid.textArcs_cons hndot] at h
      split at h
      · rw [if_pos (by omega), Oid.textArcs_cons (by decide)] at h
        cases h
      · cases h
    · cases h

theorem parse_toText_ok_iff : SignatureAlgorithm.parse o.toText = .ok a ↔ o.Names a := by
  rw [SignatureAlgorithm.parse_ok_iff, Names]
  cases hs : o.spelled with
  | some ns =>
    rw [toText_of_spelled hs, Oid.trim_dotted, SignatureAlgorithm.denotes_dotted_iff,
      Option.some_inj]
  | none =>
    obtain ⟨ht, m, hm, n, hn, cs, hcs⟩ := toText_of_spelled_eq_none hs
    rw [ht, trim_hexText, ← ht, hcs]
    exact ⟨fun h => absurd h ((not_denotes_hexText hm hn).1 a), nofun⟩

theorem parse_toText_overflow_iff :
    SignatureAlgorithm.parse o.toText = .error .overflow ↔ o.Overflows := by
  rw [SignatureAlgorithm.parse_overflow_iff, Overflows]
  cases hs : o.spelled with
  | some ns =>
    rw [toText_of_spelled hs, Oid.trim_dotted, (Oid.dotted_dotted ns).overflows_iff]
    simp only [Option.some_inj, exists_eq_left']
  | none =>
    obtain ⟨ht, m, hm, n, hn, cs, hcs⟩ := toText_of_spelled_eq_none hs
    rw [ht, trim_hexText, ← ht, hcs]
    refine ⟨fun h => absurd h (not_denotes_hexText hm hn).2, ?_⟩
    rintro ⟨ns, h, -⟩
    cases h

theorem spelled_oid (a : SignatureAlgorithm) : spelled ⟨a.oid.content⟩ = some a.arcs := by
  cases a <;> decide_cbv

theorem names_iff_of_canonical (ho : Oid.Canonical ⟨o.content⟩) :
    o.Names a ↔ o.content = a.oid.content := by
  constructor
  · intro h
    exact (congrArg Oid.content (ofArcs_of_spelled ho h)).symm
  · intro hc
    obtain ⟨content⟩ := o
    obtain rfl : content = a.oid.content := hc
    exact spelled_oid a

end Certificate.RawOid

namespace SignatureAlgorithm

open Certificate (RawOid)

variable {a : SignatureAlgorithm}

theorem oid_canonical (a : SignatureAlgorithm) : a.oid.Canonical :=
  ⟨a.arcs, rfl⟩

theorem parse_toText_oid (a : SignatureAlgorithm) :
    parse (RawOid.toText ⟨a.oid.content⟩) = .ok a :=
  RawOid.parse_toText_ok_iff.2 (RawOid.spelled_oid a)

theorem skippable_identifier (a : SignatureAlgorithm) : Certificate.Skippable a.identifier := by
  cases a <;> decide_cbv

theorem findIdentifier_ok {name : String} {identifier : AlgorithmIdentifier}
    (hp : parse name = .ok a) (h : findIdentifier name = .ok identifier) :
    identifier = a.identifier := by
  rw [findIdentifier, hp] at h
  exact (Except.ok.inj h).symm

end SignatureAlgorithm

end Credential
