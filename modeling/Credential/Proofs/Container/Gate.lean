import Credential.Proofs.Container.Parts
import Credential.Proofs.Der.Reading
import Credential.Proofs.Results
/-!
The integrity code comes before everything else in a container: nothing is read of what is under it
until it has been found to match.
-/

namespace Credential

open Der (Value)

theorem AlgorithmIdentifier.eq_value {v : Value} {a : AlgorithmIdentifier}
    (h : ofValue? v = some a) : v = a.value := by
  unfold ofValue? at h
  split at h
  · rename_i hs
    obtain ⟨o, ho, rfl⟩ := Option.map_eq_some_iff.1 h
    rw [Value.eq_sequence hs, Value.eq_oid ho]
    rfl
  · rename_i hs
    obtain ⟨o, ho, rfl⟩ := Option.map_eq_some_iff.1 h
    rw [Value.eq_sequence hs, Value.eq_oid ho]
    rfl
  · cases h

namespace Container

variable {v : Value} {c : Content} {m : Mac} {p : Pfx} {der safe : Bytes} {password : String}
  {mac : Mac} {contents : List Content}

theorem Content.eq_encoded (h : Content.ofValue? v = some c) : v = c.encoded := by
  unfold Content.ofValue? at h
  split at h
  · rename_i hs
    obtain ⟨t, ht, rfl⟩ := Option.map_eq_some_iff.1 h
    rw [Value.eq_sequence hs, Value.eq_oid ht]
    rfl
  · rename_i hs
    split at h
    · rename_i ht hv
      cases h
      rw [Value.eq_sequence hs, Value.eq_oid ht, (Value.eq_explicit hv).1]
      rfl
    · cases h
  · cases h

theorem Content.eq_data {b : Bytes} (h : c.readData = .ok b) : c = Content.data b := by
  obtain ⟨type, value⟩ := c
  unfold Content.readData at h
  split at h
  · cases h
  · rename_i ht
    have ht : type = dataOid := not_ne_iff.1 ht
    split at h
    · cases h
    · rename_i v hv
      have hv : value = some v := hv
      split at h
      · rename_i hb
        cases h
        rw [ht, hv, Value.octets?_eq_some_iff.1 hb]
        rfl
      · cases h

namespace Content

variable {bytes : Bytes} {bags : List Bag}

inductive Yields (password : String) : Content → Bytes → Prop
  | plain (bytes : Bytes) : Yields password (data bytes) bytes
  | encrypted {c : Content} {bytes : Bytes} :
    c.type = encryptedDataOid → c.unprotect password = .ok bytes → Yields password c bytes

def HoldsBags (password : String) (c : Content) (bags : List Bag) : Prop :=
  ∃ bytes, c.Yields password bytes ∧ Bag.ofContents? bytes = some bags

theorem addContent_eq (h : c.HoldsBags password bags) (base : Contents) :
    base.addContent password c = bags.foldlM Contents.addBag base := by
  obtain ⟨bytes, hy, hb⟩ := h
  cases hy with
  | plain bytes =>
    have ht : (data bytes).type = dataOid := rfl
    simp only [Contents.addContent, ht, if_true, readData_data, bind, Except.bind, hb]
  | encrypted ht hu =>
    simp only [Contents.addContent, ht, encryptedDataOid_ne, if_false, if_true, hu, bind,
      Except.bind, hb]

end Content

structure Mac.Readable (m : Mac) : Prop where
  oid : m.digestAlgorithm.oid.Readable
  parameters : ∀ p ∈ m.digestAlgorithm.parameters, p.Known
  iterations : m.iterations < 2 ^ 32

theorem Mac.eq_value_or_counted (h : Mac.ofValue? v = some m) :
    m.Readable ∧ (v = m.value ∨ v = m.counted) := by
  unfold Mac.ofValue? at h
  split at h
  · rename_i info salt rest hs
    split at h
    · rename_i algorithm digest s hi hsalt
      obtain rfl := Value.eq_sequence hi
      obtain rfl := Value.octets?_eq_some_iff.1 hsalt
      split at h
      · rename_i a d ha hd
        cases h
        obtain ⟨ho, hp⟩ := AlgorithmIdentifier.readable_of_ofValue? ha
        refine ⟨⟨ho, hp, (by decide : 1 < 2 ^ 32)⟩, .inl ?_⟩
        rw [Value.eq_sequence hs, AlgorithmIdentifier.eq_value ha, Value.octets?_eq_some_iff.1 hd]
        rfl
      · rename_i a d count ha hd
        obtain ⟨n, hn, rfl⟩ := Option.map_eq_some_iff.1 h
        obtain ⟨hcount, hlimit⟩ := Value.naturalBelow?_eq_some_iff.1 hn
        obtain ⟨ho, hp⟩ := AlgorithmIdentifier.readable_of_ofValue? ha
        refine ⟨⟨ho, hp, hlimit⟩, .inr ?_⟩
        rw [Value.eq_sequence hs, AlgorithmIdentifier.eq_value ha, Value.octets?_eq_some_iff.1 hd,
          hcount]
        rfl
      · cases h
    · cases h
  · cases h

theorem Pfx.eq_sequence {n : Nat} (h : Pfx.ofValue? v = some ⟨n, c, some m⟩) :
    m.Readable ∧ ∃ code, (code = m.value ∨ code = m.counted) ∧
      v = .sequence [.natural n, c.encoded, code] := by
  unfold Pfx.ofValue? at h
  split at h
  · rename_i first content rest hs
    split at h
    · cases h
    · rename_i hn hc
      obtain ⟨m', hm, he⟩ := Option.map_eq_some_iff.1 h
      cases he
      obtain ⟨hr, hcode⟩ := Mac.eq_value_or_counted hm
      refine ⟨hr, _, hcode, ?_⟩
      rw [Value.eq_sequence hs, (Value.naturalBelow?_eq_some_iff.1 hn).1, Content.eq_encoded hc]
    · cases h
  · cases h

-- The bytes are one container of the version in use, whose content is `safe` as plain data under
-- the code `mac`, which names the one hash in use. A count of one may be written or left out.
structure Carries (der safe : Bytes) (mac : Mac) : Prop where
  bytes : ∃ code, (code = mac.value ∨ code = mac.counted) ∧
    der = (Value.sequence [.natural version, (Content.data safe).encoded, code]).encode
  length : der.length ≤ Der.maxLength
  algorithm : mac.digestAlgorithm.oid = sha256Oid
  parameters : ∀ p ∈ mac.digestAlgorithm.parameters, p.Known
  iterations : mac.iterations < 2 ^ 32

theorem carries_iff : Carries der safe mac ↔
    (Value.decode? der).bind Pfx.ofValue? = some ⟨version, Content.data safe, some mac⟩ ∧
      mac.digestAlgorithm.oid = sha256Oid := by
  constructor
  · rintro ⟨⟨code, hcode, rfl⟩, hl, ha, hp, hn⟩
    have hf : (Value.sequence [.natural version, (Content.data safe).encoded, code]).Fits := hl
    have hc := Content.ofValue?_data (hf.mem_sequence (v := (Content.data safe).encoded) (by simp))
    have ho : mac.digestAlgorithm.oid.Readable := by
      rw [ha]
      exact sha256Oid_readable
    have hcf : code.Fits := hf.mem_sequence (by simp)
    have hm : Mac.ofValue? code = some mac := by
      rcases hcode with rfl | rfl
      · exact Mac.ofValue?_value ho hp hn hcf
      · exact Mac.ofValue?_counted ho hp hn hcf
    have hk : code.Known := by
      rcases hcode with rfl | rfl
      · exact Mac.known_value mac
      · exact Mac.known_counted mac
    rw [Value.decode?_encode (Value.known_sequence _) hf, Option.bind_some]
    exact ⟨Pfx.ofValue?_sequence (by decide) hc hm hk hf, ha⟩
  · rintro ⟨h, ha⟩
    obtain ⟨v, hv, hp⟩ := Option.bind_eq_some_iff.1 h
    obtain ⟨rfl, -, hf⟩ := Value.decode?_eq_some_iff.1 hv
    obtain ⟨hm, code, hcode, rfl⟩ := Pfx.eq_sequence hp
    exact ⟨⟨code, hcode, rfl⟩, hf, ha, hm.parameters, hm.iterations⟩

theorem authenticate_eq (h : Carries der safe mac) :
    authenticate der password = (mac.verify password safe).map fun _ => safe := by
  rw [authenticate, (carries_iff.1 h).1]
  simp only [Content.readData_data, ne_eq, not_true_eq_false, if_false]
  change (mac.verify password safe >>= fun _ => .ok safe) = _
  cases mac.verify password safe with
  | error e => rfl
  | ok u => rfl

theorem authenticate_ok (h : authenticate der password = .ok safe) :
    ∃ mac, Carries der safe mac ∧ mac.verify password safe = .ok () := by
  unfold authenticate at h
  split at h
  · cases h
  · rename_i pfx hpfx
    obtain ⟨n, content, code⟩ := pfx
    split at h
    · cases h
    · rename_i hn
      have hn : n = version := not_ne_iff.1 hn
      obtain ⟨b, hb, h⟩ := exists_of_bind_ok h
      have hc : content = Content.data b := Content.eq_data hb
      split at h
      · cases h
      · rename_i mac hm
        have hm : code = some mac := hm
        obtain ⟨u, hv, h⟩ := exists_of_bind_ok h
        cases h
        rw [hn, hc, hm] at hpfx
        refine ⟨mac, carries_iff.2 ⟨hpfx, ?_⟩, hv⟩
        unfold Mac.verify at hv
        split at hv
        · cases hv
        · rename_i ha
          exact not_ne_iff.1 ha

def Opens (der : Bytes) (password : String) (contents : List Content) : Prop :=
  ∃ safe mac, Carries der safe mac ∧ mac.verify password safe = .ok () ∧
    (Value.decodeSequence? safe).bind (·.mapM Content.ofValue?) = some contents

theorem opens_iff : Opens der password contents ↔ ∃ safe, authenticate der password = .ok safe ∧
    (Value.decodeSequence? safe).bind (·.mapM Content.ofValue?) = some contents := by
  constructor
  · rintro ⟨safe, mac, hc, hv, hs⟩
    refine ⟨safe, ?_, hs⟩
    rw [authenticate_eq hc, hv]
    rfl
  · rintro ⟨safe, ha, hs⟩
    obtain ⟨mac, hc, hv⟩ := authenticate_ok ha
    exact ⟨safe, mac, hc, hv, hs⟩

theorem Opens.decode_eq (h : Opens der password contents) :
    decode der password = contents.foldlM (Contents.addContent password) Contents.empty := by
  obtain ⟨safe, ha, hs⟩ := opens_iff.1 h
  simp only [decode, ha, bind, Except.bind] at hs ⊢
  rw [hs]

theorem verify_eq {key : Bytes} (ha : mac.digestAlgorithm.oid = sha256Oid)
    (hk : Mac.key? password mac.salt mac.iterations = some key) :
    mac.verify password safe =
      if (Hmac.ofKey Sha256.sha256 key).mac safe = mac.digest then .ok ()
      else .error (.incorrectPassword .keystore) := by
  rw [Mac.verify, if_neg (not_ne_iff.2 ha), Mac.digest?, hk]
  rfl

theorem decode_gated (der : Bytes) (password : String)
    (h : (Text.Bmp.encode? password).isSome = true) :
    (∀ contents, decode der password = .ok contents → ∃ safe mac key, Carries der safe mac ∧
      Mac.key? password mac.salt mac.iterations = some key ∧
      mac.digest = (Hmac.ofKey Sha256.sha256 key).mac safe ∧ mac.digest.length = 32) ∧
    ∀ safe mac, Carries der safe mac → ∃ key,
      Mac.key? password mac.salt mac.iterations = some key ∧
      (mac.digest ≠ (Hmac.ofKey Sha256.sha256 key).mac safe →
        decode der password = .error (.incorrectPassword .keystore)) := by
  have hkey (mac : Mac) : ∃ key, Mac.key? password mac.salt mac.iterations = some key := by
    obtain ⟨b, hb⟩ := Option.isSome_iff_exists.1 h
    exact ⟨_, by rw [Mac.key?, hb]; rfl⟩
  constructor
  · intro contents hd
    unfold decode at hd
    obtain ⟨safe, hs, -⟩ := exists_of_bind_ok hd
    obtain ⟨mac, hc, hv⟩ := authenticate_ok hs
    obtain ⟨key, hk⟩ := hkey mac
    rw [verify_eq hc.algorithm hk] at hv
    split at hv
    · rename_i he
      exact ⟨safe, mac, key, hc, hk, he.symm, by rw [← he]; exact Hmac.length_mac _ _⟩
    · cases hv
  · intro safe mac hc
    obtain ⟨key, hk⟩ := hkey mac
    refine ⟨key, hk, ?_⟩
    intro hne
    rw [decode, authenticate_eq hc, verify_eq hc.algorithm hk, if_neg hne.symm]
    rfl

def sampleMac (digest : Bytes) : Mac := ⟨⟨sha256Oid, none⟩, digest, [], 1⟩

def sampleContainer (safe digest : Bytes) : Bytes :=
  (Value.sequence [.natural version, (Content.data safe).encoded,
    (sampleMac digest).value]).encode

def sampleDigest (safe : Bytes) : Bytes :=
  (Hmac.ofKey Sha256.sha256 ((Mac.key? "" [] 1).getD [])).mac safe

-- The code of an empty safe opens it; of bytes that are no safe at all only the shortened code
-- is ever reported.
theorem decode_gated_sample :
    (∃ safe mac key, Carries (sampleContainer [0x30, 0] (sampleDigest [0x30, 0])) safe mac ∧
      Mac.key? "" mac.salt mac.iterations = some key ∧
      mac.digest = (Hmac.ofKey Sha256.sha256 key).mac safe ∧ mac.digest.length = 32) ∧
    decode (sampleContainer [0xFF] ((sampleDigest [0xFF]).take 31)) "" =
      .error (.incorrectPassword .keystore) := by
  constructor
  · have hd : decode (sampleContainer [0x30, 0] (sampleDigest [0x30, 0])) "" =
        .ok Contents.empty := by decide +kernel
    exact (decode_gated _ "" (by decide)).1 _ hd
  · have hc : Carries (sampleContainer [0xFF] ((sampleDigest [0xFF]).take 31)) [0xFF]
        (sampleMac ((sampleDigest [0xFF]).take 31)) :=
      ⟨⟨_, .inl rfl, rfl⟩, by decide +kernel, rfl, by rintro p ⟨⟩, by decide⟩
    obtain ⟨key, -, h⟩ := (decode_gated _ "" (by decide)).2 _ _ hc
    refine h ?_
    intro he
    have hl : ((sampleDigest [0xFF]).take 31).length = 32 :=
      (congrArg List.length he).trans (Hmac.length_mac _ _)
    exact absurd (List.length_take_le 31 (sampleDigest [0xFF])) (by omega)

end Container

end Credential
