import Credential.Proofs.Container.RoundTrip

namespace Credential.Container

open Der (Value)

namespace Attribute

def Legible (a : Attribute) : Prop := ∀ v ∈ a.values.head?,
  (a.type = friendlyNameOid → (Labels.readName? v).isSome = true) ∧
    (a.type = localKeyIdOid → v.octets?.isSome = true)

instance (a : Attribute) : Decidable a.Legible := by
  unfold Legible
  infer_instance

def last? (type : Oid) (attributes : List Attribute) : Option Value :=
  (attributes.filterMap fun a => if a.type = type then a.values.head? else none).getLast?

variable {type : Oid} {a : Attribute} {as : List Attribute}

theorem last?_concat (type : Oid) (as : List Attribute) (a : Attribute) :
    last? type (as ++ [a]) =
      (if a.type = type then a.values.head? else none).or (last? type as) := by
  cases h : (if a.type = type then a.values.head? else none) <;> simp [last?, h]

theorem last?_eq_none_iff : last? type as = none ↔ ∀ a ∈ as, a.type = type → a.values = [] := by
  simp [last?]

end Attribute

namespace Labels

variable {a : Attribute} {as : List Attribute} {l : Labels}

def effective (as : List Attribute) : Labels :=
  ⟨(Attribute.last? friendlyNameOid as).bind readName?,
    (Attribute.last? localKeyIdOid as).bind Value.octets?⟩

theorem addAttribute?_eq_some_iff :
    addAttribute? (effective as) a = some l ↔ a.Legible ∧ effective (as ++ [a]) = l := by
  obtain ⟨type, values⟩ := a
  cases values with
  | nil =>
    have hlegible : Attribute.Legible ⟨type, []⟩ := nofun
    simp [addAttribute?, effective, Attribute.last?_concat, hlegible]
  | cons v vs =>
    by_cases hname : type = friendlyNameOid
    · cases hv : readName? v <;>
        simp [addAttribute?, effective, Attribute.last?_concat, Attribute.Legible, hname, hv,
          localKeyIdOid_ne.symm]
    · by_cases hid : type = localKeyIdOid
      · cases hv : v.octets? <;>
          simp [addAttribute?, effective, Attribute.last?_concat, Attribute.Legible, hid, hv,
            localKeyIdOid_ne]
      · simp [addAttribute?, effective, Attribute.last?_concat, Attribute.Legible, hname, hid]

theorem ofAttributes?_eq_some_iff :
    ofAttributes? as = some l ↔ (∀ a ∈ as, a.Legible) ∧ effective as = l := by
  -- from the front on: each attribute is added to what those before it say
  induction as using List.reverseRecOn generalizing l with
  | nil => simp [ofAttributes?, empty, effective, Attribute.last?]
  | append_singleton as a ih =>
    rw [ofAttributes?, List.foldlM_append, List.forall_mem_append, List.forall_mem_singleton]
    constructor
    · intro h
      obtain ⟨before, hb, ha⟩ := Option.bind_eq_some_iff.1 h
      obtain ⟨hall, rfl⟩ := ih.1 hb
      simp only [List.foldlM_cons, List.foldlM_nil, bind_pure] at ha
      obtain ⟨hlegible, rfl⟩ := addAttribute?_eq_some_iff.1 ha
      exact ⟨⟨hall, hlegible⟩, rfl⟩
    · rintro ⟨⟨hall, hlegible⟩, rfl⟩
      refine Option.bind_eq_some_iff.2 ⟨effective as, ih.2 ⟨hall, rfl⟩, ?_⟩
      simp only [List.foldlM_cons, List.foldlM_nil, bind_pure]
      exact addAttribute?_eq_some_iff.2 ⟨hlegible, rfl⟩

end Labels

namespace Bag

variable {b : Bag} {v : Value} {bytes : Bytes} {bags : List Bag}

def Legible (b : Bag) : Prop := ∀ a ∈ b.attributes, a.Legible

instance (b : Bag) : Decidable b.Legible := by
  unfold Legible
  infer_instance

def IsKept (b : Bag) : Prop := b.type = keyBagOid ∨ b.type = certificateBagOid

instance (b : Bag) : Decidable b.IsKept := by
  unfold IsKept
  infer_instance

structure IsKey (b : Bag) (k : StoredKey) : Prop where
  name : (Labels.effective b.attributes).name = some k.name
  keyId : (Labels.effective b.attributes).keyId = k.keyId
  value : b.value = k.encrypted

structure IsCertificate (b : Bag) (s : StoredCertificate) : Prop where
  name : (Labels.effective b.attributes).name = s.name
  keyId : (Labels.effective b.attributes).keyId = s.keyId
  value : b.value = certificateValue s.certificate

inductive Holds (b : Bag) : Contents → Prop
  | key {k : StoredKey} : b.type = keyBagOid → b.IsKey k → Holds b ⟨[k], []⟩
  | certificate {s : StoredCertificate} :
    b.type = certificateBagOid → b.IsCertificate s → Holds b ⟨[], [s]⟩
  | other : b.type ≠ keyBagOid → b.type ≠ certificateBagOid → Holds b Contents.empty

inductive Faulty (b : Bag) : Prop
  | nameless : b.type = keyBagOid →
    (∀ a ∈ b.attributes, a.type = friendlyNameOid → a.values = []) → Faulty b
  | unreadable : b.type = certificateBagOid → (∀ c, b.value ≠ certificateValue c) → Faulty b

theorem Holds.not_faulty {c : Contents} (h : b.Holds c) : ¬ b.Faulty := by
  rintro (⟨ht, hn⟩ | ⟨ht, hv⟩)
  · cases h with
    | key _ hk =>
      have hname := hk.name
      rw [Labels.effective, Attribute.last?_eq_none_iff.2 hn] at hname
      cases hname
    | certificate htc _ => exact certificateBagOid_ne (htc.symm.trans ht)
    | other htk _ => exact htk ht
  · cases h with
    | key htk _ => exact certificateBagOid_ne (ht.symm.trans htk)
    | certificate _ hc => exact hv _ hc.value
    | other _ htc => exact htc ht

theorem readCertificate_ok {c : Certificate} (h : readCertificate v = .ok c) :
    v = certificateValue c := by
  unfold readCertificate at h
  split at h
  · rename_i type value hs
    split at h
    · rename_i t der ht hv
      split at h
      · cases h
      · rename_i hx
        obtain rfl := not_ne_iff.1 hx
        obtain ⟨w, hw, ho⟩ := Option.bind_eq_some_iff.1 hv
        rw [Value.eq_sequence hs, Value.eq_oid ht, (Value.eq_explicit hw).1,
          Value.octets?_eq_some_iff.1 ho, ← Certificate.ofDer_ok h]
        rfl
    · cases h
  · cases h

theorem fits_ofValue? (h : ofValue? v = some b) (hf : v.Fits) : b.value.Fits := by
  unfold ofValue? at h
  split at h
  · rename_i type value rest hs
    have hvalue {w : Value} (hw : value.explicit? 0 = some w) : w.Fits := by
      rw [Value.eq_sequence hs, (Value.eq_explicit hw).1] at hf
      exact (hf.mem_sequence (v := .explicit 0 w) (by simp)).of_explicit
    split at h
    · rename_i ht hw
      cases h
      exact hvalue hw
    · rename_i ht hw
      split at h
      · obtain ⟨attributes, -, rfl⟩ := Option.map_eq_some_iff.1 h
        exact hvalue hw
      · cases h
    · cases h
  · cases h

theorem fits_ofContents? (h : ofContents? bytes = some bags) : ∀ b ∈ bags, b.value.Fits := by
  obtain ⟨vs, hs, hbags⟩ := Option.bind_eq_some_iff.1 h
  unfold Value.decodeSequence? at hs
  split at hs
  · rename_i whole hd
    obtain ⟨-, -, hf⟩ := Value.decode?_eq_some_iff.1 hd
    rw [Value.eq_sequence hs] at hf
    intro b hb
    obtain ⟨v, hv, hvb⟩ := exists_of_mem_mapM hbags hb
    exact fits_ofValue? hvb (hf.mem_sequence hv)
  · cases hs

end Bag

namespace Contents

variable {b : Bag} {bags : List Bag} {c d e : Contents} {password : String} {content : Content}
  {contents : List Content} {bagLists : List (List Bag)}

theorem exists_holds_of_addBag (h : c.addBag b = .ok d) :
    b.Legible ∧ ∃ e, b.Holds e ∧ d = c.append e := by
  unfold addBag at h
  split at h
  · cases h
  · rename_i labels hl
    obtain ⟨hlegible, rfl⟩ := Labels.ofAttributes?_eq_some_iff.1 hl
    refine ⟨hlegible, ?_⟩
    split at h
    · rename_i hk
      split at h
      · cases h
      · rename_i name hn
        cases h
        have hkey : b.IsKey ⟨name, (Labels.effective b.attributes).keyId, b.value⟩ :=
          ⟨hn, rfl, rfl⟩
        exact ⟨_, .key hk hkey, by simp [append]⟩
    · rename_i hk
      split at h
      · rename_i hc
        split at h
        · cases h
        · rename_i certificate hr
          cases h
          have hcertificate : b.IsCertificate ⟨(Labels.effective b.attributes).name,
              (Labels.effective b.attributes).keyId, certificate⟩ :=
            ⟨rfl, rfl, Bag.readCertificate_ok hr⟩
          exact ⟨_, .certificate hc hcertificate, by simp [append]⟩
      · rename_i hc
        cases h
        exact ⟨_, .other hk hc, (append_empty c).symm⟩

theorem addBag_of_holds {e : Contents} (hf : b.value.Fits) (hl : b.Legible) (he : b.Holds e) :
    c.addBag b = .ok (c.append e) := by
  rw [addBag, Labels.ofAttributes?_eq_some_iff.2 ⟨hl, rfl⟩]
  cases he with
  | @key k hk h =>
    simp [hk, h.name, h.keyId, h.value, append]
  | @certificate s hc h =>
    rw [h.value] at hf
    simp [hc, certificateBagOid_ne, h.name, h.keyId, h.value,
      Bag.readCertificate_certificateValue hf, append]
  | other hk hc => simp [hk, hc, append_empty]

theorem addBag_ok_iff (hf : b.value.Fits) :
    c.addBag b = .ok d ↔ b.Legible ∧ ∃ e, b.Holds e ∧ d = c.append e := by
  constructor
  · exact exists_holds_of_addBag
  · rintro ⟨hlegible, e, he, rfl⟩
    exact addBag_of_holds hf hlegible he

structure Keeps (bags : List Bag) (c : Contents) : Prop where
  keys : List.Forall₂ Bag.IsKey (bags.filter (·.type = keyBagOid)) c.keys
  certificates : List.Forall₂ Bag.IsCertificate (bags.filter (·.type = certificateBagOid))
    c.certificates

theorem keeps_nil_iff : Keeps [] c ↔ c = empty := by
  constructor
  · rintro ⟨hk, hc⟩
    obtain ⟨keys, certificates⟩ := c
    cases hk
    cases hc
    rfl
  · rintro rfl
    exact ⟨.nil, .nil⟩

theorem keeps_cons_iff :
    Keeps (b :: bags) c ↔ ∃ d e, b.Holds d ∧ Keeps bags e ∧ c = d.append e := by
  have hne := certificateBagOid_ne.symm
  constructor
  · rintro ⟨hk, hc⟩
    obtain ⟨keys, certificates⟩ := c
    by_cases htk : b.type = keyBagOid
    · simp only [htk, hne, List.filter_cons, decide_true, decide_false, if_true, Bool.false_eq_true,
        if_false] at hk hc
      cases hk with
      | @cons _ k _ ks hb hk => exact ⟨⟨[k], []⟩, ⟨ks, certificates⟩, .key htk hb, ⟨hk, hc⟩, rfl⟩
    · by_cases htc : b.type = certificateBagOid
      · simp only [htc, hne.symm, List.filter_cons, decide_true, decide_false, if_true,
          Bool.false_eq_true, if_false] at hk hc
        cases hc with
        | @cons _ s _ ss hb hc =>
          exact ⟨⟨[], [s]⟩, ⟨keys, ss⟩, .certificate htc hb, ⟨hk, hc⟩, rfl⟩
      · simp only [htk, htc, List.filter_cons, decide_false, Bool.false_eq_true, if_false] at hk hc
        exact ⟨empty, ⟨keys, certificates⟩, .other htk htc, ⟨hk, hc⟩, rfl⟩
  · rintro ⟨d, e, hd, ⟨hk, hc⟩, rfl⟩
    cases hd with
    | key ht h => exact ⟨by simpa [ht, append, h] using hk, by simpa [ht, hne, append] using hc⟩
    | certificate ht h =>
      exact ⟨by simpa [ht, hne.symm, append] using hk, by simpa [ht, append, h] using hc⟩
    | other htk htc =>
      exact ⟨by simpa [htk, append, empty] using hk, by simpa [htc, append, empty] using hc⟩

theorem Keeps.exists_holds (h : Keeps bags c) (hb : b ∈ bags) : ∃ d, b.Holds d := by
  induction bags generalizing c with
  | nil => cases hb
  | cons first bags ih =>
    obtain ⟨d, e, hd, he, -⟩ := keeps_cons_iff.1 h
    rcases List.mem_cons.1 hb with rfl | hb
    · exact ⟨d, hd⟩
    · exact ih he hb

theorem foldlM_addBag_ok_iff (hf : ∀ b ∈ bags, b.value.Fits) :
    bags.foldlM addBag c = .ok d ↔
      (∀ b ∈ bags, b.Legible) ∧ ∃ e, Keeps bags e ∧ d = c.append e := by
  induction bags generalizing c with
  | nil =>
    simp only [List.foldlM_nil, keeps_nil_iff, exists_eq_left, append_empty]
    exact ⟨fun h => ⟨List.forall_mem_nil _, (Except.ok.inj h).symm⟩, fun h => h.2 ▸ rfl⟩
  | cons b bags ih =>
    obtain ⟨hb, hbags⟩ := List.forall_mem_cons.1 hf
    rw [List.foldlM_cons, List.forall_mem_cons]
    constructor
    · intro h
      obtain ⟨next, hn, h⟩ := exists_of_bind_ok h
      obtain ⟨hlegible, f, hh, rfl⟩ := (addBag_ok_iff hb).1 hn
      obtain ⟨hall, e, he, rfl⟩ := (ih hbags).1 h
      exact ⟨⟨hlegible, hall⟩, f.append e, keeps_cons_iff.2 ⟨f, e, hh, he, rfl⟩,
        append_assoc c f e⟩
    · rintro ⟨⟨hlegible, hall⟩, g, hg, rfl⟩
      obtain ⟨f, e, hh, he, rfl⟩ := keeps_cons_iff.1 hg
      have hrest := (ih (c := c.append f) hbags).2 ⟨hall, e, he, (append_assoc c f e).symm⟩
      rw [(addBag_ok_iff hb).2 ⟨hlegible, f, hh, rfl⟩]
      exact hrest

theorem foldlM_addBag_filter (h : ∀ b ∈ bags, b.IsKept ∨ b.Legible) :
    bags.foldlM addBag c = (bags.filter fun b => b.IsKept).foldlM addBag c := by
  induction bags generalizing c with
  | nil => rfl
  | cons b bags ih =>
    obtain ⟨hb, hbags⟩ := List.forall_mem_cons.1 h
    rw [List.foldlM_cons]
    by_cases hkept : b.IsKept
    · rw [List.filter_cons_of_pos (by simpa using hkept), List.foldlM_cons]
      exact bind_congr fun d => ih hbags
    · have hpassed : c.addBag b = .ok c := by
        obtain ⟨hk, hc⟩ := not_or.1 hkept
        have hl := Labels.ofAttributes?_eq_some_iff.2 ⟨hb.resolve_left hkept, rfl⟩
        simp [addBag, hl, hk, hc]
      rw [List.filter_cons_of_neg (by simpa using hkept), hpassed]
      exact ih hbags

end Contents

namespace Content

variable {password : String} {c : Content} {bags others : List Bag}

theorem holdsBags_of_addContent {base d : Contents} (h : base.addContent password c = .ok d) :
    ∃ bags, c.HoldsBags password bags := by
  unfold Contents.addContent at h
  dsimp only at h
  split at h
  · obtain ⟨bytes, hr, h⟩ := exists_of_bind_ok h
    have hy : c.Yields password bytes := by
      rw [eq_data hr]
      exact .plain bytes
    split at h
    · cases h
    · rename_i bags hb
      exact ⟨bags, bytes, hy, hb⟩
  · split at h
    · rename_i ht
      obtain ⟨bytes, hu, h⟩ := exists_of_bind_ok h
      split at h
      · cases h
      · rename_i bags hb
        exact ⟨bags, bytes, .encrypted ht hu, hb⟩
    · cases h

theorem HoldsBags.unique (h : c.HoldsBags password bags) (ho : c.HoldsBags password others) :
    bags = others := by
  obtain ⟨bytes, hy, hb⟩ := h
  obtain ⟨bytes', hy', hb'⟩ := ho
  have hsame : bytes = bytes' := by
    cases hy with
    | plain =>
      cases hy' with
      | plain => rfl
      | encrypted ht => exact absurd ht.symm encryptedDataOid_ne
    | encrypted ht hu =>
      cases hy' with
      | plain => exact absurd ht.symm encryptedDataOid_ne
      | encrypted ht' hu' => exact Except.ok.inj (hu.symm.trans hu')
  rw [hsame, hb'] at hb
  exact (Option.some.inj hb).symm

end Content

variable {der other : Bytes} {password otherPassword : String} {contents : List Content}
  {bagLists : List (List Bag)} {bags otherBags : List Bag} {c d : Contents}

theorem Opens.of_decode (h : decode der password = .ok c) :
    ∃ contents, Opens der password contents := by
  obtain ⟨safe, ha, h⟩ := exists_of_bind_ok h
  split at h
  · cases h
  · rename_i contents hs
    exact ⟨contents, opens_iff.2 ⟨safe, ha, hs⟩⟩

theorem foldlM_addContent_eq (h : List.Forall₂ (Content.HoldsBags password) contents bagLists) :
    contents.foldlM (Contents.addContent password) c = bagLists.flatten.foldlM Contents.addBag c := by
  induction h generalizing c with
  | nil => rfl
  | @cons content bags contents bagLists hb _ ih =>
    rw [List.foldlM_cons, List.flatten_cons, List.foldlM_append, Content.addContent_eq hb]
    exact bind_congr fun d => ih

theorem exists_holdsBags
    (h : contents.foldlM (Contents.addContent password) c = .ok d) :
    ∃ bagLists, List.Forall₂ (Content.HoldsBags password) contents bagLists := by
  induction contents generalizing c with
  | nil => exact ⟨[], .nil⟩
  | cons content contents ih =>
    rw [List.foldlM_cons] at h
    obtain ⟨next, hn, h⟩ := exists_of_bind_ok h
    obtain ⟨bags, hb⟩ := Content.holdsBags_of_addContent hn
    obtain ⟨bagLists, hl⟩ := ih h
    exact ⟨bags :: bagLists, .cons hb hl⟩

def HoldsBags (der : Bytes) (password : String) (bags : List Bag) : Prop :=
  ∃ contents bagLists, Opens der password contents ∧
    List.Forall₂ (Content.HoldsBags password) contents bagLists ∧ bags = bagLists.flatten

theorem HoldsBags.decode_eq (h : HoldsBags der password bags) :
    decode der password = bags.foldlM Contents.addBag Contents.empty := by
  obtain ⟨contents, bagLists, ho, hl, rfl⟩ := h
  rw [ho.decode_eq, foldlM_addContent_eq hl]

theorem HoldsBags.fits (h : HoldsBags der password bags) : ∀ b ∈ bags, b.value.Fits := by
  obtain ⟨contents, bagLists, -, hl, rfl⟩ := h
  induction hl with
  | nil => exact nofun
  | cons hb _ ih =>
    obtain ⟨bytes, -, hb⟩ := hb
    exact List.forall_mem_append.2 ⟨Bag.fits_ofContents? hb, ih⟩

theorem HoldsBags.of_decode (h : decode der password = .ok c) :
    ∃ bags, HoldsBags der password bags := by
  obtain ⟨contents, ho⟩ := Opens.of_decode h
  obtain ⟨bagLists, hl⟩ := exists_holdsBags (ho.decode_eq.symm.trans h)
  exact ⟨bagLists.flatten, contents, bagLists, ho, hl, rfl⟩

theorem HoldsBags.decode_ok_iff (h : HoldsBags der password bags) :
    decode der password = .ok c ↔ (∀ b ∈ bags, b.Legible) ∧ Contents.Keeps bags c := by
  have hempty (e : Contents) : Contents.empty.append e = e := rfl
  simp only [h.decode_eq, Contents.foldlM_addBag_ok_iff h.fits, hempty, exists_eq_right']

theorem HoldsBags.decode_eq_of_filter (h : HoldsBags der password bags)
    (ho : HoldsBags other otherPassword otherBags)
    (hkept : (bags.filter fun b => b.IsKept) = otherBags.filter fun b => b.IsKept)
    (hrest : ∀ b ∈ bags ++ otherBags, b.IsKept ∨ b.Legible) :
    decode der password = decode other otherPassword := by
  obtain ⟨hb, hob⟩ := List.forall_mem_append.1 hrest
  rw [h.decode_eq, ho.decode_eq, Contents.foldlM_addBag_filter hb, hkept,
    ← Contents.foldlM_addBag_filter hob]

inductive Content.Faulty (password : String) (content : Content) : Prop
  | type : content.type ≠ dataOid → content.type ≠ encryptedDataOid → Faulty password content
  | bag {bags : List Bag} {b : Bag} : content.HoldsBags password bags → b ∈ bags → b.Faulty →
    Faulty password content

theorem Content.HoldsBags.type {content : Content} (h : content.HoldsBags password bags) :
    content.type = dataOid ∨ content.type = encryptedDataOid := by
  obtain ⟨bytes, hy, -⟩ := h
  cases hy with
  | plain => exact .inl rfl
  | encrypted ht _ => exact .inr ht

theorem exists_error_of_faulty {content : Content} (ho : Opens der password contents)
    (hc : content ∈ contents) (hf : content.Faulty password) :
    ∃ e, decode der password = .error e := by
  cases hd : decode der password with
  | error e => exact ⟨e, rfl⟩
  | ok c =>
    exfalso
    -- success has read every content, so that the bags of this one are among those that were kept
    obtain ⟨bagLists, hl⟩ := exists_holdsBags (ho.decode_eq.symm.trans hd)
    obtain ⟨i, hi, rfl⟩ := List.getElem_of_mem hc
    have hli : i < bagLists.length := by rwa [← hl.length_eq]
    have hb : contents[i].HoldsBags password bagLists[i] := hl.get hi hli
    have hholds : HoldsBags der password bagLists.flatten := ⟨contents, bagLists, ho, hl, rfl⟩
    cases hf with
    | type hp he => exact hb.type.elim hp he
    | bag hbags hmem hfault =>
      obtain rfl := hb.unique hbags
      obtain ⟨d, hh⟩ := (hholds.decode_ok_iff.1 hd).2.exists_holds (List.mem_flatten_of_mem
        (List.getElem_mem hli) hmem)
      exact hh.not_faulty hfault

theorem decode_bags (der : Bytes) (password : String) :
    (∀ c, decode der password = .ok c → ∃ bags, HoldsBags der password bags) ∧
    (∀ bags, HoldsBags der password bags → ∀ c, decode der password = .ok c ↔
      (∀ b ∈ bags, b.Legible) ∧ Contents.Keeps bags c) ∧
    (∀ other otherPassword bags otherBags, HoldsBags der password bags →
      HoldsBags other otherPassword otherBags →
      (bags.filter fun b => b.IsKept) = (otherBags.filter fun b => b.IsKept) →
      (∀ b ∈ bags ++ otherBags, b.IsKept ∨ b.Legible) →
      decode der password = decode other otherPassword) ∧
    ∀ contents, Opens der password contents → ∀ content ∈ contents, content.Faulty password →
      ∃ e, decode der password = .error e := by
  refine ⟨?_, ?_, ?_, ?_⟩
  · intro c hd
    exact HoldsBags.of_decode hd
  · intro bags hb c
    exact hb.decode_ok_iff
  · intro other otherPassword bags otherBags hb ho hkept hrest
    exact hb.decode_eq_of_filter ho hkept hrest
  · intro contents ho content hc hf
    exact exists_error_of_faulty ho hc hf

def samplePart (values : List Value) : Content := .data (Value.sequence values).encode

def sampleSafe (parts : List (List Value)) : Value :=
  .sequence (parts.map fun values => (samplePart values).encoded)

def sampleSalt : Bytes := List.replicate 16 0

def sampleParts (parts : List (List Value)) : Bytes :=
  (coded (sampleSafe parts).encode ((Mac.digest? "" sampleSalt Encryption.Method.iterations
    (sampleSafe parts).encode).getD []) sampleSalt).value.encode

def sampleBags (values : List Value) : List Bag := (values.mapM Bag.ofValue?).getD []

theorem opens_sampleParts {parts : List (List Value)}
    (hl : (sampleSafe parts).encode.length ≤ 1000) :
    Opens (sampleParts parts) "" (parts.map samplePart) := by
  obtain ⟨digest, hd⟩ : ∃ digest, Mac.digest? "" sampleSalt Encryption.Method.iterations
      (sampleSafe parts).encode = some digest := ⟨_, rfl⟩
  have hsafe : (sampleSafe parts).Fits := Nat.le_trans hl (by decide)
  have hparts : ∀ values ∈ parts, Content.ofValue? (samplePart values).encoded =
      some (samplePart values) := fun values hv =>
    Content.ofValue?_data (hsafe.mem_sequence (List.mem_map_of_mem hv))
  have hf := fits_pfx hl (length_digest? hd) (List.length_replicate (a := (0 : UInt8))) (by decide)
  refine opens_iff.2 ⟨(sampleSafe parts).encode, ?_, ?_⟩
  · rw [sampleParts, hd]
    exact authenticate_coded hd hf
  · rw [sampleSafe, Value.decodeSequence?_sequence (by simp) hsafe, Option.bind_some]
    exact mapM_map_eq_some hparts

theorem holdsBags_sampleParts {parts : List (List Value)}
    (hl : (sampleSafe parts).encode.length ≤ 1000)
    (hb : ∀ values ∈ parts,
      Bag.ofContents? (Value.sequence values).encode = some (sampleBags values)) :
    HoldsBags (sampleParts parts) "" (parts.map sampleBags).flatten := by
  refine ⟨parts.map samplePart, _, opens_sampleParts hl, ?_, rfl⟩
  rw [List.forall₂_map_left_iff, List.forall₂_map_right_iff, List.forall₂_same]
  exact fun values hv => ⟨_, .plain _, hb values hv⟩

def sampleName : Value :=
  .set [Attribute.value ⟨friendlyNameOid, [⟨Der.Tag.bmpString, [0, 97]⟩]⟩]

def sampleKeyBag : Value := Bag.encoded keyBagOid (.octets [5]) (some sampleName)

def sampleCertificateBag : Value :=
  Bag.encoded certificateBagOid (Bag.certificateValue sampleCertificate) (some sampleName)

def sampleOtherBag : Value := Bag.encoded dataOid (.octets [7]) (some sampleName)

def sampleNamelessBag : Value := Bag.encoded keyBagOid (.octets [5]) none

theorem decode_bags_sample :
    ((∀ b ∈ sampleBags [sampleKeyBag, sampleCertificateBag], b.Legible) ∧
      Contents.Keeps (sampleBags [sampleKeyBag, sampleCertificateBag])
        ⟨[⟨"a", none, .octets [5]⟩], [⟨some "a", none, sampleCertificate⟩]⟩) ∧
    decode (sampleParts [[sampleKeyBag, sampleCertificateBag]]) "" =
      decode (sampleParts [[sampleKeyBag], [sampleOtherBag, sampleCertificateBag]]) "" ∧
    ∃ e, decode (sampleParts [[sampleCertificateBag, sampleNamelessBag]]) "" = .error e := by
  have hplain : HoldsBags (sampleParts [[sampleKeyBag, sampleCertificateBag]]) "" _ :=
    holdsBags_sampleParts (by decide +kernel) (by decide +kernel)
  rw [List.map_singleton, List.flatten_singleton] at hplain
  refine ⟨?_, ?_, ?_⟩
  · exact ((decode_bags _ "").2.1 _ hplain _).1 (hplain.decode_eq.trans (by decide +kernel))
  · have hparted : HoldsBags
        (sampleParts [[sampleKeyBag], [sampleOtherBag, sampleCertificateBag]]) "" _ :=
      holdsBags_sampleParts (by decide +kernel) (by decide +kernel)
    exact (decode_bags _ "").2.2.1 _ _ _ _ hplain hparted (by decide +kernel) (by decide +kernel)
  · have hopen : Opens (sampleParts [[sampleCertificateBag, sampleNamelessBag]]) "" _ :=
      opens_sampleParts (by decide +kernel)
    have hread : Bag.ofContents? (Value.sequence [sampleCertificateBag, sampleNamelessBag]).encode =
        some (sampleBags [sampleCertificateBag, sampleNamelessBag]) := by decide +kernel
    have hmem : ⟨keyBagOid, .octets [5], []⟩ ∈
        sampleBags [sampleCertificateBag, sampleNamelessBag] := by decide +kernel
    exact (decode_bags _ "").2.2.2 _ hopen _ (List.mem_singleton_self _)
      (.bag ⟨_, .plain _, hread⟩ hmem (.nameless rfl nofun))

end Credential.Container
