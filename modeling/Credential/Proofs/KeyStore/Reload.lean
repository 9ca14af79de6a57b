import Credential.KeyStore
import Credential.Proofs.Container.RoundTrip
/-!
What a saved key store loads back as. The chains share one list of certificates in the container,
so a chain comes back with what other entries put there for it.
-/

namespace Credential

open Container (Contents KeyEntry StoredCertificate StoredKey)

namespace KeyStore

def leaves (s : KeyStore) : List Certificate := s.entries.filterMap fun e => e.chain.head?

def issuers (s : KeyStore) : List Certificate := s.entries.flatMap fun e => e.chain.tail

def sharedLeaves (s : KeyStore) (e : KeyEntry) : List Certificate :=
  s.leaves.filter fun c => some (Sha1.sha1.digest c.der) = e.keyId

theorem insertEntry_append {e : KeyEntry} {es : List KeyEntry} (h : ∀ f ∈ es, f.name < e.name) :
    insertEntry e es = es ++ [e] := by
  induction es with
  | nil => rfl
  | cons f rest ih =>
    have hf : f.name < e.name := h f (by simp)
    have hlt : ¬ e.name < f.name := String.lt_asymm hf
    have hne : ¬ e.name = f.name := fun he => String.lt_irrefl _ (he ▸ hf)
    rw [insertEntry, if_neg hlt, if_neg hne, ih fun g hg => h g (by simp [hg])]
    rfl

theorem set_ok {s : KeyStore} {e : KeyEntry} (h : e.fault? = none) :
    ∃ s', s.set e = .ok s' ∧ s'.type = s.type ∧ s'.password = s.password ∧
      s'.entries = insertEntry e s.entries := by
  unfold set
  split
  · rename_i fault hf
    rw [h] at hf
    cases hf
  · exact ⟨_, rfl, rfl, rfl, rfl⟩

theorem exists_split {s : KeyStore} {e : KeyEntry} (h : e ∈ s.entries) :
    ∃ before after, s.entries = before ++ e :: after ∧
      (∀ f ∈ before, f ∈ s.entries ∧ f.name ≠ e.name) ∧
      ∀ f ∈ after, f ∈ s.entries ∧ f.name ≠ e.name := by
  obtain ⟨before, after, hs⟩ := List.append_of_mem h
  have hp := s.sorted
  rw [hs, List.pairwise_append, List.pairwise_cons] at hp
  refine ⟨before, after, hs, ?_, ?_⟩
  · intro f hf
    refine ⟨by rw [hs]; simp [hf], ?_⟩
    intro hn
    exact String.lt_irrefl _ (hn ▸ hp.2.2 f hf e (by simp))
  · intro f hf
    refine ⟨by rw [hs]; simp [hf], ?_⟩
    intro hn
    exact String.lt_irrefl _ (hn ▸ hp.2.1.1 f hf)

theorem get?_of_mem {s : KeyStore} {e : KeyEntry} (h : e ∈ s.entries) : s.get? e.name = some e := by
  obtain ⟨before, after, hs, hb, -⟩ := exists_split h
  have hne : ∀ f ∈ before, ¬ decide (f.name = e.name) = true := by
    intro f hf
    simpa using (hb f hf).2
  rw [get?, hs, List.find?_append, List.find?_eq_none.2 hne]
  simp

theorem foldlM_set {step : KeyStore → StoredKey → Except StoreError KeyStore}
    {keys : List StoredKey} {es : List KeyEntry}
    (hstep : List.Forall₂ (fun k e => ∀ s, step s k = s.set e) keys es) (s : KeyStore)
    (hf : ∀ e ∈ es, e.fault? = none) (hs : (s.entries ++ es).Pairwise (·.name < ·.name)) :
    ∃ s', keys.foldlM step s = .ok s' ∧ s'.type = s.type ∧ s'.password = s.password ∧
      s'.entries = s.entries ++ es := by
  induction hstep generalizing s with
  | nil => exact ⟨s, rfl, rfl, rfl, by simp⟩
  | @cons k e keys es hk _ ih =>
    obtain ⟨s', hs', ht, hp, he⟩ := set_ok (s := s) (hf e (by simp))
    have hlt : ∀ f ∈ s.entries, f.name < e.name := by
      intro f hfm
      exact (List.pairwise_append.1 hs).2.2 f hfm e (by simp)
    rw [insertEntry_append hlt] at he
    obtain ⟨t, ht', htt, htp, hte⟩ := ih s' (fun f hfm => hf f (by simp [hfm]))
      (by rw [he]; simpa using hs)
    refine ⟨t, ?_, htt.trans ht, htp.trans hp, ?_⟩
    · rw [List.foldlM_cons, hk, hs']
      exact ht'
    · rw [hte, he]
      simp

end KeyStore

namespace Container.Contents

theorem leaves_storedCertificates (es : List KeyEntry) (id : Bytes) :
    ((es.flatMap KeyEntry.storedCertificates).filter fun s =>
        s.keyId.isSome && s.keyId == some id).map (·.certificate) =
      (es.filterMap fun e => e.chain.head?).filter fun c =>
        some (Sha1.sha1.digest c.der) = some id := by
  induction es with
  | nil => rfl
  | cons e es ih =>
    rw [List.flatMap_cons, List.filter_append, List.map_append, ih]
    cases hc : e.chain with
    | nil => simp [KeyEntry.storedCertificates, hc]
    | cons leaf issuers =>
      by_cases hl : Sha1.sha1.digest leaf.der = id
      · simp [KeyEntry.storedCertificates, hc, hl]
      · simp [KeyEntry.storedCertificates, hc, hl]

theorem issuers_storedCertificates (es : List KeyEntry) :
    ((es.flatMap KeyEntry.storedCertificates).filter fun s => s.keyId.isNone).map (·.certificate) =
      es.flatMap fun e => e.chain.tail := by
  induction es with
  | nil => rfl
  | cons e es ih =>
    rw [List.flatMap_cons, List.filter_append, List.map_append, ih]
    cases hc : e.chain with
    | nil => simp [KeyEntry.storedCertificates, hc]
    | cons leaf issuers =>
      simp [KeyEntry.storedCertificates, hc, List.filter_map, Function.comp_def]

end Container.Contents

namespace KeyStore

structure Reloaded (s : KeyStore) (K : String) (e f : KeyEntry) : Prop where
  name : f.name = e.name
  password : f.password = K
  key : ∃ info, PrivateKeyInfo.ofDer? e.privateKey = some info ∧ f.privateKey = info.toDer
  ownKey : ∀ pair : Rsa.KeyPair, pair.toDer = .ok e.privateKey → f.privateKey = e.privateKey
  chain : f.chain = s.sharedLeaves e ++ s.issuers

theorem fault?_eq_none_iff {e : KeyEntry} :
    e.fault? = none ↔ Text.isBlank e.name = false ∧ e.chain ≠ [] := by
  unfold KeyEntry.fault?
  split
  · simp_all
  · split <;> simp_all

theorem chain_storedAs {s : KeyStore} {keys : List StoredKey} {e : KeyEntry} {k : StoredKey}
    (he : e ∈ s.entries) (hk : e.StoredAs k) :
    Contents.chain ⟨keys, s.entries.flatMap KeyEntry.storedCertificates⟩ k =
      s.sharedLeaves e ++ s.issuers := by
  obtain ⟨leaf, rest, hc⟩ :=
    List.exists_cons_of_ne_nil (fault?_eq_none_iff.1 (s.acceptable e he)).2
  have hid : e.keyId = some (Sha1.sha1.digest leaf.der) := by simp [KeyEntry.keyId, hc]
  rw [Contents.chain, List.map_append, hk.keyId, hid, Contents.leaves_storedCertificates,
    Contents.issuers_storedCertificates, sharedLeaves, hid]
  rfl

theorem mem_sharedLeaves {s : KeyStore} {e : KeyEntry} {leaf : Certificate} (he : e ∈ s.entries)
    (hl : e.chain.head? = some leaf) : leaf ∈ s.sharedLeaves e := by
  refine List.mem_filter.2 ⟨List.mem_filterMap.2 ⟨e, he, hl⟩, ?_⟩
  simp [KeyEntry.keyId, hl]

theorem entryOf_storedAs {s : KeyStore} (keys : List StoredKey) {e : KeyEntry} {k : StoredKey}
    (he : e ∈ s.entries) (hk : e.StoredAs k) :
    ∃ f, entryOf s.type e.password ⟨keys, s.entries.flatMap KeyEntry.storedCertificates⟩ k =
        .ok f ∧ f.fault? = none ∧ s.Reloaded e.password e f := by
  obtain ⟨info, hi, hd⟩ := hk.key
  refine ⟨⟨k.name, info.toDer, e.password, s.sharedLeaves e ++ s.issuers⟩, ?_, ?_, ?_⟩
  · rw [entryOf, hd]
    simp only [chain_storedAs he hk]
  · obtain ⟨hb, hne⟩ := fault?_eq_none_iff.1 (s.acceptable e he)
    obtain ⟨leaf, rest, hc⟩ := List.exists_cons_of_ne_nil hne
    have hm := mem_sharedLeaves he (by rw [hc]; rfl)
    refine fault?_eq_none_iff.2 ⟨by rw [hk.name]; exact hb, ?_⟩
    exact List.append_ne_nil_of_left_ne_nil (List.ne_nil_of_mem hm) _
  · refine ⟨hk.name, rfl, ⟨info, hi, rfl⟩, ?_, rfl⟩
    intro pair hp
    have ho := hk.decrypt_own hp
    rw [hd] at ho
    exact Except.ok.inj ho

theorem exists_reloaded {s : KeyStore} (keys : List StoredKey) {es : List KeyEntry}
    {step : KeyStore → StoredKey → Except StoreError KeyStore} {K : String}
    (hstep : ∀ t k, step t k = do
      t.set (← entryOf s.type K ⟨keys, s.entries.flatMap KeyEntry.storedCertificates⟩ k))
    (hm : ∀ e ∈ es, e ∈ s.entries) (hK : ∀ e ∈ es, e.password = K) {ks : List StoredKey}
    (hks : List.Forall₂ KeyEntry.StoredAs es ks) :
    ∃ fs, List.Forall₂ (fun k f => ∀ t, step t k = t.set f) ks fs ∧
      (∀ f ∈ fs, f.fault? = none) ∧ List.Forall₂ (s.Reloaded K) es fs := by
  induction hks with
  | nil => exact ⟨[], .nil, by simp, .nil⟩
  | @cons e k es ks hk _ ih =>
    obtain ⟨f, hf, hv, hr⟩ := entryOf_storedAs keys (hm e (by simp)) hk
    obtain ⟨fs, hs, hvs, hrs⟩ := ih (fun d hd => hm d (by simp [hd]))
      (fun d hd => hK d (by simp [hd]))
    rw [hK e (by simp)] at hf hr
    refine ⟨f :: fs, .cons ?_ hs, ?_, .cons hr hrs⟩
    · intro t
      rw [hstep, hf]
      rfl
    · intro g hg
      rcases List.mem_cons.1 hg with rfl | hg
      · exact hv
      · exact hvs g hg

theorem names_reloaded {s : KeyStore} {K : String} {es fs : List KeyEntry}
    (h : List.Forall₂ (s.Reloaded K) es fs) : fs.map (·.name) = es.map (·.name) := by
  induction h with
  | nil => rfl
  | cons hr _ ih => rw [List.map_cons, List.map_cons, hr.name, ih]

theorem toBytes_ok {s : KeyStore} {d : Container.Draws} {b : Bytes} (h : s.toBytes d = .ok b) :
    Container.encode s.entries s.password d = .ok b := by
  unfold toBytes at h
  split at h
  · cases h
  · exact ok_of_mapError_ok h

theorem exists_load {s : KeyStore} {d : Container.Draws} {b : Bytes} {K : String}
    (hK : ∀ e ∈ s.entries, e.password = K) (h : s.toBytes d = .ok b) :
    ∃ t, load s.type b s.password K = .ok t ∧ t.type = s.type ∧ t.password = s.password ∧
      List.Forall₂ (s.Reloaded K) s.entries t.entries := by
  obtain ⟨keys, hd, hk⟩ := Container.decode_of_encode (toBytes_ok h)
  obtain ⟨fs, hs, hv, hr⟩ := exists_reloaded keys (fun _ _ => rfl) (fun e he => he) hK hk
  have hp : fs.Pairwise (·.name < ·.name) := by
    have hsorted : (s.entries.map (·.name)).Pairwise (· < ·) := List.pairwise_map.2 s.sorted
    rw [← names_reloaded hr] at hsorted
    exact List.pairwise_map.1 hsorted
  obtain ⟨t, ht, htype, hpass, hes⟩ := foldlM_set hs (empty s.type s.password) hv hp
  refine ⟨t, ?_, htype, hpass, ?_⟩
  · unfold load
    simp only [hd, Except.mapError, bind, Except.bind]
    exact ht
  · rw [hes]
    exact hr

theorem sharedLeaves_unshared {s : KeyStore} {e : KeyEntry} {leaf : Certificate}
    (he : e ∈ s.entries) (hl : e.chain.head? = some leaf)
    (h : ∀ f ∈ s.entries, f.name ≠ e.name → f.keyId ≠ e.keyId) : s.sharedLeaves e = [leaf] := by
  obtain ⟨before, after, hs, hb, ha⟩ := exists_split he
  have hid : e.keyId = some (Sha1.sha1.digest leaf.der) := by simp [KeyEntry.keyId, hl]
  have hother (es : List KeyEntry) (hes : ∀ f ∈ es, f ∈ s.entries ∧ f.name ≠ e.name) :
      (es.filterMap fun f => f.chain.head?).filter
        (fun c => some (Sha1.sha1.digest c.der) = e.keyId) = [] := by
    refine List.filter_eq_nil_iff.2 ?_
    intro c hc
    obtain ⟨f, hf, hfc⟩ := List.mem_filterMap.1 hc
    have hne := h f (hes f hf).1 (hes f hf).2
    have hfid : f.keyId = some (Sha1.sha1.digest c.der) := by simp [KeyEntry.keyId, hfc]
    rw [hfid] at hne
    simpa using hne
  have hafter := hother after ha
  rw [sharedLeaves, leaves, hs, List.filterMap_append, List.filter_append, hother before hb,
    List.filterMap_cons, hl]
  rw [hid] at hafter ⊢
  simp only [List.nil_append, List.filter_cons, decide_true, if_true]
  rw [hafter]

theorem issuers_unshared {s : KeyStore} {e : KeyEntry} (he : e ∈ s.entries)
    (h : ∀ f ∈ s.entries, f.name ≠ e.name → f.chain.tail = []) : s.issuers = e.chain.tail := by
  obtain ⟨before, after, hs, hb, ha⟩ := exists_split he
  have hother (es : List KeyEntry) (hes : ∀ f ∈ es, f ∈ s.entries ∧ f.name ≠ e.name) :
      es.flatMap (fun f => f.chain.tail) = [] :=
    List.flatMap_eq_nil_iff.2 fun f hf => h f (hes f hf).1 (hes f hf).2
  rw [issuers, hs, List.flatMap_append, List.flatMap_cons, hother before hb, hother after ha]
  simp

theorem exists_reloaded_of_mem {s : KeyStore} {K : String} {es fs : List KeyEntry} {e : KeyEntry}
    (h : List.Forall₂ (s.Reloaded K) es fs) (he : e ∈ es) : ∃ f ∈ fs, s.Reloaded K e f := by
  induction h with
  | nil => cases he
  | @cons d f es fs hr _ ih =>
    rcases List.mem_cons.1 he with rfl | he
    · exact ⟨f, by simp, hr⟩
    · obtain ⟨g, hg, hgr⟩ := ih he
      exact ⟨g, by simp [hg], hgr⟩

theorem chain_reloaded {s : KeyStore} {K : String} {e f : KeyEntry} (he : e ∈ s.entries)
    (hr : s.Reloaded K e f)
    (h : ∀ g ∈ s.entries, g.name ≠ e.name → g.keyId ≠ e.keyId ∧ g.chain.tail = []) :
    f.chain = e.chain := by
  obtain ⟨leaf, rest, hc⟩ :=
    List.exists_cons_of_ne_nil (fault?_eq_none_iff.1 (s.acceptable e he)).2
  rw [hr.chain, sharedLeaves_unshared he (by rw [hc]; rfl) fun g hg hn => (h g hg hn).1,
    issuers_unshared he fun g hg hn => (h g hg hn).2, hc]
  rfl

theorem load_toBytes (s : KeyStore) (K : String) (d : Container.Draws) (b : Bytes)
    (hK : ∀ e ∈ s.entries, e.password = K) (h : s.toBytes d = .ok b) :
    ∃ t, load s.type b s.password K = .ok t ∧ t.type = s.type ∧ t.password = s.password ∧
      t.aliases = s.aliases ∧ List.Forall₂ (s.Reloaded K) s.entries t.entries ∧
      ∀ e ∈ s.entries,
        (∀ g ∈ s.entries, g.name ≠ e.name → g.keyId ≠ e.keyId ∧ g.chain.tail = []) →
          ∃ f, t.get? e.name = some f ∧ f.chain = e.chain := by
  obtain ⟨t, ht, htype, hpass, hr⟩ := exists_load hK h
  refine ⟨t, ht, htype, hpass, names_reloaded hr, hr, ?_⟩
  intro e he hu
  obtain ⟨f, hf, hfr⟩ := exists_reloaded_of_mem hr he
  have hg := get?_of_mem hf
  rw [hfr.name] at hg
  exact ⟨f, hg, chain_reloaded he hfr hu⟩

def sampleEntries : List KeyEntry :=
  [⟨"a", Container.sampleKey, "key", [Container.sampleCertificate, Container.sampleCertificate]⟩,
    ⟨"b", Container.sampleKey, "key", [Container.sampleCertificate]⟩]

def sample : KeyStore :=
  ⟨.pkcs12, "store", sampleEntries, by decide, by decide⟩

theorem exists_toBytes {s : KeyStore} (hne : s.entries ≠ [])
    (hw : ∀ e ∈ s.entries, e.Writable) (hp : (Text.Bmp.encode? s.password).isSome = true)
    (hs : Container.size s.entries + 500 ≤ Der.maxLength) (d : Container.Draws) :
    ∃ b, s.toBytes d = .ok b := by
  obtain ⟨b, hb⟩ := Container.exists_encode hw hp hs d
  have he : s.isEmpty = false := by simpa [isEmpty] using hne
  refine ⟨b, ?_⟩
  unfold toBytes
  rw [he, hb]
  rfl

theorem exists_toBytes_sample : ∃ b, sample.toBytes (.draw ⟨[]⟩) = .ok b := by
  have hw : ∀ e ∈ sample.entries, e.Writable := by
    intro e he
    rcases List.mem_pair.1 he with rfl | rfl
    · exact ⟨by simp, by decide, by decide_cbv⟩
    · exact ⟨by simp, by decide, by decide_cbv⟩
  exact exists_toBytes (List.cons_ne_nil _ _) hw (by decide) (by decide +kernel) _

theorem sample_passwords : ∀ e ∈ sample.entries, e.password = "key" := by
  intro e he
  rcases List.mem_pair.1 he with rfl | rfl <;> rfl

theorem load_toBytes_sample : ∃ b, (∀ e ∈ sample.entries, e.password = "key") ∧
    sample.toBytes (.draw ⟨[]⟩) = .ok b ∧
      ∃ t, load sample.type b sample.password "key" = .ok t ∧ t.type = sample.type ∧
        t.password = sample.password ∧ t.aliases = sample.aliases ∧
        List.Forall₂ (sample.Reloaded "key") sample.entries t.entries ∧
        ∀ e ∈ sample.entries,
          (∀ g ∈ sample.entries, g.name ≠ e.name → g.keyId ≠ e.keyId ∧ g.chain.tail = []) →
            ∃ f, t.get? e.name = some f ∧ f.chain = e.chain := by
  obtain ⟨b, hb⟩ := exists_toBytes_sample
  exact ⟨b, sample_passwords, hb,
    load_toBytes sample "key" (.draw ⟨[]⟩) b sample_passwords hb⟩

end KeyStore

end Credential
