import Credential.Proofs.Container.Secrecy
import Credential.Proofs.KeyStore.Reload
/-!
Saving a loaded key store once more. Names and keys stay; the chains stay as well when and only
when the entries of the first store neither share leaves nor put certificates into each other's
chains.
-/

namespace Credential

open Container (KeyEntry)

namespace KeyStore

variable {s t u : KeyStore} {K : String} {e f : KeyEntry} {b : Bytes} {d : Container.Draws}

structure Separate (s : KeyStore) : Prop where
  leaves : (s.entries.map KeyEntry.keyId).Nodup
  issuers : s.entries.length ≤ 1 ∨ s.issuers = []

theorem exists_chain (he : e ∈ s.entries) : ∃ leaf issuers, e.chain = leaf :: issuers :=
  List.exists_cons_of_ne_nil (fault?_eq_none_iff.1 (s.acceptable e he)).2

theorem length_filter_leaves {es : List KeyEntry} (h : ∀ e ∈ es, e.chain ≠ []) (id : Option Bytes) :
    ((es.filterMap fun e => e.chain.head?).filter fun c =>
      some (Sha1.sha1.digest c.der) = id).length = (es.map KeyEntry.keyId).count id := by
  induction es with
  | nil => rfl
  | cons e es ih =>
    obtain ⟨hne, hrest⟩ := List.forall_mem_cons.1 h
    obtain ⟨leaf, issuers, hc⟩ := List.exists_cons_of_ne_nil hne
    have hid : e.keyId = some (Sha1.sha1.digest leaf.der) := by rw [KeyEntry.keyId, hc]; rfl
    have hhead : e.chain.head? = some leaf := by rw [hc]; rfl
    simp only [List.filterMap_cons, hhead, List.map_cons, List.filter_cons, hid, List.count_cons]
    by_cases hl : some (Sha1.sha1.digest leaf.der) = id
    · rw [if_pos (by simpa using hl), List.length_cons, ih hrest, if_pos (by simpa using hl)]
    · rw [if_neg (by simpa using hl), ih hrest, if_neg (by simpa using hl)]
      rfl

theorem length_sharedLeaves (s : KeyStore) (e : KeyEntry) :
    (s.sharedLeaves e).length = (s.entries.map KeyEntry.keyId).count e.keyId :=
  length_filter_leaves (fun f hf => (fault?_eq_none_iff.1 (s.acceptable f hf)).2) e.keyId

theorem sharedLeaves_ne_nil (he : e ∈ s.entries) : s.sharedLeaves e ≠ [] := by
  obtain ⟨leaf, issuers, hc⟩ := exists_chain he
  exact List.ne_nil_of_mem (mem_sharedLeaves he (by rw [hc]; rfl))

theorem keyId_reloaded (he : e ∈ s.entries) (hr : s.Reloaded K e f) : f.keyId = e.keyId := by
  obtain ⟨c, cs, hc⟩ := List.exists_cons_of_ne_nil (sharedLeaves_ne_nil he)
  have hmem : c ∈ s.sharedLeaves e := by rw [hc]; exact List.mem_cons_self
  rw [KeyEntry.keyId, hr.chain, hc]
  simpa [sharedLeaves] using (List.mem_filter.1 hmem).2

theorem tail_reloaded (he : e ∈ s.entries) (hr : s.Reloaded K e f) :
    f.chain.tail.length = (s.entries.map KeyEntry.keyId).count e.keyId - 1 + s.issuers.length := by
  have hpos := List.length_pos_iff.2 (sharedLeaves_ne_nil he)
  rw [List.length_tail, hr.chain, List.length_append, ← length_sharedLeaves]
  omega

theorem forall₂_mem {R : KeyEntry → KeyEntry → Prop} {es fs : List KeyEntry}
    (h : List.Forall₂ R es fs) : List.Forall₂ (fun e f => e ∈ es ∧ f ∈ fs ∧ R e f) es fs := by
  induction h with
  | nil => exact .nil
  | cons hr _ ih =>
    refine .cons ⟨List.mem_cons_self, List.mem_cons_self, hr⟩ (ih.imp ?_)
    rintro e f ⟨he, hf, hr⟩
    exact ⟨List.mem_cons_of_mem _ he, List.mem_cons_of_mem _ hf, hr⟩

theorem exists_of_mem_right {R : KeyEntry → KeyEntry → Prop} {es fs : List KeyEntry}
    (h : List.Forall₂ R es fs) (hf : f ∈ fs) : ∃ e ∈ es, R e f := by
  induction h with
  | nil => cases hf
  | cons hr _ ih =>
    rcases List.mem_cons.1 hf with rfl | hf
    · exact ⟨_, List.mem_cons_self, hr⟩
    · obtain ⟨e, he, hr⟩ := ih hf
      exact ⟨e, List.mem_cons_of_mem _ he, hr⟩

theorem map_eq_of_forall₂ {α : Type} {g h : KeyEntry → α} {R : KeyEntry → KeyEntry → Prop}
    {es fs : List KeyEntry} (hall : List.Forall₂ R es fs) (hg : ∀ e f, R e f → g f = h e) :
    fs.map g = es.map h := by
  induction hall with
  | nil => rfl
  | cons hr _ ih => rw [List.map_cons, List.map_cons, hg _ _ hr, ih]

theorem keyIds_reloaded (h : List.Forall₂ (s.Reloaded K) s.entries t.entries) :
    t.entries.map KeyEntry.keyId = s.entries.map KeyEntry.keyId :=
  map_eq_of_forall₂ (forall₂_mem h) fun _ _ hr => keyId_reloaded hr.1 hr.2.2

theorem length_issuers_reloaded (h : List.Forall₂ (s.Reloaded K) s.entries t.entries) :
    t.issuers.length = (s.entries.map fun e =>
      ((s.entries.map KeyEntry.keyId).count e.keyId - 1) + s.issuers.length).sum := by
  rw [issuers, List.length_flatMap, map_eq_of_forall₂ (forall₂_mem h)
    fun _ _ hr => tail_reloaded hr.1 hr.2.2]

theorem eq_of_length_le_one {es : List KeyEntry} (h : es.length ≤ 1) (he : e ∈ es) (hf : f ∈ es) :
    e = f := by
  match es, h with
  | [a], _ => rw [List.mem_singleton.1 he, List.mem_singleton.1 hf]

theorem chain_of_separate (hs : s.Separate) (he : e ∈ s.entries) (hr : s.Reloaded K e f) :
    f.chain = e.chain := by
  refine chain_reloaded he hr ?_
  intro g hg hn
  constructor
  · intro hid
    exact hn (congrArg KeyEntry.name (List.inj_on_of_nodup_map hs.leaves hg he hid))
  · rcases hs.issuers with hshort | hnone
    · exact absurd (congrArg KeyEntry.name (eq_of_length_le_one hshort hg he)) hn
    · exact List.flatMap_eq_nil_iff.1 hnone g hg

theorem chains_of_separate (hs : s.Separate) (h : List.Forall₂ (s.Reloaded K) s.entries t.entries) :
    t.entries.map KeyEntry.chain = s.entries.map KeyEntry.chain :=
  map_eq_of_forall₂ (forall₂_mem h) fun _ _ hr => chain_of_separate hs hr.1 hr.2.2

theorem separate_of_chains (hc : t.entries.map KeyEntry.chain = s.entries.map KeyEntry.chain)
    (hs : s.Separate) : t.Separate := by
  have hids : t.entries.map KeyEntry.keyId = s.entries.map KeyEntry.keyId := by
    have h := congrArg (List.map fun cs : List Certificate =>
      cs.head?.map fun c => Sha1.sha1.digest c.der) hc
    rwa [List.map_map, List.map_map] at h
  have hissuers : t.issuers = s.issuers := by
    have h := congrArg (List.flatMap List.tail) hc
    rwa [List.flatMap_map, List.flatMap_map] at h
  have hlength : t.entries.length = s.entries.length := by
    simpa using congrArg List.length hc
  refine ⟨by rw [hids]; exact hs.leaves, ?_⟩
  rw [hlength, hissuers]
  exact hs.issuers

theorem sum_add_eq {α : Type} {a : α → Nat} {n : Nat} {xs : List α} (hne : xs ≠ [])
    (h : (xs.map fun x => a x + n).sum = n) : (∀ x ∈ xs, a x = 0) ∧ (xs.length ≤ 1 ∨ n = 0) := by
  obtain ⟨x, rest, rfl⟩ := List.exists_cons_of_ne_nil hne
  rw [List.map_cons, List.sum_cons] at h
  have hrest : ∀ y ∈ rest, a y + n = 0 := by
    intro y hy
    have hle : a y + n ≤ (rest.map fun x => a x + n).sum :=
      List.le_sum_of_mem (List.mem_map_of_mem hy)
    omega
  constructor
  · refine List.forall_mem_cons.2 ⟨by omega, ?_⟩
    intro y hy
    exact Nat.eq_zero_of_add_eq_zero_right (hrest y hy)
  · cases rest with
    | nil => exact .inl (Nat.le_refl 1)
    | cons y rest => exact .inr (Nat.eq_zero_of_add_eq_zero_left (hrest y List.mem_cons_self))

-- Counting the certificates of one chain before and after shows that nothing was shared.
theorem separate_of_chain (h : List.Forall₂ (s.Reloaded K) s.entries t.entries)
    (he : e ∈ s.entries) (hr : s.Reloaded K e f) (hc : t.sharedLeaves f ++ t.issuers = f.chain) :
    s.Separate := by
  have hlength := congrArg List.length hc
  rw [hr.chain, List.length_append, List.length_append, length_sharedLeaves, length_sharedLeaves,
    keyIds_reloaded h, keyId_reloaded he hr, Nat.add_left_cancel_iff, length_issuers_reloaded h]
    at hlength
  obtain ⟨hcount, hshort⟩ := sum_add_eq (List.ne_nil_of_mem he) hlength
  refine ⟨List.nodup_iff_count_le_one.2 ?_, hshort.imp_right List.eq_nil_of_length_eq_zero⟩
  intro id
  by_cases hid : id ∈ s.entries.map KeyEntry.keyId
  · obtain ⟨g, hg, rfl⟩ := List.mem_map.1 hid
    exact Nat.sub_eq_zero_iff_le.1 (hcount g hg)
  · rw [List.count_eq_zero_of_not_mem hid]
    exact Nat.zero_le 1

theorem entries_ne_nil (h : s.toBytes d = .ok b) : s.entries ≠ [] := by
  intro hn
  unfold toBytes isEmpty at h
  rw [hn] at h
  cases h

theorem toBytes_eq (hne : s.entries ≠ []) (d : Container.Draws) : s.toBytes d =
    ((Container.image s.entries s.password d).bind fun v => v.toDer .encoding).mapError
      (.encoding s.type) := by
  have he : s.isEmpty = false := by simpa [isEmpty] using hne
  unfold toBytes
  rw [he, ← Container.encode_eq_image]
  cases s.type
  rfl

theorem reread_reloaded (hb : s.toBytes d = .ok b) (he : e ∈ s.entries) (hr : s.Reloaded K e f) :
    ∃ info, PrivateKeyInfo.ofDer? e.privateKey = some info ∧
      PrivateKeyInfo.ofDer? f.privateKey = some info ∧ info.toDer = f.privateKey := by
  obtain ⟨info, hi, hf⟩ := hr.key
  refine ⟨info, hi, ?_, hf.symm⟩
  rw [hf]
  exact PrivateKeyInfo.ofDer?_toDer_of_read hi
    (Container.fits_keys_of_encode (toBytes_ok hb) e he info hi)

theorem exists_image_reloaded (hb : s.toBytes d = .ok b) (hpassword : t.password = s.password)
    (h : List.Forall₂ (s.Reloaded K) s.entries t.entries) (d' : Container.Draws) :
    ∃ v, Container.image t.entries t.password d' = .ok v := by
  obtain ⟨v, hv, -⟩ := Container.exists_image_of_encode (toBytes_ok hb)
  obtain ⟨hw, hp⟩ := Container.exists_image_iff.1 ⟨v, hv⟩
  refine Container.exists_image_iff.2 ⟨?_, by rw [hpassword]; exact hp⟩
  intro f hf
  obtain ⟨e, he, hr⟩ := exists_of_mem_right h hf
  obtain ⟨info, -, hi, -⟩ := reread_reloaded hb he hr
  refine ⟨(fault?_eq_none_iff.1 (t.acceptable f hf)).2, ?_, Option.isSome_of_eq_some hi⟩
  rw [hr.name]
  exact (hw e he).name

theorem shape_of_separate (hs : s.Separate) (hb : s.toBytes d = .ok b) (he : e ∈ s.entries)
    (hr : s.Reloaded K e f) : f.shape = e.shape := by
  obtain ⟨info, hi, hi', -⟩ := reread_reloaded hb he hr
  unfold KeyEntry.shape
  rw [hr.name, keyId_reloaded he hr, hi, hi', chain_of_separate hs he hr]

theorem fits_of_separate (hs : s.Separate) (hb : s.toBytes d = .ok b)
    (h : List.Forall₂ (s.Reloaded K) s.entries t.entries) {d' : Container.Draws} {v : Der.Value}
    (hv : Container.image t.entries t.password d' = .ok v) : v.Fits := by
  obtain ⟨w, hw, hf, -⟩ := Container.exists_image_of_encode (toBytes_ok hb)
  have hshapes : t.entries.map KeyEntry.shape = s.entries.map KeyEntry.shape :=
    map_eq_of_forall₂ (forall₂_mem h) fun _ _ hr => shape_of_separate hs hb hr.1 hr.2.2
  have hlength := Container.length_image hw
  rw [← hshapes, ← Container.length_image hv] at hlength
  unfold Der.Value.Fits at hf ⊢
  omega

structure Resaved (t : KeyStore) (f g : KeyEntry) : Prop where
  name : g.name = f.name
  password : g.password = f.password
  privateKey : g.privateKey = f.privateKey
  chain : g.chain = t.sharedLeaves f ++ t.issuers
  kept : f.chain ⊆ g.chain

theorem resaved_of_reloaded (hb : s.toBytes d = .ok b) (he : e ∈ s.entries)
    (hr : s.Reloaded K e f) (hf : f ∈ t.entries) {g : KeyEntry} (hg : t.Reloaded K f g) :
    t.Resaved f g := by
  obtain ⟨info, -, hi, hk⟩ := reread_reloaded hb he hr
  obtain ⟨own, ho, hown⟩ := hg.key
  obtain rfl := Option.some.inj (hi.symm.trans ho)
  refine ⟨hg.name, hg.password.trans hr.password.symm, hown.trans hk, hg.chain, ?_⟩
  rw [hg.chain]
  obtain ⟨leaf, issuers, hc⟩ := exists_chain hf
  intro c hm
  rw [hc] at hm
  rcases List.mem_cons.1 hm with rfl | hm
  · exact List.mem_append_left _ (mem_sharedLeaves hf (by rw [hc]; rfl))
  · exact List.mem_append_right _ (List.mem_flatMap.2 ⟨f, hf, by rw [hc]; exact hm⟩)

theorem entries_resaved (hb : s.toBytes d = .ok b)
    (h : List.Forall₂ (s.Reloaded K) s.entries t.entries)
    (hu : List.Forall₂ (t.Reloaded K) t.entries u.entries) :
    List.Forall₂ t.Resaved t.entries u.entries := by
  refine (forall₂_mem hu).imp ?_
  rintro f g ⟨hf, -, hg⟩
  obtain ⟨e, he, hr⟩ := exists_of_mem_right h hf
  exact resaved_of_reloaded hb he hr hf hg

theorem entries_eq_iff (hb : s.toBytes d = .ok b)
    (h : List.Forall₂ (s.Reloaded K) s.entries t.entries)
    (hu : List.Forall₂ (t.Reloaded K) t.entries u.entries) :
    u.entries = t.entries ↔ s.Separate := by
  have hall := entries_resaved hb h hu
  constructor
  · intro heq
    rw [heq] at hall
    obtain ⟨e, he⟩ := List.exists_mem_of_ne_nil _ (entries_ne_nil hb)
    obtain ⟨f, hf, hr⟩ := exists_reloaded_of_mem h he
    exact separate_of_chain h he hr (List.forall₂_same.1 hall f hf).chain.symm
  · intro hs
    have ht := separate_of_chains (chains_of_separate hs h) hs
    have heq : List.Forall₂ (fun f g : KeyEntry => f = g) t.entries u.entries := by
      refine (forall₂_mem (List.Forall₂.mp (fun _ _ a b => And.intro a b) hall hu)).imp ?_
      rintro f g ⟨hf, -, hg, hr⟩
      obtain ⟨_, _, _, _⟩ := f
      obtain ⟨_, _, _, _⟩ := g
      obtain rfl := hg.name
      obtain rfl := hg.password
      obtain rfl := hg.privateKey
      obtain rfl := chain_of_separate ht hf hr
      rfl
    rw [List.forall₂_eq_eq_eq] at heq
    exact heq.symm

theorem load_resaved (s : KeyStore) (K : String) (d : Container.Draws) (b : Bytes) (t : KeyStore)
    (hK : ∀ e ∈ s.entries, e.password = K) (hb : s.toBytes d = .ok b)
    (ht : load s.type b s.password K = .ok t) :
    (s.Separate → ∀ d', ∃ b', t.toBytes d' = .ok b') ∧
      (∀ d' fault, t.toBytes d' = .error fault → ∃ v,
        Container.image t.entries t.password d' = .ok v ∧ Der.maxLength < v.encode.length) ∧
      ∀ d' b', t.toBytes d' = .ok b' → ∃ u, load s.type b' s.password K = .ok u ∧
        u.aliases = t.aliases ∧ List.Forall₂ t.Resaved t.entries u.entries ∧
          (u.entries = t.entries ↔ s.Separate) := by
  obtain ⟨own, hown, htype, hpassword, h⟩ := exists_load hK hb
  obtain rfl := Except.ok.inj (hown.symm.trans ht)
  have hne : own.entries ≠ [] := by
    intro hn
    rw [hn] at h
    exact entries_ne_nil hb (List.forall₂_nil_right_iff.1 h)
  have hsave (d' : Container.Draws) : ∃ v, Container.image own.entries own.password d' = .ok v ∧
      own.toBytes d' = (v.toDer .encoding).mapError (.encoding own.type) := by
    obtain ⟨v, hv⟩ := exists_image_reloaded hb hpassword h d'
    refine ⟨v, hv, ?_⟩
    rw [toBytes_eq hne, hv]
    rfl
  refine ⟨?_, ?_, ?_⟩
  · intro hs d'
    obtain ⟨v, hv, hd⟩ := hsave d'
    have hle : v.encode.length ≤ Der.maxLength := fits_of_separate hs hb h hv
    rw [hd, Der.Value.toDer, if_pos hle]
    exact ⟨_, rfl⟩
  · intro d' fault herror
    obtain ⟨v, hv, hd⟩ := hsave d'
    refine ⟨v, hv, Nat.lt_of_not_le ?_⟩
    intro hle
    rw [hd, Der.Value.toDer, if_pos hle] at herror
    cases herror
  · intro d' b' hb'
    have hK' : ∀ f ∈ own.entries, f.password = K := by
      intro f hf
      obtain ⟨e, -, hr⟩ := exists_of_mem_right h hf
      exact hr.password
    obtain ⟨u, hu, -, -, hall⟩ := exists_load hK' hb'
    rw [htype, hpassword] at hu
    exact ⟨u, hu, names_reloaded hall, entries_resaved hb h hall, entries_eq_iff hb h hall⟩

theorem load_resaved_sample : ∃ b t, (∀ e ∈ sample.entries, e.password = "key") ∧
    sample.toBytes (.draw ⟨[]⟩) = .ok b ∧ load sample.type b sample.password "key" = .ok t ∧
      (sample.Separate → ∀ d', ∃ b', t.toBytes d' = .ok b') ∧
      (∀ d' fault, t.toBytes d' = .error fault → ∃ v,
        Container.image t.entries t.password d' = .ok v ∧ Der.maxLength < v.encode.length) ∧
      ∀ d' b', t.toBytes d' = .ok b' → ∃ u, load sample.type b' sample.password "key" = .ok u ∧
        u.aliases = t.aliases ∧ List.Forall₂ t.Resaved t.entries u.entries ∧
          (u.entries = t.entries ↔ sample.Separate) := by
  obtain ⟨b, hb⟩ := exists_toBytes_sample
  obtain ⟨t, ht, -⟩ := exists_load sample_passwords hb
  exact ⟨b, t, sample_passwords, hb, ht,
    load_resaved sample "key" (.draw ⟨[]⟩) b t sample_passwords hb ht⟩

theorem sharedLeaves_of_leaves {leaf : Certificate} (hl : ∀ c ∈ s.leaves, c = leaf)
    (he : e ∈ s.entries) : s.sharedLeaves e = s.leaves := by
  obtain ⟨own, issuers, hc⟩ := exists_chain he
  have hown : own = leaf := hl own (List.mem_filterMap.2 ⟨e, he, by rw [hc]; rfl⟩)
  refine List.filter_eq_self.2 ?_
  intro c hm
  rw [hl c hm, KeyEntry.keyId, hc, hown]
  exact decide_eq_true rfl

def sampleReloaded : List KeyEntry :=
  ["a", "b"].map fun name =>
    ⟨name, Container.sampleKey, "key", List.replicate 3 Container.sampleCertificate⟩

set_option maxRecDepth 4096 in
theorem size_sampleReloaded : Container.size sampleReloaded + 500 ≤ Der.maxLength := by
  decide_cbv

theorem sample_reloaded (h : List.Forall₂ (sample.Reloaded "key") sample.entries t.entries) :
    t.entries = sampleReloaded := by
  have hkey : (PrivateKeyInfo.ofDer? Container.sampleKey).map PrivateKeyInfo.toDer =
      some Container.sampleKey := by decide_cbv
  have hleaves : ∀ c ∈ sample.leaves, c = Container.sampleCertificate := by
    simp [leaves, sample, sampleEntries]
  have hentry : ∀ e ∈ sample.entries, ∀ f, sample.Reloaded "key" e f → f =
      ⟨e.name, Container.sampleKey, "key", List.replicate 3 Container.sampleCertificate⟩ := by
    intro e he f hr
    obtain ⟨info, hi, hf⟩ := hr.key
    have hprivate : e.privateKey = Container.sampleKey := by
      rcases List.mem_pair.1 he with rfl | rfl <;> rfl
    rw [hprivate] at hi
    rw [hi, Option.map_some] at hkey
    have hchain := hr.chain
    rw [sharedLeaves_of_leaves hleaves he] at hchain
    obtain ⟨name, privateKey, password, chain⟩ := f
    obtain rfl := hr.name
    obtain rfl := hr.password
    obtain rfl := hf.trans (Option.some.inj hkey)
    obtain rfl := hchain
    rfl
  obtain ⟨f, fs, hf, hfs, hes⟩ := List.forall₂_cons_left_iff.1 h
  obtain ⟨g, gs, hg, hgs, rfl⟩ := List.forall₂_cons_left_iff.1 hfs
  obtain rfl := List.forall₂_nil_left_iff.1 hgs
  rw [hes, hentry _ (by simp [sample, sampleEntries]) f hf,
    hentry _ (by simp [sample, sampleEntries]) g hg]
  rfl

-- Two entries with one leaf: the second saving doubles a chain that the first one settled.
theorem sample_chain_grows : ∃ b t b' u f g, sample.toBytes (.draw ⟨[]⟩) = .ok b ∧
    load sample.type b sample.password "key" = .ok t ∧ t.toBytes (.draw ⟨[]⟩) = .ok b' ∧
      load sample.type b' sample.password "key" = .ok u ∧ t.get? "a" = some f ∧
        u.get? "a" = some g ∧ f.chain = List.replicate 3 Container.sampleCertificate ∧
          g.chain = List.replicate 6 Container.sampleCertificate ∧ g.chain ≠ f.chain := by
  obtain ⟨b, hb⟩ := exists_toBytes_sample
  obtain ⟨t, ht, htype, hpassword, h⟩ := exists_load sample_passwords hb
  have hes := sample_reloaded h
  have hK : ∀ f ∈ t.entries, f.password = "key" := by
    rw [hes]
    simp [sampleReloaded]
  have hw : ∀ f ∈ t.entries, f.Writable := by
    intro f hf
    obtain ⟨v, hv⟩ := exists_image_reloaded hb hpassword h (.draw ⟨[]⟩)
    exact (Container.exists_image_iff.1 ⟨v, hv⟩).1 f hf
  obtain ⟨b', hb'⟩ := exists_toBytes (s := t) (by rw [hes]; exact List.cons_ne_nil _ _) hw
    (by rw [hpassword]; decide) (by rw [hes]; exact size_sampleReloaded) (.draw ⟨[]⟩)
  obtain ⟨u, hu, -, -, hall⟩ := exists_load hK hb'
  rw [htype, hpassword] at hu
  have hf : ⟨"a", Container.sampleKey, "key", List.replicate 3 Container.sampleCertificate⟩ ∈
      t.entries := by
    rw [hes]
    exact List.mem_cons_self
  obtain ⟨g, hg, hr⟩ := exists_reloaded_of_mem hall hf
  have hleaves : ∀ c ∈ t.leaves, c = Container.sampleCertificate := by
    rw [leaves, hes]
    simp [sampleReloaded]
  have hchain : g.chain = List.replicate 6 Container.sampleCertificate := by
    rw [hr.chain, sharedLeaves_of_leaves hleaves hf, leaves, issuers, hes]
    rfl
  have hgname := get?_of_mem hg
  rw [hr.name] at hgname
  refine ⟨b, t, b', u, _, g, hb, ht, hb', hu, get?_of_mem hf, hgname, rfl, hchain, ?_⟩
  intro heq
  have hlength := congrArg List.length heq
  rw [hchain, List.length_replicate, List.length_replicate] at hlength
  cases hlength

end KeyStore

end Credential
