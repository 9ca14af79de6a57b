import Credential.Proofs.KeyStore.Reload
/-!
Loading takes in every key of a container or none. The first key that cannot be taken in decides
the error, and of several keys with one name the last one stays.
-/

namespace Credential

open Container (Contents KeyEntry StoredKey)

namespace KeyStore

variable {s t : KeyStore} {type : StoreType} {K name : String} {c : Contents} {k : StoredKey}
  {keys : List StoredKey} {e f : KeyEntry} {fault : StoreError}

structure Admits (K : String) (c : Contents) (k : StoredKey) (e : KeyEntry) : Prop where
  opens : k.decrypt K = .ok e.privateKey
  name : e.name = k.name
  password : e.password = K
  chain : e.chain = c.chain k
  named : Text.isBlank k.name = false
  chained : c.chain k ≠ []

-- What keeps a key out: that it does not open comes before its name, and that before its chain.
inductive Refuses (type : StoreType) (K : String) (c : Contents) (k : StoredKey) : StoreError → Prop
  | locked {cause : Error} : k.decrypt K = .error cause → Refuses type K c k (.decoding type cause)
  | nameless {der : Bytes} : k.decrypt K = .ok der → Text.isBlank k.name = true →
    Refuses type K c k .blankAlias
  | chainless {der : Bytes} : k.decrypt K = .ok der → Text.isBlank k.name = false →
    c.chain k = [] → Refuses type K c k (.emptyChain k.name)

def lastNamed? (keys : List StoredKey) (name : String) : Option StoredKey :=
  (keys.filter (·.name = name)).getLast?

def enter (type : StoreType) (K : String) (c : Contents) (s : KeyStore) (k : StoredKey) :
    Except StoreError KeyStore := do s.set (← entryOf type K c k)

theorem admits_or_refuses (type : StoreType) (K : String) (c : Contents) (k : StoredKey) :
    (∃ e, Admits K c k e) ∨ ∃ fault, Refuses type K c k fault := by
  cases hd : k.decrypt K with
  | error cause => exact .inr ⟨_, .locked hd⟩
  | ok der =>
    cases hn : Text.isBlank k.name with
    | true => exact .inr ⟨_, .nameless hd hn⟩
    | false =>
      by_cases hc : c.chain k = []
      · exact .inr ⟨_, .chainless hd hn hc⟩
      · exact .inl ⟨⟨k.name, der, K, c.chain k⟩, hd, rfl, rfl, rfl, hn, hc⟩

theorem Admits.unique (h : Admits K c k e) (hf : Admits K c k f) : e = f := by
  obtain ⟨_, _, _, _⟩ := e
  obtain ⟨_, _, _, _⟩ := f
  obtain rfl := h.name.trans hf.name.symm
  obtain rfl := h.password.trans hf.password.symm
  obtain rfl := h.chain.trans hf.chain.symm
  obtain rfl := Except.ok.inj (h.opens.symm.trans hf.opens)
  rfl

theorem Admits.fault?_eq_none (h : Admits K c k e) : e.fault? = none :=
  fault?_eq_none_iff.2 ⟨by rw [h.name]; exact h.named, by rw [h.chain]; exact h.chained⟩

theorem find?_insertEntry {es : List KeyEntry} (h : es.Pairwise (·.name < ·.name)) :
    (insertEntry e es).find? (·.name = name) =
      if e.name = name then some e else es.find? (·.name = name) := by
  induction es with
  | nil => by_cases hn : e.name = name <;> simp [insertEntry, hn]
  | cons g rest ih =>
    obtain ⟨hg, hrest⟩ := List.pairwise_cons.1 h
    unfold insertEntry
    split
    · rename_i hlt
      by_cases hn : e.name = name <;> simp [hn]
    · split
      · rename_i hge
        by_cases hn : e.name = name
        · simp [hn]
        · have hgn : ¬ g.name = name := by rwa [← hge]
          simp [hn, hgn]
      · rename_i hne
        by_cases hgn : g.name = name
        · have hn : ¬ e.name = name := by rwa [← hgn]
          simp [hn, hgn]
        · simp [hgn, ih hrest]

theorem mem_entries_iff : e ∈ s.entries ↔ s.get? e.name = some e := by
  constructor
  · exact get?_of_mem
  · intro h
    exact List.mem_of_find?_eq_some h

theorem eq_of_get? (htype : s.type = t.type) (hpassword : s.password = t.password)
    (h : ∀ name, s.get? name = t.get? name) : s = t := by
  have hmem (e : KeyEntry) : e ∈ s.entries ↔ e ∈ t.entries := by
    rw [mem_entries_iff, mem_entries_iff, h]
  have : Std.Irrefl fun e f : KeyEntry => e.name < f.name := ⟨fun e => String.lt_irrefl e.name⟩
  have hentries : s.entries = t.entries := s.sorted.eq_of_mem_iff t.sorted hmem
  obtain ⟨_, _, _, _, _⟩ := s
  obtain ⟨_, _, _, _, _⟩ := t
  obtain rfl := htype
  obtain rfl := hpassword
  obtain rfl := hentries
  rfl

theorem Admits.entryOf_eq (h : Admits K c k e) (type : StoreType) :
    entryOf type K c k = .ok e := by
  obtain ⟨_, _, _, _⟩ := e
  obtain rfl := h.name
  obtain rfl := h.password
  obtain rfl := h.chain
  rw [entryOf, h.opens]

theorem exists_enter (type : StoreType) (h : Admits K c k e) (s : KeyStore) :
    ∃ t, enter type K c s k = .ok t ∧ t.type = s.type ∧ t.password = s.password ∧
      ∀ name, t.get? name = if e.name = name then some e else s.get? name := by
  obtain ⟨t, ht, htype, hpassword, hentries⟩ := set_ok (s := s) h.fault?_eq_none
  refine ⟨t, ?_, htype, hpassword, ?_⟩
  · rw [enter, h.entryOf_eq type]
    exact ht
  · intro name
    rw [get?, hentries]
    exact find?_insertEntry s.sorted

theorem enter_of_refuses (h : Refuses type K c k fault) (s : KeyStore) :
    enter type K c s k = .error fault := by
  have hset {e : KeyEntry} {fault : StoreError} (hf : e.fault? = some fault) :
      s.set e = .error fault := by
    unfold set
    split
    · rename_i own ho
      rw [Option.some.inj (ho.symm.trans hf)]
    · rename_i ho
      rw [ho] at hf
      cases hf
  cases h with
  | locked hd =>
    simp only [enter, entryOf, hd]
    rfl
  | nameless hd hn =>
    simp only [enter, entryOf, hd]
    exact hset (if_pos hn)
  | chainless hd hn hc =>
    simp only [enter, entryOf, hd]
    refine hset ((if_neg ?_).trans (if_pos hc))
    rw [hn]
    exact Bool.false_ne_true

theorem lastNamed?_cons (k : StoredKey) (keys : List StoredKey) (name : String) :
    lastNamed? (k :: keys) name =
      (lastNamed? keys name).or (if k.name = name then some k else none) := by
  unfold lastNamed?
  by_cases h : k.name = name
  · rw [List.filter_cons_of_pos (by simpa using h), List.getLast?_cons, if_pos h]
    cases (keys.filter (·.name = name)).getLast? <;> rfl
  · rw [List.filter_cons_of_neg (by simpa using h), if_neg h, Option.or_none]

def Holds (K : String) (c : Contents) (keys : List StoredKey) (s t : KeyStore) : Prop :=
  ∀ name e, t.get? name = some e ↔ (∃ k, lastNamed? keys name = some k ∧ Admits K c k e) ∨
    (lastNamed? keys name = none ∧ s.get? name = some e)

theorem holds_cons {m : KeyStore} (hk : Admits K c k e)
    (hm : ∀ name, m.get? name = if e.name = name then some e else s.get? name)
    (ht : Holds K c keys m t) : Holds K c (k :: keys) s t := by
  intro name f
  rw [ht name f, lastNamed?_cons, hm]
  cases hl : lastNamed? keys name with
  | some l => simp
  | none =>
    by_cases hn : k.name = name
    · have hen : e.name = name := hk.name.trans hn
      simp only [hn, hen, Option.none_or, if_true, reduceCtorEq, false_and, exists_false, false_or,
        true_and, or_false, Option.some.injEq, exists_eq_left']
      exact ⟨fun he => he ▸ hk, fun hf => hk.unique hf⟩
    · have hen : ¬ e.name = name := by rwa [hk.name]
      simp [hn, hen]

theorem exists_foldlM_enter (type : StoreType) (h : ∀ k ∈ keys, ∃ e, Admits K c k e)
    (s : KeyStore) :
    ∃ t, keys.foldlM (enter type K c) s = .ok t ∧ t.type = s.type ∧ t.password = s.password ∧
      Holds K c keys s t := by
  induction keys generalizing s with
  | nil => exact ⟨s, rfl, rfl, rfl, fun name e => by simp [lastNamed?]⟩
  | cons k keys ih =>
    obtain ⟨⟨e, he⟩, hkeys⟩ := List.forall_mem_cons.1 h
    obtain ⟨m, hm, hmtype, hmpassword, hmget⟩ := exists_enter type he s
    obtain ⟨t, ht, htype, hpassword, hholds⟩ := ih hkeys m
    refine ⟨t, ?_, htype.trans hmtype, hpassword.trans hmpassword, holds_cons he hmget hholds⟩
    rw [List.foldlM_cons, hm]
    exact ht

def FirstRefused (type : StoreType) (K : String) (c : Contents) (keys : List StoredKey)
    (fault : StoreError) : Prop :=
  ∃ before k after, keys = before ++ k :: after ∧ (∀ l ∈ before, ∃ e, Admits K c l e) ∧
    Refuses type K c k fault

theorem admits_all_or_refuses (type : StoreType) (K : String) (c : Contents)
    (keys : List StoredKey) :
    (∀ k ∈ keys, ∃ e, Admits K c k e) ∨ ∃ fault, FirstRefused type K c keys fault := by
  induction keys with
  | nil => exact .inl nofun
  | cons k keys ih =>
    rcases admits_or_refuses type K c k with hk | ⟨fault, hk⟩
    · rcases ih with hall | ⟨fault, before, l, after, rfl, hbefore, hl⟩
      · exact .inl (List.forall_mem_cons.2 ⟨hk, hall⟩)
      · exact .inr ⟨fault, k :: before, l, after, rfl, List.forall_mem_cons.2 ⟨hk, hbefore⟩, hl⟩
    · exact .inr ⟨fault, [], k, keys, rfl, nofun, hk⟩

theorem foldlM_of_firstRefused (h : FirstRefused type K c keys fault) (s : KeyStore) :
    keys.foldlM (enter type K c) s = .error fault := by
  obtain ⟨before, k, after, rfl, hbefore, hk⟩ := h
  obtain ⟨t, ht, -⟩ := exists_foldlM_enter type hbefore s
  rw [List.foldlM_append, ht]
  show (k :: after).foldlM (enter type K c) t = .error fault
  rw [List.foldlM_cons, enter_of_refuses hk]
  rfl

structure Loaded (type : StoreType) (password K : String) (c : Contents) (s : KeyStore) : Prop where
  type : s.type = type
  password : s.password = password
  entries : ∀ name e, s.get? name = some e ↔
    ∃ k, lastNamed? c.keys name = some k ∧ Admits K c k e

section Load

variable {der : Bytes} {password : String} {cause : Error}

theorem Loaded.unique (hs : Loaded type password K c s) (ht : Loaded type password K c t) :
    s = t := by
  refine eq_of_get? (hs.type.trans ht.type.symm) (hs.password.trans ht.password.symm) ?_
  intro name
  refine Option.ext fun e => ?_
  rw [hs.entries, ht.entries]

theorem load_of_decode (h : Container.decode der password = .ok c) : load type der password K =
    c.keys.foldlM (enter type K c) (empty type password) := by
  unfold load
  rw [h]
  rfl

theorem load_of_decode_error (h : Container.decode der password = .error cause) :
    load type der password K = .error (.decoding type cause) := by
  unfold load
  rw [h]
  rfl

theorem exists_load_of_admits (type : StoreType) (h : Container.decode der password = .ok c)
    (hall : ∀ k ∈ c.keys, ∃ e, Admits K c k e) :
    ∃ s, load type der password K = .ok s ∧ Loaded type password K c s := by
  obtain ⟨s, hs, htype, hpassword, hholds⟩ :=
    exists_foldlM_enter type hall (empty type password)
  refine ⟨s, (load_of_decode h).trans hs, htype, hpassword, ?_⟩
  intro name e
  have hnone : (empty type password).get? name = none := rfl
  rw [hholds name e, hnone]
  simp

theorem load_of_firstRefused (h : Container.decode der password = .ok c)
    (hf : FirstRefused type K c c.keys fault) : load type der password K = .error fault :=
  (load_of_decode h).trans (foldlM_of_firstRefused hf _)

theorem load_ok_iff : load type der password K = .ok s ↔
    ∃ c, Container.decode der password = .ok c ∧ (∀ k ∈ c.keys, ∃ e, Admits K c k e) ∧
      Loaded type password K c s := by
  constructor
  · intro h
    cases hd : Container.decode der password with
    | error cause => exact absurd ((load_of_decode_error hd).symm.trans h) nofun
    | ok c =>
      rcases admits_all_or_refuses type K c c.keys with hall | ⟨fault, hf⟩
      · obtain ⟨t, ht, hloaded⟩ := exists_load_of_admits type hd hall
        obtain rfl := Except.ok.inj (ht.symm.trans h)
        exact ⟨c, rfl, hall, hloaded⟩
      · exact absurd ((load_of_firstRefused hd hf).symm.trans h) nofun
  · rintro ⟨c, hd, hall, hloaded⟩
    obtain ⟨t, ht, htloaded⟩ := exists_load_of_admits type hd hall
    rw [ht, hloaded.unique htloaded]

theorem load_error_iff : load type der password K = .error fault ↔
    (∃ cause, Container.decode der password = .error cause ∧ fault = .decoding type cause) ∨
      ∃ c, Container.decode der password = .ok c ∧ FirstRefused type K c c.keys fault := by
  constructor
  · intro h
    cases hd : Container.decode der password with
    | error cause =>
      exact .inl ⟨cause, rfl, Except.error.inj (h.symm.trans (load_of_decode_error hd))⟩
    | ok c =>
      rcases admits_all_or_refuses type K c c.keys with hall | ⟨own, hf⟩
      · obtain ⟨s, hs, -⟩ := exists_load_of_admits type hd hall
        exact absurd (hs.symm.trans h) nofun
      · obtain rfl := Except.error.inj (h.symm.trans (load_of_firstRefused hd hf))
        exact .inr ⟨c, rfl, hf⟩
  · rintro (⟨cause, hd, rfl⟩ | ⟨c, hd, hf⟩)
    · exact load_of_decode_error hd
    · exact load_of_firstRefused hd hf

end Load

end KeyStore

end Credential
