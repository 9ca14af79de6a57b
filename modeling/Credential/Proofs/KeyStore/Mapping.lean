import Credential.Proofs.KeyStore.Loading
import Credential.Proofs.Text.Order
/-!
A key store is a map: each name leads to the last entry that was put under it and taken, whatever
was put before, and the names are listed in the order of their bytes.
-/

namespace Credential.KeyStore

open Container (Contents KeyEntry StoredKey)

variable {s t : KeyStore} {type : StoreType} {K name password : String} {c : Contents}
  {keys : List StoredKey} {e : KeyEntry} {calls : List KeyEntry} {fault : StoreError}

def Acceptable (e : KeyEntry) : Prop := Text.isBlank e.name = false ∧ e.chain ≠ []

instance : DecidablePred Acceptable := fun _ => inferInstanceAs (Decidable (_ ∧ _))

def put (s : KeyStore) (e : KeyEntry) : KeyStore := (s.set e).toOption.getD s

def putAll (s : KeyStore) (calls : List KeyEntry) : KeyStore := calls.foldl put s

def lastTaken? (calls : List KeyEntry) (name : String) : Option KeyEntry :=
  (calls.filter fun e => e.name = name ∧ Acceptable e).getLast?

theorem set_error_iff : s.set e = .error fault ↔ e.fault? = some fault := by
  unfold set
  split
  · rename_i own ho
    rw [ho]
    exact ⟨congrArg _ ∘ Except.error.inj, congrArg _ ∘ Option.some.inj⟩
  · rename_i ho
    refine ⟨nofun, fun h => ?_⟩
    rw [ho] at h
    cases h

theorem exists_set_iff : (∃ t, s.set e = .ok t) ↔ Acceptable e := by
  rw [Acceptable, ← fault?_eq_none_iff]
  constructor
  · rintro ⟨t, ht⟩
    rw [Option.eq_none_iff_forall_ne_some]
    intro fault hf
    rw [set_error_iff.2 hf] at ht
    cases ht
  · intro h
    obtain ⟨t, ht, -⟩ := set_ok (s := s) h
    exact ⟨t, ht⟩

theorem fault?_eq_some_iff : e.fault? = some fault ↔
    (Text.isBlank e.name = true ∧ fault = .blankAlias) ∨
      (Text.isBlank e.name = false ∧ e.chain = [] ∧ fault = .emptyChain e.name) := by
  unfold KeyEntry.fault?
  cases hb : Text.isBlank e.name with
  | true => simp [eq_comm]
  | false => by_cases hc : e.chain = [] <;> simp [hc, eq_comm]

theorem put_of_error (h : s.set e = .error fault) : s.put e = s := by
  rw [put, h]
  rfl

theorem put_of_not_acceptable (h : ¬ Acceptable e) : s.put e = s := by
  cases hs : s.set e with
  | error fault => exact put_of_error hs
  | ok t => exact absurd (exists_set_iff.1 ⟨t, hs⟩) h

theorem put_of_acceptable (h : Acceptable e) : s.set e = .ok (s.put e) ∧
    (s.put e).type = s.type ∧ (s.put e).password = s.password ∧
      (s.put e).entries = insertEntry e s.entries := by
  obtain ⟨t, ht, hkept⟩ := set_ok (s := s) (fault?_eq_none_iff.2 h)
  have hput : s.put e = t := by
    rw [put, ht]
    rfl
  rw [hput]
  exact ⟨ht, hkept⟩

theorem get?_put (s : KeyStore) (e : KeyEntry) (name : String) :
    (s.put e).get? name = if e.name = name ∧ Acceptable e then some e else s.get? name := by
  by_cases h : Acceptable e
  · obtain ⟨-, -, -, hentries⟩ := put_of_acceptable (s := s) h
    rw [get?, hentries, find?_insertEntry s.sorted]
    simp only [h, and_true]
    rfl
  · rw [put_of_not_acceptable h, if_neg (h ·.2)]

theorem lastTaken?_cons (e : KeyEntry) (calls : List KeyEntry) (name : String) :
    lastTaken? (e :: calls) name =
      (lastTaken? calls name).or (if e.name = name ∧ Acceptable e then some e else none) := by
  unfold lastTaken?
  split
  · rename_i h
    rw [List.filter_cons_of_pos (by simpa using h), List.getLast?_cons]
    cases (calls.filter _).getLast? <;> rfl
  · rename_i h
    rw [List.filter_cons_of_neg (by simpa using h), Option.or_none]

theorem get?_putAll (s : KeyStore) (calls : List KeyEntry) (name : String) :
    (s.putAll calls).get? name = (lastTaken? calls name).or (s.get? name) := by
  induction calls generalizing s with
  | nil => rfl
  | cons e calls ih =>
    show ((s.put e).putAll calls).get? name = _
    rw [ih, get?_put, lastTaken?_cons, Option.or_assoc]
    split <;> rfl

theorem putAll_kept (s : KeyStore) (calls : List KeyEntry) :
    (s.putAll calls).type = s.type ∧ (s.putAll calls).password = s.password := by
  induction calls generalizing s with
  | nil => exact ⟨rfl, rfl⟩
  | cons e calls ih =>
    obtain ⟨htype, hpassword⟩ := ih (s.put e)
    have hput : (s.put e).type = s.type ∧ (s.put e).password = s.password := by
      by_cases h : Acceptable e
      · obtain ⟨-, ht, hp, -⟩ := put_of_acceptable (s := s) h
        exact ⟨ht, hp⟩
      · rw [put_of_not_acceptable h]
        exact ⟨rfl, rfl⟩
    exact ⟨htype.trans hput.1, hpassword.trans hput.2⟩

theorem mem_aliases_iff : name ∈ s.aliases ↔ ∃ e, s.get? name = some e := by
  rw [aliases, List.mem_map]
  constructor
  · rintro ⟨e, he, rfl⟩
    exact ⟨e, get?_of_mem he⟩
  · rintro ⟨e, he⟩
    exact ⟨e, List.mem_of_find?_eq_some he, by simpa using List.find?_some he⟩

theorem aliases_ordered (s : KeyStore) :
    s.aliases.Pairwise fun a b => Bytes.ofText a < Bytes.ofText b :=
  (List.pairwise_map.2 s.sorted).imp (Bytes.ofText_lt_iff _ _).2

structure Maps (type : StoreType) (password : String) (calls : List KeyEntry) (s : KeyStore) :
    Prop where
  type : s.type = type
  password : s.password = password
  get? : ∀ name, s.get? name = lastTaken? calls name
  entries : ∀ e, e ∈ s.entries ↔ s.get? e.name = some e
  aliases : ∀ name, name ∈ s.aliases ↔ ∃ e, s.get? name = some e
  ordered : s.aliases.Pairwise fun a b => Bytes.ofText a < Bytes.ofText b
  size : s.size = s.aliases.length
  acceptable : ∀ e ∈ s.entries, Acceptable e

theorem maps_putAll (type : StoreType) (password : String) (calls : List KeyEntry) :
    Maps type password calls ((empty type password).putAll calls) where
  type := (putAll_kept _ calls).1
  password := (putAll_kept _ calls).2
  get? name := (get?_putAll _ calls name).trans (Option.or_none)
  entries _ := mem_entries_iff
  aliases _ := mem_aliases_iff
  ordered := aliases_ordered _
  size := (List.length_map ..).symm
  acceptable e he := fault?_eq_none_iff.1 (KeyStore.acceptable _ e he)

theorem foldlM_enter_eq (type : StoreType) (h : List.Forall₂ (Admits K c) keys calls)
    (s : KeyStore) : keys.foldlM (enter type K c) s = .ok (s.putAll calls) := by
  induction h generalizing s with
  | nil => rfl
  | @cons k e keys calls hk _ ih =>
    have hset := (put_of_acceptable (s := s) (fault?_eq_none_iff.1 hk.fault?_eq_none)).1
    have henter : enter type K c s k = .ok (s.put e) := by
      rw [enter, hk.entryOf_eq type]
      exact hset
    rw [List.foldlM_cons, henter]
    exact ih (s.put e)

theorem exists_admitted (h : ∀ k ∈ keys, ∃ e, Admits K c k e) :
    ∃ calls, List.Forall₂ (Admits K c) keys calls := by
  induction keys with
  | nil => exact ⟨[], .nil⟩
  | cons k keys ih =>
    obtain ⟨⟨e, he⟩, hkeys⟩ := List.forall_mem_cons.1 h
    obtain ⟨calls, hcalls⟩ := ih hkeys
    exact ⟨e :: calls, .cons he hcalls⟩

theorem load_eq_putAll {der : Bytes} (h : load type der password K = .ok s) :
    ∃ c calls, Container.decode der password = .ok c ∧ List.Forall₂ (Admits K c) c.keys calls ∧
      s = (empty type password).putAll calls := by
  obtain ⟨c, hd, hall, -⟩ := load_ok_iff.1 h
  obtain ⟨calls, hcalls⟩ := exists_admitted hall
  refine ⟨c, calls, hd, hcalls, ?_⟩
  rw [load_of_decode hd, foldlM_enter_eq type hcalls] at h
  exact (Except.ok.inj h).symm

theorem maps_last_taken (type : StoreType) (password : String) :
    (∀ (s : KeyStore) (e : KeyEntry), ((∃ t, s.set e = .ok t) ↔ Acceptable e) ∧
      ∀ fault, (s.set e = .error fault ↔ (Text.isBlank e.name = true ∧ fault = .blankAlias) ∨
          (Text.isBlank e.name = false ∧ e.chain = [] ∧ fault = .emptyChain e.name)) ∧
        (s.set e = .error fault → s.put e = s)) ∧
    (∀ calls, Maps type password calls ((empty type password).putAll calls)) ∧
    ∀ der K s, load type der password K = .ok s → ∃ c calls,
      Container.decode der password = .ok c ∧ List.Forall₂ (Admits K c) c.keys calls ∧
        ∀ more, Maps type password (calls ++ more) (s.putAll more) := by
  refine ⟨?_, maps_putAll type password, ?_⟩
  · intro s e
    exact ⟨exists_set_iff, fun fault => ⟨set_error_iff.trans fault?_eq_some_iff, put_of_error⟩⟩
  · intro der K s h
    obtain ⟨c, calls, hd, hcalls, rfl⟩ := load_eq_putAll h
    refine ⟨c, calls, hd, hcalls, fun more => ?_⟩
    rw [putAll, putAll, ← List.foldl_append]
    exact maps_putAll type password (calls ++ more)

theorem maps_last_taken_sample : ∃ b s, load .pkcs12 b "store" "key" = .ok s ∧
    s.aliases = ["a", "b"] ∧ s.put ⟨" ", [], "", []⟩ = s ∧
      ∀ more, (s.putAll more).type = .pkcs12 := by
  obtain ⟨b, hb⟩ := exists_toBytes_sample
  obtain ⟨s, hs, -, -, hreloaded⟩ := exists_load sample_passwords hb
  obtain ⟨hcalls, -, hload⟩ := maps_last_taken .pkcs12 "store"
  obtain ⟨c, calls, -, -, hmaps⟩ := hload b "key" s hs
  obtain ⟨-, hset⟩ := hcalls s ⟨" ", [], "", []⟩
  obtain ⟨hblank, hput⟩ := hset .blankAlias
  have hrefused := hblank.2 (.inl ⟨by decide, rfl⟩)
  exact ⟨b, s, hs, names_reloaded hreloaded, hput hrefused, fun more => (hmaps more).type⟩

end Credential.KeyStore
