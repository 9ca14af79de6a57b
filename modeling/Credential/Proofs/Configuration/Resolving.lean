import Credential.Proofs.Generator.Stages
/-!
A configuration can be settled exactly when nothing is wrong with it, and otherwise the first thing
wrong with it is the error. What was settled on settles on itself, with nothing left to fill in.
-/

namespace Credential

namespace Configuration

variable {c : Configuration} {r s : Resolved} {t : StoreType}

structure Sound (c : Configuration) : Prop where
  storeType : Text.isBlank c.storeType = true ∨ ∃ t, StoreType.ofText? c.storeType = some t
  keyPassword : Text.isBlank c.keyPassword = false
  storePassword : Text.isBlank c.storePassword = false
  keySize : minKeySize ≤ c.keySize ∧ c.keySize ≤ maxKeySize

-- All that is wrong with a configuration, in the order in which it is looked for. The alias does
-- not occur, since a blank one is filled in before.
def faults (c : Configuration) : List ConfigurationError :=
  faultIf (Text.isBlank c.storeType = false ∧ StoreType.ofText? c.storeType = none)
    (.unknownStoreType c.storeType) ++
  (faultIf (Text.isBlank c.keyPassword = true) (.blank "key_password") ++
  (faultIf (Text.isBlank c.storePassword = true) (.blank "store_password") ++
  (faultIf (c.keySize < minKeySize) (.keyTooSmall c.keySize) ++
  faultIf (maxKeySize < c.keySize) (.keyTooLarge c.keySize))))

structure Settles (c : Configuration) (r : Resolved) : Prop where
  isNamed : Text.isBlank r.keyAlias = false
  keyAlias : Text.isBlank c.keyAlias = false → r.keyAlias = c.keyAlias
  newAlias : Text.isBlank c.keyAlias = true → r.keyAlias = defaultAlias
  storeType : Text.isBlank c.storeType = false → StoreType.ofText? c.storeType = some r.storeType
  newStoreType : Text.isBlank c.storeType = true → r.storeType = .pkcs12
  storePassword : r.storePassword = c.storePassword
  keyPassword : r.keyPassword = c.keyPassword
  keySize : r.keySize = c.keySize
  signatureAlgorithm : r.signatureAlgorithm = c.signatureAlgorithm
  period : r.period = c.period

theorem faults_eq_nil_iff : c.faults = [] ↔ c.Sound := by
  have htype : ¬(Text.isBlank c.storeType = false ∧ StoreType.ofText? c.storeType = none) ↔
      Text.isBlank c.storeType = true ∨ ∃ t, StoreType.ofText? c.storeType = some t := by
    rw [Decidable.not_and_iff_or_not, Bool.not_eq_false, ← ne_eq, Option.ne_none_iff_exists']
  simp only [faults, List.append_eq_nil_iff, faultIf_eq_nil_iff, htype, Bool.not_eq_true,
    Nat.not_lt]
  constructor
  · rintro ⟨htype, hkey, hstore, hsize⟩
    exact ⟨htype, hkey, hstore, hsize⟩
  · rintro ⟨htype, hkey, hstore, hsize⟩
    exact ⟨htype, hkey, hstore, hsize⟩

theorem resolvedStoreType_ok_iff : c.resolvedStoreType = .ok t ↔
    (Text.isBlank c.storeType = true → t = .pkcs12) ∧
      (Text.isBlank c.storeType = false → StoreType.ofText? c.storeType = some t) := by
  unfold resolvedStoreType StoreType.parse
  cases hb : Text.isBlank c.storeType with
  | true => simp [eq_comm]
  | false => cases ht : StoreType.ofText? c.storeType <;> simp

theorem blames_resolvedStoreType (c : Configuration) :
    Blames (faultIf (Text.isBlank c.storeType = false ∧ StoreType.ofText? c.storeType = none)
      (.unknownStoreType c.storeType)) c.resolvedStoreType := by
  unfold resolvedStoreType StoreType.parse faultIf
  cases hb : Text.isBlank c.storeType with
  | true => exact .ok _
  | false =>
    cases ht : StoreType.ofText? c.storeType with
    | none => exact .error _ _
    | some t => exact .ok t

theorem blames_requireText (field value : String) :
    Blames (faultIf (Text.isBlank value = true) (.blank field)) (requireText field value) := by
  rw [← List.append_nil (faultIf _ _)]
  exact .ite fun _ => .ok ()

theorem blames_checkKeySize (bits : Nat) : Blames (faultIf (bits < minKeySize) (.keyTooSmall bits) ++
    faultIf (maxKeySize < bits) (.keyTooLarge bits)) (checkKeySize bits) := by
  refine .ite fun _ => ?_
  rw [← List.append_nil (faultIf _ _)]
  exact .ite fun _ => .ok ()

theorem requireText_alias (c : Configuration) : requireText "alias" c.resolvedAlias = .ok () := by
  rw [requireText, isBlank_resolvedAlias]
  rfl

theorem blames_resolve (c : Configuration) : Blames c.faults c.resolve := by
  unfold resolve
  refine (blames_resolvedStoreType c).bind fun t _ => ?_
  rw [requireText_alias]
  refine (blames_requireText _ _).bind fun _ _ => (blames_requireText _ _).bind fun _ _ => ?_
  rw [← List.append_nil (_ ++ _)]
  exact (blames_checkKeySize _).bind fun _ _ => .ok _

theorem exists_of_resolve_ok (h : c.resolve = .ok r) : ∃ type, c.resolvedStoreType = .ok type ∧
    r = ⟨c.resolvedAlias, type, c.storePassword, c.keyPassword, c.keySize, c.signatureAlgorithm,
      c.period⟩ := by
  unfold resolve at h
  obtain ⟨type, ht, h⟩ := exists_of_bind_ok h
  obtain ⟨_, -, h⟩ := exists_of_bind_ok h
  obtain ⟨_, -, h⟩ := exists_of_bind_ok h
  obtain ⟨_, -, h⟩ := exists_of_bind_ok h
  obtain ⟨_, -, h⟩ := exists_of_bind_ok h
  exact ⟨type, ht, (Except.ok.inj h).symm⟩

theorem settles_of_resolve (h : c.resolve = .ok r) : c.Settles r := by
  obtain ⟨type, ht, rfl⟩ := exists_of_resolve_ok h
  obtain ⟨hblank, hnamed⟩ := resolvedStoreType_ok_iff.1 ht
  exact {
    isNamed := isBlank_resolvedAlias c
    keyAlias := fun hb => if_neg (by rw [hb]; decide)
    newAlias := fun hb => if_pos hb
    storeType := hnamed
    newStoreType := hblank
    storePassword := rfl
    keyPassword := rfl
    keySize := rfl
    signatureAlgorithm := rfl
    period := rfl }

theorem Settles.unique (hr : c.Settles r) (hs : c.Settles s) : r = s := by
  have hname : r.keyAlias = s.keyAlias := by
    cases hb : Text.isBlank c.keyAlias with
    | true => exact (hr.newAlias hb).trans (hs.newAlias hb).symm
    | false => exact (hr.keyAlias hb).trans (hs.keyAlias hb).symm
  have htype : r.storeType = s.storeType := by
    cases hb : Text.isBlank c.storeType with
    | true => exact (hr.newStoreType hb).trans (hs.newStoreType hb).symm
    | false => exact Option.some.inj ((hr.storeType hb).symm.trans (hs.storeType hb))
  obtain ⟨_, _, _, _, _, _, _⟩ := r
  obtain ⟨_, _, _, _, _, _, _⟩ := s
  obtain ⟨-, -, -, -, -, hstore, hkey, hsize, hsignature, hperiod⟩ := hr
  obtain ⟨-, -, -, -, -, hstore', hkey', hsize', hsignature', hperiod'⟩ := hs
  dsimp only at *
  subst_vars
  rfl

theorem resolve_ok_iff : c.resolve = .ok r ↔ c.Sound ∧ c.Settles r := by
  constructor
  · intro h
    exact ⟨faults_eq_nil_iff.1 ((blames_resolve c).ok_iff.1 ⟨r, h⟩), settles_of_resolve h⟩
  · rintro ⟨hsound, hr⟩
    obtain ⟨s, hs⟩ := (blames_resolve c).ok_iff.2 (faults_eq_nil_iff.2 hsound)
    rw [hs, hr.unique (settles_of_resolve hs)]

theorem resolve_ne_blank_alias (c : Configuration) : c.resolve ≠ .error (.blank "alias") := by
  intro h
  have hmem : ConfigurationError.blank "alias" ∈ c.faults :=
    List.mem_of_head? ((blames_resolve c).error_iff.1 h)
  simp [faults, mem_faultIf_iff] at hmem

structure Told (c : Configuration) (events : List Event) : Prop where
  order : events.Sublist [.defaultedAlias defaultAlias, .defaultedStoreType StoreType.pkcs12.name]
  newAlias : .defaultedAlias defaultAlias ∈ events ↔ Text.isBlank c.keyAlias = true
  newStoreType : .defaultedStoreType StoreType.pkcs12.name ∈ events ↔
    Text.isBlank c.storeType = true

theorem told_defaulted (c : Configuration) : c.Told c.defaulted := by
  unfold defaulted
  cases hname : Text.isBlank c.keyAlias <;> cases htype : Text.isBlank c.storeType <;>
    constructor <;> simp [*]

theorem defaulted_eq_nil (hname : Text.isBlank c.keyAlias = false)
    (htype : Text.isBlank c.storeType = false) : c.defaulted = [] := by
  rw [defaulted, hname, htype]
  rfl

theorem isBlank_name (t : StoreType) : Text.isBlank t.name = false := by
  cases t; decide

-- Settling has filled in the alias, and the name of a store type is read as that type.
theorem sound_toConfiguration (hsound : c.Sound) (hr : c.Settles r) (isForced : Bool) :
    (r.toConfiguration isForced).Sound where
  storeType := .inr ⟨r.storeType, StoreType.ofText?_name r.storeType⟩
  keyPassword := (congrArg Text.isBlank hr.keyPassword).trans hsound.keyPassword
  storePassword := (congrArg Text.isBlank hr.storePassword).trans hsound.storePassword
  keySize := by
    rw [Resolved.toConfiguration, hr.keySize]
    exact hsound.keySize

theorem settles_toConfiguration (hr : c.Settles r) (isForced : Bool) :
    (r.toConfiguration isForced).Settles r where
  isNamed := hr.isNamed
  keyAlias _ := rfl
  newAlias hb := absurd (hr.isNamed.symm.trans hb) nofun
  storeType _ := StoreType.ofText?_name r.storeType
  newStoreType hb := absurd ((isBlank_name r.storeType).symm.trans hb) nofun
  storePassword := rfl
  keyPassword := rfl
  keySize := rfl
  signatureAlgorithm := rfl
  period := rfl

theorem resolve_toConfiguration (h : c.resolve = .ok r) (isForced : Bool) :
    (r.toConfiguration isForced).resolve = .ok r ∧
      (r.toConfiguration isForced).defaulted = [] := by
  obtain ⟨hsound, hr⟩ := resolve_ok_iff.1 h
  exact ⟨resolve_ok_iff.2 ⟨sound_toConfiguration hsound hr isForced,
    settles_toConfiguration hr isForced⟩, defaulted_eq_nil hr.isNamed (isBlank_name r.storeType)⟩

theorem resolve_settles (c : Configuration) :
    ((∃ r, c.resolve = .ok r) ↔ c.Sound) ∧
    (∀ r, c.resolve = .ok r ↔ c.Sound ∧ c.Settles r) ∧
    (∀ e, c.resolve = .error e ↔ c.faults.head? = some e) ∧
    c.resolve ≠ .error (.blank "alias") ∧
    c.Told c.defaulted ∧
    (∀ d x conduct w, ((Generator.generate c d x).run conduct w).1.1 = c.defaulted ++
      (((Generator.generate c d x).run conduct w).1.2.toOption.map Generated.event).toList) ∧
    ∀ r isForced, c.resolve = .ok r → (r.toConfiguration isForced).resolve = .ok r ∧
      (r.toConfiguration isForced).defaulted = [] := by
  refine ⟨?_, fun r => resolve_ok_iff, fun e => (blames_resolve c).error_iff,
    resolve_ne_blank_alias c, told_defaulted c, Generator.events_generate c, ?_⟩
  · exact (blames_resolve c).ok_iff.trans faults_eq_nil_iff
  · intro r isForced h
    exact resolve_toConfiguration h isForced

def looseConfiguration : Configuration where
  keyAlias := "\t\u00a0"
  storeType := " p12\n"
  storePassword := "store"
  keyPassword := " key "
  keySize := 16384
  signatureAlgorithm := ""
  period := ⟨-1⟩
  isForced := true

def looseResolved : Resolved where
  keyAlias := "KeystoreGenerator"
  storeType := .pkcs12
  storePassword := "store"
  keyPassword := " key "
  keySize := 16384
  signatureAlgorithm := ""
  period := ⟨-1⟩

theorem resolve_settles_loose : looseConfiguration.resolve = .ok looseResolved ∧
    looseConfiguration.Sound ∧ looseConfiguration.Settles looseResolved ∧
    (looseResolved.toConfiguration true).resolve = .ok looseResolved ∧
      (looseResolved.toConfiguration true).defaulted = [] := by
  have h : looseConfiguration.resolve = .ok looseResolved := rfl
  obtain ⟨-, hok, -, -, -, -, hagain⟩ := resolve_settles looseConfiguration
  obtain ⟨hsound, hr⟩ := (hok looseResolved).1 h
  exact ⟨h, hsound, hr, hagain looseResolved true h⟩

end Configuration

end Credential
