import Credential.Proofs.Container.Outcome
import Credential.Proofs.KeyStore.Reload
/-!
Which key stores can be saved. The names, the chains and the password decide, and the first entry
at fault is the one that is blamed.
-/

namespace Credential.KeyStore

open Container (Draws KeyEntry Measured encode)
open Text (Bmp.Holds)

variable {s : KeyStore} {d : Draws} {entries : List KeyEntry} {password : String}

def Savable (entries : List KeyEntry) (password : String) : Prop :=
  (∀ e ∈ entries, e.chain ≠ [] ∧ Bmp.Holds e.name ∧
    ∃ info, PrivateKeyInfo.ofDer? e.privateKey = some info) ∧ Bmp.Holds password

theorem faults_eq_nil_iff : Container.faults entries password = [] ↔ Savable entries password := by
  rw [Container.faults_eq_nil_iff, Savable]
  simp only [KeyEntry.faults_eq_nil_iff]

theorem toBytes_of_empty (h : s.entries = []) : s.toBytes d = .error (.empty s.type) := by
  have hempty : s.isEmpty = true := List.isEmpty_iff.2 h
  rw [toBytes, if_pos hempty]

theorem toBytes_of_ne (h : s.entries ≠ []) :
    s.toBytes d = (encode s.entries s.password d).mapError (.encoding s.type) := by
  have hfull : ¬ s.isEmpty = true := mt List.isEmpty_iff.1 h
  rw [toBytes, if_neg hfull]

theorem exists_toBytes_iff : (∃ der, s.toBytes d = .ok der) ↔
    s.entries ≠ [] ∧ ∃ der, encode s.entries s.password d = .ok der := by
  by_cases h : s.entries = []
  · rw [toBytes_of_empty h]
    simp [h]
  · rw [toBytes_of_ne h, exists_mapError_ok]
    simp [h]

theorem toBytes_error_iff {fault : StoreError} : s.toBytes d = .error fault ↔
    (s.entries = [] ∧ fault = .empty s.type) ∨ (s.entries ≠ [] ∧
      ∃ cause, encode s.entries s.password d = .error cause ∧ fault = .encoding s.type cause) := by
  by_cases h : s.entries = []
  · rw [toBytes_of_empty h]
    simp [h, eq_comm]
  · rw [toBytes_of_ne h, mapError_error_iff]
    simp [h]

theorem encode_decided (entries : List KeyEntry) (password : String) (h : Measured entries) :
    (∀ d, (∃ der, encode entries password d = .ok der) ↔ Savable entries password) ∧
    (∀ d fault, encode entries password d = .error fault ↔
      (∃ before e after, entries = before ++ e :: after ∧ e.faults.head? = some fault ∧
        ∀ f ∈ before, f.faults = []) ∨
      ((∀ e ∈ entries, e.faults = []) ∧ ¬ Bmp.Holds password ∧ fault = .encoding)) ∧
    (∀ others, others.map KeyEntry.unlocked = entries.map KeyEntry.unlocked → ∀ d d' fault,
      encode others password d = .error fault ↔ encode entries password d' = .error fault) ∧
    ∀ s : KeyStore, s.entries = entries → s.password = password → ∀ d,
      ((∃ der, s.toBytes d = .ok der) ↔ entries ≠ [] ∧ Savable entries password) ∧
      ∀ fault, s.toBytes d = .error fault ↔ (entries = [] ∧ fault = .empty s.type) ∨
        (entries ≠ [] ∧ ∃ cause, encode entries password d = .error cause ∧
          fault = .encoding s.type cause) := by
  have hblames := Container.blames_encode h password
  have hok (d : Draws) : (∃ der, encode entries password d = .ok der) ↔
      Savable entries password := (hblames d).ok_iff.trans faults_eq_nil_iff
  refine ⟨hok, ?_, ?_, ?_⟩
  · intro d fault
    exact (hblames d).error_iff.trans Container.head?_faults_iff
  · intro others ho d d' fault
    obtain ⟨hfaults, hmeasured⟩ := Container.unlocked_faults password ho
    rw [(Container.blames_encode (hmeasured.2 h) password d).error_iff, hfaults,
      (hblames d').error_iff]
  · rintro s rfl rfl d
    exact ⟨by rw [exists_toBytes_iff, hok d], fun fault => toBytes_error_iff⟩

theorem encode_decided_sample : Measured sampleEntries ∧
    (∀ d, ∃ der, encode sampleEntries "store" d = .ok der) ∧
      ∀ d, encode sampleEntries "\uffff" d = .error .encoding := by
  obtain ⟨der, hder⟩ := exists_toBytes_sample
  have hencode : encode sampleEntries "store" (.draw ⟨[]⟩) = .ok der := toBytes_ok hder
  have hmeasured := Container.measured_of_encode hencode
  obtain ⟨hok, -⟩ := encode_decided sampleEntries "store" hmeasured
  obtain ⟨-, herror, -⟩ := encode_decided sampleEntries "\uffff" hmeasured
  have hsavable := (hok _).1 ⟨der, hencode⟩
  have hfine : ∀ e ∈ sampleEntries, e.faults = [] :=
    (Container.faults_eq_nil_iff.1 (faults_eq_nil_iff.2 hsavable)).1
  have hnot : ¬ Bmp.Holds "\uffff" := by simp [Bmp.Holds]
  refine ⟨hmeasured, ?_, ?_⟩
  · intro d
    exact (hok d).2 hsavable
  · intro d
    exact (herror d .encoding).2 (.inr ⟨hfine, hnot, rfl⟩)

end Credential.KeyStore
