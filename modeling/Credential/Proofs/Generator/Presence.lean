import Credential.Proofs.Generator.Output
/-!
What stands at a file destination once a call has ended well. A key store that was written is a file
there; one that was not needed is whatever stood there before, and that may be a directory.
-/

namespace Credential

open Disk Script
open FileTarget (emptyWorld)

namespace Disk

theorem Tree.isSome_read?_iff {t : Tree} {p : Path} :
    (t.read? p).isSome = true ↔ ∃ x, t.inspect? p = some (.file x) := by
  unfold Tree.read?
  split
  · rename_i x hx
    simp [hx]
  · rename_i hn
    simpa using hn

end Disk

namespace Generator

variable {c : Configuration} {target : FileTarget} {x : Circumstances} {conduct : Conduct}
  {w : World} {o : Outcome}

theorem isTaken_file (target : FileTarget) (conduct : Conduct) (w : World) :
    ((Destination.file target).isTaken.run conduct w).1 =
        (w.storage.tree.inspect? target.path).isSome ∧
      ((Destination.file target).isTaken.run conduct w).2.storage = w.storage := by
  simp only [Destination.isTaken, run_bind, run_pure]
  rw [run_ask, inspect_answer.1]
  exact ⟨Option.isSome_map, inspect_answer.2⟩

theorem generateIfNeeded_run (c : Configuration) (d : Destination) (x : Circumstances)
    (conduct : Conduct) (w : World) : ((generateIfNeeded c d x).run conduct w).1.2 =
      (if c.isForced || !(d.isTaken.run conduct w).1 then
        (((generate c d x).run conduct (d.isTaken.run conduct w).2).1.2).map .stored
      else .ok .skipped) ∧
    ((generateIfNeeded c d x).run conduct w).2 =
      if c.isForced || !(d.isTaken.run conduct w).1 then
        ((generate c d x).run conduct (d.isTaken.run conduct w).2).2
      else (d.isTaken.run conduct w).2 := by
  simp only [generateIfNeeded, isNeeded, run_bind, run_pure]
  split <;> simp only [run_bind, run_pure, and_self]

theorem generateIfNeeded_skipped
    (h : ((generateIfNeeded c (.file target) x).run conduct w).1.2 = .ok .skipped) :
    c.isForced = false ∧ (w.storage.tree.inspect? target.path).isSome = true ∧
      ((generateIfNeeded c (.file target) x).run conduct w).2.storage = w.storage := by
  obtain ⟨hresult, hworld⟩ := generateIfNeeded_run c (.file target) x conduct w
  obtain ⟨htaken, hstorage⟩ := isTaken_file target conduct w
  rw [hresult, htaken] at h
  rw [hworld, htaken]
  split at h
  · obtain ⟨g, -, hg⟩ := map_ok_iff.1 h
    cases hg
  · rename_i hneeded
    rw [if_neg hneeded]
    rw [Bool.not_eq_true, Bool.or_eq_false_iff, Bool.not_eq_false'] at hneeded
    exact ⟨hneeded.1, hneeded.2, hstorage⟩

theorem generateIfNeeded_stored {g : Generated} (hf : target.Fresh conduct)
    (h : ((generateIfNeeded c (.file target) x).run conduct w).1.2 = .ok (.stored g)) :
    (c.isForced = true ∨ w.storage.tree.inspect? target.path = none) ∧
      ∃ b, ((generateIfNeeded c (.file target) x).run conduct w).2.storage.tree.read?
        target.path = some b := by
  obtain ⟨hresult, hworld⟩ := generateIfNeeded_run c (.file target) x conduct w
  obtain ⟨htaken, -⟩ := isTaken_file target conduct w
  rw [hresult, htaken] at h
  rw [hworld, htaken]
  split at h
  · rename_i hneeded
    rw [if_pos hneeded]
    obtain ⟨g', hg, -⟩ := map_ok_iff.1 h
    obtain ⟨r, m, -, hw, hafter, -⟩ := generate_ok hg
    obtain ⟨b, -, hheld⟩ := Destination.write_held (d := .file target) hf hw
    rw [hafter]
    refine ⟨?_, b, hheld⟩
    rw [Bool.or_eq_true, Bool.not_eq_true', Option.isSome_eq_false_iff,
      Option.isNone_iff_eq_none] at hneeded
    exact hneeded
  · cases h

theorem generateIfNeeded_present (c : Configuration) (target : FileTarget) (x : Circumstances)
    (conduct : Conduct) (w : World) (o : Outcome) (hf : target.Fresh conduct)
    (h : ((generateIfNeeded c (.file target) x).run conduct w).1.2 = .ok o) :
    ((((generateIfNeeded c (.file target) x).run conduct w).2.storage.tree.read?
        target.path).isSome = true ↔
      ¬(c.isForced = false ∧ w.storage.tree.inspect? target.path = some .directory)) ∧
    (o = .skipped → c.isForced = false ∧
      (w.storage.tree.inspect? target.path).isSome = true ∧
      ((generateIfNeeded c (.file target) x).run conduct w).2.storage = w.storage) := by
  cases o with
  | stored g =>
    obtain ⟨hneeded, b, hb⟩ := generateIfNeeded_stored hf h
    refine ⟨iff_of_true (by rw [hb]; rfl) ?_, nofun⟩
    rintro ⟨hforced, hdirectory⟩
    rcases hneeded with hforced' | hnone
    · rw [hforced] at hforced'
      cases hforced'
    · rw [hnone] at hdirectory
      cases hdirectory
  | skipped =>
    obtain ⟨hforced, hsome, hstorage⟩ := generateIfNeeded_skipped h
    refine ⟨?_, fun _ => ⟨hforced, hsome, hstorage⟩⟩
    obtain ⟨n, hn⟩ := Option.isSome_iff_exists.1 hsome
    rw [hstorage, Tree.isSome_read?_iff, hn, hforced]
    cases n <;> simp

def directoryWorld : World := .start ⟨⟨[(["ks.p12"], .directory)]⟩, none⟩

-- A directory at the path of the key store passes for one.
theorem generateIfNeeded_directory :
    ((generateIfNeeded sampleConfiguration sampleDestination sampleCircumstances).run sampleConduct
        directoryWorld).1.2 = .ok .skipped ∧
      ((generateIfNeeded sampleConfiguration sampleDestination sampleCircumstances).run
        sampleConduct directoryWorld).2.storage.tree.inspect? FileTarget.sampleTarget.path =
          some .directory :=
  ⟨rfl, rfl⟩

theorem sample_fill {m : Material} {draws : WriteDraws} {b : Bytes}
    (h : m.store.toBytes draws.container = .ok b) :
    ((sampleDestination.write m draws).run sampleConduct
      (sampleDestination.isTaken.run sampleConduct emptyWorld).2).1 = .ok () := by
  have hm : (FileTarget.makeDirectories FileTarget.sampleTarget.path.directory.ancestors).run
      sampleConduct (sampleDestination.isTaken.run sampleConduct emptyWorld).2 =
        (true, ⟨emptyWorld.storage, 3,
          [emptyWorld.storage, emptyWorld.storage, emptyWorld.storage]⟩) := by
    decide
  rw [sampleDestination] at hm ⊢
  rw [Destination.write, FileTarget.write_of_made hm (FileTarget.sample_contents h)]
  cbv

theorem generateIfNeeded_empty : ∃ g, ((generateIfNeeded sampleConfiguration sampleDestination
    sampleCircumstances).run sampleConduct emptyWorld).1.2 = .ok (.stored g) := by
  obtain ⟨r, m, b, hp, hb⟩ := sample_prepare
  have htaken : (sampleDestination.isTaken.run sampleConduct emptyWorld).1 = false := rfl
  refine ⟨⟨r.keyAlias, sampleDestination.toText, m.certificate⟩, ?_⟩
  rw [(generateIfNeeded_run _ _ _ _ _).1, htaken, generate_of_written hp (sample_fill hb)]
  rfl

theorem generateIfNeeded_present_sample : FileTarget.sampleTarget.Fresh sampleConduct ∧
    (∃ g, ((generateIfNeeded sampleConfiguration sampleDestination sampleCircumstances).run
        sampleConduct emptyWorld).1.2 = .ok (.stored g)) ∧
    (((generateIfNeeded sampleConfiguration sampleDestination sampleCircumstances).run
        sampleConduct emptyWorld).2.storage.tree.read?
          FileTarget.sampleTarget.path).isSome = true ∧
    ((generateIfNeeded sampleConfiguration sampleDestination sampleCircumstances).run sampleConduct
        FileTarget.sampleWorld).1.2 = .ok .skipped ∧
    (((generateIfNeeded sampleConfiguration sampleDestination sampleCircumstances).run
        sampleConduct FileTarget.sampleWorld).2.storage.tree.read?
          FileTarget.sampleTarget.path).isSome = true := by
  obtain ⟨g, hg⟩ := generateIfNeeded_empty
  have hstored := generateIfNeeded_present sampleConfiguration FileTarget.sampleTarget
    sampleCircumstances sampleConduct emptyWorld _ FileTarget.sample_fresh hg
  have hskipped := generateIfNeeded_present sampleConfiguration FileTarget.sampleTarget
    sampleCircumstances sampleConduct FileTarget.sampleWorld .skipped FileTarget.sample_fresh rfl
  exact ⟨FileTarget.sample_fresh, ⟨g, hg⟩, hstored.1.2 (by decide), rfl,
    hskipped.1.2 (by decide)⟩

end Generator

end Credential
