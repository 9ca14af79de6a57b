import Credential.Proofs.Destination.Installing
import Credential.Proofs.KeyStore.Reload
/-!
A failed write leaves every file as it was; a successful one leaves the key store at its place.
-/

namespace Credential

namespace Disk

def AddsDirectories (ps : List Path) (t u : Tree) : Prop :=
  ∀ a, u.get? a = t.get? a ∨ (t.get? a = none ∧ u.get? a = some .directory ∧
    ∃ p ∈ ps, u.walkToDirectory p = .entry a)

namespace AddsDirectories

variable {ps qs : List Path} {t u v : Tree}

theorem refl (ps : List Path) (t : Tree) : AddsDirectories ps t t := fun _ => .inl rfl

theorem grows (h : AddsDirectories ps t u) : t.Grows u := by
  intro a ha
  rcases h a with he | ⟨-, hd, -⟩
  · rw [he, ha]
  · exact hd

theorem mono (h : AddsDirectories ps t u) (hs : ps ⊆ qs) : AddsDirectories qs t u := by
  intro a
  rcases h a with he | ⟨hn, hd, p, hp, hw⟩
  · exact .inl he
  · exact .inr ⟨hn, hd, p, hs hp, hw⟩

theorem trans (h : AddsDirectories ps t u) (h' : AddsDirectories ps u v) :
    AddsDirectories ps t v := by
  intro a
  rcases h' a with he | ⟨hn, hd, hp⟩
  · rcases h a with he' | ⟨hn, hd, p, hp, hw⟩
    · exact .inl (he.trans he')
    · exact .inr ⟨hn, he.trans hd, p, hp, h'.grows.walkToDirectory hw⟩
  · rcases h a with he' | ⟨-, hd', -⟩
    · exact .inr ⟨he' ▸ hn, hd, hp⟩
    · rw [hn] at hd'
      cases hd'

theorem congr (h : AddsDirectories ps t u) (he : v.get? = u.get?) : AddsDirectories ps t v := by
  have hg : u.Grows v := fun a ha => by rw [he, ha]
  intro a
  rcases h a with hu | ⟨hn, hd, p, hp, hw⟩
  · exact .inl (by rw [he, hu])
  · exact .inr ⟨hn, by rw [he, hd], p, hp, hg.walkToDirectory hw⟩

theorem file_iff (h : AddsDirectories ps t u) (a : Location) (x : Bytes) :
    u.get? a = some (.file x) ↔ t.get? a = some (.file x) := by
  rcases h a with he | ⟨hn, hd, -⟩
  · rw [he]
  · rw [hn, hd]
    simp

end AddsDirectories

open Script

variable {c : Conduct} {w : World}

theorem makeDirectory_adds (p : Path) :
    AddsDirectories [p] w.storage.tree (answer c w (.makeDirectory p)).2.storage.tree := by
  cases hc : c.fails w.count (.makeDirectory p) with
  | true =>
    rw [(answer_of_fails hc).2]
    exact .refl _ _
  | false =>
    have hs : (answer c w (.makeDirectory p)).2.storage = (w.storage.makeDirectory p).2 :=
      (answer_of_performs hc).2
    rw [hs]
    unfold Storage.makeDirectory
    split
    · exact .refl _ _
    · rename_i a hw
      split
      · rename_i hn
        have ha := Tree.walkToDirectory_entry_ne_nil hw
        have hput := Tree.get?_put_eq w.storage.tree .directory ha
        intro b
        by_cases hb : b = a
        · subst hb
          exact .inr ⟨hn, by rw [hput, Function.update_self], p, by simp,
            (Tree.grows_put_directory _ ha).walkToDirectory hw⟩
        · exact .inl (by rw [hput, Function.update_of_ne hb])
      · exact .refl _ _
    · exact .refl _ _

end Disk

namespace FileTarget

open Disk Script

variable {c : Conduct} {w : World} {base : Tree} {view : View} {directory : Path}

-- One attempt at a directory. When it is not made it may be there all the same.
inductive Attempt (c : Conduct) (p : Path) (w : World) : Bool → World → Prop
  | made (h : (answer c w (.makeDirectory p)).1 = .made) :
    Attempt c p w true (answer c w (.makeDirectory p)).2
  | inspected : Attempt c p w
      (decide ((answer c (answer c w (.makeDirectory p)).2 (.inspect p)).1 = some .directory))
      (answer c (answer c w (.makeDirectory p)).2 (.inspect p)).2

-- A directory is made at once, or after its ancestors if there is something to put it in then.
inductive Making (c : Conduct) (p : Path) (ps : List Path) (w : World) : Bool → World → Prop
  | first {b : Bool} {w' : World} (h : Attempt c p w b w') : Making c p ps w b w'
  | blocked (h : ((makeDirectories ps).run c (answer c w (.makeDirectory p)).2).1 = false) :
    Making c p ps w false ((makeDirectories ps).run c (answer c w (.makeDirectory p)).2).2
  | again {b : Bool} {w' : World}
    (h : Attempt c p ((makeDirectories ps).run c (answer c w (.makeDirectory p)).2).2 b w') :
    Making c p ps w b w'

theorem makeDirectories_cons (c : Conduct) (p : Path) (ps : List Path) (w : World) :
    Making c p ps w ((makeDirectories (p :: ps)).run c w).1
      ((makeDirectories (p :: ps)).run c w).2 := by
  simp only [makeDirectories, run_bind]
  rw [run_ask]
  cases hm : (answer c w (.makeDirectory p)).1 with
  | made => exact .first (.made hm)
  | refused =>
    simp only [run_bind]
    rw [run_ask]
    exact .first .inspected
  | noParent =>
    simp only [run_bind]
    cases hr : ((makeDirectories ps).run c (answer c w (.makeDirectory p)).2).1 with
    | false => exact .blocked hr
    | true =>
      simp only [if_true, run_bind]
      rw [run_ask]
      cases hm' : (answer c ((makeDirectories ps).run c (answer c w (.makeDirectory p)).2).2
          (.makeDirectory p)).1 with
      | made => exact .again (.made hm')
      | refused =>
        simp only [run_bind]
        rw [run_ask]
        exact .again .inspected
      | noParent =>
        simp only [run_bind]
        rw [run_ask]
        exact .again .inspected

theorem Attempt.adds {p : Path} {b : Bool} {w' : World} (h : Attempt c p w b w') :
    AddsDirectories [p] w.storage.tree w'.storage.tree := by
  have hmake := makeDirectory_adds (c := c) (w := w) p
  cases h with
  | made h => exact hmake
  | inspected =>
    rw [inspect_answer.2]
    exact hmake

theorem Making.adds {p : Path} {ps : List Path} {b : Bool} {w' : World}
    (h : Making c p ps w b w') (hps : ∀ w : World, AddsDirectories ps w.storage.tree
      ((makeDirectories ps).run c w).2.storage.tree) :
    AddsDirectories (p :: ps) w.storage.tree w'.storage.tree := by
  have hp : [p] ⊆ p :: ps := by simp
  have hancestors := ((makeDirectory_adds (c := c) (w := w) p).mono hp).trans
    ((hps (answer c w (.makeDirectory p)).2).mono (List.subset_cons_self p ps))
  cases h with
  | first h => exact h.adds.mono hp
  | blocked h => exact hancestors
  | again h => exact hancestors.trans (h.adds.mono hp)

theorem makeDirectories_adds (ps : List Path) :
    AddsDirectories ps w.storage.tree ((makeDirectories ps).run c w).2.storage.tree := by
  induction ps generalizing w with
  | nil => exact .refl _ _
  | cons p ps ih => exact (makeDirectories_cons c p ps w).adds fun _ => ih

def targets (t : FileTarget) : List Path := [t.certificatePath, t.pemPath, t.keyPath, t.path]

def Fresh (t : FileTarget) (c : Conduct) : Prop :=
  ∀ n tree a, Tree.walk tree (t.path.directory.join (c.names n)) = .entry a →
    ∀ p ∈ t.targets, tree.walk p ≠ .entry a

theorem Fresh.apart {t : FileTarget} (h : t.Fresh c) {p : Path} (hp : p ∈ t.targets) :
    Apart c t.path.directory base p := fun n a ha => h n base a ha p hp

theorem companions_ok {t : FileTarget} {m : Material} {drawn : Seal}
    {files : List (Path × Bytes)} (h : t.companions m drawn = .ok files) :
    ∃ e text, entryOf? m.store m.certificate = some e ∧
      KeyFile.write m.privateKey e.password drawn = .ok text ∧
      files = [(t.certificatePath, m.certificate.der), (t.pemPath, Bytes.ofText m.certificate.pem),
        (t.keyPath, Bytes.ofText text)] := by
  unfold companions at h
  split at h
  · cases h
  · rename_i e he
    split at h
    · cases h
    · rename_i text ht
      cases h
      exact ⟨e, text, he, ht, rfl⟩

theorem contents_ok {t : FileTarget} {m : Material} {d : WriteDraws}
    {files : List (Path × Except WriteError Bytes)} (h : t.contents m d = .ok files) :
    ∃ cs, (if t.hasCompanions then t.companions m d.companion else .ok []) = .ok cs ∧
      files = cs.map (fun f => (f.1, .ok f.2)) ++
        [(t.path, (m.store.toBytes d.container).mapError .store)] := by
  unfold contents at h
  cases hc : t.hasCompanions with
  | false =>
    rw [hc] at h
    cases h
    exact ⟨[], rfl, rfl⟩
  | true =>
    rw [hc] at h
    obtain ⟨cs, hcs, h⟩ := exists_of_bind_ok h
    cases h
    exact ⟨cs, hcs, rfl⟩

theorem contents_mem {t : FileTarget} {m : Material} {d : WriteDraws}
    {files : List (Path × Except WriteError Bytes)} (h : t.contents m d = .ok files) :
    ∀ f ∈ files, f.1 ∈ t.targets := by
  obtain ⟨cs, hcs, rfl⟩ := contents_ok h
  intro f hf
  rcases List.mem_append.1 hf with hf | hf
  · obtain ⟨g, hg, rfl⟩ := List.mem_map.1 hf
    split at hcs
    · obtain ⟨e, text, -, -, rfl⟩ := companions_ok hcs
      simp only [List.mem_cons, List.not_mem_nil, or_false] at hg
      rcases hg with rfl | rfl | rfl <;> simp [targets]
    · cases hcs
      cases hg
  · rw [List.mem_singleton.1 hf]
    simp [targets]

theorem files_of_ok {files fs : List (Path × Bytes)}
    (h : files.map (fun f => (f.1, (.ok f.2 : Except WriteError Bytes))) =
      fs.map fun f => (f.1, .ok f.2)) : files = fs := by
  have hinj : Function.Injective fun f : Path × Bytes =>
      (f.1, (Except.ok f.2 : Except WriteError Bytes)) := by
    rintro ⟨p, x⟩ ⟨q, y⟩ he
    cases he
    rfl
  exact hinj.list_map h

theorem Halted.clear_run (hu : UndoesReliably c) (h : w.Shows base view) {fs : List Placed}
    (hr : Ready c directory base view fs) (e : WriteError) :
    (((Halted.mk e (fs.map (·.staged))).clear.run c w).2).Shows base (without view fs) := by
  have hd := discardAll_run hu h hr
  simp only [clear, run_bind, run_pure, List.map_map]
  exact hd

theorem writeContents_run {files : List (Path × Except WriteError Bytes)}
    (hf : ∀ f ∈ files, Apart c directory base f.1) (h : w.Shows base view) :
    (∃ e, ((writeContents directory files).run c w).1 = .error e ∧
      (UndoesReliably c → (((writeContents directory files).run c w).2).Shows base view)) ∨
    ((writeContents directory files).run c w).1 = .ok () ∧
      ∃ written u v, files = written.map (fun f => (f.1, .ok f.2)) ∧ Puts base view written u ∧
        (((writeContents directory files).run c w).2).Shows base v ∧
        (∀ a, u a ≠ none → v a = u a) ∧ (UndoesReliably c → v = u) := by
  simp only [writeContents, run_bind]
  rcases stageAll_run (c := c) directory files h with
    ⟨e, fs, he, hes⟩ | ⟨fs, v, hfs, hfiles, hs, hready, hwithout⟩
  · rw [he]
    refine .inl ⟨e, by simp only [Halted.clear, run_bind, run_pure], ?_⟩
    intro hu
    obtain ⟨v, hs, hready, hwithout⟩ := hes hu
    exact (Halted.clear_run hu hs hready e).of_eq hwithout
  · rw [hfs]
    have happart : ∀ f ∈ fs, Apart c directory base f.staged.target := by
      intro f hm
      exact hf (f.staged.target, .ok f.content) (by rw [hfiles]; exact List.mem_map_of_mem hm)
    simp only [run_bind]
    have hstart : Ready c directory base v (fs ++ []) := by rwa [List.append_nil]
    rcases installAll_run happart hs hstart with
      ⟨e, tried, rest, rfl, he, hes⟩ | ⟨is, bs, u, his, hus, hbs, hkept, hputs⟩
    · rw [he]
      refine .inl ⟨e, by simp only [Halted.clear, run_bind, run_pure], ?_⟩
      intro hu
      refine (Halted.clear_run hu (hes hu) hready.without_left e).of_eq ?_
      rw [← without_append, hwithout]
    · rw [his]
      simp only [run_bind]
      rw [List.append_nil] at hkept hputs
      rw [List.append_nil, hwithout] at hputs
      obtain ⟨u', hu', hframe⟩ := discardAll_frame (c := c) (is.filterMap (·.backup)) hus
      refine .inr ⟨rfl, _, _, u', ?_, hputs, hu', ?_, ?_⟩
      · rw [hfiles, List.map_map]
        rfl
      · intro a ha
        rw [← eq_without ha]
        refine hframe a ?_
        intro q hq hqa
        rw [hbs] at hq
        exact ha (hkept.without_temporary q hq a hqa)
      · intro hu
        have hd := discardAll_run hu hus hkept
        rw [← hbs] at hd
        exact hu'.tree.symm.trans hd.tree

theorem write_of_made {t : FileTarget} {m : Material} {d : WriteDraws} {w' : World}
    {files : List (Path × Except WriteError Bytes)}
    (hm : (makeDirectories t.path.directory.ancestors).run c w = (true, w'))
    (hc : t.contents m d = .ok files) :
    (t.write m d).run c w = (writeContents t.path.directory files).run c w' := by
  simp only [write, run_bind, hm, hc, if_true]

theorem write_run {t : FileTarget} (m : Material) (d : WriteDraws) (hf : t.Fresh c) (w : World) :
    ∃ base, AddsDirectories t.path.directory.ancestors w.storage.tree base ∧
      ((∃ e, ((t.write m d).run c w).1 = .error e ∧ (UndoesReliably c →
        (((t.write m d).run c w).2).Shows base base.get?)) ∨
      ((t.write m d).run c w).1 = .ok () ∧ ∃ files u v,
        t.contents m d = .ok (files.map fun f => (f.1, .ok f.2)) ∧
        Puts base base.get? files u ∧ (((t.write m d).run c w).2).Shows base v ∧
        (∀ a, u a ≠ none → v a = u a) ∧ (UndoesReliably c → v = u)) := by
  have hadds := makeDirectories_adds (c := c) (w := w) t.path.directory.ancestors
  refine ⟨_, hadds, ?_⟩
  have hself := World.Shows.self ((makeDirectories t.path.directory.ancestors).run c w).2
  simp only [write, run_bind]
  cases hm : ((makeDirectories t.path.directory.ancestors).run c w).1 with
  | false => exact .inl ⟨_, rfl, fun _ => hself⟩
  | true =>
    simp only [if_true]
    cases hc : t.contents m d with
    | error e => exact .inl ⟨_, rfl, fun _ => hself⟩
    | ok files =>
      rcases writeContents_run (fun f hfm => hf.apart (contents_mem hc f hfm)) hself with
        herror | ⟨hok, written, u, v, rfl, hputs, hv, hall⟩
      · exact .inl herror
      · exact .inr ⟨hok, written, u, v, rfl, hputs, hv, hall⟩

theorem write_error_restores (t : FileTarget) (m : Material) (d : WriteDraws) (c : Conduct)
    (w : World) (e : WriteError) (hu : UndoesReliably c) (hf : t.Fresh c)
    (h : ((t.write m d).run c w).1 = .error e) :
    (∀ a x, ((t.write m d).run c w).2.storage.tree.get? a = some (.file x) ↔
      w.storage.tree.get? a = some (.file x)) ∧
    AddsDirectories t.path.directory.ancestors w.storage.tree
      ((t.write m d).run c w).2.storage.tree := by
  obtain ⟨base, hadds, ⟨e', -, hs⟩ | ⟨hok, -⟩⟩ := write_run m d hf w
  · have hall := hadds.congr (hs hu).tree
    exact ⟨hall.file_iff, hall⟩
  · rw [hok] at h
    cases h

def sampleTarget : FileTarget := ⟨⟨"ks.p12"⟩, none, false⟩

def sampleConduct : Conduct where
  fails _ op := match op with
    | .move _ target => target = sampleTarget.path
    | _ => false
  names n := if n < 3 then "staged" else "backup"
  written _ := 0

def sampleMaterial : Material := ⟨KeyStore.sample, Container.sampleCertificate, []⟩

def sampleDraws : WriteDraws := ⟨.draw ⟨[]⟩, .draw ⟨[]⟩⟩

def sampleWorld : World := .start ⟨⟨[(["ks.p12"], .file [1])]⟩, none⟩

theorem sample_undoesReliably : UndoesReliably sampleConduct := by
  intro n op hop
  cases op with
  | restore _ _ => rfl
  | discard _ => rfl
  | makeDirectory _ => cases hop
  | inspect _ => cases hop
  | createTemporary _ => cases hop
  | write _ _ => cases hop
  | move _ _ => cases hop
  | consult => cases hop
  | remember _ => cases hop

theorem sample_fresh : sampleTarget.Fresh sampleConduct := by
  intro n tree a ha
  have hstaged : tree.walk (sampleTarget.path.directory.join "staged") = .entry ["staged"] := rfl
  have hbackup : tree.walk (sampleTarget.path.directory.join "backup") = .entry ["backup"] := rfl
  have hplace : a = ["staged"] ∨ a = ["backup"] := by
    by_cases hn : n < 3
    · have hname : sampleConduct.names n = "staged" := if_pos hn
      rw [hname, hstaged] at ha
      cases ha
      exact .inl rfl
    · have hname : sampleConduct.names n = "backup" := if_neg hn
      rw [hname, hbackup] at ha
      cases ha
      exact .inr rfl
  have hcertificate : tree.walk sampleTarget.certificatePath = .entry ["signing-cert.crt"] := rfl
  have hpem : tree.walk sampleTarget.pemPath = .entry ["signing-cert.pem"] := rfl
  have hkey : tree.walk sampleTarget.keyPath = .entry ["signing-cert.key"] := rfl
  have hpath : tree.walk sampleTarget.path = .entry ["ks.p12"] := rfl
  intro p hp
  simp only [targets, List.mem_cons, List.not_mem_nil, or_false] at hp
  rcases hp with rfl | rfl | rfl | rfl
  · rw [hcertificate]
    rcases hplace with rfl | rfl <;> decide
  · rw [hpem]
    rcases hplace with rfl | rfl <;> decide
  · rw [hkey]
    rcases hplace with rfl | rfl <;> decide
  · rw [hpath]
    rcases hplace with rfl | rfl <;> decide

theorem sample_contents {m : Material} {d : WriteDraws} {b : Bytes}
    (h : m.store.toBytes d.container = .ok b) :
    sampleTarget.contents m d = .ok [(sampleTarget.path, .ok b)] := by
  unfold contents
  rw [h]
  rfl

theorem sample_write : ((sampleTarget.write sampleMaterial sampleDraws).run sampleConduct
    sampleWorld).1 = .error (.io sampleTarget.path) := by
  obtain ⟨b, hb⟩ := KeyStore.exists_toBytes_sample
  have hm : (makeDirectories sampleTarget.path.directory.ancestors).run sampleConduct sampleWorld =
      (true, ⟨sampleWorld.storage, 2, [sampleWorld.storage, sampleWorld.storage]⟩) := by
    decide
  rw [write_of_made hm (sample_contents hb)]
  cbv

theorem write_error_restores_sample : UndoesReliably sampleConduct ∧
    sampleTarget.Fresh sampleConduct ∧
    ((sampleTarget.write sampleMaterial sampleDraws).run sampleConduct sampleWorld).1 =
      .error (.io sampleTarget.path) ∧
    (∀ a x, ((sampleTarget.write sampleMaterial sampleDraws).run sampleConduct
        sampleWorld).2.storage.tree.get? a = some (.file x) ↔
      sampleWorld.storage.tree.get? a = some (.file x)) ∧
    AddsDirectories sampleTarget.path.directory.ancestors sampleWorld.storage.tree
      ((sampleTarget.write sampleMaterial sampleDraws).run sampleConduct
        sampleWorld).2.storage.tree :=
  ⟨sample_undoesReliably, sample_fresh, sample_write,
    write_error_restores sampleTarget sampleMaterial sampleDraws sampleConduct sampleWorld
      (.io sampleTarget.path) sample_undoesReliably sample_fresh sample_write⟩

end FileTarget

end Credential
