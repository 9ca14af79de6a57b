import Credential.Proofs.Destination.Completing
import Credential.Proofs.Disk.Directory
/-!
What a successful write leaves behind: every file in its place, the key store over a companion that
leads to the same place, and all other files as they were.
-/

namespace Credential.FileTarget

open Disk Script
open Function (update)

variable {c : Conduct} {w : World} {base : Tree} {view u v : View} {a b : Location} {p : Path}
  {x : Bytes} {files fs gs : List (Path × Bytes)} {t : FileTarget} {m : Material} {d : WriteDraws}

namespace Puts

theorem frame (h : Puts base view files v) (hb : ∀ f ∈ files, base.walk f.1 ≠ .entry b) :
    v b = view b := by
  induction h with
  | nil => rfl
  | @cons view v p a x files hp h ih =>
    obtain ⟨hpb, hrest⟩ := List.forall_mem_cons.1 hb
    rw [ih hrest, Function.update_of_ne]
    rintro rfl
    exact hpb hp

theorem walk (h : Puts base view files v) : ∀ f ∈ files, ∃ a, base.walk f.1 = .entry a := by
  induction h with
  | nil => simp
  | cons hp h ih => exact List.forall_mem_cons.2 ⟨⟨_, hp⟩, ih⟩

theorem file_at (h : Puts base view (fs ++ (p, x) :: gs) v)
    (hg : ∀ g ∈ gs, base.walk g.1 ≠ base.walk p) :
    ∃ a, base.walk p = .entry a ∧ v a = some (.file x) := by
  induction fs generalizing view with
  | nil =>
    cases h with
    | @cons _ _ _ a _ _ hp h =>
      refine ⟨a, hp, ?_⟩
      rw [h.frame fun g hm he => hg g hm (he.trans hp.symm), Function.update_self]
  | cons f fs ih =>
    cases h with
    | cons hp h => exact ih h

end Puts

theorem entryOf?_eq_some {s : KeyStore} {certificate : Certificate} {e : Container.KeyEntry}
    (h : entryOf? s certificate = some e) : e ∈ s.entries ∧ e.chain.head? = some certificate ∧
      ∀ f ∈ s.entries, f.chain.head? = some certificate → f = e ∨ e.name < f.name := by
  obtain ⟨he, es, es', hs, hes⟩ := List.find?_eq_some_iff_append.1 h
  refine ⟨by rw [hs]; simp, of_decide_eq_true he, ?_⟩
  intro f hf hc
  have hsorted := s.sorted
  rw [hs] at hf hsorted
  rcases List.mem_append.1 hf with hf | hf
  · have hn := hes f hf
    simp [hc] at hn
  · rcases List.mem_cons.1 hf with rfl | hf
    · exact .inl rfl
    · exact .inr ((List.pairwise_cons.1 (List.pairwise_append.1 hsorted).2.1).1 f hf)

theorem companion_apart {e e' : String} (he : IsEnding e) (he' : IsEnding e') (hne : e' ≠ e)
    (h : base.walk (t.companion e) = .entry a) : base.walk (t.companion e') ≠ .entry a := by
  intro h'
  obtain ⟨piece, hp⟩ := getLast?_join he h
  obtain ⟨piece', hp'⟩ := getLast?_join he' h'
  exact hne (he.eq_of_append he' (Option.some.inj (hp'.symm.trans hp)))

def outputs (t : FileTarget) : List Path := if t.hasCompanions then t.targets else [t.path]

structure Written (t : FileTarget) (m : Material) (d : WriteDraws) (c : Conduct)
    (before after : Tree) : Prop where
  container : ∃ x, m.store.toBytes d.container = .ok x ∧ after.read? t.path = some x
  certificate : t.hasCompanions = true → after.walk t.certificatePath ≠ after.walk t.path →
    after.read? t.certificatePath = some m.certificate.der
  pem : t.hasCompanions = true → after.walk t.pemPath ≠ after.walk t.path →
    after.read? t.pemPath = some (Bytes.ofText m.certificate.pem)
  key : t.hasCompanions = true → after.walk t.keyPath ≠ after.walk t.path →
    ∃ text e info, after.read? t.keyPath = some (Bytes.ofText text) ∧
      (e ∈ m.store.entries ∧ e.chain.head? = some m.certificate ∧
        ∀ f ∈ m.store.entries, f.chain.head? = some m.certificate → f = e ∨ e.name < f.name) ∧
      PrivateKeyInfo.ofDer? m.privateKey = some info ∧ KeyFile.Opens text e.password info.toDer
  kept : ∀ a x, (∀ p ∈ t.outputs, after.walk p ≠ .entry a) →
    before.get? a = some (.file x) → after.get? a = some (.file x)
  clean : UndoesReliably c → ∀ a x, (∀ p ∈ t.outputs, after.walk p ≠ .entry a) →
    after.get? a = some (.file x) → before.get? a = some (.file x)

theorem contents_written (h : t.contents m d = .ok (files.map fun f => (f.1, .ok f.2))) :
    ∃ cs x, (if t.hasCompanions then t.companions m d.companion else .ok []) = .ok cs ∧
      m.store.toBytes d.container = .ok x ∧ files = cs ++ [(t.path, x)] := by
  obtain ⟨cs, hcs, hfiles⟩ := contents_ok h
  obtain ⟨fs, gs, rfl, hfs, hgs⟩ := List.map_eq_append_iff.1 hfiles
  obtain ⟨g, rfl, hg⟩ := List.map_eq_singleton_iff.1 hgs
  obtain rfl := files_of_ok hfs
  obtain ⟨hp, hx⟩ := Prod.mk.inj hg
  refine ⟨fs, g.2, hcs, ok_of_mapError_ok hx.symm, ?_⟩
  rw [← hp]

theorem outputs_eq {cs : List (Path × Bytes)}
    (h : (if t.hasCompanions then t.companions m d.companion else .ok []) = .ok cs) (x : Bytes) :
    t.outputs = (cs ++ [(t.path, x)]).map (·.1) := by
  unfold outputs
  split at h
  · rename_i hc
    obtain ⟨e, text, -, -, rfl⟩ := companions_ok h
    rw [if_pos hc]
    rfl
  · rename_i hc
    cases h
    rw [if_neg hc]
    rfl

-- Companions are apart from each other, so only the key store can take the place of one.
theorem read?_companion (fs : List (Path × Bytes)) (later : List (String × Bytes))
    {ending : String} {z : Bytes} (hp : Puts base view (fs ++ (t.companion ending, x) ::
      (later.map (fun g => (t.companion g.1, g.2)) ++ [(t.path, z)])) u)
    (he : IsEnding ending) (hl : ∀ e ∈ later.map (·.1), IsEnding e ∧ e ≠ ending)
    (hs : w.Shows base v) (hk : ∀ a, u a ≠ none → v a = u a)
    (hn : w.storage.tree.walk (t.companion ending) ≠ w.storage.tree.walk t.path) :
    w.storage.tree.read? (t.companion ending) = some x := by
  obtain ⟨a, ha⟩ := hp.walk (t.companion ending, x) (by simp)
  have hlater : ∀ g ∈ later.map (fun g => (t.companion g.1, g.2)) ++ [(t.path, z)],
      base.walk g.1 ≠ base.walk (t.companion ending) := by
    intro g hg
    rw [ha]
    rcases List.mem_append.1 hg with hg | hg
    · obtain ⟨f, hf, rfl⟩ := List.mem_map.1 hg
      obtain ⟨hf, hne⟩ := hl f.1 (List.mem_map_of_mem hf)
      exact companion_apart he hf hne ha
    · rw [List.mem_singleton.1 hg]
      intro hba
      exact hn ((hs.walk_iff.2 ha).trans (hs.walk_iff.2 hba).symm)
  obtain ⟨a', ha', hu⟩ := hp.file_at hlater
  exact hs.read? ha' (by rw [hk a' (by simp [hu]), hu])

theorem read?_companions {cs : List (Path × Bytes)} (hcs : t.companions m d.companion = .ok cs)
    (hp : Puts base view (cs ++ [(t.path, x)]) u) (hs : w.Shows base v)
    (hk : ∀ a, u a ≠ none → v a = u a) :
    ∀ f ∈ cs, w.storage.tree.walk f.1 ≠ w.storage.tree.walk t.path →
      w.storage.tree.read? f.1 = some f.2 := by
  obtain ⟨e, text, -, -, rfl⟩ := companions_ok hcs
  intro f hf hn
  simp only [List.mem_cons, List.not_mem_nil, or_false] at hf
  rcases hf with rfl | rfl | rfl
  · exact read?_companion [] [(".pem", _), (".key", _)] hp
      (by decide) (show ∀ e ∈ [".pem", ".key"], _ by decide) hs hk hn
  · exact read?_companion [_] [(".key", _)] hp
      (by decide) (show ∀ e ∈ [".key"], _ by decide) hs hk hn
  · exact read?_companion [_, _] [] hp (by decide) (by simp) hs hk hn

theorem write_written (hf : t.Fresh c) (h : ((t.write m d).run c w).1 = .ok ()) :
    Written t m d c w.storage.tree ((t.write m d).run c w).2.storage.tree := by
  obtain ⟨base, hadds, ⟨e, he, -⟩ | ⟨-, files, u, v, hc, hputs, hv, hkeep, hclean⟩⟩ :=
    write_run m d hf w
  · rw [he] at h
    cases h
  obtain ⟨cs, x, hcs, hx, rfl⟩ := contents_written hc
  have hcompanions (ht : t.hasCompanions = true) : t.companions m d.companion = .ok cs := by
    rwa [if_pos ht] at hcs
  have hread (ht : t.hasCompanions = true) := read?_companions (hcompanions ht) hputs hv hkeep
  have hother {a : Location} (ha : ∀ p ∈ t.outputs,
      ((t.write m d).run c w).2.storage.tree.walk p ≠ .entry a) : u a = base.get? a := by
    refine hputs.frame fun f hfm hw => ha f.1 ?_ (hv.walk_iff.2 hw)
    rw [outputs_eq hcs x]
    exact List.mem_map_of_mem hfm
  have hlast : ∀ g ∈ ([] : List (Path × Bytes)), base.walk g.1 ≠ base.walk t.path :=
    List.forall_mem_nil _
  constructor
  · obtain ⟨a, ha, hu⟩ := hputs.file_at hlast
    exact ⟨x, hx, hv.read? ha (by rw [hkeep a (by simp [hu]), hu])⟩
  · intro ht hn
    obtain ⟨e, text, -, -, rfl⟩ := companions_ok (hcompanions ht)
    exact hread ht (t.certificatePath, m.certificate.der) (by simp) hn
  · intro ht hn
    obtain ⟨e, text, -, -, rfl⟩ := companions_ok (hcompanions ht)
    exact hread ht (t.pemPath, Bytes.ofText m.certificate.pem) (by simp) hn
  · intro ht hn
    obtain ⟨e, text, he, hk, rfl⟩ := companions_ok (hcompanions ht)
    obtain ⟨info, hi, ho⟩ := KeyFile.opens_of_write hk
    exact ⟨text, e, info, hread ht (t.keyPath, Bytes.ofText text) (by simp) hn,
      entryOf?_eq_some he, hi, ho⟩
  · intro a y ha hy
    have hu : u a = some (.file y) := by rw [hother ha, (hadds.file_iff a y).2 hy]
    rw [hv.get?, hkeep a (by simp [hu]), hu]
  · intro hr a y ha hy
    rw [hv.get?, hclean hr, hother ha] at hy
    exact (hadds.file_iff a y).1 hy

theorem inspect_directory_iff : (answer c w (.inspect p)).1 = some .directory ↔
    (answer c w (.inspect p)).2.storage.tree.inspect? p = some .directory := by
  rw [inspect_answer.1, inspect_answer.2]
  cases w.storage.tree.inspect? p with
  | none => simp
  | some n => cases n <;> simp [Node.kind]

theorem Attempt.there_iff {b : Bool} {w' : World} (h : Attempt c p w b w') :
    b = true ↔ w'.storage.tree.inspect? p = some .directory := by
  cases h with
  | made h => simpa using inspect?_of_made h
  | inspected => simpa using inspect_directory_iff

theorem Making.there_iff {ps : List Path} {b : Bool} {w' : World} (h : Making c p ps w b w')
    (hps : ∀ w : World, ((makeDirectories ps).run c w).1 = false →
      ((makeDirectories ps).run c w).2.storage.tree.inspect? p ≠ some .directory) :
    b = true ↔ w'.storage.tree.inspect? p = some .directory := by
  cases h with
  | first h => exact h.there_iff
  | blocked h => exact iff_of_false Bool.false_ne_true (hps _ h)
  | again h => exact h.there_iff

-- Making a directory comes out well exactly when the directory is there in the end. The induction
-- is on the number of ancestors, each of which has to be there for the one before it.
theorem makeDirectories_iff (hp : p.text ≠ "") (depth : Nat) (w : World) :
    ((makeDirectories (p.ancestorsUpTo (depth + 1))).run c w).1 = true ↔
      ((makeDirectories (p.ancestorsUpTo (depth + 1))).run c w).2.storage.tree.inspect? p =
        some .directory := by
  induction depth generalizing p w with
  | zero =>
    rw [Path.ancestorsUpTo, if_neg hp]
    refine (makeDirectories_cons c p _ w).there_iff ?_
    intro w hr
    cases hq : p.parent? with
    | none =>
      rw [hq] at hr
      cases hr
    | some q =>
      rw [hq] at hr
      cases hr
  | succ depth ih =>
    rw [Path.ancestorsUpTo, if_neg hp]
    refine (makeDirectories_cons c p _ w).there_iff ?_
    intro w hr
    cases hq : p.parent? with
    | none =>
      rw [hq] at hr
      cases hr
    | some q =>
      simp only [hq] at hr ⊢
      by_cases ht : q.text = ""
      · rw [Path.ancestorsUpTo, if_pos ht] at hr
        cases hr
      · intro hd
        have hparent := (ih ht w).2 (Tree.reaches_parent hq ht hd)
        rw [hr] at hparent
        cases hparent

theorem directory_ne_empty (p : Path) : p.directory.text ≠ "" := by
  unfold Path.directory
  split
  · split
    · decide
    · assumption
  · decide

theorem write_missing (ht : t.hasCompanions = true)
    (hm : ∀ e ∈ m.store.entries, e.chain.head? ≠ some m.certificate) :
    ((t.write m d).run c w).1 =
      .error (if ((makeDirectories t.path.directory.ancestors).run c w).1 then .missingEntry
        else .io t.path.directory) ∧
    ((t.write m d).run c w).2 = ((makeDirectories t.path.directory.ancestors).run c w).2 := by
  have hnone : entryOf? m.store m.certificate = none :=
    List.find?_eq_none.2 fun e he => by simpa using hm e he
  have hc : t.contents m d = .error .missingEntry := by
    rw [contents, ht, companions, hnone]
    rfl
  simp only [write, run_bind]
  cases ((makeDirectories t.path.directory.ancestors).run c w).1 with
  | false => exact ⟨rfl, rfl⟩
  | true =>
    simp only [if_true, hc]
    exact ⟨rfl, rfl⟩

theorem write_effect (t : FileTarget) (m : Material) (d : WriteDraws) (c : Conduct) (w : World)
    (hf : t.Fresh c) :
    (((t.write m d).run c w).1 = .ok () →
      Written t m d c w.storage.tree ((t.write m d).run c w).2.storage.tree) ∧
    (t.hasCompanions = true → (∀ e ∈ m.store.entries, e.chain.head? ≠ some m.certificate) →
      ((t.write m d).run c w).1 =
        .error (if ((t.write m d).run c w).2.storage.tree.inspect? t.path.directory =
          some .directory then .missingEntry else .io t.path.directory) ∧
      ∀ a x, ((t.write m d).run c w).2.storage.tree.get? a = some (.file x) ↔
        w.storage.tree.get? a = some (.file x)) := by
  refine ⟨write_written hf, ?_⟩
  intro ht hm
  obtain ⟨hr, hw⟩ := write_missing (d := d) (c := c) (w := w) ht hm
  have hmade := makeDirectories_iff (c := c) (directory_ne_empty t.path)
    t.path.directory.text.length w
  rw [hr, hw]
  exact ⟨congrArg _ (if_congr hmade rfl rfl), (makeDirectories_adds _).file_iff⟩

def emptyMaterial : Material := ⟨.empty .pkcs12 "store", Container.sampleCertificate, []⟩

theorem write_effect_sample : (fullTarget "ks.p12").Fresh numberedConduct ∧
    (((fullTarget "ks.p12").write fullMaterial sampleDraws).run numberedConduct emptyWorld).1 =
      .ok () ∧
    Written (fullTarget "ks.p12") fullMaterial sampleDraws numberedConduct emptyWorld.storage.tree
      (((fullTarget "ks.p12").write fullMaterial sampleDraws).run numberedConduct
        emptyWorld).2.storage.tree ∧
    (((fullTarget "ks.p12").write emptyMaterial sampleDraws).run numberedConduct emptyWorld).1 =
      .error .missingEntry :=
  ⟨full_fresh, full_write,
    (write_effect (fullTarget "ks.p12") fullMaterial sampleDraws numberedConduct emptyWorld
      full_fresh).1 full_write,
    ((write_effect (fullTarget "ks.p12") emptyMaterial sampleDraws numberedConduct emptyWorld
      full_fresh).2 rfl (List.forall_mem_nil _)).1⟩

def lingeringConduct : Conduct :=
  { sampleConduct with
    fails := fun _ op => match op with
      | .discard _ => true
      | _ => false }

theorem lingering_write :
    let run := (sampleTarget.write sampleMaterial sampleDraws).run lingeringConduct sampleWorld
    (run.1, run.2.storage.tree.get? ["backup"]) = (.ok (), some (.file [1])) := by
  obtain ⟨b, hb⟩ := KeyStore.exists_toBytes_sample
  have hm : (makeDirectories sampleTarget.path.directory.ancestors).run lingeringConduct
      sampleWorld = (true, ⟨sampleWorld.storage, 2,
        [sampleWorld.storage, sampleWorld.storage]⟩) := by
    decide
  dsimp only
  rw [write_of_made hm (sample_contents hb)]
  cbv

-- The directory comes before the entry, and a file in its place is what gets reported. A backup
-- that cannot be removed stays where it is.
theorem write_missing_blocked :
    ((∀ e ∈ emptyMaterial.store.entries, e.chain.head? ≠ some emptyMaterial.certificate) ∧
      (((FileTarget.mk ⟨"a/k.p12"⟩ none true).write emptyMaterial sampleDraws).run numberedConduct
        (.start ⟨⟨[(["a"], .file [120])]⟩, none⟩)).1 = .error (.io ⟨"a"⟩)) ∧
    sampleTarget.Fresh lingeringConduct ∧
      ((sampleTarget.write sampleMaterial sampleDraws).run lingeringConduct sampleWorld).1 =
        .ok () ∧
      sampleWorld.storage.tree.get? ["backup"] = none ∧
      ((sampleTarget.write sampleMaterial sampleDraws).run lingeringConduct
        sampleWorld).2.storage.tree.get? ["backup"] = some (.file [1]) :=
  ⟨⟨List.forall_mem_nil _, rfl⟩, sample_fresh, (Prod.mk.inj lingering_write).1, rfl,
    (Prod.mk.inj lingering_write).2⟩

end Credential.FileTarget
