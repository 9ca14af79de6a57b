import Credential.Proofs.Destination.Writing
import Credential.Proofs.KeyFile
/-!
Where nothing fails, nothing is in the way and every temporary file has a name of its own, a write
ends well.
-/

namespace Credential.FileTarget

open Disk Script
open Function (update)

structure Calm (c : Conduct) (directory : Path) (base : Tree) (place : Nat → Location)
    (stop : Nat) : Prop where
  fails : ∀ n op, c.fails n op = false
  walk : ∀ n, n < stop → base.walk (directory.join (c.names n)) = .entry (place n)
  injective : Function.Injective place

variable {c : Conduct} {w : World} {base : Tree} {view : View} {directory : Path}
  {place : Nat → Location} {stop : Nat} {f : Placed} {fs : List Placed} {p : Location}
  {x : Bytes} {files : List (Path × Bytes)} {t : FileTarget} {m : Material} {d : WriteDraws}

theorem Calm.create (hc : Calm c directory base place stop) (h : w.Shows base view)
    (hn : w.count < stop) (hv : view (place w.count) = none) :
    (answer c w (.createTemporary directory)).1 = some (directory.join (c.names w.count)) := by
  have hs : (answer c w (.createTemporary directory)).1 =
      (w.storage.createFile (directory.join (c.names w.count))).1 :=
    (answer_of_performs (hc.fails _ _)).1
  have hcreate : w.storage.tree.create? (directory.join (c.names w.count)) =
      some (w.storage.tree.put (place w.count) (.file [])) := by
    unfold Tree.create?
    rw [h.walk_iff.2 (hc.walk _ hn)]
    dsimp only
    rw [h.get?, hv]
    rfl
  rw [hs, Storage.createFile, hcreate]

theorem Calm.write (hc : Calm c directory base place stop) (h : w.Shows base view) {q : Path}
    (hq : base.walk q = .entry p) {y : Bytes} (hv : view p = some (.file y)) (x : Bytes) :
    (answer c w (.write q x)).1 = true := by
  have hs : (answer c w (.write q x)).1 = (w.storage.withTree (w.storage.tree.write? q x)).1 :=
    (answer_of_performs (hc.fails _ _)).1
  rw [hs, Tree.write?, h.file?_iff.2 ⟨hq, hv⟩]
  rfl

theorem Calm.move (hc : Calm c directory base place stop) (h : w.Shows base view) {q target : Path}
    {a : Location} (hq : base.walk q = .entry a) (hv : view a = some (.file x))
    (ht : base.walk target = .entry p) (hp : view p ≠ some .directory) :
    (answer c w (.move q target)).1 = true := by
  have hs : (answer c w (.move q target)).1 =
      (w.storage.withTree (w.storage.tree.move? q target)).1 :=
    (answer_of_performs (hc.fails _ _)).1
  obtain ⟨u, hu⟩ := move?_of_entry h hq hv ht hp
  rw [hs, hu]
  rfl

theorem stage_calm (hc : Calm c directory base place stop) (h : w.Shows base view)
    (hn : w.count < stop) (hv : view (place w.count) = none) (x : Bytes) :
    ((stage directory x).run c w).1 = .ok (directory.join (c.names w.count)) ∧
      ((stage directory x).run c w).2.count = w.count + 2 ∧
      (((stage directory x).run c w).2).Shows base
        (update view (place w.count) (some (.file x))) := by
  have hcreate := hc.create h hn hv
  have hwalk := hc.walk _ hn
  simp only [stage, run_bind]
  rw [run_ask, hcreate]
  rcases createTemporary_answer (c := c) (p := directory) h with ⟨hnone, -⟩ | ⟨a, -, ha, -, hs⟩
  · rw [hcreate] at hnone
    cases hnone
  · obtain rfl := Walk.entry.inj (hwalk.symm.trans ha)
    have hfile := Function.update_self (place w.count) (some (.file [])) view
    have htrue := hc.write hs hwalk hfile x
    obtain ⟨z, hz, hzs⟩ := write_shows (c := c) (x := x) hs hwalk hfile
    obtain rfl := hz htrue
    rw [Function.update_idem] at hzs
    simp only [run_bind]
    rw [run_ask, htrue]
    exact ⟨rfl, rfl, hzs⟩

theorem stageAll_calm (hc : Calm c directory base place stop) (files : List (Path × Bytes))
    (h : w.Shows base view) (hstop : w.count + 2 * files.length ≤ stop)
    (hfree : ∀ n, w.count ≤ n → view (place n) = none) :
    ∃ staged, ((stageAll directory (files.map fun f => (f.1, .ok f.2))).run c w).1 = .ok staged := by
  induction files generalizing w view with
  | nil => exact ⟨[], rfl⟩
  | cons file files ih =>
    rw [List.length_cons] at hstop
    obtain ⟨hok, hcount, hs⟩ := stage_calm hc h (by omega) (hfree _ (le_refl _)) file.2
    have hrest : ∀ n, ((stage directory file.2).run c w).2.count ≤ n →
        update view (place w.count) (some (.file file.2)) (place n) = none := by
      intro n hn
      have hne : n ≠ w.count := by omega
      rw [Function.update_of_ne (hc.injective.ne hne)]
      exact hfree n (by omega)
    obtain ⟨others, ho⟩ := ih hs (by omega) hrest
    simp only [List.map_cons, stageAll, run_bind]
    rw [hok]
    simp only [run_bind]
    rw [ho]
    exact ⟨_, rfl⟩

theorem install_calm (hc : Calm c directory base place stop) (h : w.Shows base view)
    (hr : Ready c directory base view [f]) (hp : base.walk f.staged.target = .entry p)
    (hn : view p = none) : ∃ i, ((install directory f.staged).run c w).1 = .ok i := by
  obtain ⟨hs, -⟩ := inspect_shows (c := c) (p := f.staged.target) h
  have hnone : (answer c w (.inspect f.staged.target)).1 = none := by
    rw [inspect_answer.1, Tree.inspect?, h.walk_iff.2 hp]
    dsimp only
    rw [h.get?, hn]
    rfl
  have hmove := hc.move hs (hr.walk f (by simp)) (hr.file f (by simp)) hp (by simp [hn])
  simp only [install, moveAside, run_bind]
  rw [run_ask, hnone]
  simp only [run_pure, run_bind]
  rw [run_ask, hmove]
  exact ⟨_, rfl⟩

theorem installAll_calm (hc : Calm c directory base place stop) (h : w.Shows base view)
    (hf : ∀ f ∈ fs, Apart c directory base f.staged.target) (hr : Ready c directory base view fs)
    (hfree : ∀ f ∈ fs, ∃ p, base.walk f.staged.target = .entry p ∧ view p = none)
    (hapart : fs.Pairwise fun f g => base.walk f.staged.target ≠ base.walk g.staged.target) :
    ∃ is, ((installAll directory (fs.map (·.staged))).run c w).1 = .ok is := by
  induction fs generalizing w view with
  | nil => exact ⟨[], rfl⟩
  | cons f fs ih =>
    obtain ⟨hfirst, hrest⟩ := List.pairwise_cons.1 hapart
    obtain ⟨p, hp, hn⟩ := hfree f (by simp)
    have hone : Ready c directory base view ([f] ++ fs) := hr
    obtain ⟨i, hi⟩ := install_calm hc h hone.left hp hn
    rcases install_run (hf f (by simp)) h hone.left with ⟨e, he, -⟩ | ⟨i', v, -, hrep, hs⟩
    · rw [hi] at he
      cases he
    · have hlater : ∀ g ∈ fs, ∃ q, base.walk g.staged.target = .entry q ∧ v q = none := by
        intro g hg
        obtain ⟨q, hq, hqn⟩ := hfree g (List.mem_cons_of_mem f hg)
        have hqp : q ≠ p := by
          rintro rfl
          exact hfirst g hg (hp.trans hq.symm)
        refine ⟨q, hq, ?_⟩
        cases hrep with
        | fresh hp' _ =>
          obtain rfl := Walk.entry.inj (hp.symm.trans hp')
          rw [Function.update_of_ne hqp, Function.update_apply]
          split
          · rfl
          · exact hqn
        | backedUp _ hp' hx _ _ =>
          obtain rfl := Walk.entry.inj (hp.symm.trans hp')
          rw [hn] at hx
          cases hx
      obtain ⟨others, ho⟩ := ih hs (fun g hg => hf g (List.mem_cons_of_mem f hg))
        (hrep.ready (hf f (by simp)) hr) hlater hrest
      simp only [List.map_cons, installAll, run_bind]
      rw [hi]
      simp only [run_bind]
      rw [ho]
      exact ⟨_, rfl⟩

theorem writeContents_calm (hc : Calm c directory base place stop) (h : w.Shows base view)
    (hf : ∀ f ∈ files, Apart c directory base f.1) (hstop : w.count + 2 * files.length ≤ stop)
    (hnames : ∀ n, w.count ≤ n → view (place n) = none)
    (hfree : ∀ f ∈ files, ∃ p, base.walk f.1 = .entry p ∧ view p = none)
    (hapart : files.Pairwise fun f g => base.walk f.1 ≠ base.walk g.1) :
    ((writeContents directory (files.map fun f => (f.1, .ok f.2))).run c w).1 = .ok () := by
  obtain ⟨staged, hstaged⟩ := stageAll_calm hc files h hstop hnames
  simp only [writeContents, run_bind]
  rcases stageAll_run (c := c) directory (files.map fun f => (f.1, .ok f.2)) h with
    ⟨e, gs, he, -⟩ | ⟨fs, v, hfs, hfiles, hs, hready, hwithout⟩
  · rw [hstaged] at he
    cases he
  · rw [hfs]
    obtain rfl : files = fs.map (fun f => (f.staged.target, f.content)) := by
      refine files_of_ok ?_
      rw [List.map_map]
      exact hfiles
    have hf' : ∀ f ∈ fs, Apart c directory base f.staged.target :=
      fun f hm => hf _ (List.mem_map_of_mem hm)
    have hfree' : ∀ f ∈ fs, ∃ p, base.walk f.staged.target = .entry p ∧ v p = none := by
      intro f hm
      obtain ⟨p, hp, hn⟩ := hfree _ (List.mem_map_of_mem hm)
      refine ⟨p, hp, ?_⟩
      rw [← hwithout, without_of_not_mem (not_mem_of_apart (hf' f hm) hp hready)] at hn
      exact hn
    have hapart' : fs.Pairwise fun f g =>
        base.walk f.staged.target ≠ base.walk g.staged.target := by
      rwa [List.pairwise_map] at hapart
    obtain ⟨is, his⟩ := installAll_calm hc hs hf' hready hfree' hapart'
    simp only [run_bind]
    rw [his]
    simp only [run_bind, run_pure]

theorem write_calm (hf : t.Fresh c)
    (hfiles : t.contents m d = .ok (files.map fun f => (f.1, .ok f.2)))
    {w' : World} (hw : (makeDirectories t.path.directory.ancestors).run c w = (true, w'))
    (hc : Calm c t.path.directory w'.storage.tree place stop)
    (hstop : w'.count + 2 * files.length ≤ stop)
    (hnames : ∀ n, w'.count ≤ n → w'.storage.tree.get? (place n) = none)
    (hfree : ∀ f ∈ files, ∃ p, w'.storage.tree.walk f.1 = .entry p ∧ w'.storage.tree.get? p = none)
    (hapart : files.Pairwise fun f g => w'.storage.tree.walk f.1 ≠ w'.storage.tree.walk g.1) :
    ((t.write m d).run c w).1 = .ok () := by
  have htargets : ∀ f ∈ files, f.1 ∈ t.targets :=
    fun f hm => contents_mem hfiles (f.1, .ok f.2) (List.mem_map_of_mem hm)
  rw [write_of_made hw hfiles]
  exact writeContents_calm hc (.self w') (fun f hm => hf.apart (htargets f hm)) hstop hnames hfree
    hapart

def IsEnding (ending : String) : Prop := ending.toList.length = 4 ∧ '/' ∉ ending.toList

instance (ending : String) : Decidable (IsEnding ending) := inferInstanceAs (Decidable (_ ∧ _))

theorem isVoid_of_length {piece : String} (h : 2 ≤ piece.toList.length) :
    Path.isVoid piece = false := by
  rw [Path.isVoid, Bool.or_eq_false_iff, decide_eq_false_iff_not, decide_eq_false_iff_not]
  constructor
  · rintro rfl
    exact absurd h (by decide)
  · rintro rfl
    exact absurd h (by decide)

theorem IsEnding.eq_of_append {piece piece' e e' : String} (he : IsEnding e) (he' : IsEnding e')
    (h : piece' ++ e' = piece ++ e) : e' = e := by
  have htext : (piece' ++ e').toList = (piece ++ e).toList := by rw [h]
  rw [String.toList_append, String.toList_append] at htext
  exact String.toList_inj.1 (List.append_inj_right' htext (he'.1.trans he.1.symm))

theorem getLast?_join {a : Location} {name ending : String} (he : IsEnding ending)
    (h : base.walk (directory.join (name ++ ending)) = .entry a) :
    ∃ piece, a.getLast? = some (piece ++ ending) := by
  obtain ⟨piece, hp⟩ := Path.getLast?_pieces_join directory name he.2
  refine ⟨piece, Tree.getLast?_walk hp (isVoid_of_length ?_) h⟩
  rw [String.toList_append, List.length_append, he.1]
  omega

def fullTarget (path : String) : FileTarget := ⟨⟨path⟩, none, true⟩

def fullMaterial : Material := { sampleMaterial with privateKey := Container.sampleKey }

def numberedConduct : Conduct where
  fails _ _ := false
  names n := String.ofList (List.replicate n 'x') ++ ".tmp"
  written _ := 0

def numberedPlace (n : Nat) : Location := [numberedConduct.names n]

def emptyWorld : World := .start ⟨.empty, none⟩

theorem full_contents (path : String) : ∃ files : List (Path × Bytes),
    (fullTarget path).contents fullMaterial sampleDraws = .ok (files.map fun f => (f.1, .ok f.2)) ∧
      files.map (·.1) = (fullTarget path).targets := by
  obtain ⟨b, hb⟩ : ∃ b, fullMaterial.store.toBytes sampleDraws.container = .ok b :=
    KeyStore.exists_toBytes_sample
  have hkey : (PrivateKeyInfo.ofDer? Container.sampleKey).map PrivateKeyInfo.toDer =
      some Container.sampleKey := by decide_cbv
  obtain ⟨info, hi, hinfo⟩ := Option.map_eq_some_iff.1 hkey
  obtain ⟨text, ht⟩ : ∃ text, KeyFile.write fullMaterial.privateKey "key" sampleDraws.companion =
      .ok text := KeyFile.exists_write hi (by rw [hinfo]; decide_cbv) "key" sampleDraws.companion
  have he : entryOf? fullMaterial.store fullMaterial.certificate = some ⟨"a", Container.sampleKey,
      "key", [Container.sampleCertificate, Container.sampleCertificate]⟩ :=
    List.find?_cons_of_pos (by simp [fullMaterial, sampleMaterial])
  refine ⟨[((fullTarget path).certificatePath, fullMaterial.certificate.der),
    ((fullTarget path).pemPath, Bytes.ofText fullMaterial.certificate.pem),
    ((fullTarget path).keyPath, Bytes.ofText text), (⟨path⟩, b)], ?_, rfl⟩
  unfold contents companions
  rw [he, hb]
  simp only [ht]
  rfl

theorem numbered_injective : Function.Injective numberedPlace := by
  intro n k h
  have htext : (numberedConduct.names n).toList = (numberedConduct.names k).toList := by
    rw [List.singleton_inj.1 h]
  have hlength := congrArg List.length htext
  simpa [numberedConduct] using hlength

theorem numbered_calm (base : Tree) :
    Calm numberedConduct (fullTarget "ks.p12").path.directory base numberedPlace 10 where
  fails _ _ := rfl
  walk n hn := by
    interval_cases n <;> rfl
  injective := numbered_injective

theorem full_walk (base : Tree) : ∀ p ∈ (fullTarget "ks.p12").targets, ∃ name ending,
    IsEnding ending ∧ ending ≠ ".tmp" ∧ base.walk p = .entry [name ++ ending] := by
  intro p hp
  simp only [targets, List.mem_cons, List.not_mem_nil, or_false] at hp
  rcases hp with rfl | rfl | rfl | rfl
  · exact ⟨"signing-cert", ".crt", by decide, by decide, rfl⟩
  · exact ⟨"signing-cert", ".pem", by decide, by decide, rfl⟩
  · exact ⟨"signing-cert", ".key", by decide, by decide, rfl⟩
  · exact ⟨"ks", ".p12", by decide, by decide, rfl⟩

theorem full_fresh : (fullTarget "ks.p12").Fresh numberedConduct := by
  intro n tree a ha p hp hpa
  obtain ⟨name, ending, he, hne, hw⟩ := full_walk tree p hp
  obtain ⟨piece, hlast⟩ := getLast?_join (show IsEnding ".tmp" by decide) ha
  obtain rfl := Walk.entry.inj (hw.symm.trans hpa)
  exact hne (IsEnding.eq_of_append (by decide) he (Option.some.inj hlast))

theorem full_apart (base : Tree) :
    (fullTarget "ks.p12").targets.Pairwise fun p q => base.walk p ≠ base.walk q := by
  have hcertificate : base.walk (fullTarget "ks.p12").certificatePath =
      .entry ["signing-cert.crt"] := rfl
  have hpem : base.walk (fullTarget "ks.p12").pemPath = .entry ["signing-cert.pem"] := rfl
  have hkey : base.walk (fullTarget "ks.p12").keyPath = .entry ["signing-cert.key"] := rfl
  have hpath : base.walk (fullTarget "ks.p12").path = .entry ["ks.p12"] := rfl
  simp [targets, hcertificate, hpem, hkey, hpath]

theorem full_write : (((fullTarget "ks.p12").write fullMaterial sampleDraws).run numberedConduct
    emptyWorld).1 = .ok () := by
  obtain ⟨files, hc, hpaths⟩ := full_contents "ks.p12"
  have hm : (makeDirectories (fullTarget "ks.p12").path.directory.ancestors).run numberedConduct
      emptyWorld = (true, ⟨emptyWorld.storage, 2, [emptyWorld.storage, emptyWorld.storage]⟩) := by
    decide
  have hlength : files.length = 4 := by
    rw [← List.length_map, hpaths]
    rfl
  have hempty : ∀ q : Location, q ≠ [] → emptyWorld.storage.tree.get? q = none :=
    fun q hq => if_neg hq
  refine write_calm full_fresh hc hm (numbered_calm _) (by rw [hlength]) ?_ ?_ ?_
  · intro n hn
    exact hempty _ (List.cons_ne_nil _ _)
  · intro f hf
    obtain ⟨name, ending, -, -, hw⟩ := full_walk emptyWorld.storage.tree f.1
      (hpaths ▸ List.mem_map_of_mem hf)
    exact ⟨_, hw, hempty _ (List.cons_ne_nil _ _)⟩
  · have hapart := full_apart emptyWorld.storage.tree
    rwa [← hpaths, List.pairwise_map] at hapart

end Credential.FileTarget
