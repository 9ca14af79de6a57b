import Credential.Proofs.Certificate.Forging
import Credential.Proofs.Certificate.HostName
import Credential.Proofs.Destination.Course
import Credential.Proofs.Destination.Effect
/-!
The key store comes last. Whenever its path holds the new content, the companions are complete, and
at no time is there a part of a file at any of the paths.
-/

namespace Credential

open Disk Script

namespace Disk.Script.World.Shows

variable {w : World} {base : Tree} {view v : View}

theorem unique (h : w.Shows base view) (h' : w.Shows base v) : view = v := h.tree.symm.trans h'.tree

end Disk.Script.World.Shows

-- The first element of a certificate is a sequence, that of a key store a number.
theorem KeyStore.toBytes_ne_der {store : KeyStore} {drawn : Container.Draws} {b : Bytes}
    (h : store.toBytes drawn = .ok b) (certificate : Certificate) : certificate.der ≠ b := by
  obtain ⟨bags, digest, -, -, hf, rfl⟩ := Container.encode_ok (KeyStore.toBytes_ok h)
  intro hder
  have hnumber := Certificate.readElement_encode (by decide : Der.Tag.integer &&& 0x1F ≠ 0x1F)
    (hf.mem_sequence (List.mem_cons_self ..))
  have hwhole := Certificate.container_sequence hf []
  rw [List.append_nil] at hwhole
  have hread := Certificate.parse_ok certificate.parse_der
  rw [hder] at hread
  obtain ⟨whole, hcontainer, hread⟩ := exists_of_bind_ok hread
  obtain rfl := Except.ok.inj (hwhole.symm.trans hcontainer)
  obtain ⟨body, hbody, -⟩ := exists_of_bind_ok hread
  have hne : ∀ n, (Certificate.header (.natural n)).number ≠ Certificate.sequenceNumber :=
    fun _ => (by decide : (Der.Tag.integer &&& 0x1F).toNat ≠ Certificate.sequenceNumber)
  rw [Certificate.container, Der.encodeAll, List.flatMap_cons, hnumber] at hbody
  dsimp only at hbody
  rw [if_neg (hne _)] at hbody
  cases hbody

theorem Text.Armor.head?_write (ends : LineEnd) (label : String) (content : Bytes) :
    (write ends label content).toList.head? = some '-' := by
  have hopening : opening = '-' :: opening.tail := rfl
  rw [write, String.toList_ofList, hopening]
  rfl

theorem KeyStore.toBytes_ne_ofText {store : KeyStore} {drawn : Container.Draws} {b : Bytes}
    {text : String} (h : store.toBytes drawn = .ok b) (ht : text.toList.head? = some '-') :
    Bytes.ofText text ≠ b := by
  obtain ⟨bags, digest, -, -, -, rfl⟩ := Container.encode_ok (KeyStore.toBytes_ok h)
  obtain ⟨cs, hcs⟩ := List.head?_eq_some_iff.1 ht
  intro he
  rw [Bytes.ofText_eq, hcs, List.flatMap_cons] at he
  exact absurd (List.cons.inj he).1 (by decide : (0x2D : UInt8) ≠ Der.Tag.sequence)

namespace FileTarget

variable {c : Conduct} {w : World} {base : Tree} {L : Location → Bytes → Prop}
  {view v u : View} {directory path p : Path} {ks : List Staged} {ts : List Path}
  {files cs : List (Path × Bytes)} {s : Storage} {a : Location} {x b : Bytes}
  {r : Except WriteError Bytes} {t : FileTarget} {m : Material} {d : WriteDraws}

theorem Safe.due (h : Safe base L ks w.storage) (hs : w.Shows base view) :
    Due base L ks view := by
  obtain ⟨v, hv, hd⟩ := h
  have hw : w.Shows base v := shows_of_storage hv rfl
  exact hs.unique hw ▸ hd

def Settled (base : Tree) (view : View) (files : List (Path × Bytes)) (s : Storage) : Prop :=
  ∃ u v, Puts base view files u ∧ (World.start s).Shows base v ∧ ∀ a, u a ≠ none → v a = u a

theorem discardAll_settled (qs : List Path) (h : w.Shows base v) (hp : Puts base view files u)
    (hv : ∀ a, u a ≠ none → v a = u a) (hq : ∀ q ∈ qs, ∀ a, base.walk q = .entry a → u a = none) :
    w.Passes ((discardAll qs).run c w).2 (Settled base view files) := by
  induction qs generalizing w v with
  | nil => exact .refl w
  | cons q qs ih =>
    obtain ⟨hfirst, hrest⟩ := List.forall_mem_cons.1 hq
    obtain ⟨v', hs, hframe⟩ := discard_frame (c := c) (p := q) h
    have hv' : ∀ a, u a ≠ none → v' a = u a := by
      intro a ha
      rw [hframe a fun hw => ha (hfirst a hw), hv a ha]
    simp only [discardAll, run_bind]
    rw [run_ask]
    have hstep : Settled base view files (answer c w (.discard q)).2.storage :=
      ⟨u, v', hp, shows_of_storage hs rfl, hv'⟩
    exact World.Passes.trans (answer_passes hstep) (ih hs hv' hrest)

theorem Ready.settled {bs : List Placed} {qs : List Path} (hr : Ready c directory base v bs)
    (h : w.Shows base v) (hp : Puts base view files (without v bs))
    (hq : qs = bs.map (·.staged.temporary)) : Settled base view files w.storage ∧
      w.Passes ((discardAll qs).run c w).2 (Settled base view files) := by
  have hkeep : ∀ a, without v bs a ≠ none → v a = without v bs a := fun _ => eq_without
  have hvoid := hr.without_temporary
  rw [← hq] at hvoid
  exact ⟨⟨without v bs, v, hp, shows_of_storage h rfl, hkeep⟩,
    discardAll_settled qs h hp hkeep hvoid⟩

theorem writeContents_course (hts : ∀ p ∈ ts, Apart c directory base p)
    (hcs : ∀ f ∈ cs, f.1 ∈ ts) (hpath : path ∈ ts) (h : w.Shows base view)
    (hm : ∀ f ∈ cs, ∀ a, base.walk f.1 = .entry a → L a f.2) (hd : Due base L (own ts) view) :
    w.Passes ((writeContents directory
      (cs.map (fun f => (f.1, .ok f.2)) ++ [(path, r)])).run c w).2 fun s =>
        Safe base L (own ts) s ∨ ∃ x, r = .ok x ∧ Settled base view (cs ++ [(path, x)]) s := by
  have hown := own_standing hts hd
  have hstage := stageAll_course (c := c) (cs.map (fun f => (f.1, .ok f.2)) ++ [(path, r)]) h hd
    hown.guarded
  simp only [writeContents, run_bind]
  rcases stageAll_run (c := c) directory (cs.map (fun f => (f.1, .ok f.2)) ++ [(path, r)]) h with
    ⟨e, gs, he, -⟩ | ⟨fs, v, hfs, hfiles, hs, hready, hwithout⟩
  · rw [he]
    exact (Halted.clear_course _ hstage).passes.mono fun s => .inl
  · rw [hfs]
    obtain ⟨gs, ls, rfl, hgs, hls⟩ := List.map_eq_append_iff.1 hfiles.symm
    obtain ⟨l, rfl, hl⟩ := List.map_eq_singleton_iff.1 hls
    obtain ⟨rfl, rfl⟩ := Prod.mk.inj hl
    obtain rfl : gs.map (fun g => (g.staged.target, g.content)) = cs := by
      refine files_of_ok ?_
      rw [List.map_map]
      exact hgs
    have htargets : ∀ g ∈ gs ++ [l], g.staged.target ∈ ts :=
      List.forall_mem_append.2 ⟨fun g hg => hcs _ (List.mem_map_of_mem hg), by simpa using hpath⟩
    have happart : ∀ g ∈ gs ++ [l], Apart c directory base g.staged.target :=
      fun g hg => hts _ (htargets g hg)
    have hmeant : Meant base L gs := fun g hg => hm _ (List.mem_map_of_mem hg)
    have hstart : Ready c directory base v (gs ++ [l] ++ []) := by rwa [List.append_nil]
    have hinstall := installAll_course hts htargets (List.forall_mem_nil _) hs hstart hmeant
      (List.forall_mem_nil _) (hstage.safe.due hs)
    have hpasses := hstage.passes.mono (Q := fun s => Safe base L (own ts) s ∨
      ∃ x, (.ok l.content : Except WriteError Bytes) = .ok x ∧
        Settled base view (gs.map (fun g => (g.staged.target, g.content)) ++
          [(l.staged.target, x)]) s) fun s => .inl
    simp only [run_bind]
    rcases hinstall with ⟨halted, he, hc⟩ | ⟨is, his, hp⟩
    · rw [he]
      exact hpasses.trans ((Halted.clear_course _ hc).passes.mono fun s hs =>
        .inl (hs.subset (by simp)))
    · rw [his]
      simp only [run_bind]
      rcases installAll_run happart hs hstart with
        ⟨e, tried, rest, -, he, -⟩ | ⟨is', bs, u, his', hus, hbs, hkept, hputs⟩
      · rw [his] at he
        cases he
      · obtain rfl := Except.ok.inj (his.symm.trans his')
        rw [List.append_nil] at hkept hputs
        rw [List.append_nil, hwithout, List.map_append] at hputs
        obtain ⟨hend, hremoved⟩ := hkept.settled hus hputs hbs
        refine (hpasses.trans (hp.mono ?_)).trans
          (hremoved.mono fun s hs => .inr ⟨_, rfl, hs⟩)
        rintro s (hsafe | rfl)
        · exact .inl hsafe
        · exact .inr ⟨_, rfl, hend⟩

theorem Attempt.passes {qs : List Path} {tree : Tree} {b : Bool} {w' : World}
    (h : Attempt c p w b w') (hp : p ∈ qs) (hw : AddsDirectories qs tree w.storage.tree) :
    w.Passes w' fun s => AddsDirectories qs tree s.tree := by
  have hmake : AddsDirectories qs tree (answer c w (.makeDirectory p)).2.storage.tree :=
    hw.trans ((makeDirectory_adds p).mono (by simpa using hp))
  cases h with
  | made h => exact answer_passes hmake
  | inspected =>
    refine World.Passes.trans (answer_passes hmake) (answer_passes ?_)
    rw [inspect_answer.2]
    exact hmake

theorem Making.passes {ps qs : List Path} {tree : Tree} {b : Bool} {w' : World}
    (h : Making c p ps w b w') (hps : p :: ps ⊆ qs)
    (hw : AddsDirectories qs tree w.storage.tree)
    (hrest : ∀ w : World, AddsDirectories qs tree w.storage.tree →
      w.Passes ((makeDirectories ps).run c w).2 fun s => AddsDirectories qs tree s.tree) :
    w.Passes w' fun s => AddsDirectories qs tree s.tree := by
  obtain ⟨hp, hsub⟩ := List.cons_subset.1 hps
  have hmake : AddsDirectories qs tree (answer c w (.makeDirectory p)).2.storage.tree :=
    hw.trans ((makeDirectory_adds p).mono (by simpa using hp))
  have hancestors := World.Passes.trans (answer_passes hmake) (hrest _ hmake)
  cases h with
  | first h => exact h.passes hp hw
  | blocked h => exact hancestors
  | again h =>
    exact hancestors.trans (h.passes hp (hmake.trans ((makeDirectories_adds ps).mono hsub)))

theorem makeDirectories_passes {ps qs : List Path} {tree : Tree} (hps : ps ⊆ qs)
    (h : AddsDirectories qs tree w.storage.tree) :
    w.Passes ((makeDirectories ps).run c w).2 fun s => AddsDirectories qs tree s.tree := by
  induction ps generalizing w with
  | nil => exact .refl w
  | cons p ps ih =>
    exact (makeDirectories_cons c p ps w).passes hps h fun _ => ih (List.cons_subset.1 hps).2

def Kept (base : Tree) (cs : List (Path × Bytes)) (a : Location) (x : Bytes) : Prop :=
  base.get? a = some (.file x) ∨ ∃ f ∈ cs, base.walk f.1 = .entry a ∧ f.2 = x

theorem due_kept (base : Tree) (cs : List (Path × Bytes)) (ts : List Path) :
    Due base (Kept base cs) (own ts) base.get? :=
  due_own_iff.2 fun _ _ _ _ _ hx => .inl hx

inductive OnTheWay (t : FileTarget) (m : Material) (d : WriteDraws) (before base : Tree)
    (s : Storage) : Prop
  | preparing (h : AddsDirectories t.path.directory.ancestors before s.tree)
  | installing {cs : List (Path × Bytes)}
    (hcs : (if t.hasCompanions then t.companions m d.companion else .ok []) = .ok cs)
    (h : Safe base (Kept base cs) (own t.targets) s)
  | settled {cs : List (Path × Bytes)} {x : Bytes}
    (hcs : (if t.hasCompanions then t.companions m d.companion else .ok []) = .ok cs)
    (hx : m.store.toBytes d.container = .ok x)
    (h : Settled base base.get? (cs ++ [(t.path, x)]) s)

theorem write_course (m : Material) (d : WriteDraws) (hf : t.Fresh c) (w : World) :
    ∃ base, AddsDirectories t.path.directory.ancestors w.storage.tree base ∧
      w.Passes ((t.write m d).run c w).2 (OnTheWay t m d w.storage.tree base) := by
  have hadds := makeDirectories_adds (c := c) (w := w) t.path.directory.ancestors
  have hself := World.Shows.self ((makeDirectories t.path.directory.ancestors).run c w).2
  refine ⟨_, hadds, ?_⟩
  have hprepared : w.Passes ((makeDirectories t.path.directory.ancestors).run c w).2
      (OnTheWay t m d w.storage.tree
        ((makeDirectories t.path.directory.ancestors).run c w).2.storage.tree) :=
    (makeDirectories_passes (List.Subset.refl t.path.directory.ancestors) (.refl _ _)).mono
      fun _ => .preparing
  simp only [write, run_bind]
  cases hm : ((makeDirectories t.path.directory.ancestors).run c w).1 with
  | false => exact hprepared
  | true =>
    simp only [if_true]
    cases hc : t.contents m d with
    | error e => exact hprepared
    | ok files =>
      obtain ⟨cs, hcs, rfl⟩ := contents_ok hc
      have hcompanions : ∀ f ∈ cs, f.1 ∈ t.targets := by
        intro f hfm
        exact contents_mem hc (f.1, .ok f.2) (List.mem_append_left _ (List.mem_map_of_mem hfm))
      refine hprepared.trans ((writeContents_course (fun p hp => hf.apart hp) hcompanions
        (by simp [targets]) hself (fun f hfm a ha => .inr ⟨f, hfm, ha, rfl⟩)
        (due_kept _ cs _)).mono ?_)
      rintro s (hsafe | ⟨x, hx, hsettled⟩)
      · exact .installing hcs hsafe
      · exact .settled hcs (ok_of_mapError_ok hx) hsettled

theorem Puts.content (h : Puts base view files v) (hx : v a = some (.file x)) :
    view a = some (.file x) ∨ ∃ f ∈ files, base.walk f.1 = .entry a ∧ f.2 = x := by
  induction h with
  | nil => exact .inl hx
  | @cons view v p place y files hp h ih =>
    have hin : (p, y) ∈ (p, y) :: files := List.mem_cons_self
    rcases ih hx with hold | ⟨f, hf, hw, hfx⟩
    · rw [Function.update_apply] at hold
      split at hold
      · rename_i ha
        exact .inr ⟨_, hin, ha ▸ hp, Node.file.inj (Option.some.inj hold)⟩
      · exact .inl hold
    · exact .inr ⟨f, List.mem_cons_of_mem _ hf, hw, hfx⟩

theorem Puts.exists_file (h : Puts base view files v)
    (ha : (∃ y, view a = some (.file y)) ∨ ∃ f ∈ files, base.walk f.1 = .entry a) :
    ∃ y, v a = some (.file y) := by
  induction h with
  | nil => simpa using ha
  | @cons view v p place y files hp h ih =>
    by_cases hap : a = place
    · exact ih (.inl ⟨y, by rw [hap, Function.update_self]⟩)
    · refine ih ?_
      rw [Function.update_of_ne hap]
      refine ha.imp_right ?_
      rintro ⟨f, hf, hw⟩
      rcases List.mem_cons.1 hf with rfl | hf
      · exact absurd (Walk.entry.inj (hw.symm.trans hp)) hap
      · exact ⟨f, hf, hw⟩

theorem companions_ne (hcs : t.companions m d.companion = .ok cs)
    (hb : m.store.toBytes d.container = .ok b) : ∀ f ∈ cs, f.2 ≠ b := by
  obtain ⟨e, text, -, ht, rfl⟩ := companions_ok hcs
  obtain ⟨content, rfl⟩ := KeyFile.armored_of_write ht
  have hpem := Text.Armor.head?_write .crlf "CERTIFICATE" m.certificate.der
  have hkey := Text.Armor.head?_write .lf KeyFile.label content
  intro f hf
  simp only [List.mem_cons, List.not_mem_nil, or_false] at hf
  rcases hf with rfl | rfl | rfl
  · exact KeyStore.toBytes_ne_der hb m.certificate
  · exact KeyStore.toBytes_ne_ofText hb hpem
  · exact KeyStore.toBytes_ne_ofText hb hkey

theorem companions_complete {before : Tree} (h : OnTheWay t m d before base s)
    (hadds : AddsDirectories t.path.directory.ancestors before base)
    (ht : t.hasCompanions = true) (hb : m.store.toBytes d.container = .ok b)
    (hw : s.tree.walk t.path = .entry a) (hx : s.tree.get? a = some (.file b))
    (hn : before.get? a ≠ some (.file b)) :
    ∃ cs, t.companions m d.companion = .ok cs ∧
      ∀ f ∈ cs, s.tree.walk f.1 ≠ s.tree.walk t.path → s.tree.read? f.1 = some f.2 := by
  cases h with
  | preparing h => exact absurd ((h.file_iff a b).1 hx) hn
  | @installing cs hcs h =>
    rw [if_pos ht] at hcs
    obtain ⟨view, hv, hd⟩ := h
    have hkept := due_own_iff.1 hd t.path (by simp [targets]) a b (hv.walk_iff.1 hw)
      ((hv.get? a).symm.trans hx)
    rcases hkept with hold | ⟨f, hf, -, hfb⟩
    · exact absurd ((hadds.file_iff a b).1 hold) hn
    · exact absurd hfb (companions_ne hcs hb f hf)
  | @settled cs x hcs _ h =>
    rw [if_pos ht] at hcs
    obtain ⟨u, v, hputs, hv, hk⟩ := h
    exact ⟨cs, hcs, read?_companions hcs hputs hv hk⟩

theorem contents_of_companions
    (hcs : (if t.hasCompanions then t.companions m d.companion else .ok []) = .ok cs) :
    t.contents m d = .ok (cs.map (fun f => (f.1, .ok f.2)) ++
      [(t.path, (m.store.toBytes d.container).mapError .store)]) := by
  unfold contents
  split at hcs
  · rename_i ht
    rw [if_pos ht, hcs]
    rfl
  · rename_i ht
    cases hcs
    rw [if_neg ht]
    rfl

theorem outputs_subset (t : FileTarget) : t.outputs ⊆ t.targets := by
  unfold outputs
  split
  · exact List.Subset.refl _
  · simp [targets]

theorem output_whole {before : Tree} (h : OnTheWay t m d before base s)
    (hadds : AddsDirectories t.path.directory.ancestors before base) (hp : p ∈ t.outputs)
    (hw : s.tree.walk p = .entry a) (hx : s.tree.get? a = some (.file x)) :
    before.get? a = some (.file x) ∨ ∃ files, t.contents m d = .ok files ∧
      ∃ f ∈ files, f.2 = .ok x ∧ s.tree.walk f.1 = .entry a := by
  cases h with
  | preparing h => exact .inl ((h.file_iff a x).1 hx)
  | @installing cs hcs h =>
    obtain ⟨view, hv, hd⟩ := h
    have hkept := due_own_iff.1 hd p (outputs_subset t hp) a x (hv.walk_iff.1 hw)
      ((hv.get? a).symm.trans hx)
    rcases hkept with hold | ⟨f, hf, hfa, rfl⟩
    · exact .inl ((hadds.file_iff a x).1 hold)
    · exact .inr ⟨_, contents_of_companions hcs, (f.1, .ok f.2),
        List.mem_append_left _ (List.mem_map_of_mem hf), rfl, hv.walk_iff.2 hfa⟩
  | @settled cs z hcs hz h =>
    obtain ⟨u, v, hputs, hv, hk⟩ := h
    have hpa := hv.walk_iff.1 hw
    rw [outputs_eq hcs z] at hp
    obtain ⟨g, hg, rfl⟩ := List.mem_map.1 hp
    obtain ⟨y, hy⟩ := hputs.exists_file (.inr ⟨g, hg, hpa⟩)
    have hu : u a = some (.file x) := by
      rw [← hk a (by simp [hy]), ← hv.get? a]
      exact hx
    rcases hputs.content hu with hold | ⟨f, hf, hfa, rfl⟩
    · exact .inl ((hadds.file_iff a x).1 hold)
    · refine .inr ⟨_, contents_of_companions hcs, (f.1, .ok f.2), ?_, rfl, hv.walk_iff.2 hfa⟩
      rw [hz]
      rcases List.mem_append.1 hf with hf | hf
      · exact List.mem_append_left _ (List.mem_map_of_mem hf)
      · obtain rfl := List.mem_singleton.1 hf
        exact List.mem_append_right _ (List.mem_singleton_self _)

-- A file with the very content of the key store may have been there before. Apart from it, the key
-- store is at its path only when its companions are at theirs.
theorem write_order (t : FileTarget) (m : Material) (d : WriteDraws) (c : Conduct) (s₀ : Storage)
    (hf : t.Fresh c) : ∀ s ∈ ((t.write m d).run c (.start s₀)).2.history,
    (∀ b a, t.hasCompanions = true → m.store.toBytes d.container = .ok b →
      s.tree.walk t.path = .entry a → s.tree.get? a = some (.file b) →
      s₀.tree.get? a ≠ some (.file b) →
      ∃ files, t.companions m d.companion = .ok files ∧
        ∀ f ∈ files, s.tree.walk f.1 ≠ s.tree.walk t.path → s.tree.read? f.1 = some f.2) ∧
    ∀ p ∈ t.outputs, ∀ a x, s.tree.walk p = .entry a → s.tree.get? a = some (.file x) →
      s₀.tree.get? a = some (.file x) ∨ ∃ files, t.contents m d = .ok files ∧
        ∃ f ∈ files, f.2 = .ok x ∧ s.tree.walk f.1 = .entry a := by
  obtain ⟨base, hadds, hpasses⟩ := write_course m d hf (.start s₀)
  intro s hs
  rcases hpasses s hs with hs | hs
  · cases hs
  · refine ⟨?_, ?_⟩
    · intro b a ht hb hw hx hn
      exact companions_complete hs hadds ht hb hw hx hn
    · intro p hp a x hw hx
      exact output_whole hs hadds hp hw hx

theorem write_order_sample : (fullTarget "ks.p12").Fresh numberedConduct ∧
    (((fullTarget "ks.p12").write fullMaterial sampleDraws).run numberedConduct emptyWorld).1 =
      .ok () ∧
    ∀ s ∈ (((fullTarget "ks.p12").write fullMaterial sampleDraws).run numberedConduct
        emptyWorld).2.history,
      (∀ b a, fullMaterial.store.toBytes sampleDraws.container = .ok b →
        s.tree.walk (fullTarget "ks.p12").path = .entry a → s.tree.get? a = some (.file b) →
        Tree.empty.get? a ≠ some (.file b) →
        ∃ files, (fullTarget "ks.p12").companions fullMaterial sampleDraws.companion = .ok files ∧
          ∀ f ∈ files, s.tree.walk f.1 ≠ s.tree.walk (fullTarget "ks.p12").path →
            s.tree.read? f.1 = some f.2) ∧
      ∀ p ∈ (fullTarget "ks.p12").outputs, ∀ a x, s.tree.walk p = .entry a →
        s.tree.get? a = some (.file x) → Tree.empty.get? a = some (.file x) ∨
          ∃ files, (fullTarget "ks.p12").contents fullMaterial sampleDraws = .ok files ∧
            ∃ f ∈ files, f.2 = .ok x ∧ s.tree.walk f.1 = .entry a := by
  refine ⟨full_fresh, full_write, ?_⟩
  intro s hs
  obtain ⟨hlast, hwhole⟩ := write_order (fullTarget "ks.p12") fullMaterial sampleDraws
    numberedConduct emptyWorld.storage full_fresh s hs
  exact ⟨fun b a => hlast b a rfl, hwhole⟩

end FileTarget

end Credential
