import Credential.Proofs.Destination.Staging
/-!
Files taking their places one by one: what each replaces, and that undoing in reverse order brings
back what there was.
-/

namespace Credential.FileTarget

open Disk Script
open Function (update)

def Apart (c : Conduct) (directory : Path) (base : Tree) (target : Path) : Prop :=
  ∀ n a, base.walk (directory.join (c.names n)) = .entry a → base.walk target ≠ .entry a

inductive Aside (c : Conduct) (directory : Path) (base : Tree) (view : View) (target : Path) :
    Option Path → View → Prop
  | free (h : ¬ ∃ p x, base.walk target = .entry p ∧ view p = some (.file x)) :
    Aside c directory base view target none view
  | moved (n : Nat) {p b : Location} {x : Bytes} (hp : base.walk target = .entry p)
    (hx : view p = some (.file x)) (hb : base.walk (directory.join (c.names n)) = .entry b)
    (hn : view b = none) : Aside c directory base view target (some (directory.join (c.names n)))
      (update (update view p none) b (some (.file x)))

inductive Replaces (c : Conduct) (directory : Path) (base : Tree) (view : View) (f : Placed) :
    Installed → View → Prop
  | fresh {p : Location} (hp : base.walk f.staged.target = .entry p) (hn : view p = none) :
    Replaces c directory base view f ⟨f.staged.target, none⟩
      (update (update view f.place none) p (some (.file f.content)))
  | backedUp (n : Nat) {p b : Location} {x : Bytes} (hp : base.walk f.staged.target = .entry p)
    (hx : view p = some (.file x)) (hb : base.walk (directory.join (c.names n)) = .entry b)
    (hn : view b = none) :
    Replaces c directory base view f ⟨f.staged.target, some (directory.join (c.names n))⟩
      (update (update (update (update view p none) b (some (.file x))) f.place none) p
        (some (.file f.content)))

-- Of several contents for one place the last one stays there.
inductive Puts (base : Tree) : View → List (Path × Bytes) → View → Prop
  | nil {view : View} : Puts base view [] view
  | cons {view v : View} {p : Path} {a : Location} {x : Bytes} {files : List (Path × Bytes)}
    (hp : base.walk p = .entry a) (h : Puts base (update view a (some (.file x))) files v) :
    Puts base view ((p, x) :: files) v

variable {c : Conduct} {w : World} {base : Tree} {view v : View} {directory target : Path}
  {f : Placed} {fs ks : List Placed}

theorem ne_of_taken {a b : Location} {n : Node} (ha : view a = some n) (hb : view b = none) :
    a ≠ b := by
  rintro rfl
  rw [ha] at hb
  cases hb

theorem moveAside_run (directory target : Path) (h : w.Shows base view) :
    (∃ e, ((moveAside directory target).run c w).1 = .error e ∧
      (UndoesReliably c → (((moveAside directory target).run c w).2).Shows base view)) ∨
    ∃ backup v, ((moveAside directory target).run c w).1 = .ok backup ∧
      Aside c directory base view target backup v ∧
      (((moveAside directory target).run c w).2).Shows base v := by
  simp only [moveAside, run_bind]
  rw [run_ask]
  obtain ⟨hs, hi⟩ := inspect_shows (c := c) (p := target) h
  cases hr : (answer c w (.inspect target)).1 with
  | none =>
    refine .inr ⟨none, view, rfl, .free ?_, hs⟩
    rw [← hi, hr]
    simp
  | some k =>
    cases k with
    | directory =>
      refine .inr ⟨none, view, rfl, .free ?_, hs⟩
      rw [← hi, hr]
      simp
    | file =>
      obtain ⟨p, x, hp, hx⟩ := hi.1 hr
      simp only [run_bind]
      rw [run_ask]
      rcases createTemporary_answer (c := c) (p := directory) hs with
        ⟨hn, hs'⟩ | ⟨b, hn, hb, hv, hs'⟩
      · rw [hn]
        exact .inl ⟨_, rfl, fun _ => hs'⟩
      · rw [hn]
        have hpb := ne_of_taken hx hv
        simp only [run_bind]
        rw [run_ask]
        rcases move_answer (c := c) (q := directory.join (c.names
            (answer c w (.inspect target)).2.count)) hs' hp
            (by rw [Function.update_of_ne hpb, hx]) with ⟨hm, hms⟩ | ⟨b', hm, hb', -, hms⟩
        · rw [hm]
          refine .inl ⟨_, rfl, ?_⟩
          intro hu
          have hd := discard_shows (hu _ _ rfl) hms hb (Function.update_self ..)
          refine hd.of_eq ?_
          rw [Function.update_idem, ← hv, Function.update_eq_self]
        · rw [hb] at hb'
          cases hb'
          rw [hm]
          refine .inr ⟨_, _, rfl, .moved _ hp hx hb hv, hms.of_eq ?_⟩
          rw [Function.update_comm hpb.symm, Function.update_idem]

theorem restore_run {q : Path} {p b : Location} {x : Bytes} (hu : UndoesReliably c)
    (h : w.Shows base view) (hp : base.walk target = .entry p) (hd : view p ≠ some .directory)
    (hb : base.walk q = .entry b) (hx : view b = some (.file x)) :
    (((Installed.rollBack ⟨target, some q⟩).run c w).2).Shows base
      (update (update view b none) p (some (.file x))) := by
  obtain ⟨hr, hs⟩ := restore_shows (c := c) (hu _ _ rfl) h hb hx hp hd
  simp only [Installed.rollBack, run_bind]
  rw [run_ask, hr]
  exact hs

theorem remove_run {p : Location} {x : Bytes} (hu : UndoesReliably c)
    (h : w.Shows base view) (hp : base.walk target = .entry p) (hx : view p = some (.file x)) :
    (((Installed.rollBack ⟨target, none⟩).run c w).2).Shows base (update view p none) := by
  simp only [Installed.rollBack, run_bind]
  rw [run_ask]
  exact discard_shows (hu _ _ rfl) h hp hx

theorem aside_restore_run {n : Nat} {p b : Location} {x : Bytes} (hu : UndoesReliably c)
    (hp : base.walk target = .entry p) (hx : view p = some (.file x))
    (hb : base.walk (directory.join (c.names n)) = .entry b) (hn : view b = none)
    (h : w.Shows base (update (update view p none) b (some (.file x)))) :
    (((Installed.rollBack ⟨target, some (directory.join (c.names n))⟩).run c w).2).Shows
      base view := by
  have hpb := ne_of_taken hx hn
  have hd : update (update view p none) b (some (.file x)) p ≠ some .directory := by
    rw [Function.update_of_ne hpb, Function.update_self]
    simp
  have hr := restore_run hu h hp hd hb (Function.update_self ..)
  refine hr.of_eq ?_
  rw [Function.update_idem, Function.update_comm hpb, Function.update_idem,
    Function.update_comm hpb.symm, ← hx, Function.update_eq_self, ← hn, Function.update_eq_self]

theorem Aside.kept {backup : Option Path} {a : Location} {x : Bytes}
    (ha : Aside c directory base view target backup v) (ht : base.walk target ≠ .entry a)
    (hx : view a = some (.file x)) : v a = some (.file x) := by
  cases ha with
  | free _ => exact hx
  | @moved n p b y hp hy hb hn =>
    have hab := ne_of_taken hx hn
    have hap : a ≠ p := by
      rintro rfl
      exact ht hp
    rw [Function.update_of_ne hab, Function.update_of_ne hap, hx]

theorem Aside.replaces {backup : Option Path} {p : Location}
    (ha : Aside c directory base view f.staged.target backup v)
    (hp : base.walk f.staged.target = .entry p) (hd : v p ≠ some .directory) :
    Replaces c directory base view f ⟨f.staged.target, backup⟩
      (update (update v f.place none) p (some (.file f.content))) := by
  cases ha with
  | free hfree =>
    refine .fresh hp ?_
    cases hv : view p with
    | none => rfl
    | some n =>
      cases n with
      | directory => exact absurd hv hd
      | file x => exact absurd ⟨p, x, hp, hv⟩ hfree
  | moved n hp' hx hb hn =>
    rw [hp] at hp'
    cases hp'
    exact .backedUp n hp hx hb hn

theorem not_mem_of_apart (hf : Apart c directory base target) {p : Location}
    (hp : base.walk target = .entry p) (hr : Ready c directory base view fs) :
    p ∉ fs.map (·.place) := by
  intro hm
  obtain ⟨g, hg, hgp⟩ := List.mem_map.1 hm
  obtain ⟨n, hn⟩ := hr.temporary g hg
  have hw := hr.walk g hg
  rw [hn, hgp] at hw
  exact hf n p hw hp

theorem install_run (hf : Apart c directory base f.staged.target) (h : w.Shows base view)
    (hr : Ready c directory base view [f]) :
    (∃ e, ((install directory f.staged).run c w).1 = .error e ∧
      (UndoesReliably c →
        (((install directory f.staged).run c w).2).Shows base (update view f.place none))) ∨
    ∃ i v, ((install directory f.staged).run c w).1 = .ok i ∧
      Replaces c directory base view f i v ∧
      (((install directory f.staged).run c w).2).Shows base v := by
  have hwalk := hr.walk f (by simp)
  have hfile := hr.file f (by simp)
  have htarget : base.walk f.staged.target ≠ .entry f.place :=
    fun hw => not_mem_of_apart hf hw hr (by simp)
  simp only [install, run_bind]
  rcases moveAside_run (c := c) directory f.staged.target h with
    ⟨e, he, hs⟩ | ⟨backup, v, hok, ha, hs⟩
  · rw [he]
    refine .inl ⟨e, rfl, ?_⟩
    intro hu
    simp only [run_bind]
    rw [run_ask]
    exact discard_shows (hu _ _ rfl) (hs hu) hwalk hfile
  · rw [hok]
    simp only [run_bind]
    rw [run_ask]
    rcases move_answer (c := c) (q := f.staged.target) hs hwalk (ha.kept htarget hfile) with
      ⟨hmove, hms⟩ | ⟨p, hmove, hp, hd, hms⟩
    · rw [hmove]
      cases ha with
      | free _ =>
        refine .inl ⟨_, rfl, ?_⟩
        intro hu
        exact discard_shows (hu _ _ rfl) hms hwalk hfile
      | moved n hp hx hb hn =>
        refine .inl ⟨.io f.staged.target, ?_, ?_⟩
        · simp only [Bool.false_eq_true, if_false, Option.isSome_some, if_true, run_bind]
          rfl
        · intro hu
          have hback := aside_restore_run hu hp hx hb hn hms
          simp only [Bool.false_eq_true, if_false, Option.isSome_some, if_true, run_bind]
          rw [run_ask]
          exact discard_shows (hu _ _ rfl) hback hwalk hfile
    · rw [hmove]
      exact .inr ⟨_, _, rfl, ha.replaces hp hd, hms⟩

theorem not_mem_of_none {b : Location} (hn : view b = none)
    (hr : Ready c directory base view fs) : b ∉ fs.map (·.place) := by
  intro hm
  obtain ⟨g, hg, hgb⟩ := List.mem_map.1 hm
  have hfile := hr.file g hg
  rw [hgb, hn] at hfile
  cases hfile

theorem Replaces.ready {i : Installed} (hi : Replaces c directory base view f i v)
    (hf : Apart c directory base f.staged.target) (hr : Ready c directory base view (f :: fs)) :
    Ready c directory base v fs := by
  refine hr.tail.congr ?_
  intro g hg
  have hgf := hr.place_ne hg
  have hmem : g.place ∈ fs.map (·.place) := List.mem_map_of_mem hg
  cases hi with
  | fresh hp hn =>
    have hgp := ne_of_mem_of_not_mem hmem (not_mem_of_apart hf hp hr.tail)
    rw [Function.update_of_ne hgp, Function.update_of_ne hgf]
  | backedUp n hp hx hb hn =>
    have hgp := ne_of_mem_of_not_mem hmem (not_mem_of_apart hf hp hr.tail)
    have hgb := ne_of_mem_of_not_mem hmem (not_mem_of_none hn hr.tail)
    rw [Function.update_of_ne hgp, Function.update_of_ne hgf, Function.update_of_ne hgb,
      Function.update_of_ne hgp]

-- What a step replaces becomes a file under a temporary name. Apart from such files, the step puts
-- the content in its place and does nothing else.
theorem Replaces.keeps {i : Installed} (hi : Replaces c directory base view f i v)
    (hf : Apart c directory base f.staged.target) (hr : Ready c directory base view (f :: fs)) :
    ∃ p bs, base.walk f.staged.target = .entry p ∧
      i.backup.toList = bs.map (·.staged.temporary) ∧
      (∀ g ∈ bs, g.staged.target = f.staged.target ∧ view p = some (.file g.content)) ∧
      Ready c directory base v (bs ++ fs) ∧
      without v (bs ++ fs) = update (without view (f :: fs)) p (some (.file f.content)) := by
  have hready := hi.ready hf hr
  have hfile := hr.file f (by simp)
  cases hi with
  | @fresh p hp hn =>
    refine ⟨p, [], hp, rfl, List.forall_mem_nil _, hready, ?_⟩
    rw [List.nil_append, without_update_of_not_mem (not_mem_of_apart hf hp hr.tail), without_cons]
  | @backedUp n p b x hp hx hb hn =>
    have hbf := (ne_of_taken hfile hn).symm
    have hbp := (ne_of_taken hx hn).symm
    have hpf : p ≠ f.place := fun he => not_mem_of_apart hf hp hr (by simp [he])
    refine ⟨p, [⟨⟨directory.join (c.names n), f.staged.target⟩, b, x⟩], hp, rfl,
      List.forall_mem_singleton.2 ⟨rfl, hx⟩, ?_, ?_⟩
    · refine hready.cons hb ?_ (not_mem_of_none hn hr.tail) ⟨n, rfl⟩
      rw [Function.update_of_ne hbp, Function.update_of_ne hbf, Function.update_self]
    · have hself : update (update view p none) b none = update view p none := by
        rw [Function.update_eq_self_iff, Function.update_of_ne hbp, hn]
      rw [List.singleton_append, without_cons, without_cons,
        ← without_update_of_not_mem (not_mem_of_apart hf hp hr.tail),
        Function.update_comm hbp.symm, Function.update_comm hbf.symm, Function.update_idem, hself,
        Function.update_comm hpf, Function.update_idem]

theorem Replaces.rollBack_run {i : Installed} (hi : Replaces c directory base view f i v)
    (hf : Apart c directory base f.staged.target) (hr : Ready c directory base view (f :: fs))
    (hu : UndoesReliably c) (h : w.Shows base (without v fs)) :
    ((i.rollBack.run c w).2).Shows base (without view (f :: fs)) := by
  have hfile := hr.file f (by simp)
  cases hi with
  | @fresh p hp hn =>
    have hpm := not_mem_of_apart hf hp hr
    have hpf : p ≠ f.place := fun he => hpm (by simp [he])
    have hps : p ∉ fs.map (·.place) := fun hm => hpm (by simp [List.mem_map.1 hm])
    have hrun := remove_run hu h hp
      (by rw [without_of_not_mem hps, Function.update_self])
    have hself : update view p none = view := Function.update_eq_self_iff.2 hn.symm
    refine hrun.of_eq ?_
    rw [without_update_of_not_mem hps, Function.update_idem, ← without_update_of_not_mem hps,
      without_cons, Function.update_comm hpf.symm, hself]
  | @backedUp n p b x hp hx hb hn =>
    have hpm := not_mem_of_apart hf hp hr
    have hpf : p ≠ f.place := fun he => hpm (by simp [he])
    have hps : p ∉ fs.map (·.place) := fun hm => hpm (by simp [List.mem_map.1 hm])
    have hbs := not_mem_of_none hn hr.tail
    have hbf := (ne_of_taken hfile hn).symm
    have hbp := (ne_of_taken hx hn).symm
    have hrun := restore_run hu h hp (p := p) (b := b) (x := x) ?_ hb ?_
    · refine hrun.of_eq ?_
      funext d
      by_cases hdp : d = p
      · subst hdp
        rw [Function.update_self, without_of_not_mem hpm, hx]
      · rw [Function.update_of_ne hdp]
        by_cases hdb : d = b
        · subst hdb
          rw [Function.update_self, without_cons, without_of_not_mem hbs,
            Function.update_of_ne hbf, hn]
        · rw [Function.update_of_ne hdb, without_cons]
          simp only [without, Function.update_apply, hdp, hdb, if_false]
    · rw [without_of_not_mem hps, Function.update_self]
      simp
    · rw [without_of_not_mem hbs, Function.update_of_ne hbp, Function.update_of_ne hbf,
        Function.update_self]

theorem discardAll_run (hu : UndoesReliably c) (h : w.Shows base view)
    (hr : Ready c directory base view fs) :
    (((discardAll (fs.map (·.staged.temporary))).run c w).2).Shows base (without view fs) := by
  induction fs generalizing w view with
  | nil => exact h
  | cons f fs ih =>
    simp only [List.map_cons, discardAll, run_bind]
    rw [run_ask]
    have hd := discard_shows (hu _ _ rfl) h (hr.walk f (by simp)) (hr.file f (by simp))
    rw [without_cons]
    refine ih hd (hr.tail.congr ?_)
    intro g hg
    rw [Function.update_of_ne (hr.place_ne hg)]

theorem discardAll_frame (qs : List Path) (h : w.Shows base view) :
    ∃ v, (((discardAll qs).run c w).2).Shows base v ∧
      ∀ b, (∀ q ∈ qs, base.walk q ≠ .entry b) → v b = view b := by
  induction qs generalizing w view with
  | nil => exact ⟨view, h, fun _ _ => rfl⟩
  | cons q qs ih =>
    simp only [discardAll, run_bind]
    rw [run_ask]
    obtain ⟨v, hv, hve⟩ := discard_frame (c := c) (p := q) h
    obtain ⟨u, hu, hue⟩ := ih hv
    refine ⟨u, hu, ?_⟩
    intro b hb
    rw [hue b fun p hp => hb p (by simp [hp]), hve b (hb q (by simp))]

theorem installAll_run (hf : ∀ f ∈ fs, Apart c directory base f.staged.target)
    (h : w.Shows base view) (hr : Ready c directory base view (fs ++ ks)) :
    (∃ e tried rest, fs = tried ++ rest ∧
      ((installAll directory (fs.map (·.staged))).run c w).1 = .error ⟨e, rest.map (·.staged)⟩ ∧
      (UndoesReliably c → (((installAll directory (fs.map (·.staged))).run c w).2).Shows base
        (without view tried))) ∨
    ∃ is bs v, ((installAll directory (fs.map (·.staged))).run c w).1 = .ok is ∧
      (((installAll directory (fs.map (·.staged))).run c w).2).Shows base v ∧
      is.filterMap (·.backup) = bs.map (·.staged.temporary) ∧
      Ready c directory base v (bs ++ ks) ∧
      Puts base (without view (fs ++ ks)) (fs.map fun f => (f.staged.target, f.content))
        (without v (bs ++ ks)) := by
  induction fs generalizing w view ks with
  | nil => exact .inr ⟨[], [], view, rfl, h, rfl, hr, .nil⟩
  | cons f fs ih =>
    have hff := hf f (by simp)
    have hleft := hr.left
    have hfirst : Ready c directory base view ([f] ++ fs) := hleft
    have hone := hfirst.left
    simp only [List.map_cons, installAll, run_bind]
    rcases install_run hff h hone with ⟨e, he, hs⟩ | ⟨i, v, hi, hrep, hs⟩
    · rw [he]
      refine .inl ⟨e, [f], fs, rfl, rfl, ?_⟩
      intro hu
      rw [without_cons]
      exact hs hu
    · rw [hi]
      have hall : Ready c directory base view (f :: (fs ++ ks)) := hr
      obtain ⟨p, bs, hp, hbs, -, hready, hput⟩ := hrep.keeps hff hall
      have hswap := List.perm_append_comm_assoc bs fs ks
      simp only [run_bind]
      rcases ih (fun g hg => hf g (by simp [hg])) hs (hready.perm hswap) with
        ⟨e, tried, rest, hfs, he, hes⟩ | ⟨is, cs, u, his, hus, hcs, hkept, hputs⟩
      · rw [he]
        refine .inl ⟨e, f :: tried, rest, by rw [hfs]; rfl, by simp only [run_bind, run_pure], ?_⟩
        intro hu
        have hsplit : Ready c directory base view (f :: tried ++ rest) := by
          rw [List.cons_append, ← hfs]
          exact hleft
        have htried := hsplit.left
        simp only [run_bind]
        exact hrep.rollBack_run hff htried hu (hes hu)
      · rw [his]
        have hback := (List.perm_append_comm_assoc cs bs ks).trans (.of_eq (List.append_assoc ..).symm)
        refine .inr ⟨i :: is, bs ++ cs, u, rfl, hus, ?_, hkept.perm hback, ?_⟩
        · rw [List.map_append, ← hbs, ← hcs]
          cases hb : i.backup with
          | none => rw [List.filterMap_cons_none hb, Option.toList_none, List.nil_append]
          | some q =>
            rw [List.filterMap_cons_some hb, Option.toList_some, List.singleton_append]
        · refine .cons hp ?_
          rw [← without_perm hback]
          rw [← without_perm hswap, hput] at hputs
          exact hputs

end Credential.FileTarget
