import Credential.Proofs.Destination.Installing
/-!
The states that a disk passes through while files are staged, take their places and are put back. In
every one of them a place that a target leads to holds only what is meant for it.
-/

namespace Credential

namespace Disk.Script

variable {c : Conduct} {w w' w'' : World} {P Q : Storage → Prop}

def World.Passes (w w' : World) (P : Storage → Prop) : Prop :=
  ∀ s ∈ w'.history, s ∈ w.history ∨ P s

theorem World.Passes.refl (w : World) : w.Passes w P := fun _ hs => .inl hs

theorem World.Passes.trans (h : w.Passes w' P) (h' : w'.Passes w'' P) : w.Passes w'' P := by
  intro s hs
  rcases h' s hs with hs | hs
  · exact h s hs
  · exact .inr hs

theorem World.Passes.mono (h : w.Passes w' P) (hPQ : ∀ s, P s → Q s) : w.Passes w' Q :=
  fun s hs => (h s hs).imp_right (hPQ s)

theorem answer_passes {op : Operation} (h : P (answer c w op).2.storage) :
    w.Passes (answer c w op).2 P := by
  intro s hs
  have hhistory : (answer c w op).2.history = (answer c w op).2.storage :: w.history := rfl
  rw [hhistory] at hs
  rcases List.mem_cons.1 hs with rfl | hs
  · exact .inr h
  · exact .inl hs

end Disk.Script

namespace FileTarget

open Disk Script
open Function (update)

-- What stands at a temporary path is meant for the place of its target. A target stands for itself.
def Due (base : Tree) (L : Location → Bytes → Prop) (ks : List Staged) (view : View) : Prop :=
  ∀ k ∈ ks, ∀ q x p, base.walk k.temporary = .entry q → view q = some (.file x) →
    base.walk k.target = .entry p → L p x

def Safe (base : Tree) (L : Location → Bytes → Prop) (ks : List Staged) (s : Storage) : Prop :=
  ∃ view, (World.start s).Shows base view ∧ Due base L ks view

structure Course (base : Tree) (L : Location → Bytes → Prop) (ks : List Staged) (w w' : World) :
    Prop where
  passes : w.Passes w' (Safe base L ks)
  safe : Safe base L ks w'.storage

def Separate (base : Tree) (ks : List Staged) : Prop :=
  ∀ k ∈ ks, ∀ k' ∈ ks, ∀ p, base.walk k.target = .entry p → base.walk k'.temporary = .entry p →
    base.walk k'.target = .entry p

def Guarded (c : Conduct) (directory : Path) (base : Tree) (ks : List Staged) (view : View) : Prop :=
  ∀ n a, base.walk (directory.join (c.names n)) = .entry a → view a = none →
    ∀ k ∈ ks, base.walk k.temporary ≠ .entry a

variable {c : Conduct} {w w' w'' : World} {base : Tree} {L : Location → Bytes → Prop}
  {view v : View} {directory target p : Path} {ks ks' : List Staged} {f : Placed}
  {fs : List Placed} {a : Location}

theorem Due.update (h : Due base L ks view) (ha : ∀ k ∈ ks, base.walk k.temporary ≠ .entry a)
    (n : Option Node) : Due base L ks (update view a n) := by
  intro k hk q x p hq hx hp
  have hqa : q ≠ a := by
    rintro rfl
    exact ha k hk hq
  rw [Function.update_of_ne hqa] at hx
  exact h k hk q x p hq hx hp

theorem Due.remove (h : Due base L ks view) (a : Location) :
    Due base L ks (Function.update view a none) := by
  intro k hk q x p hq hx hp
  rw [Function.update_apply] at hx
  split at hx
  · cases hx
  · exact h k hk q x p hq hx hp

theorem Due.subset (h : Due base L ks view) (hs : ks' ⊆ ks) : Due base L ks' view :=
  fun k hk => h k (hs hk)

theorem Safe.of_shows (h : w.Shows base view) (hd : Due base L ks view) :
    Safe base L ks w.storage :=
  ⟨view, shows_of_storage h rfl, hd⟩

theorem Safe.subset {s : Storage} (h : Safe base L ks s) (hs : ks' ⊆ ks) : Safe base L ks' s := by
  obtain ⟨view, hv, hd⟩ := h
  exact ⟨view, hv, hd.subset hs⟩

namespace Course

theorem refl (h : w.Shows base view) (hd : Due base L ks view) : Course base L ks w w :=
  ⟨.refl w, .of_shows h hd⟩

theorem step {op : Operation} (h : (answer c w op).2.Shows base view) (hd : Due base L ks view) :
    Course base L ks w (answer c w op).2 :=
  ⟨answer_passes (.of_shows h hd), .of_shows h hd⟩

theorem of_safe (hp : w.Passes w' fun s => Safe base L ks s ∨ s = w'.storage)
    (hs : Safe base L ks w'.storage) : Course base L ks w w' := by
  refine ⟨hp.mono ?_, hs⟩
  rintro s (hsafe | rfl)
  · exact hsafe
  · exact hs

theorem trans (h : Course base L ks w w') (h' : Course base L ks w' w'') :
    Course base L ks w w'' :=
  ⟨h.passes.trans h'.passes, h'.safe⟩

theorem subset (h : Course base L ks w w') (hs : ks' ⊆ ks) : Course base L ks' w w' :=
  ⟨h.passes.mono fun _ hw => hw.subset hs, h.safe.subset hs⟩

theorem discard (h : Course base L ks w w') (p : Path) :
    Course base L ks w (answer c w' (.discard p)).2 := by
  obtain ⟨view, hv, hd⟩ := h.safe
  refine h.trans ?_
  rcases discard_answer (c := c) (p := p) (shows_of_storage hv rfl : w'.Shows base view) with
    hs | ⟨a, x, -, -, hs⟩
  · exact step hs hd
  · exact step hs (hd.remove a)

theorem restore (h : Course base L ks w w') (hs : Separate base ks) {k : Staged} (hk : k ∈ ks) :
    Course base L ks w (answer c w' (.restore k.temporary k.target)).2 := by
  obtain ⟨view, hv, hd⟩ := h.safe
  refine h.trans ?_
  rcases restore_answer (c := c) (p := k.temporary) (q := k.target)
    (shows_of_storage hv rfl : w'.Shows base view) with hw | ⟨a, x, b, ha, hx, hb, hw⟩
  · exact step hw hd
  · refine step hw ?_
    intro k' hk' q y p hq hy hp
    by_cases hqb : q = b
    · subst hqb
      rw [Function.update_self] at hy
      cases hy
      obtain rfl := Walk.entry.inj (hp.symm.trans (hs k hk k' hk' q hb hq))
      exact hd k hk a x p ha hx hb
    · rw [Function.update_of_ne hqb] at hy
      exact hd.remove a k' hk' q y p hq hy hp

end Course

theorem discardAll_course (qs : List Path) (h : Course base L ks w w') :
    Course base L ks w ((discardAll qs).run c w').2 := by
  induction qs generalizing w' with
  | nil => exact h
  | cons q qs ih =>
    simp only [discardAll, run_bind]
    rw [run_ask]
    exact ih (h.discard q)

theorem Halted.clear_course (halted : Halted) (h : Course base L ks w w') :
    Course base L ks w (halted.clear.run c w').2 := by
  simp only [clear, run_bind, run_pure]
  exact discardAll_course _ h

theorem rollBack_course {i : Installed} (h : Course base L ks w w') (hs : Separate base ks)
    (hi : ∀ q, i.backup = some q → ⟨q, i.target⟩ ∈ ks) :
    Course base L ks w (i.rollBack.run c w').2 := by
  obtain ⟨target, backup⟩ := i
  cases backup with
  | none =>
    simp only [Installed.rollBack, run_bind]
    rw [run_ask]
    exact h.discard target
  | some q =>
    have hr := h.restore (c := c) hs (hi q rfl)
    simp only [Installed.rollBack, run_bind]
    rw [run_ask]
    cases (answer c w' (.restore q target)).1 with
    | true => exact hr
    | false =>
      simp only [Bool.false_eq_true, if_false, run_bind]
      rw [run_ask]
      exact hr.discard q

theorem stage_course (x : Bytes) (h : w.Shows base view) (hd : Due base L ks view)
    (hg : Guarded c directory base ks view) : Course base L ks w ((stage directory x).run c w).2 := by
  simp only [stage, run_bind]
  rw [run_ask]
  rcases createTemporary_answer (c := c) (p := directory) h with ⟨hn, hs⟩ | ⟨a, hn, hw, hv, hs⟩
  · rw [hn]
    exact .step hs hd
  · rw [hn]
    have ha := hg _ a hw hv
    have hcreated := Course.step hs (hd.update ha _)
    obtain ⟨z, -, hz⟩ := write_shows (c := c) (x := x) hs hw (by rw [Function.update_self])
    have hwritten := hcreated.trans (.step hz ((hd.update ha _).update ha _))
    simp only [run_bind]
    rw [run_ask]
    cases (answer c (answer c w (.createTemporary directory)).2
        (.write (directory.join (c.names w.count)) x)).1 with
    | true => exact hwritten
    | false =>
      simp only [Bool.false_eq_true, if_false, run_bind]
      rw [run_ask]
      exact hwritten.discard _

theorem Guarded.update (h : Guarded c directory base ks view) (n : Node) :
    Guarded c directory base ks (update view a (some n)) := by
  intro k b hb hn
  rw [Function.update_apply] at hn
  split at hn
  · cases hn
  · exact h k b hb hn

theorem stageAll_course (files : List (Path × Except WriteError Bytes)) (h : w.Shows base view)
    (hd : Due base L ks view) (hg : Guarded c directory base ks view) :
    Course base L ks w ((stageAll directory files).run c w).2 := by
  induction files generalizing w view with
  | nil => exact .refl h hd
  | cons file rest ih =>
    obtain ⟨target, content⟩ := file
    cases content with
    | error e => exact .refl h hd
    | ok x =>
      have hfirst := stage_course (c := c) x h hd hg
      simp only [stageAll, run_bind]
      rcases stage_run (c := c) directory h x with ⟨e, he, -⟩ | ⟨n, a, hq, hw, hv, hs⟩
      · rw [he]
        exact hfirst
      · rw [hq]
        have hrest := hfirst.trans (ih hs (hd.update (hg n a hw hv) _) (hg.update _))
        simp only [run_bind]
        cases ((stageAll directory rest).run c ((stage directory x).run c w).2).1 with
        | error h => exact hrest
        | ok others => exact hrest

theorem moveAside_course (target : Path) (h : w.Shows base view) (hd : Due base L ks view)
    (hg : Guarded c directory base ks view) :
    Course base L ks w ((moveAside directory target).run c w).2 := by
  simp only [moveAside, run_bind]
  rw [run_ask]
  obtain ⟨hs, hi⟩ := inspect_shows (c := c) (p := target) h
  have hinspected := Course.step hs hd
  cases hr : (answer c w (.inspect target)).1 with
  | none => exact hinspected
  | some k =>
    cases k with
    | directory => exact hinspected
    | file =>
      obtain ⟨p, x, hp, hx⟩ := hi.1 hr
      simp only [run_bind]
      rw [run_ask]
      rcases createTemporary_answer (c := c) (p := directory) hs with
        ⟨hn, hs'⟩ | ⟨b, hn, hb, hv, hs'⟩
      · rw [hn]
        exact hinspected.trans (.step hs' hd)
      · rw [hn]
        have hkeep := hg _ b hb hv
        have hcreated := hinspected.trans (.step hs' (hd.update hkeep _))
        simp only [run_bind]
        rw [run_ask]
        rcases move_answer (c := c) (q := directory.join (c.names
            (answer c w (.inspect target)).2.count)) hs' hp
            (by rw [Function.update_of_ne (ne_of_taken hx hv), hx]) with
          ⟨hm, hms⟩ | ⟨b', hm, hb', -, hms⟩
        · rw [hm]
          exact (hcreated.trans (.step hms (hd.update hkeep _))).discard _
        · rw [hb] at hb'
          cases hb'
          rw [hm]
          exact hcreated.trans (.step hms (((hd.update hkeep _).remove p).update hkeep _))

theorem Aside.due {backup : Option Path} (ha : Aside c directory base view target backup v)
    (hd : Due base L ks view) (hg : Guarded c directory base ks view)
    (ht : ⟨target, target⟩ ∈ ks) : Due base L (backup.toList.map (⟨·, target⟩) ++ ks) v := by
  cases ha with
  | free _ => exact hd
  | @moved n p b x hp hx hb hn =>
    have hkeep := hg n b hb hn
    refine List.forall_mem_cons.2 ⟨?_, (hd.remove p).update hkeep _⟩
    intro q y p' hq hy hp'
    obtain rfl := Walk.entry.inj (hb.symm.trans hq)
    rw [Function.update_self] at hy
    cases hy
    exact hd _ ht p x p' hp hx hp'

def Paired (c : Conduct) (directory : Path) (base : Tree) (ks : List Staged) : Prop :=
  ∀ k ∈ ks, Apart c directory base k.target ∧
    (k.temporary = k.target ∨ ∃ n, k.temporary = directory.join (c.names n))

theorem Paired.separate (h : Paired c directory base ks) : Separate base ks := by
  intro k hk k' hk' p hp hq
  rcases (h k' hk').2 with he | ⟨n, hn⟩
  · rwa [← he]
  · rw [hn] at hq
    exact absurd hp ((h k hk).1 n p hq)

theorem Aside.paired {backup : Option Path} (ha : Aside c directory base view target backup v)
    (hk : Paired c directory base ks) (ht : Apart c directory base target) :
    Paired c directory base (backup.toList.map (⟨·, target⟩) ++ ks) := by
  cases ha with
  | free _ => exact hk
  | moved n _ _ _ _ => exact List.forall_mem_cons.2 ⟨⟨ht, .inr ⟨n, rfl⟩⟩, hk⟩

structure Standing (c : Conduct) (directory : Path) (base : Tree) (L : Location → Bytes → Prop)
    (ks : List Staged) (view : View) : Prop where
  due : Due base L ks view
  guarded : Guarded c directory base ks view
  paired : Paired c directory base ks

theorem install_course (hf : Apart c directory base f.staged.target) (h : w.Shows base view)
    (hr : Ready c directory base view [f]) (hk : Standing c directory base L ks view)
    (ht : ⟨f.staged.target, f.staged.target⟩ ∈ ks) :
    (∃ e, ((install directory f.staged).run c w).1 = .error e ∧
      Course base L ks w ((install directory f.staged).run c w).2) ∨
    ∃ i, ((install directory f.staged).run c w).1 = .ok i ∧
      w.Passes ((install directory f.staged).run c w).2 fun s =>
        Safe base L ks s ∨ s = ((install directory f.staged).run c w).2.storage := by
  have hwalk := hr.walk f (by simp)
  have hfile := hr.file f (by simp)
  have htarget : base.walk f.staged.target ≠ .entry f.place :=
    fun hw => not_mem_of_apart hf hw hr (by simp)
  have haside := moveAside_course (c := c) f.staged.target h hk.due hk.guarded
  simp only [install, run_bind]
  rcases moveAside_run (c := c) directory f.staged.target h with
    ⟨e, he, -⟩ | ⟨backup, v, hok, ha, hs⟩
  · rw [he]
    refine .inl ⟨e, rfl, ?_⟩
    simp only [run_bind]
    rw [run_ask]
    exact haside.discard _
  · rw [hok]
    simp only [run_bind]
    rw [run_ask]
    rcases move_answer (c := c) (q := f.staged.target) hs hwalk (ha.kept htarget hfile) with
      ⟨hmove, hms⟩ | ⟨p, hmove, -, -, hms⟩
    · rw [hmove]
      have hmoved := Course.step hms (ha.due hk.due hk.guarded ht)
      have hsub : ks ⊆ backup.toList.map (⟨·, f.staged.target⟩) ++ ks :=
        List.subset_append_right _ _
      cases backup with
      | none =>
        refine .inl ⟨_, rfl, ?_⟩
        exact (haside.trans (hmoved.subset hsub)).discard _
      | some q =>
        refine .inl ⟨.io f.staged.target, ?_, ?_⟩
        · simp only [Bool.false_eq_true, if_false, Option.isSome_some, if_true, run_bind]
          rfl
        · simp only [Bool.false_eq_true, if_false, Option.isSome_some, if_true, run_bind]
          rw [run_ask]
          have hback := rollBack_course (c := c) (i := ⟨f.staged.target, some q⟩) hmoved
            (ha.paired hk.paired hf).separate (by rintro _ ⟨⟩; simp)
          exact (haside.trans (hback.subset hsub)).discard _
    · rw [hmove]
      refine .inr ⟨_, rfl, ?_⟩
      exact (haside.passes.mono fun _ => .inl).trans (answer_passes (.inr rfl))

def Meant (base : Tree) (L : Location → Bytes → Prop) (fs : List Placed) : Prop :=
  ∀ f ∈ fs, ∀ p, base.walk f.staged.target = .entry p → L p f.content

def own (ts : List Path) : List Staged := ts.map fun p => ⟨p, p⟩

variable {ts : List Path} {gs : List Placed} {l : Placed}

theorem due_own_iff : Due base L (own ts) view ↔
    ∀ p ∈ ts, ∀ a x, base.walk p = .entry a → view a = some (.file x) → L a x := by
  unfold Due own
  rw [List.forall_mem_map]
  constructor
  · intro h p hp a x ha hx
    exact h p hp a x a ha hx ha
  · intro h p hp q x a hq hx ha
    obtain rfl := Walk.entry.inj (hq.symm.trans ha)
    exact h p hp q x hq hx

theorem mem_own_append (hp : p ∈ ts) : ⟨p, p⟩ ∈ own ts ++ ks :=
  List.mem_append_left ks (List.mem_map_of_mem hp)

theorem Ready.due (h : Ready c directory base view fs) (hm : Meant base L fs) :
    Due base L (fs.map (·.staged)) view := by
  refine List.forall_mem_map.2 ?_
  intro f hf q x p hq hx hp
  obtain rfl := Walk.entry.inj ((h.walk f hf).symm.trans hq)
  rw [h.file f hf] at hx
  cases hx
  exact hm f hf p hp

theorem own_standing (hts : ∀ p ∈ ts, Apart c directory base p) (hd : Due base L (own ts) view) :
    Standing c directory base L (own ts) view where
  due := hd
  guarded n a ha _ := List.forall_mem_map.2 fun p hp => hts p hp n a ha
  paired := List.forall_mem_map.2 fun p hp => ⟨hts p hp, .inl rfl⟩

theorem Ready.standing (h : Ready c directory base view fs)
    (hts : ∀ p ∈ ts, Apart c directory base p) (ht : ∀ f ∈ fs, f.staged.target ∈ ts)
    (hm : Meant base L fs) (hd : Due base L (own ts) view) :
    Standing c directory base L (own ts ++ fs.map (·.staged)) view where
  due := List.forall_mem_append.2 ⟨hd, h.due hm⟩
  guarded := by
    intro n a ha hn
    refine List.forall_mem_append.2 ⟨(own_standing hts hd).guarded n a ha hn, ?_⟩
    refine List.forall_mem_map.2 ?_
    intro f hf
    rw [h.walk f hf]
    rintro ⟨⟩
    rw [h.file f hf] at hn
    cases hn
  paired := List.forall_mem_append.2 ⟨(own_standing hts hd).paired,
    List.forall_mem_map.2 fun f hf => ⟨hts _ (ht f hf), .inr (h.temporary f hf)⟩⟩

theorem Replaces.target_eq {i : Installed} (h : Replaces c directory base view f i v) :
    i.target = f.staged.target := by
  cases h with
  | fresh _ _ => rfl
  | backedUp _ _ _ _ _ => rfl

-- A step that puts what is meant for the place leaves every target with what is meant for it, and
-- what it replaces is meant to come back.
theorem Replaces.keeps_meant {i : Installed} (hi : Replaces c directory base view f i v)
    (hts : ∀ p ∈ ts, Apart c directory base p) (hf : f.staged.target ∈ ts)
    (hr : Ready c directory base view (f :: fs)) (hm : Meant base L [f])
    (hd : Due base L (own ts) view) :
    ∃ bs, (∀ q, i.backup = some q → ⟨q, i.target⟩ ∈ bs.map (·.staged)) ∧
      (∀ g ∈ bs, g.staged.target ∈ ts) ∧ Ready c directory base v (bs ++ fs) ∧
      Meant base L bs ∧ Due base L (own ts) v := by
  obtain ⟨p, bs, hp, hbs, hg, hready, hput⟩ := hi.keeps (hts _ hf) hr
  rw [due_own_iff] at hd ⊢
  refine ⟨bs, ?_, ?_, hready, ?_, ?_⟩
  · intro q hq
    have hmem : q ∈ bs.map (·.staged.temporary) := by
      rw [← hbs, hq]
      exact List.mem_singleton_self q
    obtain ⟨g, hgb, rfl⟩ := List.mem_map.1 hmem
    rw [hi.target_eq, ← (hg g hgb).1]
    exact List.mem_map_of_mem hgb
  · intro g hgb
    rw [(hg g hgb).1]
    exact hf
  · intro g hgb a ha
    obtain ⟨htarget, hx⟩ := hg g hgb
    rw [htarget, hp] at ha
    cases ha
    exact hd _ hf p g.content hp hx
  · intro q hq a x ha hx
    have hold := without_of_not_mem (v := view) (not_mem_of_apart (hts q hq) ha hr)
    have hnew := without_of_not_mem (v := v) (not_mem_of_apart (hts q hq) ha hready)
    rw [← hnew, hput, Function.update_apply, hold] at hx
    split at hx
    · rename_i hap
      cases hx
      exact hm f (by simp) a (hap ▸ hp)
    · exact hd q hq a x ha hx

theorem own_append_subset (ts : List Path) (bs gs : List Placed) :
    own ts ++ gs.map (·.staged) ⊆ own ts ++ (bs ++ gs).map (·.staged) := by
  rw [List.map_append]
  exact List.append_subset.2 ⟨List.subset_append_left _ _,
    List.subset_append_of_subset_right _ (List.subset_append_right _ _)⟩

-- All files but the last one are meant for their places. Until the last one takes its place, they
-- and what they replace are all that there is at the targets, and nothing is done after that.
theorem installAll_course (hts : ∀ p ∈ ts, Apart c directory base p)
    (ht : ∀ f ∈ fs ++ [l], f.staged.target ∈ ts) (hg : ∀ g ∈ gs, g.staged.target ∈ ts)
    (h : w.Shows base view) (hr : Ready c directory base view (fs ++ [l] ++ gs))
    (hfs : Meant base L fs) (hgs : Meant base L gs) (hd : Due base L (own ts) view) :
    (∃ halted, ((installAll directory ((fs ++ [l]).map (·.staged))).run c w).1 = .error halted ∧
      Course base L (own ts ++ gs.map (·.staged)) w
        ((installAll directory ((fs ++ [l]).map (·.staged))).run c w).2) ∨
    ∃ is, ((installAll directory ((fs ++ [l]).map (·.staged))).run c w).1 = .ok is ∧
      w.Passes ((installAll directory ((fs ++ [l]).map (·.staged))).run c w).2 fun s =>
        Safe base L (own ts) s ∨
          s = ((installAll directory ((fs ++ [l]).map (·.staged))).run c w).2.storage := by
  induction fs generalizing w view gs with
  | nil =>
    have hl := ht l (by simp)
    have hone : Ready c directory base view ([l] ++ gs) := hr
    have hstanding := hone.right.standing hts hg hgs hd
    simp only [List.nil_append, List.map_cons, List.map_nil, installAll, run_bind]
    rcases install_course (hts _ hl) h hone.left hstanding (mem_own_append hl) with
      ⟨e, he, hc⟩ | ⟨i, hi, hp⟩
    · rw [he]
      exact .inl ⟨_, rfl, hc⟩
    · rw [hi]
      exact .inr ⟨_, rfl, hp.mono fun s => Or.imp_left fun hs => hs.subset (by simp)⟩
  | cons f fs ih =>
    have hf := ht f (by simp)
    have hone : Ready c directory base view ([f] ++ (fs ++ [l] ++ gs)) := hr
    have hstanding := hr.right.standing hts hg hgs hd
    simp only [List.cons_append, List.map_cons, installAll, run_bind]
    rcases install_course (hts _ hf) h hone.left hstanding (mem_own_append hf) with
      ⟨e, he, hc⟩ | ⟨i, hi, hp⟩
    · rw [he]
      exact .inl ⟨_, rfl, hc⟩
    · rcases install_run (hts _ hf) h hone.left with ⟨e, he, -⟩ | ⟨i', v, hi', hrep, hs⟩
      · rw [hi] at he
        cases he
      · obtain rfl := Except.ok.inj (hi.symm.trans hi')
        rw [hi]
        obtain ⟨bs, hback, hbt, hready, hbs, hdue⟩ :=
          hrep.keeps_meant hts hf hr (fun g hg => hfs g (by simp_all)) hd
        have hall := hready.perm (List.perm_append_comm_assoc bs (fs ++ [l]) gs)
        have hbg : ∀ g ∈ bs ++ gs, g.staged.target ∈ ts := List.forall_mem_append.2 ⟨hbt, hg⟩
        have hmeant : Meant base L (bs ++ gs) := List.forall_mem_append.2 ⟨hbs, hgs⟩
        have hnext := hall.right.standing hts hbg hmeant hdue
        have hkeep := own_append_subset ts bs gs
        have hfirst := Course.of_safe hp ((Safe.of_shows hs hnext.due).subset hkeep)
        simp only [run_bind]
        rcases ih (fun g hm => ht g (List.mem_cons_of_mem f hm)) hbg hs hall
            (fun g hm => hfs g (List.mem_cons_of_mem f hm)) hmeant hdue with
          ⟨e, he, hc⟩ | ⟨is, his, hps⟩
        · rw [he]
          refine .inl ⟨e, by simp only [run_bind, run_pure], ?_⟩
          simp only [run_bind, run_pure]
          refine hfirst.trans ((rollBack_course hc hnext.paired.separate ?_).subset hkeep)
          intro q hq
          rw [List.map_append]
          exact List.mem_append_right _ (List.mem_append_left _ (hback q hq))
        · rw [his]
          exact .inr ⟨_, rfl, World.Passes.trans
            (hfirst.passes.mono fun s hs => .inl (hs.subset (by simp))) hps⟩

end FileTarget

end Credential
