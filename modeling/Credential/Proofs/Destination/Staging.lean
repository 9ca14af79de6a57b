import Credential.Destination.Writing
import Credential.Proofs.Disk.Operation

namespace Credential.FileTarget

open Disk Script
open Function (update)

def UndoesReliably (c : Conduct) : Prop := ∀ n op, op.isUndoing = true → c.fails n op = false

structure Placed where
  staged : Staged
  place : Location
  content : Bytes

structure Ready (c : Conduct) (directory : Path) (base : Tree) (view : View)
    (fs : List Placed) : Prop where
  walk : ∀ f ∈ fs, base.walk f.staged.temporary = .entry f.place
  file : ∀ f ∈ fs, view f.place = some (.file f.content)
  nodup : (fs.map (·.place)).Nodup
  temporary : ∀ f ∈ fs, ∃ n, f.staged.temporary = directory.join (c.names n)

def without (view : View) (fs : List Placed) : View :=
  fun a => if a ∈ fs.map (·.place) then none else view a

variable {c : Conduct} {w : World} {base : Tree} {view v : View} {directory : Path}
  {f : Placed} {fs gs : List Placed}

theorem without_cons (view : View) (f : Placed) (fs : List Placed) :
    without view (f :: fs) = without (update view f.place none) fs := by
  funext a
  by_cases ha : a = f.place
  · subst ha
    simp [without]
  · simp [without, ha]

theorem without_of_not_mem {a : Location} (h : a ∉ fs.map (·.place)) :
    without v fs a = v a := if_neg h

theorem eq_without {a : Location} (h : without v fs a ≠ none) : v a = without v fs a :=
  (without_of_not_mem fun hm => h (if_pos hm)).symm

theorem without_update_of_not_mem {a : Location} {n : Option Node}
    (h : a ∉ fs.map (·.place)) :
    without (update view a n) fs = update (without view fs) a n := by
  funext d
  by_cases hd : d = a
  · subst hd
    rw [without_of_not_mem h, Function.update_self, Function.update_self]
  · simp [without, hd]

theorem Ready.nil : Ready c directory base view [] :=
  ⟨List.forall_mem_nil _, List.forall_mem_nil _, List.nodup_nil, List.forall_mem_nil _⟩

theorem without_append (view : View) (fs gs : List Placed) :
    without view (fs ++ gs) = without (without view fs) gs := by
  induction fs generalizing view with
  | nil => rfl
  | cons f fs ih => rw [List.cons_append, without_cons, without_cons, ih]

theorem Ready.cons (h : Ready c directory base view fs)
    (hw : base.walk f.staged.temporary = .entry f.place)
    (hx : view f.place = some (.file f.content)) (hm : f.place ∉ fs.map (·.place))
    (ht : ∃ n, f.staged.temporary = directory.join (c.names n)) :
    Ready c directory base view (f :: fs) where
  walk := List.forall_mem_cons.2 ⟨hw, h.walk⟩
  file := List.forall_mem_cons.2 ⟨hx, h.file⟩
  nodup := List.nodup_cons.2 ⟨hm, h.nodup⟩
  temporary := List.forall_mem_cons.2 ⟨ht, h.temporary⟩

theorem Ready.sublist (h : Ready c directory base view fs) (hs : gs.Sublist fs) :
    Ready c directory base view gs where
  walk g hg := h.walk g (hs.subset hg)
  file g hg := h.file g (hs.subset hg)
  nodup := h.nodup.sublist (hs.map _)
  temporary g hg := h.temporary g (hs.subset hg)

theorem Ready.tail (h : Ready c directory base view (f :: fs)) :
    Ready c directory base view fs := h.sublist (List.sublist_cons_self f fs)

theorem Ready.left (h : Ready c directory base view (fs ++ gs)) :
    Ready c directory base view fs := h.sublist (List.sublist_append_left fs gs)

theorem Ready.right (h : Ready c directory base view (fs ++ gs)) :
    Ready c directory base view gs := h.sublist (List.sublist_append_right fs gs)

theorem Ready.perm (h : Ready c directory base view fs) (hp : fs.Perm gs) :
    Ready c directory base view gs where
  walk g hg := h.walk g (hp.mem_iff.2 hg)
  file g hg := h.file g (hp.mem_iff.2 hg)
  nodup := (hp.map _).nodup_iff.1 h.nodup
  temporary g hg := h.temporary g (hp.mem_iff.2 hg)

theorem without_perm (hp : fs.Perm gs) : without v fs = without v gs := by
  funext a
  simp only [without, (hp.map (·.place)).mem_iff]

theorem Ready.without_temporary (h : Ready c directory base view fs) :
    ∀ q ∈ fs.map (·.staged.temporary), ∀ a, base.walk q = .entry a →
      without view fs a = none := by
  refine List.forall_mem_map.2 ?_
  intro f hf a ha
  obtain rfl := Walk.entry.inj ((h.walk f hf).symm.trans ha)
  exact if_pos (List.mem_map_of_mem hf)

theorem Ready.place_ne (h : Ready c directory base view (f :: fs)) {g : Placed} (hg : g ∈ fs) :
    g.place ≠ f.place := by
  intro he
  have hn : f.place ∉ fs.map (·.place) := (List.nodup_cons.1 h.nodup).1
  rw [← he] at hn
  exact hn (List.mem_map_of_mem hg)

theorem Ready.congr (h : Ready c directory base view fs) {v : View}
    (hv : ∀ g ∈ fs, v g.place = view g.place) : Ready c directory base v fs where
  walk := h.walk
  file g hg := by rw [hv g hg, h.file g hg]
  nodup := h.nodup
  temporary := h.temporary

theorem stage_run (directory : Path) (h : w.Shows base view) (x : Bytes) :
    (∃ e, ((stage directory x).run c w).1 = .error e ∧
      (UndoesReliably c → (((stage directory x).run c w).2).Shows base view)) ∨
    ∃ n a, ((stage directory x).run c w).1 = .ok (directory.join (c.names n)) ∧
      base.walk (directory.join (c.names n)) = .entry a ∧ view a = none ∧
      (((stage directory x).run c w).2).Shows base (update view a (some (.file x))) := by
  simp only [stage, run_bind]
  rw [run_ask]
  rcases createTemporary_answer (c := c) (p := directory) h with ⟨hn, hs⟩ | ⟨a, hn, hw, hv, hs⟩
  · rw [hn]
    exact .inl ⟨_, rfl, fun _ => hs⟩
  · rw [hn]
    obtain ⟨z, hz, hzs⟩ := write_shows (c := c) (x := x) hs hw (by rw [Function.update_self])
    simp only [run_bind]
    rw [run_ask]
    cases hr : (answer c (answer c w (.createTemporary directory)).2
        (.write (directory.join (c.names w.count)) x)).1 with
    | true =>
      have hzx := hz hr
      subst hzx
      refine .inr ⟨w.count, a, rfl, hw, hv, ?_⟩
      rw [Function.update_idem] at hzs
      exact hzs
    | false =>
      refine .inl ⟨_, rfl, ?_⟩
      intro hu
      have hd := discard_shows (hu _ _ rfl) hzs hw (Function.update_self ..)
      refine hd.of_eq ?_
      rw [Function.update_idem, Function.update_idem, ← hv, Function.update_eq_self]

theorem Ready.without_left (h : Ready c directory base view (fs ++ gs)) :
    Ready c directory base (without view fs) gs := by
  refine h.right.congr ?_
  intro g hg
  have hnodup := h.nodup
  rw [List.map_append] at hnodup
  exact without_of_not_mem fun hm =>
    (List.nodup_append.1 hnodup).2.2 _ hm _ (List.mem_map_of_mem hg) rfl

theorem Ready.cons_staged (h : Ready c directory base v fs)
    (hw : base.walk f.staged.temporary = .entry f.place) (hv : view f.place = none)
    (ht : ∃ n, f.staged.temporary = directory.join (c.names n))
    (hwithout : without v fs = update view f.place (some (.file f.content))) :
    Ready c directory base v (f :: fs) ∧ without v (f :: fs) = view := by
  have hmem : f.place ∉ fs.map (·.place) := by
    intro hm
    have hn : without v fs f.place = none := if_pos hm
    rw [hwithout, Function.update_self] at hn
    cases hn
  have hfile : v f.place = some (.file f.content) := by
    rw [← without_of_not_mem (v := v) hmem, hwithout, Function.update_self]
  refine ⟨h.cons hw hfile hmem ht, ?_⟩
  rw [without_cons, without_update_of_not_mem hmem, hwithout, Function.update_idem, ← hv,
    Function.update_eq_self]

theorem stageAll_run (directory : Path) (files : List (Path × Except WriteError Bytes))
    (h : w.Shows base view) :
    (∃ e fs, ((stageAll directory files).run c w).1 = .error ⟨e, fs.map (·.staged)⟩ ∧
      (UndoesReliably c → ∃ v, (((stageAll directory files).run c w).2).Shows base v ∧
        Ready c directory base v fs ∧ without v fs = view)) ∨
    ∃ fs v, ((stageAll directory files).run c w).1 = .ok (fs.map (·.staged)) ∧
      files = fs.map (fun f => (f.staged.target, .ok f.content)) ∧
      (((stageAll directory files).run c w).2).Shows base v ∧
      Ready c directory base v fs ∧ without v fs = view := by
  induction files generalizing w view with
  | nil => exact .inr ⟨[], view, rfl, rfl, h, .nil, rfl⟩
  | cons file rest ih =>
    obtain ⟨target, content⟩ := file
    cases content with
    | error e => exact .inl ⟨e, [], rfl, fun _ => ⟨view, h, .nil, rfl⟩⟩
    | ok x =>
      simp only [stageAll, run_bind]
      rcases stage_run (c := c) directory h x with ⟨e, he, hs⟩ | ⟨n, a, hq, hw, hv, hs⟩
      · rw [he]
        exact .inl ⟨e, [], rfl, fun hu => ⟨view, hs hu, .nil, rfl⟩⟩
      · rw [hq]
        let first : Placed := ⟨⟨directory.join (c.names n), target⟩, a, x⟩
        simp only [run_bind]
        rcases ih hs with ⟨e, fs, he, hes⟩ | ⟨fs, v, hfs, hrest, hvs, hready, hwithout⟩
        · rw [he]
          refine .inl ⟨e, first :: fs, rfl, ?_⟩
          intro hu
          obtain ⟨v, hvs, hready, hwithout⟩ := hes hu
          exact ⟨v, hvs, hready.cons_staged (f := first) hw hv ⟨n, rfl⟩ hwithout⟩
        · rw [hfs]
          refine .inr ⟨first :: fs, v, rfl, ?_, hvs, ?_⟩
          · rw [hrest]
            rfl
          · exact hready.cons_staged (f := first) hw hv ⟨n, rfl⟩ hwithout

end Credential.FileTarget
