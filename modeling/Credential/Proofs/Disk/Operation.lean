import Credential.Proofs.Disk.Walk

namespace Credential.Disk.Script

open Function (update)

abbrev View := Location → Option Node

structure World.Shows (w : World) (base : Tree) (view : View) : Prop where
  tree : w.storage.tree.get? = view
  directories : ∀ a, view a = some .directory ↔ base.get? a = some .directory

namespace World.Shows

variable {w : World} {base : Tree} {view : View} {p q : Path} {a b : Location} {x : Bytes}

theorem self (w : World) : w.Shows w.storage.tree w.storage.tree.get? := ⟨rfl, fun _ => Iff.rfl⟩

theorem of_eq (h : w.Shows base view) {v : View} (he : view = v) : w.Shows base v := he ▸ h

theorem get? (h : w.Shows base view) (a : Location) : w.storage.tree.get? a = view a := by
  rw [h.tree]

theorem grows (h : w.Shows base view) : base.Grows w.storage.tree := by
  intro a ha
  rw [h.get?]
  exact (h.directories a).2 ha

theorem shrinks (h : w.Shows base view) : w.storage.tree.Grows base := by
  intro a ha
  rw [h.get?] at ha
  exact (h.directories a).1 ha

theorem walk_iff (h : w.Shows base view) : w.storage.tree.walk p = .entry a ↔
    base.walk p = .entry a :=
  ⟨h.shrinks.walk, h.grows.walk⟩

theorem file?_iff (h : w.Shows base view) : w.storage.tree.file? p = some (a, x) ↔
    base.walk p = .entry a ∧ view a = some (.file x) := by
  rw [Tree.file?_eq_some_iff, h.walk_iff, h.get?]

theorem read? (h : w.Shows base view) (hp : base.walk p = .entry a)
    (hx : view a = some (.file x)) : w.storage.tree.read? p = some x := by
  rw [Tree.read?, Tree.inspect?, h.walk_iff.2 hp]
  simp only [h.get?, hx]

theorem set (h : w.Shows base view) {w' : World} {n : Option Node}
    (hv : w'.storage.tree.get? = update view a n) (ha : view a ≠ some .directory)
    (hn : n ≠ some .directory) : w'.Shows base (update view a n) := by
  refine ⟨hv, ?_⟩
  intro b
  rw [Function.update_apply]
  split
  · rename_i hb
    subst hb
    constructor
    · intro hd
      exact absurd hd hn
    · intro hd
      exact absurd ((h.directories b).2 hd) ha
  · exact h.directories b

theorem get?_put (h : w.Shows base view) (hp : base.walk p = .entry a) (n : Node) :
    (w.storage.tree.put a n).get? = update view a (some n) := by
  rw [Tree.get?_put_eq _ _ (Tree.walk_entry_ne_nil hp), h.tree]

theorem get?_erase (h : w.Shows base view) (hp : base.walk p = .entry a) :
    (w.storage.tree.erase a).get? = update view a none := by
  rw [Tree.get?_erase_eq _ (Tree.walk_entry_ne_nil hp), h.tree]

end World.Shows

variable {c : Conduct} {w : World} {base : Tree} {view : View} {p q : Path} {a b : Location}
  {x y : Bytes}

theorem answer_of_performs {op : Operation} (hc : c.fails w.count op = false) :
    (answer c w op).1 = (w.storage.perform (c.names w.count) op).1 ∧
      (answer c w op).2.storage = (w.storage.perform (c.names w.count) op).2 := by
  unfold answer
  rw [hc]
  exact ⟨rfl, rfl⟩

theorem answer_of_fails {op : Operation} (hc : c.fails w.count op = true) :
    (answer c w op).1 = (w.storage.fail (c.written w.count) op).1 ∧
      (answer c w op).2.storage = (w.storage.fail (c.written w.count) op).2 := by
  unfold answer
  rw [hc]
  exact ⟨rfl, rfl⟩

theorem shows_of_storage {w' : World} (h : w.Shows base view) (hs : w'.storage = w.storage) :
    w'.Shows base view :=
  ⟨by rw [hs, h.tree], h.directories⟩

theorem inspect_answer : (answer c w (.inspect p)).1 = (w.storage.tree.inspect? p).map Node.kind ∧
    (answer c w (.inspect p)).2.storage = w.storage := by
  cases hc : c.fails w.count (.inspect p) with
  | false => exact answer_of_performs hc
  | true => exact answer_of_fails hc

theorem inspect_shows (h : w.Shows base view) :
    ((answer c w (.inspect p)).2).Shows base view ∧
      ((answer c w (.inspect p)).1 = some .file ↔
        ∃ a x, base.walk p = .entry a ∧ view a = some (.file x)) := by
  refine ⟨shows_of_storage h inspect_answer.2, ?_⟩
  rw [inspect_answer.1]
  constructor
  · intro hk
    obtain ⟨n, hn, hk⟩ := Option.map_eq_some_iff.1 hk
    cases n with
    | directory => cases hk
    | file x =>
      unfold Tree.inspect? at hn
      split at hn
      · cases hn
      · rename_i a hw
        exact ⟨a, x, h.walk_iff.1 hw, by rw [← h.get?]; exact hn⟩
      · cases hn
  · rintro ⟨a, x, hw, hv⟩
    unfold Tree.inspect?
    rw [h.walk_iff.2 hw]
    simp only [h.get?, hv, Option.map_some]
    rfl

theorem createTemporary_answer (h : w.Shows base view) :
    ((answer c w (.createTemporary p)).1 = none ∧
      ((answer c w (.createTemporary p)).2).Shows base view) ∨
    ∃ a, (answer c w (.createTemporary p)).1 = some (p.join (c.names w.count)) ∧
      base.walk (p.join (c.names w.count)) = .entry a ∧ view a = none ∧
        ((answer c w (.createTemporary p)).2).Shows base (update view a (some (.file []))) := by
  cases hc : c.fails w.count (.createTemporary p) with
  | true => exact .inl ⟨(answer_of_fails hc).1, shows_of_storage h (answer_of_fails hc).2⟩
  | false =>
    have hs : (answer c w (.createTemporary p)).1 =
          (w.storage.createFile (p.join (c.names w.count))).1 ∧
        (answer c w (.createTemporary p)).2.storage =
          (w.storage.createFile (p.join (c.names w.count))).2 := answer_of_performs hc
    cases ht : w.storage.tree.create? (p.join (c.names w.count)) with
    | none =>
      rw [Storage.createFile, ht] at hs
      exact .inl ⟨hs.1, shows_of_storage h hs.2⟩
    | some t =>
      rw [Storage.createFile, ht] at hs
      obtain ⟨a, hw, hg, rfl⟩ := Tree.create?_eq_some ht
      have hb := h.walk_iff.1 hw
      have hv : view a = none := by rw [← h.get?, hg]
      refine .inr ⟨a, hs.1, hb, hv, h.set ?_ (by simp [hv]) (by simp)⟩
      rw [hs.2]
      exact h.get?_put hb _

theorem write_shows (h : w.Shows base view) (hp : base.walk p = .entry a)
    (hv : view a = some (.file y)) : ∃ z, ((answer c w (.write p x)).1 = true → z = x) ∧
      ((answer c w (.write p x)).2).Shows base (update view a (some (.file z))) := by
  have hfile : w.storage.tree.file? p = some (a, y) := h.file?_iff.2 ⟨hp, hv⟩
  have hwrite (z : Bytes) : w.storage.tree.write? p z =
      some (w.storage.tree.put a (.file z)) := by
    rw [Tree.write?, hfile]
    rfl
  cases hc : c.fails w.count (.write p x) with
  | true =>
    have hs : (answer c w (.write p x)).1 = false ∧ (answer c w (.write p x)).2.storage =
        (w.storage.withTree (w.storage.tree.write? p (x.take (c.written w.count)))).2 :=
      answer_of_fails hc
    rw [hwrite] at hs
    refine ⟨x.take (c.written w.count), ?_, h.set ?_ (by simp [hv]) (by simp)⟩
    · intro hr
      rw [hs.1] at hr
      cases hr
    · rw [hs.2]
      exact h.get?_put hp _
  | false =>
    have hs : (answer c w (.write p x)).1 = (w.storage.withTree (w.storage.tree.write? p x)).1 ∧
        (answer c w (.write p x)).2.storage =
          (w.storage.withTree (w.storage.tree.write? p x)).2 := answer_of_performs hc
    rw [hwrite] at hs
    refine ⟨x, fun _ => rfl, h.set ?_ (by simp [hv]) (by simp)⟩
    rw [hs.2]
    exact h.get?_put hp _

theorem move?_eq_some (h : w.Shows base view) (hp : base.walk p = .entry a)
    (hv : view a = some (.file x)) {t : Tree} (ht : w.storage.tree.move? p q = some t) :
    ∃ b, base.walk q = .entry b ∧ view b ≠ some .directory ∧
      t.get? = update (update view a none) b (some (.file x)) := by
  have hfile : w.storage.tree.file? p = some (a, x) := h.file?_iff.2 ⟨hp, hv⟩
  rw [Tree.move?, hfile] at ht
  cases hw : w.storage.tree.walk q with
  | entry b =>
    simp only [hw] at ht
    split at ht
    · cases ht
    · rename_i hd
      cases ht
      rw [h.get?] at hd
      refine ⟨b, h.walk_iff.1 hw, hd, ?_⟩
      rw [Tree.get?_put_eq _ _ (Tree.walk_entry_ne_nil hw), h.get?_erase hp]
  | missing => simp [hw] at ht
  | blocked => simp [hw] at ht
  | directory b => simp [hw] at ht

theorem move?_of_entry (h : w.Shows base view) (hp : base.walk p = .entry a)
    (hv : view a = some (.file x)) (hq : base.walk q = .entry b)
    (hd : view b ≠ some .directory) : ∃ t, w.storage.tree.move? p q = some t := by
  have hfile : w.storage.tree.file? p = some (a, x) := h.file?_iff.2 ⟨hp, hv⟩
  rw [Tree.move?, hfile, h.walk_iff.2 hq]
  simp only [h.get?, hd, if_false]
  exact ⟨_, rfl⟩

theorem shows_of_moved (h : w.Shows base view) {w' : World} (hv : view a = some (.file x))
    (hd : view b ≠ some .directory)
    (ht : w'.storage.tree.get? = update (update view a none) b (some (.file x))) :
    w'.Shows base (update (update view a none) b (some (.file x))) := by
  refine ⟨ht, ?_⟩
  intro d
  rw [Function.update_apply, Function.update_apply]
  split
  · rename_i hb
    subst hb
    simpa using fun hb => hd ((h.directories d).2 hb)
  · split
    · rename_i ha
      subst ha
      have hn : ¬ base.get? d = some .directory := by
        rw [← h.directories, hv]
        simp
      simp [hn]
    · exact h.directories d

theorem move_answer (h : w.Shows base view) (hp : base.walk p = .entry a)
    (hv : view a = some (.file x)) :
    ((answer c w (.move p q)).1 = false ∧ ((answer c w (.move p q)).2).Shows base view) ∨
    ∃ b, (answer c w (.move p q)).1 = true ∧ base.walk q = .entry b ∧
      view b ≠ some .directory ∧ ((answer c w (.move p q)).2).Shows base
        (update (update view a none) b (some (.file x))) := by
  cases hc : c.fails w.count (.move p q) with
  | true => exact .inl ⟨(answer_of_fails hc).1, shows_of_storage h (answer_of_fails hc).2⟩
  | false =>
    have hs : (answer c w (.move p q)).1 = (w.storage.withTree (w.storage.tree.move? p q)).1 ∧
        (answer c w (.move p q)).2.storage =
          (w.storage.withTree (w.storage.tree.move? p q)).2 := answer_of_performs hc
    cases ht : w.storage.tree.move? p q with
    | none =>
      rw [ht] at hs
      exact .inl ⟨hs.1, shows_of_storage h hs.2⟩
    | some t =>
      rw [ht] at hs
      obtain ⟨b, hq, hd, hg⟩ := move?_eq_some h hp hv ht
      refine .inr ⟨b, hs.1, hq, hd, shows_of_moved h hv hd ?_⟩
      rw [hs.2]
      exact hg

theorem restore_shows (hc : c.fails w.count (.restore p q) = false) (h : w.Shows base view)
    (hp : base.walk p = .entry a) (hv : view a = some (.file x)) (hq : base.walk q = .entry b)
    (hd : view b ≠ some .directory) : (answer c w (.restore p q)).1 = true ∧
      ((answer c w (.restore p q)).2).Shows base
        (update (update view a none) b (some (.file x))) := by
  have hs : (answer c w (.restore p q)).1 = (w.storage.withTree (w.storage.tree.move? p q)).1 ∧
      (answer c w (.restore p q)).2.storage =
        (w.storage.withTree (w.storage.tree.move? p q)).2 := answer_of_performs hc
  obtain ⟨t, ht⟩ := move?_of_entry h hp hv hq hd
  obtain ⟨b', hq', -, hg⟩ := move?_eq_some h hp hv ht
  rw [hq] at hq'
  cases hq'
  rw [ht] at hs
  refine ⟨hs.1, shows_of_moved h hv hd ?_⟩
  rw [hs.2]
  exact hg

theorem discard_shows (hc : c.fails w.count (.discard p) = false) (h : w.Shows base view)
    (hp : base.walk p = .entry a) (hv : view a = some (.file x)) :
    ((answer c w (.discard p)).2).Shows base (update view a none) := by
  have hs : (answer c w (.discard p)).2.storage =
      (w.storage.withTree (w.storage.tree.remove? p)).2 := (answer_of_performs hc).2
  rw [Tree.remove?, h.file?_iff.2 ⟨hp, hv⟩] at hs
  refine h.set ?_ (by simp [hv]) (by simp)
  rw [hs]
  exact h.get?_erase hp

theorem restore_answer (h : w.Shows base view) :
    ((answer c w (.restore p q)).2).Shows base view ∨
    ∃ a x b, base.walk p = .entry a ∧ view a = some (.file x) ∧ base.walk q = .entry b ∧
      ((answer c w (.restore p q)).2).Shows base
        (update (update view a none) b (some (.file x))) := by
  cases hc : c.fails w.count (.restore p q) with
  | true => exact .inl (shows_of_storage h (answer_of_fails hc).2)
  | false =>
    have hs : (answer c w (.restore p q)).2.storage =
        (w.storage.withTree (w.storage.tree.move? p q)).2 := (answer_of_performs hc).2
    cases ht : w.storage.tree.move? p q with
    | none =>
      rw [ht] at hs
      exact .inl (shows_of_storage h hs)
    | some t =>
      obtain ⟨a, x, hf⟩ := Tree.file?_of_move? ht
      obtain ⟨hp, hv⟩ := h.file?_iff.1 hf
      obtain ⟨b, hq, hd, -⟩ := move?_eq_some h hp hv ht
      exact .inr ⟨a, x, b, hp, hv, hq, (restore_shows hc h hp hv hq hd).2⟩

theorem discard_answer (h : w.Shows base view) :
    ((answer c w (.discard p)).2).Shows base view ∨
    ∃ a x, base.walk p = .entry a ∧ view a = some (.file x) ∧
      ((answer c w (.discard p)).2).Shows base (update view a none) := by
  cases hc : c.fails w.count (.discard p) with
  | true => exact .inl (shows_of_storage h (answer_of_fails hc).2)
  | false =>
    cases hf : w.storage.tree.file? p with
    | none =>
      have hs : (answer c w (.discard p)).2.storage =
          (w.storage.withTree (w.storage.tree.remove? p)).2 := (answer_of_performs hc).2
      rw [Tree.remove?, hf] at hs
      exact .inl (shows_of_storage h hs)
    | some file =>
      obtain ⟨a, x⟩ := file
      obtain ⟨hp, hv⟩ := h.file?_iff.1 hf
      exact .inr ⟨a, x, hp, hv, discard_shows hc h hp hv⟩

theorem discard_frame (h : w.Shows base view) :
    ∃ v, ((answer c w (.discard p)).2).Shows base v ∧ ∀ b, base.walk p ≠ .entry b → v b = view b := by
  rcases discard_answer (c := c) (p := p) h with hs | ⟨a, x, hp, -, hs⟩
  · exact ⟨view, hs, fun _ _ => rfl⟩
  · refine ⟨_, hs, ?_⟩
    intro b hb
    rw [Function.update_apply, if_neg]
    rintro rfl
    exact hb hp

end Credential.Disk.Script
