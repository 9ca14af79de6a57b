import Credential.Disk.Script
import Mathlib.Logic.Function.Basic

namespace Credential.Disk

namespace Path

theorem getLast?_splitOn_append (cs : List Char) {ending : List Char} (h : '/' ∉ ending) :
    ∃ piece, ((cs ++ ending).splitOn '/').getLast? = some (piece ++ ending) := by
  induction cs with
  | nil => exact ⟨[], by rw [List.nil_append, List.splitOn_eq_singleton h]; rfl⟩
  | cons c cs ih =>
    obtain ⟨piece, hp⟩ := ih
    obtain ⟨first, others, hs⟩ := List.exists_cons_of_ne_nil (List.splitOn_ne_nil '/' (cs ++ ending))
    rw [hs] at hp
    rw [List.cons_append, List.splitOn_cons_eq_if_modifyHead, hs]
    split
    · rw [List.getLast?_cons_cons]
      exact ⟨piece, hp⟩
    · rw [List.modifyHead_cons]
      cases others with
      | nil =>
        obtain rfl := Option.some.inj hp
        exact ⟨c :: piece, rfl⟩
      | cons other others =>
        rw [List.getLast?_cons_cons] at hp
        exact ⟨piece, hp⟩

theorem toList_join (d : Path) (name : String) :
    ∃ cs, (d.join name).text.toList = cs ++ name.toList := by
  unfold join
  split
  · exact ⟨[], rfl⟩
  · split
    · exact ⟨_, String.toList_append⟩
    · exact ⟨_, String.toList_append⟩

theorem getLast?_pieces_join (d : Path) (name : String) {ending : String}
    (h : '/' ∉ ending.toList) :
    ∃ piece, (d.join (name ++ ending)).pieces.getLast? = some (piece ++ ending) := by
  obtain ⟨cs, hcs⟩ := toList_join d (name ++ ending)
  obtain ⟨piece, hp⟩ := getLast?_splitOn_append (cs ++ name.toList) h
  refine ⟨String.ofList piece, ?_⟩
  rw [pieces, hcs, String.toList_append, ← List.append_assoc, List.getLast?_map, hp, Option.map_some,
    String.ofList_append, String.ofList_toList]

end Path

namespace Tree

variable {t u : Tree} {p : Path} {a : Location}

theorem get?_root (t : Tree) : t.get? [] = some .directory := by
  simp [get?]

theorem get?_put_eq (t : Tree) (n : Node) (h : a ≠ []) :
    (t.put a n).get? = Function.update t.get? a (some n) := by
  funext b
  rw [get?_put, Function.update_apply]
  split
  · rename_i hb
    subst hb
    rw [if_neg h.symm, get?_root]
  · rfl

theorem get?_erase_eq (t : Tree) (h : a ≠ []) :
    (t.erase a).get? = Function.update t.get? a none := by
  funext b
  rw [get?_erase, Function.update_apply]
  split
  · rename_i hb
    subst hb
    rw [if_neg h.symm, get?_root]
  · rfl

theorem follow_entry_ne_nil {place : Location} {pieces : List String}
    (h : t.follow place pieces = .entry a) : a ≠ [] := by
  induction pieces generalizing place with
  | nil => cases h
  | cons piece rest ih =>
    unfold follow at h
    split at h
    · exact ih h
    · split at h
      · exact ih h
      · split at h
        · cases h
        · split at h
          · cases h
            simp
          · split at h
            · exact ih h
            · cases h
            · cases h

theorem walk_entry_ne_nil (h : t.walk p = .entry a) : a ≠ [] := by
  unfold walk at h
  split at h
  · cases h
  · split at h
    · exact follow_entry_ne_nil h
    · cases h

theorem walkToDirectory_entry_ne_nil (h : t.walkToDirectory p = .entry a) : a ≠ [] := by
  unfold walkToDirectory at h
  split at h
  · cases h
  · split at h
    · exact follow_entry_ne_nil h
    · cases h

theorem getLast?_follow {place : Location} {pieces : List String} {name : String}
    (hl : pieces.getLast? = some name) (hv : Path.isVoid name = false)
    (h : t.follow place pieces = .entry a) : a.getLast? = some name := by
  induction pieces generalizing place with
  | nil => cases hl
  | cons piece rest ih =>
    have hrest (hne : rest ≠ []) : rest.getLast? = some name := by
      obtain ⟨next, others, rfl⟩ := List.exists_cons_of_ne_nil hne
      rwa [List.getLast?_cons_cons] at hl
    unfold follow at h
    split at h
    · rename_i hp
      refine ih (hrest ?_) h
      rintro rfl
      have hn : piece = name := Option.some.inj hl
      rw [hn, hv] at hp
      cases hp
    · split at h
      · refine ih (hrest ?_) h
        rintro rfl
        cases h
      · split at h
        · cases h
        · split at h
          · rename_i hr
            subst hr
            cases h
            rw [List.getLast?_append, hl]
            rfl
          · rename_i hne
            split at h
            · exact ih (hrest hne) h
            · cases h
            · cases h

theorem getLast?_walk {name : String} (hl : p.pieces.getLast? = some name)
    (hv : Path.isVoid name = false) (h : t.walk p = .entry a) : a.getLast? = some name := by
  unfold walk at h
  split at h
  · cases h
  · split at h
    · exact getLast?_follow hl hv h
    · cases h

def Grows (t u : Tree) : Prop := ∀ a, t.get? a = some .directory → u.get? a = some .directory

theorem grows_put_directory (t : Tree) (h : a ≠ []) : t.Grows (t.put a .directory) := by
  intro b hb
  rw [get?_put_eq t .directory h, Function.update_apply]
  split
  · rfl
  · exact hb

theorem Grows.follow (hg : Grows t u) {place : Location} {pieces : List String}
    (h : t.follow place pieces = .entry a) : u.follow place pieces = .entry a := by
  induction pieces generalizing place with
  | nil => cases h
  | cons piece rest ih =>
    unfold Tree.follow at h ⊢
    split at h
    · rename_i hv
      rw [if_pos hv]
      exact ih h
    · rename_i hv
      rw [if_neg hv]
      split at h
      · rename_i hu
        rw [if_pos hu]
        exact ih h
      · rename_i hu
        rw [if_neg hu]
        split at h
        · cases h
        · rename_i hl
          rw [if_neg hl]
          split at h
          · rename_i hr
            rw [if_pos hr]
            exact h
          · rename_i hr
            rw [if_neg hr]
            split at h
            · rename_i hd
              rw [hg _ hd]
              exact ih h
            · cases h
            · cases h

theorem Grows.walk (hg : Grows t u) (h : t.walk p = .entry a) : u.walk p = .entry a := by
  unfold Tree.walk at h ⊢
  split at h
  · cases h
  · rename_i hp
    rw [if_neg hp]
    split at h
    · rename_i ht
      rw [if_pos ht]
      exact hg.follow h
    · cases h

theorem Grows.walkToDirectory (hg : Grows t u) (h : t.walkToDirectory p = .entry a) :
    u.walkToDirectory p = .entry a := by
  unfold Tree.walkToDirectory at h ⊢
  split at h
  · cases h
  · rename_i hp
    rw [if_neg hp]
    split at h
    · rename_i ht
      rw [if_pos ht]
      exact hg.follow h
    · cases h

theorem file?_eq_some_iff {x : Bytes} :
    t.file? p = some (a, x) ↔ t.walk p = .entry a ∧ t.get? a = some (.file x) := by
  unfold file?
  split
  · rename_i place hw
    split
    · rename_i content hg
      constructor
      · intro h
        cases h
        exact ⟨hw, hg⟩
      · rintro ⟨hw', hg'⟩
        rw [hw] at hw'
        cases hw'
        rw [hg] at hg'
        cases hg'
        rfl
    · rename_i hn
      constructor
      · intro h
        cases h
      · rintro ⟨hw', hg'⟩
        rw [hw] at hw'
        cases hw'
        exact absurd hg' (hn x)
  · rename_i hn
    constructor
    · intro h
      cases h
    · rintro ⟨hw, -⟩
      exact absurd hw (hn a)

theorem read?_eq_some_iff {x : Bytes} :
    t.read? p = some x ↔ ∃ a, t.walk p = .entry a ∧ t.get? a = some (.file x) := by
  unfold read? inspect?
  cases t.walk p with
  | missing => simp
  | blocked => simp
  | directory place => simp
  | entry place =>
    cases hg : t.get? place with
    | none => simp [hg]
    | some n => cases n <;> simp [hg]

theorem create?_eq_some (h : t.create? p = some u) :
    ∃ a, t.walk p = .entry a ∧ t.get? a = none ∧ u = t.put a (.file []) := by
  unfold create? at h
  split at h
  · rename_i a hw
    split at h
    · rename_i hn
      cases h
      exact ⟨a, hw, Option.isNone_iff_eq_none.1 hn, rfl⟩
    · cases h
  · cases h

theorem file?_of_move? {q : Path} (h : t.move? p q = some u) : ∃ a x, t.file? p = some (a, x) := by
  unfold move? at h
  split at h
  · rename_i hf _
    exact ⟨_, _, hf⟩
  · cases h

end Tree

end Credential.Disk
