import Credential.Proofs.Disk.Operation
import Mathlib.Data.List.DropRight

namespace Credential.Disk

namespace Path

variable {p q : Path} {ps : List String}

theorem not_mem_of_mem_splitOn {cs piece : List Char} (h : piece ∈ cs.splitOn '/') :
    '/' ∉ piece := by
  induction cs generalizing piece with
  | nil =>
    rw [List.splitOn_nil, List.mem_singleton] at h
    rw [h]
    exact List.not_mem_nil
  | cons c cs ih =>
    obtain ⟨first, others, hs⟩ := List.exists_cons_of_ne_nil (List.splitOn_ne_nil '/' cs)
    rw [List.splitOn_cons_eq_if_modifyHead, hs] at h
    rw [hs] at ih
    split at h
    · rcases List.mem_cons.1 h with rfl | h
      · exact List.not_mem_nil
      · exact ih h
    · rename_i hc
      rw [List.modifyHead_cons] at h
      rcases List.mem_cons.1 h with rfl | h
      · rw [List.mem_cons, not_or]
        exact ⟨fun he => hc (beq_iff_eq.2 he.symm), ih List.mem_cons_self⟩
      · exact ih (List.mem_cons_of_mem _ h)

theorem toList_ofPieces (ps : List String) :
    (ofPieces ps).text.toList = ['/'].intercalate (ps.map String.toList) :=
  String.toList_intercalate

theorem ofPieces_pieces (p : Path) : ofPieces p.pieces = p := by
  have htext : (ofPieces p.pieces).text.toList = p.text.toList := by
    rw [toList_ofPieces, pieces, List.map_map]
    simp only [Function.comp_def, String.toList_ofList, List.map_id', List.intercalate_splitOn]
  exact congrArg Path.mk (String.toList_inj.1 htext)

theorem not_mem_of_mem_pieces {piece : String} (h : piece ∈ p.pieces) : '/' ∉ piece.toList := by
  obtain ⟨cs, hcs, rfl⟩ := List.mem_map.1 h
  rw [String.toList_ofList]
  exact not_mem_of_mem_splitOn hcs

theorem pieces_ofPieces (hn : ps ≠ []) (h : ∀ piece ∈ ps, '/' ∉ piece.toList) :
    (ofPieces ps).pieces = ps := by
  have hslash : ∀ cs ∈ ps.map String.toList, '/' ∉ cs := List.forall_mem_map.2 h
  rw [pieces, toList_ofPieces, List.splitOn_intercalate '/' hslash (by simpa using hn),
    List.map_map]
  simp only [Function.comp_def, String.ofList_toList, List.map_id']

theorem intercalate_isPrefix {as bs : List (List Char)} (h : as <+: bs) :
    ['/'].intercalate as <+: ['/'].intercalate bs := by
  obtain ⟨cs, rfl⟩ := h
  induction as with
  | nil => exact List.nil_prefix
  | cons a as ih =>
    cases as with
    | nil =>
      cases cs with
      | nil => exact List.prefix_refl _
      | cons c cs =>
        rw [List.singleton_append, List.intercalate_cons_cons, List.append_assoc,
          List.intercalate_singleton]
        exact List.prefix_append _ _
    | cons a' as =>
      rw [List.cons_append, List.cons_append, List.intercalate_cons_cons,
        List.intercalate_cons_cons]
      exact (List.prefix_append_right_inj _).2 ih

theorem dropVoidEnd_isPrefix (ps : List String) : dropVoidEnd ps <+: ps :=
  List.rdropWhile_prefix isVoid ps

theorem parent?_eq_some (h : p.parent? = some q) (hq : q.text ≠ "") :
    q = ⟨"/"⟩ ∨ ∃ ps, ps ≠ [] ∧ ps <+: p.pieces ∧ q = ofPieces ps := by
  unfold parent? at h
  split at h
  · cases h
  · rename_i first rest hp
    split at h
    · split at h
      · cases h
      · cases h
        exact absurd rfl hq
    · have hshorter : dropVoidEnd (dropVoidEnd rest).dropLast <+: rest :=
        (dropVoidEnd_isPrefix _).trans ((List.dropLast_prefix _).trans (dropVoidEnd_isPrefix _))
      split at h
      · split at h
        · cases h
          exact .inl rfl
        · cases h
          refine .inr ⟨[first], List.cons_ne_nil _ _, ?_, rfl⟩
          rw [hp]
          exact List.cons_prefix_cons.2 ⟨rfl, List.nil_prefix⟩
      · cases h
        refine .inr ⟨_, List.cons_ne_nil _ _, ?_, rfl⟩
        rw [hp]
        exact List.cons_prefix_cons.2 ⟨rfl, hshorter⟩

end Path

namespace Tree

variable {t u : Tree} {p q : Path} {a place : Location} {ps qs : List String}

theorem isPathText_of_isPrefix {s s' : String} (hs : s.toList <+: s'.toList)
    (h : isPathText s' = true) : isPathText s = true := by
  obtain ⟨cs, hcs⟩ := hs
  obtain rfl : s ++ String.ofList cs = s' := by
    rw [← String.toList_inj, String.toList_append, String.toList_ofList, hcs]
  unfold isPathText at h ⊢
  rw [Bool.and_eq_true, decide_eq_true_eq, String.utf8ByteSize_append, String.toList_append,
    List.all_append, Bool.and_eq_true] at h
  rw [Bool.and_eq_true, decide_eq_true_eq]
  exact ⟨by omega, h.2.1⟩

def Reaches (t : Tree) : Walk → Prop
  | .directory _ => True
  | .entry a => t.get? a = some .directory
  | _ => False

theorem inspect?_directory_iff : t.inspect? p = some .directory ↔ t.Reaches (t.walk p) := by
  unfold inspect?
  cases t.walk p <;> simp [Reaches]

theorem reaches_follow_left (h : t.Reaches (t.follow place (ps ++ qs))) :
    t.Reaches (t.follow place ps) := by
  induction ps generalizing place with
  | nil => trivial
  | cons piece ps ih =>
    rw [List.cons_append] at h
    unfold follow at h ⊢
    split at h
    · rename_i hv
      rw [if_pos hv]
      exact ih h
    · rename_i hv
      rw [if_neg hv]
      split at h
      · rename_i hu
        rw [if_pos hu]
        exact ih h
      · rename_i hu
        rw [if_neg hu]
        split at h
        · exact h.elim
        · rename_i hl
          rw [if_neg hl]
          by_cases hn : ps = []
          · subst hn
            rw [if_pos rfl]
            split at h
            · exact h
            · split at h
              · assumption
              · exact h.elim
              · exact h.elim
          · rw [if_neg hn]
            rw [if_neg (by simp [hn])] at h
            split at h
            · exact ih h
            · exact h.elim
            · exact h.elim

theorem reaches_parent (h : p.parent? = some q) (hq : q.text ≠ "")
    (hp : t.inspect? p = some .directory) : t.inspect? q = some .directory := by
  rw [inspect?_directory_iff] at hp ⊢
  rcases Path.parent?_eq_some h hq with rfl | ⟨ps, hn, hps, rfl⟩
  · trivial
  · have htext : (Path.ofPieces ps).text.toList <+: p.text.toList := by
      rw [← Path.ofPieces_pieces p, Path.toList_ofPieces, Path.toList_ofPieces]
      exact Path.intercalate_isPrefix (hps.map _)
    unfold walk at hp ⊢
    rw [if_neg hq]
    split at hp
    · exact hp.elim
    · split at hp
      · rename_i hs
        rw [if_pos (isPathText_of_isPrefix htext hs), Path.pieces_ofPieces hn
          fun piece hm => Path.not_mem_of_mem_pieces (hps.subset hm)]
        obtain ⟨qs, hqs⟩ := hps
        rw [← hqs] at hp
        exact reaches_follow_left hp
      · exact hp.elim

theorem follow_void {vs : List String} (hv : ∀ v ∈ vs, Path.isVoid v = true) :
    t.follow place vs = .directory place := by
  induction vs with
  | nil => rfl
  | cons v vs ih =>
    obtain ⟨h, hvs⟩ := List.forall_mem_cons.1 hv
    rw [follow, if_pos h, ih hvs]

theorem reaches_follow_void {vs : List String} (hv : ∀ v ∈ vs, Path.isVoid v = true)
    (h : t.follow place ps = .entry a) (ha : t.get? a = some .directory) :
    t.Reaches (t.follow place (ps ++ vs)) := by
  induction ps generalizing place with
  | nil => cases h
  | cons piece ps ih =>
    rw [List.cons_append]
    unfold follow at h ⊢
    split at h
    · rename_i hp
      rw [if_pos hp]
      exact ih h
    · rename_i hp
      rw [if_neg hp]
      split at h
      · rename_i hu
        rw [if_pos hu]
        exact ih h
      · rename_i hu
        rw [if_neg hu]
        split at h
        · cases h
        · rename_i hl
          rw [if_neg hl]
          split at h
          · rename_i hn
            subst hn
            cases h
            rw [List.nil_append, ha, follow_void hv]
            split
            · exact ha
            · trivial
          · rename_i hn
            rw [if_neg (by simp [hn])]
            split at h
            · exact ih h
            · cases h
            · cases h

theorem inspect?_of_walkToDirectory (h : t.walkToDirectory p = .entry a)
    (ha : t.get? a = some .directory) : t.inspect? p = some .directory := by
  rw [inspect?_directory_iff]
  unfold walkToDirectory at h
  unfold walk
  split at h
  · cases h
  · rename_i hp
    rw [if_neg hp]
    split at h
    · rename_i hs
      rw [if_pos hs]
      have hpieces : (p.pieces.reverse.dropWhile (· = "")).reverse ++
          (p.pieces.reverse.takeWhile (· = "")).reverse = p.pieces := by
        rw [← List.reverse_append, List.takeWhile_append_dropWhile, List.reverse_reverse]
      rw [← hpieces]
      refine reaches_follow_void ?_ h ha
      intro v hv
      have hempty := List.mem_takeWhile_imp (List.mem_reverse.1 hv)
      rw [of_decide_eq_true hempty]
      rfl
    · cases h

end Tree

namespace Script

variable {c : Conduct} {w : World} {p : Path}

theorem inspect?_of_made (h : (answer c w (.makeDirectory p)).1 = .made) :
    (answer c w (.makeDirectory p)).2.storage.tree.inspect? p = some .directory := by
  cases hc : c.fails w.count (.makeDirectory p) with
  | true =>
    rw [(answer_of_fails hc).1] at h
    cases h
  | false =>
    have hs : (answer c w (.makeDirectory p)).1 = (w.storage.makeDirectory p).1 ∧
        (answer c w (.makeDirectory p)).2.storage = (w.storage.makeDirectory p).2 :=
      answer_of_performs hc
    rw [hs.1] at h
    rw [hs.2]
    unfold Storage.makeDirectory at h ⊢
    split at h
    · cases h
    · rename_i a hw
      split at h
      · have ha := Tree.walkToDirectory_entry_ne_nil hw
        refine Tree.inspect?_of_walkToDirectory
          ((Tree.grows_put_directory _ ha).walkToDirectory hw) ?_
        rw [Tree.get?_put_eq _ _ ha, Function.update_self]
      · cases h
    · cases h

end Script

end Credential.Disk
