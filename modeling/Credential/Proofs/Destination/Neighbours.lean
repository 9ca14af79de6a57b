import Credential.Proofs.Destination.Effect
import Credential.Proofs.Disk.Child
/-!
The four files of a key store with companions. They lie in one directory under four names when the
certificate name has no slash and the name of the key store is none of the companions'.
-/

namespace Credential.FileTarget

open Disk Script Path

variable {t : FileTarget} {e name : String} {tree before after : Tree} {a : Location}
  {m : Material} {d : WriteDraws} {c : Conduct} {w : World}

def endings : List String := [".crt", ".pem", ".key"]

theorem isEnding_of_mem (he : e ∈ endings) : IsEnding e := by
  have hall : ∀ e ∈ endings, IsEnding e := by decide
  exact hall e he

theorem exists_companionName (t : FileTarget) :
    ∃ cs, t.companionName.toList = 's' :: cs := by
  unfold companionName
  split
  · exact ⟨_, rfl⟩
  · split
    · exact ⟨_, rfl⟩
    · exact ⟨_, String.toList_append⟩

theorem pieces_companion (t : FileTarget) (he : IsEnding e) : ∃ init last,
    (⟨t.companionName ++ e⟩ : Path).pieces = init ++ [last] ∧ isVoid last = false ∧
      ∀ first rest, init = first :: rest → isVoid first = false := by
  obtain ⟨cs, hcs⟩ := exists_companionName t
  have htext : (t.companionName ++ e).toList = 's' :: (cs ++ e.toList) := by
    rw [String.toList_append, hcs, List.cons_append]
  obtain ⟨piece, hp⟩ := getLast?_splitOn_append ('s' :: cs) he.2
  rw [List.cons_append, ← htext] at hp
  obtain ⟨init, hinit⟩ := List.getLast?_eq_some_iff.1 hp
  refine ⟨init.map String.ofList, String.ofList (piece ++ e.toList), ?_, ?_, ?_⟩
  · rw [pieces, hinit, List.map_append, List.map_singleton]
  · refine isVoid_of_length ?_
    rw [String.toList_ofList, List.length_append, he.1]
    omega
  · intro first rest hfirst
    obtain ⟨x, xs, rfl, rfl, rfl⟩ := List.map_eq_cons_iff.1 hfirst
    obtain ⟨y, ys, hs⟩ := List.exists_cons_of_ne_nil
      (List.splitOn_ne_nil '/' (cs ++ e.toList))
    rw [htext, List.splitOn_cons_eq_if_modifyHead, hs, if_neg (by decide),
      List.modifyHead_cons] at hinit
    obtain rfl := (List.cons.inj hinit).1
    rw [isVoid, Bool.or_eq_false_iff, decide_eq_false_iff_not, decide_eq_false_iff_not,
      ← String.toList_inj, ← String.toList_inj, String.toList_ofList]
    exact ⟨List.cons_ne_nil _ _, fun h => absurd (List.cons.inj h).1 (by decide)⟩

theorem isName_companion (hs : '/' ∉ t.companionName.toList) (he : IsEnding e) :
    IsName (t.companionName ++ e) := by
  have hslash : '/' ∉ (t.companionName ++ e).toList := by
    rw [String.toList_append, List.mem_append, not_or]
    exact ⟨hs, he.2⟩
  obtain ⟨cs, hcs⟩ := exists_companionName t
  have hlength : 5 ≤ (t.companionName ++ e).toList.length := by
    rw [String.toList_append, List.length_append, he.1, hcs, List.length_cons]
    omega
  refine ⟨isVoid_of_length (by omega), ?_, hslash⟩
  intro h
  rw [h] at hlength
  exact absurd hlength (by decide)

theorem head?_companion (t : FileTarget) (e : String) :
    (t.companionName ++ e).toList.head? ≠ some '/' := by
  obtain ⟨cs, hcs⟩ := exists_companionName t
  rw [String.toList_append, hcs]
  exact fun h => absurd (Option.some.inj h) (by decide)

theorem parent?_companion_iff (t : FileTarget) (he : IsEnding e) :
    (t.companion e).parent? = some t.path.directory ↔ '/' ∉ t.companionName.toList := by
  obtain ⟨first, rest, hd, htidy⟩ := exists_directory_eq t.path
  unfold companion
  rw [hd]
  constructor
  · obtain ⟨init, last, hp, hl, hfirst⟩ := pieces_companion t he
    rw [parent?_join htidy (head?_companion t e) hp hl]
    intro h
    cases init with
    | nil =>
      have htext : t.companionName ++ e = last := by
        have hjoined := ofPieces_pieces ⟨t.companionName ++ e⟩
        rw [hp, List.nil_append, ofPieces, String.intercalate_singleton] at hjoined
        exact (congrArg Path.text hjoined).symm
      have hlast : last ∈ (⟨t.companionName ++ e⟩ : Path).pieces := by simp [hp]
      have hslash := not_mem_of_mem_pieces hlast
      rw [← htext, String.toList_append, List.mem_append, not_or] at hslash
      exact hslash.1
    | cons x xs =>
      have hprefix : first :: (rest ++ x :: xs) <+:
          ((ofNamed first rest).join (t.companionName ++ e)).pieces := by
        rw [pieces_join htidy (head?_companion t e), hp]
        exact ⟨[last], by simp⟩
      have hlonger := htidy.rest_eq (Tidy.of_isPrefix hprefix) (Option.some.inj h).symm
      rw [dropVoidEnd_append_cons (hfirst x xs rfl)] at hlonger
      simp at hlonger
  · intro hs
    have hname := isName_companion hs he
    have hparent := parent?_join htidy hname.head?_ne
      ((pieces_of_not_mem hname.2.2).trans (List.nil_append _).symm) hname.1
    rw [hparent, List.append_nil, htidy.trimmed]

theorem walk_companion_iff (hs : '/' ∉ t.companionName.toList) (he : IsEnding e)
    (hn : t.path.fileName? = some name) (h : tree.walk t.path = .entry a) :
    tree.walk (t.companion e) = .entry a ↔ name = t.companionName ++ e := by
  constructor
  · intro hw
    obtain ⟨first, rest, hd, htidy⟩ := exists_directory_eq t.path
    obtain ⟨init, name', hp, hname, hname'⟩ := Tree.fileName?_of_walk h
    obtain rfl := Option.some.inj (hname'.symm.trans hn)
    have hlast := Tree.getLast?_walk (by rw [hp, List.getLast?_concat]) hname.1 h
    unfold companion at hw
    rw [hd] at hw
    obtain ⟨q, -, rfl⟩ := Tree.walk_join htidy (isName_companion hs he) hw
    rw [List.getLast?_concat] at hlast
    exact (Option.some.inj hlast).symm
  · rintro rfl
    exact Tree.walk_fileName h hn

def names (t : FileTarget) (name : String) : List String :=
  name :: endings.map (t.companionName ++ ·)

theorem names_nodup (hn : name ∉ endings.map (t.companionName ++ ·)) : (t.names name).Nodup := by
  refine List.nodup_cons.2 ⟨hn, List.Nodup.map ?_ (by decide)⟩
  intro x y hxy
  exact (String.append_right_inj _).1 hxy

theorem Written.companion (h : Written t m d c before after) (he : e ∈ endings)
    (ht : t.hasCompanions = true) (hw : after.walk (t.companion e) ≠ after.walk t.path) :
    ∃ x, after.read? (t.companion e) = some x := by
  simp only [endings, List.mem_cons, List.not_mem_nil, or_false] at he
  rcases he with rfl | rfl | rfl
  · exact ⟨_, h.certificate ht hw⟩
  · exact ⟨_, h.pem ht hw⟩
  · obtain ⟨text, -, -, hread, -⟩ := h.key ht hw
    exact ⟨_, hread⟩

def Beside (t : FileTarget) (tree : Tree) (names : List String) : Prop :=
  ∃ place, tree.Leads (tree.walk t.path.directory) place ∧
    ∀ n ∈ names, ∃ x, tree.get? (place ++ [n]) = some (.file x)

theorem Written.beside (h : Written t m d c before after) (ht : t.hasCompanions = true)
    (hs : '/' ∉ t.companionName.toList) (hn : t.path.fileName? = some name)
    (hname : name ∉ endings.map (t.companionName ++ ·)) : t.Beside after (t.names name) := by
  obtain ⟨first, rest, hd, htidy⟩ := exists_directory_eq t.path
  obtain ⟨x, -, hx⟩ := h.container
  obtain ⟨a, ha, hfile⟩ := Tree.read?_eq_some_iff.1 hx
  obtain ⟨init, name', -, hisname, hname'⟩ := Tree.fileName?_of_walk ha
  obtain rfl := Option.some.inj (hname'.symm.trans hn)
  have hcontainer := Tree.walk_fileName ha hn
  rw [hd] at hcontainer
  obtain ⟨place, hplace, rfl⟩ := Tree.walk_join htidy hisname hcontainer
  rw [← hd] at hplace
  refine ⟨place, hplace, List.forall_mem_cons.2 ⟨⟨x, hfile⟩, List.forall_mem_map.2 ?_⟩⟩
  intro e he
  have hending := isEnding_of_mem he
  have hapart : after.walk (t.companion e) ≠ after.walk t.path := by
    rw [ha]
    intro hw
    refine hname (List.mem_map.2 ⟨e, he, ?_⟩)
    exact ((walk_companion_iff hs hending hn ha).1 hw).symm
  obtain ⟨y, hy⟩ := h.companion he ht hapart
  obtain ⟨b, hb, hbfile⟩ := Tree.read?_eq_some_iff.1 hy
  unfold FileTarget.companion at hb
  rw [hd] at hb
  obtain ⟨place', hplace', rfl⟩ := Tree.walk_join htidy (isName_companion hs hending) hb
  rw [← hd] at hplace'
  rw [hplace.unique hplace']
  exact ⟨y, hbfile⟩

theorem companions_beside (t : FileTarget) (name : String) (hn : t.path.fileName? = some name) :
    (∀ e ∈ endings, ∀ e' ∈ endings, e' ≠ e → ∀ tree a, Tree.walk tree (t.companion e) = .entry a →
      tree.walk (t.companion e') ≠ .entry a) ∧
    (∀ e ∈ endings, (t.companion e).parent? = some t.path.directory ↔
      '/' ∉ t.companionName.toList) ∧
    ('/' ∉ t.companionName.toList → ∀ e ∈ endings, ∀ tree a, Tree.walk tree t.path = .entry a →
      (tree.walk (t.companion e) = .entry a ↔ name = t.companionName ++ e)) ∧
    ('/' ∉ t.companionName.toList → name ∉ endings.map (t.companionName ++ ·) →
      (t.names name).Nodup ∧ ∀ m d c w, t.hasCompanions = true → t.Fresh c →
        ((t.write m d).run c w).1 = .ok () →
          t.Beside ((t.write m d).run c w).2.storage.tree (t.names name)) := by
  refine ⟨?_, ?_, ?_, ?_⟩
  · intro e he e' he' hne tree a h
    exact companion_apart (isEnding_of_mem he) (isEnding_of_mem he') hne h
  · intro e he
    exact parent?_companion_iff t (isEnding_of_mem he)
  · intro hs e he tree a h
    exact walk_companion_iff hs (isEnding_of_mem he) hn h
  · intro hs hname
    refine ⟨names_nodup hname, ?_⟩
    intro m d c w ht hf h
    exact (write_written hf h).beside ht hs hn hname

theorem companions_beside_sample :
    (fullTarget "ks.p12").path.fileName? = some "ks.p12" ∧
    ((fullTarget "ks.p12").write fullMaterial sampleDraws |>.run numberedConduct emptyWorld).1 =
      .ok () ∧
    ((fullTarget "ks.p12").names "ks.p12").Nodup ∧
    (fullTarget "ks.p12").Beside (((fullTarget "ks.p12").write fullMaterial sampleDraws).run
      numberedConduct emptyWorld).2.storage.tree
        ["ks.p12", "signing-cert.crt", "signing-cert.pem", "signing-cert.key"] := by
  obtain ⟨-, -, -, h⟩ := companions_beside (fullTarget "ks.p12") "ks.p12" (by decide)
  obtain ⟨hnodup, hbeside⟩ := h (by decide) (by decide)
  exact ⟨by decide, full_write, hnodup, hbeside _ _ _ _ rfl full_fresh full_write⟩

-- A key store under the name of its certificate takes the place of it, and a certificate name with
-- a slash leads the companions to another directory.
theorem companions_astray :
    (Tree.empty.walk (fullTarget "signing-cert.crt").path = .entry ["signing-cert.crt"] ∧
      Tree.empty.walk (fullTarget "signing-cert.crt").certificatePath =
        .entry ["signing-cert.crt"]) ∧
    (FileTarget.mk ⟨"dir/k.p12"⟩ (some "a/b") true).path.directory = ⟨"dir"⟩ ∧
      (FileTarget.mk ⟨"dir/k.p12"⟩ (some "a/b") true).certificatePath.parent? =
        some ⟨"dir/signing-cert-a"⟩ := by
  refine ⟨⟨rfl, rfl⟩, by decide, by decide⟩

end Credential.FileTarget
