import Credential.Proofs.Disk.Directory

namespace Credential.Disk

namespace Path

variable {p : Path} {first name last : String} {rest rest' ps : List String}

theorem pieces_ne_nil (p : Path) : p.pieces ≠ [] :=
  List.map_eq_nil_iff.not.2 (List.splitOn_ne_nil '/' p.text.toList)

theorem pieces_append_slash (s t : String) :
    (⟨s ++ "/" ++ t⟩ : Path).pieces = (⟨s⟩ : Path).pieces ++ (⟨t⟩ : Path).pieces := by
  have hchars : (s ++ "/" ++ t).toList = s.toList ++ '/' :: t.toList := by
    rw [String.toList_append, String.toList_append, List.append_assoc]
    rfl
  rw [pieces, hchars, List.splitOn_append_cons_self, List.map_append]
  rfl

theorem pieces_of_not_mem (h : '/' ∉ name.toList) : (⟨name⟩ : Path).pieces = [name] := by
  rw [pieces, List.splitOn_eq_singleton h, List.map_singleton, String.ofList_toList]

theorem dropVoidEnd_concat (h : isVoid last = false) : dropVoidEnd (ps ++ [last]) = ps ++ [last] :=
  List.rdropWhile_concat_neg isVoid ps last (by simp [h])

theorem dropVoidEnd_append_cons (h : isVoid name = false) (rest : List String) :
    dropVoidEnd (ps ++ name :: rest) = ps ++ name :: dropVoidEnd rest := by
  induction rest using List.reverseRecOn with
  | nil => exact dropVoidEnd_concat h
  | append_singleton rest x ih =>
    have hassoc : ps ++ name :: (rest ++ [x]) = (ps ++ name :: rest) ++ [x] := by simp
    rw [hassoc]
    cases hx : isVoid x with
    | false =>
      rw [dropVoidEnd_concat hx, dropVoidEnd_concat hx, hassoc]
    | true =>
      have hdrop (qs : List String) : dropVoidEnd (qs ++ [x]) = dropVoidEnd qs :=
        List.rdropWhile_concat_pos isVoid qs x hx
      rw [hdrop, hdrop, ih]

theorem dropVoidEnd_idem (ps : List String) : dropVoidEnd (dropVoidEnd ps) = dropVoidEnd ps :=
  List.rdropWhile_idempotent isVoid ps

def ofNamed (first : String) (rest : List String) : Path :=
  if first = "" ∧ rest = [] then ⟨"/"⟩ else ofPieces (first :: rest)

structure Tidy (first : String) (rest : List String) : Prop where
  trimmed : dropVoidEnd rest = rest
  whole : ∀ piece ∈ first :: rest, '/' ∉ piece.toList

theorem Tidy.of_isPrefix (h : first :: rest <+: p.pieces) : Tidy first (dropVoidEnd rest) where
  trimmed := dropVoidEnd_idem rest
  whole := by
    intro piece hm
    refine not_mem_of_mem_pieces (h.subset ?_)
    rcases List.mem_cons.1 hm with rfl | hm
    · exact List.mem_cons_self
    · exact List.mem_cons_of_mem _ ((dropVoidEnd_isPrefix rest).subset hm)

theorem parent?_eq (h : p.pieces = first :: rest) : p.parent? =
    if dropVoidEnd rest = [] then (if first = "" then none else some ⟨""⟩)
    else some (ofNamed first (dropVoidEnd (dropVoidEnd rest).dropLast)) := by
  unfold parent?
  rw [h]
  dsimp only
  split
  · rename_i hn
    rw [hn]
    rfl
  · rename_i hn
    rw [if_neg hn]
    unfold ofNamed
    split
    · rename_i hs
      rw [hs]
      split
      · rename_i hf
        rw [if_pos ⟨hf, rfl⟩]
      · rename_i hf
        rw [if_neg (by simp [hf]), ofPieces, String.intercalate_singleton]
    · rename_i hs
      rw [if_neg fun h => hs h.2]

theorem parent?_concat (h : p.pieces = first :: (rest ++ [last])) (hl : isVoid last = false) :
    p.parent? = some (ofNamed first (dropVoidEnd rest)) := by
  rw [parent?_eq h, dropVoidEnd_concat hl, if_neg (by simp), List.dropLast_concat]

theorem Tidy.getLast?_ne (h : Tidy first rest) (hn : ¬(first = "" ∧ rest = [])) :
    (first :: rest).getLast? ≠ some "" := by
  intro hl
  by_cases hr : rest = []
  · subst hr
    exact hn ⟨Option.some.inj hl, rfl⟩
  · obtain ⟨next, others, rfl⟩ := List.exists_cons_of_ne_nil hr
    rw [List.getLast?_cons_cons, List.getLast?_eq_some_getLast hr] at hl
    have hlast := List.rdropWhile_eq_self_iff.1 h.trimmed hr
    rw [Option.some.inj hl] at hlast
    exact hlast rfl

theorem Tidy.pieces_ofPieces (h : Tidy first rest) :
    (ofPieces (first :: rest)).pieces = first :: rest :=
  Path.pieces_ofPieces (List.cons_ne_nil _ _) h.whole

theorem ofNamed_ne_empty (h : Tidy first rest) : (ofNamed first rest).text ≠ "" := by
  unfold ofNamed
  split
  · decide
  · rename_i hn
    intro ht
    have hpieces : (ofPieces (first :: rest)).pieces = [""] := by
      rw [pieces, ht]
      rfl
    rw [h.pieces_ofPieces] at hpieces
    exact h.getLast?_ne hn (by rw [hpieces]; rfl)

theorem join_ofNamed (h : Tidy first rest) (hname : name.toList.head? ≠ some '/') :
    (ofNamed first rest).join name = ⟨(ofPieces (first :: rest)).text ++ "/" ++ name⟩ := by
  rw [join, if_neg hname]
  by_cases hn : first = "" ∧ rest = []
  · obtain ⟨rfl, rfl⟩ := hn
    rw [if_pos (.inr rfl)]
    rfl
  · have hempty := ofNamed_ne_empty h
    rw [ofNamed, if_neg hn] at hempty ⊢
    rw [if_neg]
    rintro (ht | ht)
    · exact hempty ht
    · obtain ⟨cs, hcs⟩ := List.getLast?_eq_some_iff.1 ht
      have hpieces : (ofPieces (first :: rest)).pieces =
          (cs.splitOn '/').map String.ofList ++ [""] := by
        rw [pieces, hcs, List.splitOn_append_cons_self, List.map_append]
        rfl
      rw [h.pieces_ofPieces] at hpieces
      exact h.getLast?_ne hn (by rw [hpieces, List.getLast?_concat])

theorem pieces_join (h : Tidy first rest) (hname : name.toList.head? ≠ some '/') :
    ((ofNamed first rest).join name).pieces = first :: (rest ++ (⟨name⟩ : Path).pieces) := by
  rw [join_ofNamed h hname, pieces_append_slash, h.pieces_ofPieces]
  rfl

theorem isPrefix_join (d : Path) (hname : name.toList.head? ≠ some '/') :
    d.text.toList <+: (d.join name).text.toList := by
  rw [join, if_neg hname]
  split
  · rw [String.toList_append]
    exact List.prefix_append _ _
  · rw [String.toList_append, String.toList_append, List.append_assoc]
    exact List.prefix_append _ _

theorem isPrefix_ofPieces {qs : List String} (h : ps <+: qs) :
    (ofPieces ps).text.toList <+: (ofPieces qs).text.toList := by
  rw [toList_ofPieces, toList_ofPieces]
  exact intercalate_isPrefix (h.map _)

theorem text_concat {init : List String} (h : p.pieces = first :: (init ++ [name])) :
    p.text = (ofPieces (first :: init)).text ++ "/" ++ name := by
  have htext : p = ofPieces ((first :: init) ++ [name]) := by
    rw [List.cons_append, ← h, ofPieces_pieces]
  rw [htext, ofPieces, ofPieces, String.intercalate_append_of_ne_nil (List.cons_ne_nil _ _)
    (List.cons_ne_nil _ _), String.intercalate_singleton]

theorem parent?_join {init : List String} (h : Tidy first rest)
    (hname : name.toList.head? ≠ some '/') (hp : (⟨name⟩ : Path).pieces = init ++ [last])
    (hl : isVoid last = false) : ((ofNamed first rest).join name).parent? =
      some (ofNamed first (dropVoidEnd (rest ++ init))) := by
  have hpieces := pieces_join h hname
  rw [hp, ← List.append_assoc] at hpieces
  exact parent?_concat hpieces hl

theorem Tidy.rest_eq (h : Tidy first rest) (h' : Tidy first rest')
    (he : ofNamed first rest = ofNamed first rest') : rest = rest' := by
  have hx : ("x" : String).toList.head? ≠ some '/' := by decide
  have hpieces := pieces_join h hx
  rw [he, pieces_join h' hx] at hpieces
  exact (List.append_cancel_right (List.cons.inj hpieces).2).symm

theorem directory_of_short (h : p.pieces = first :: rest) (hn : dropVoidEnd rest = []) :
    p.directory = ofNamed "." [] := by
  unfold directory
  rw [parent?_eq h, if_pos hn]
  by_cases hf : first = ""
  · rw [if_pos hf]
    rfl
  · rw [if_neg hf]
    rfl

theorem exists_directory_eq (p : Path) :
    ∃ first rest, p.directory = ofNamed first rest ∧ Tidy first rest := by
  obtain ⟨first, rest, hp⟩ := List.exists_cons_of_ne_nil (pieces_ne_nil p)
  by_cases hn : dropVoidEnd rest = []
  · exact ⟨".", [], directory_of_short hp hn, rfl, by decide⟩
  · have hprefix : first :: (dropVoidEnd rest).dropLast <+: p.pieces := by
      rw [hp]
      exact List.cons_prefix_cons.2 ⟨rfl, (List.dropLast_prefix _).trans (dropVoidEnd_isPrefix rest)⟩
    have htidy := Tidy.of_isPrefix hprefix
    refine ⟨first, _, ?_, htidy⟩
    unfold directory
    rw [parent?_eq hp, if_neg hn]
    exact if_neg (ofNamed_ne_empty htidy)

theorem directory_concat (h : p.pieces = first :: (rest ++ [last])) (hl : isVoid last = false) :
    p.directory = ofNamed first (dropVoidEnd rest) ∧ Tidy first (dropVoidEnd rest) := by
  have htidy : Tidy first (dropVoidEnd rest) :=
    Tidy.of_isPrefix (p := p) (by rw [h]; exact ⟨[last], by simp⟩)
  refine ⟨?_, htidy⟩
  unfold directory
  rw [parent?_concat h hl]
  exact if_neg (ofNamed_ne_empty htidy)

def fileName? (p : Path) : Option String :=
  (dropVoidEnd p.pieces).getLast?.filter (· ≠ "..")

def IsName (name : String) : Prop :=
  isVoid name = false ∧ name ≠ ".." ∧ '/' ∉ name.toList

theorem fileName?_of_pieces {init : List String} (h : p.pieces = init ++ [name])
    (hv : isVoid name = false) (hu : name ≠ "..") : p.fileName? = some name := by
  rw [fileName?, h, dropVoidEnd_concat hv, List.getLast?_concat]
  simp [hu]

theorem IsName.head?_ne (h : IsName name) : name.toList.head? ≠ some '/' :=
  fun hs => h.2.2 (List.mem_of_head? hs)

end Path

namespace Tree

open Credential.Disk.Path

variable {t : Tree} {p : Path} {a b place : Location} {w : Walk} {ps qs rest : List String}
  {first name : String}

def Leads (t : Tree) (w : Walk) (place : Location) : Prop :=
  w = .directory place ∨ w = .entry place ∧ t.get? place = some .directory

def onward (t : Tree) (qs : List String) : Walk → Walk
  | .directory place => t.follow place qs
  | .entry place =>
    match t.get? place with
    | some .directory => t.follow place qs
    | some (.file _) => .blocked
    | none => .missing
  | w => w

theorem Leads.unique (h : t.Leads w a) (h' : t.Leads w b) : a = b := by
  rcases h with rfl | ⟨rfl, -⟩
  · rcases h' with h | ⟨h, -⟩
    · exact Walk.directory.inj h
    · cases h
  · rcases h' with h | ⟨h, -⟩
    · cases h
    · exact Walk.entry.inj h

theorem follow_append (hq : qs ≠ []) (ps : List String) (place : Location) :
    t.follow place (ps ++ qs) = t.onward qs (t.follow place ps) := by
  induction ps generalizing place with
  | nil => rfl
  | cons piece ps ih =>
    rw [List.cons_append, follow, follow]
    split
    · exact ih place
    · split
      · exact ih _
      · split
        · rfl
        · rw [if_neg (by simp [hq])]
          by_cases hn : ps = []
          · subst hn
            rw [if_pos rfl]
            rfl
          · rw [if_neg hn]
            split
            · exact ih _
            · rfl
            · rfl

theorem onward_of_leads (h : t.Leads w place) : t.onward qs w = t.follow place qs := by
  rcases h with rfl | ⟨rfl, h⟩
  · rfl
  · rw [onward, h]

theorem leads_of_onward (h : t.onward qs w = .directory a ∨ t.onward qs w = .entry a) :
    ∃ place, t.Leads w place := by
  unfold onward at h
  split at h
  · exact ⟨_, .inl rfl⟩
  · split at h
    · rename_i hd
      exact ⟨_, .inr ⟨rfl, hd⟩⟩
    · rcases h with h | h <;> cases h
    · rcases h with h | h <;> cases h
  · rename_i hd he
    rcases h with h | h
    · exact absurd h (hd a)
    · exact absurd h (he a)

theorem follow_concat_iff (h : IsName name) : t.follow place (ps ++ [name]) = .entry a ↔
    name.utf8ByteSize ≤ maxNameSize ∧
      ∃ q, t.Leads (t.follow place ps) q ∧ a = q ++ [name] := by
  have hname (q : Location) : t.follow q [name] =
      if maxNameSize < name.utf8ByteSize then .blocked else .entry (q ++ [name]) := by
    rw [follow, if_neg (by simp [h.1]), if_neg h.2.1, if_pos rfl]
  rw [follow_append (List.cons_ne_nil _ _)]
  constructor
  · intro he
    obtain ⟨q, hq⟩ := leads_of_onward (.inr he)
    rw [onward_of_leads hq, hname] at he
    split at he
    · cases he
    · rename_i hl
      exact ⟨Nat.not_lt.1 hl, q, hq, (Walk.entry.inj he).symm⟩
  · rintro ⟨hl, q, hq, rfl⟩
    rw [onward_of_leads hq, hname, if_neg (Nat.not_lt.2 hl)]

theorem leads_follow_left (hq : ∀ v ∈ qs, isVoid v = true)
    (h : t.Leads (t.follow place (ps ++ qs)) a) : t.Leads (t.follow place ps) a := by
  by_cases hn : qs = []
  · rwa [hn, List.append_nil] at h
  · rw [follow_append hn] at h
    obtain ⟨q, hl⟩ := leads_of_onward (h.imp_right And.left)
    rw [onward_of_leads hl, follow_void hq] at h
    rwa [← h.unique (.inl rfl)] at hl

theorem exists_concat_of_follow (h : t.follow place ps = .entry a) :
    ∃ init name, ps = init ++ [name] ∧ isVoid name = false ∧ name ≠ ".." := by
  induction ps generalizing place with
  | nil => cases h
  | cons piece ps ih =>
    have hcons {place : Location} (h : t.follow place ps = .entry a) : ∃ init name,
        piece :: ps = init ++ [name] ∧ isVoid name = false ∧ name ≠ ".." := by
      obtain ⟨init, name, rfl, hname⟩ := ih h
      exact ⟨piece :: init, name, rfl, hname⟩
    unfold follow at h
    split at h
    · exact hcons h
    · rename_i hv
      split at h
      · exact hcons h
      · rename_i hu
        split at h
        · cases h
        · split at h
          · rename_i hn
            subst hn
            exact ⟨[], piece, rfl, Bool.eq_false_iff.2 hv, hu⟩
          · split at h
            · exact hcons h
            · cases h
            · cases h

theorem walk_ofNamed (h : Tidy first rest) (hs : isPathText (ofNamed first rest).text = true) :
    t.walk (ofNamed first rest) = t.follow [] (first :: rest) := by
  rw [walk, if_neg (ofNamed_ne_empty h), if_pos hs]
  by_cases hn : first = "" ∧ rest = []
  · obtain ⟨rfl, rfl⟩ := hn
    rfl
  · rw [ofNamed, if_neg hn, h.pieces_ofPieces]

theorem isPathText_append {s u : String} : isPathText (s ++ u) = true ↔
    s.utf8ByteSize + u.utf8ByteSize ≤ maxPathSize ∧
      s.toList.all (· ≠ '\x00') = true ∧ u.toList.all (· ≠ '\x00') = true := by
  rw [isPathText, Bool.and_eq_true, decide_eq_true_eq, String.utf8ByteSize_append,
    String.toList_append, List.all_append, Bool.and_eq_true]

theorem isPathText_append_left {s s' u : String} (hs : s.toList <+: s'.toList)
    (h : isPathText (s' ++ u) = true) : isPathText (s ++ u) = true := by
  obtain ⟨cs, hcs⟩ := hs
  obtain rfl : s ++ String.ofList cs = s' := by
    rw [← String.toList_inj, String.toList_append, String.toList_ofList, hcs]
  rw [String.append_assoc, isPathText_append, String.utf8ByteSize_append, String.toList_append,
    List.all_append, Bool.and_eq_true] at h
  rw [isPathText_append]
  exact ⟨by omega, h.2.1, h.2.2.2⟩

theorem walk_eq_follow (h : t.walk p = .entry a) :
    isPathText p.text = true ∧ t.follow [] p.pieces = .entry a := by
  unfold walk at h
  split at h
  · cases h
  · split at h
    · rename_i hs
      exact ⟨hs, h⟩
    · cases h

theorem walk_of_follow (hs : isPathText p.text = true) (h : t.follow [] p.pieces = .entry a) :
    t.walk p = .entry a := by
  rw [walk, if_neg, if_pos hs, h]
  intro ht
  have hpieces : p.pieces = [""] := by
    rw [pieces, ht]
    rfl
  rw [hpieces] at h
  cases h

theorem walk_join (h : Tidy first rest) (hn : IsName name)
    (hw : t.walk ((ofNamed first rest).join name) = .entry a) :
    ∃ q, t.Leads (t.walk (ofNamed first rest)) q ∧ a = q ++ [name] := by
  obtain ⟨hs, hf⟩ := walk_eq_follow hw
  rw [pieces_join h hn.head?_ne, pieces_of_not_mem hn.2.2, ← List.cons_append] at hf
  rw [walk_ofNamed h (isPathText_of_isPrefix (isPrefix_join _ hn.head?_ne) hs)]
  exact ((follow_concat_iff hn).1 hf).2

theorem fileName?_of_walk (h : t.walk p = .entry a) :
    ∃ init name, p.pieces = init ++ [name] ∧ IsName name ∧ p.fileName? = some name := by
  obtain ⟨init, name, hp, hv, hu⟩ := exists_concat_of_follow (walk_eq_follow h).2
  exact ⟨init, name, hp, ⟨hv, hu, not_mem_of_mem_pieces (p := p) (by simp [hp])⟩,
    fileName?_of_pieces hp hv hu⟩

-- The file name in its directory is another path to the same place, maybe a shorter one: the
-- directory is without void pieces at its end.
theorem walk_fileName (h : t.walk p = .entry a) (hname : p.fileName? = some name) :
    t.walk (p.directory.join name) = .entry a := by
  obtain ⟨init, name', hp, hn, hname'⟩ := fileName?_of_walk h
  obtain rfl := Option.some.inj (hname'.symm.trans hname)
  obtain ⟨hs, hf⟩ := walk_eq_follow h
  rw [hp] at hf
  obtain ⟨hl, q, hq, rfl⟩ := (follow_concat_iff hn).1 hf
  cases init with
  | nil =>
    have hdot : Tidy "." [] := ⟨rfl, by decide⟩
    have htext : p.text = name' := by
      rw [← ofPieces_pieces p, hp, ofPieces, List.nil_append, String.intercalate_singleton]
    have hsmall : maxNameSize + 2 ≤ maxPathSize := by decide
    rw [directory_of_short hp rfl]
    refine walk_of_follow ?_ ?_
    · rw [join_ofNamed hdot hn.head?_ne, isPathText_append]
      rw [htext, isPathText, Bool.and_eq_true] at hs
      refine ⟨?_, rfl, hs.2⟩
      have hsize : ((ofPieces ["."]).text ++ "/").utf8ByteSize = 2 := rfl
      omega
    · rw [pieces_join hdot hn.head?_ne, pieces_of_not_mem hn.2.2]
      rw [← List.cons_append]
      exact (follow_concat_iff hn).2 ⟨hl, q, hq, rfl⟩
  | cons first rest =>
    obtain ⟨hd, htidy⟩ := directory_concat hp hn.1
    rw [hd]
    refine walk_of_follow ?_ ?_
    · rw [text_concat hp, String.append_assoc] at hs
      rw [join_ofNamed htidy hn.head?_ne, String.append_assoc]
      refine isPathText_append_left (isPrefix_ofPieces ?_) hs
      exact List.cons_prefix_cons.2 ⟨rfl, dropVoidEnd_isPrefix rest⟩
    · rw [pieces_join htidy hn.head?_ne, pieces_of_not_mem hn.2.2, ← List.cons_append]
      have hvoid : ∀ v ∈ rest.rtakeWhile isVoid, isVoid v = true :=
        fun v hv => List.mem_rtakeWhile_imp hv
      rw [← List.rdropWhile_append_rtakeWhile (p := isVoid) (l := rest), ← List.cons_append] at hq
      exact (follow_concat_iff hn).2 ⟨hl, q, leads_follow_left hvoid hq, rfl⟩

end Tree

end Credential.Disk
