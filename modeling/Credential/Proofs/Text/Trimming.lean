import Mathlib
import Credential.Text.Blank

namespace Credential.Text

variable {c : Char} {cs pre post : List Char}

theorem isSpace_of_isDigit (h : c.isDigit = true) : isSpace c = false := by
  unfold Char.isDigit at h
  simp only [ge_iff_le, Bool.and_eq_true, decide_eq_true_eq, UInt32.le_iff_toNat_le] at h
  have hlow : 48 ≤ c.val.toNat := h.1
  have hhigh : c.val.toNat ≤ 57 := h.2
  simp only [isSpace, Bool.or_eq_false_iff, Bool.and_eq_false_iff, decide_eq_false_iff_not,
    beq_eq_false_iff_ne, ne_eq, UInt32.le_iff_toNat_le, ← UInt32.toNat_inj, UInt32.reduceToNat]
  omega

theorem toUpper_of_isDigit (h : c.isDigit = true) : c.toUpper = c := by
  unfold Char.isDigit at h
  simp only [ge_iff_le, Bool.and_eq_true, decide_eq_true_eq] at h
  unfold Char.toUpper
  rw [dif_neg]
  rintro ⟨hlow, -⟩
  exact absurd (UInt32.le_trans hlow h.2) (by decide)

theorem toUpper_of_isSpace (h : isSpace c = true) : c.toUpper = c := by
  unfold Char.toUpper
  rw [dif_neg]
  rintro ⟨hlow, hhigh⟩
  have hlow' : 97 ≤ c.val.toNat := hlow
  have hhigh' : c.val.toNat ≤ 122 := hhigh
  simp only [isSpace, Bool.or_eq_true, Bool.and_eq_true, decide_eq_true_eq, beq_iff_eq,
    UInt32.le_iff_toNat_le, ← UInt32.toNat_inj, UInt32.reduceToNat] at h
  omega

theorem eq_dash_of_toUpper (h : c.toUpper = '-') : c = '-' := by
  unfold Char.toUpper at h
  split at h
  · rename_i hc
    have hlow : 97 ≤ c.val.toNat := hc.1
    have hhigh : c.val.toNat ≤ 122 := hc.2
    have hval := congrArg (fun c : Char => c.val.toNat) h
    have hshift : ('A'.val - 'a'.val).toNat = 4294967264 := rfl
    have hdash : '-'.val.toNat = 45 := rfl
    dsimp only at hval
    rw [UInt32.toNat_add, hshift, hdash] at hval
    omega
  · exact h

theorem not_of_mem_head?_dropWhile {p : Char → Bool} (h : c ∈ (cs.dropWhile p).head?) :
    p c = false := by
  have hnot := List.head?_dropWhile_not p cs
  rw [Option.mem_def.1 h] at hnot
  simpa using hnot

theorem trimChars_of_ends (hfirst : ∀ c ∈ cs.head?, isSpace c = false)
    (hlast : ∀ c ∈ cs.getLast?, isSpace c = false) : trimChars cs = cs := by
  have hdrop (ds : List Char) (hd : ∀ c ∈ ds.head?, isSpace c = false) :
      ds.dropWhile isSpace = ds := by
    cases ds with
    | nil => rfl
    | cons d ds => rw [List.dropWhile_cons_of_neg (by rw [hd d rfl]; decide)]
  rw [trimChars, hdrop cs hfirst, hdrop cs.reverse (by rwa [List.head?_reverse]),
    List.reverse_reverse]

theorem ends_of_trimChars (h : trimChars cs = cs) :
    (∀ c ∈ cs.head?, isSpace c = false) ∧ ∀ c ∈ cs.getLast?, isSpace c = false := by
  have hhead {ds : List Char} (hd : ds.dropWhile isSpace = ds) :
      ∀ c ∈ ds.head?, isSpace c = false := by
    intro c hc
    rw [← hd] at hc
    exact not_of_mem_head?_dropWhile hc
  have hfront : cs.dropWhile isSpace <:+ cs := List.dropWhile_suffix _
  have hback := List.dropWhile_suffix isSpace (l := (cs.dropWhile isSpace).reverse)
  have hlength := congrArg List.length h
  have hle := hback.length_le
  rw [trimChars, List.length_reverse] at hlength
  rw [List.length_reverse] at hle
  have hdrop : cs.dropWhile isSpace = cs :=
    hfront.eq_of_length (Nat.le_antisymm hfront.length_le (hlength.symm.trans_le hle))
  refine ⟨hhead hdrop, ?_⟩
  rw [trimChars, hdrop] at h
  have hreverse := congrArg List.reverse h
  rw [List.reverse_reverse] at hreverse
  rw [← List.head?_reverse]
  exact hhead hreverse

theorem trim_eq_self_iff {s : String} : trim s = s ↔ trimChars s.toList = s.toList := by
  rw [trim, ← String.toList_inj, String.toList_ofList]

theorem trimChars_of_forall (h : ∀ c ∈ cs, isSpace c = false) : trimChars cs = cs :=
  trimChars_of_ends (fun c hc => h c (List.mem_of_head? hc))
    fun c hc => h c (List.mem_of_getLast? hc)

theorem trimChars_surrounded (hpre : ∀ c ∈ pre, isSpace c = true)
    (hpost : ∀ c ∈ post, isSpace c = true) (hcs : ∀ c ∈ cs, isSpace c = false) :
    trimChars (pre ++ cs ++ post) = cs := by
  have hreverse : ∀ c ∈ post.reverse, isSpace c = true := fun c hc =>
    hpost c (List.mem_reverse.1 hc)
  have htrim := trimChars_of_forall hcs
  cases cs with
  | nil =>
    rw [trimChars, List.append_nil, List.dropWhile_append_of_pos hpre, ← List.append_nil post,
      List.dropWhile_append_of_pos hpost]
    rfl
  | cons c cs =>
    have hne : ¬ isSpace c = true := by
      rw [(List.forall_mem_cons.1 hcs).1]
      exact Bool.false_ne_true
    rw [trimChars, List.dropWhile_cons_of_neg hne] at htrim
    rw [trimChars, List.append_assoc, List.dropWhile_append_of_pos hpre, List.cons_append,
      List.dropWhile_cons_of_neg hne, ← List.cons_append, List.reverse_append,
      List.dropWhile_append_of_pos hreverse, htrim]

end Credential.Text
