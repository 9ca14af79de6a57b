/-!
White space in the sense of the Unicode property `White_Space`, and the trimming built on it.
-/

namespace Credential.Text

def isSpace (c : Char) : Bool :=
  let n := c.val
  (0x09 ≤ n && n ≤ 0x0D) || n == 0x20 || n == 0x85 || n == 0xA0 || n == 0x1680 ||
    (0x2000 ≤ n && n ≤ 0x200A) || n == 0x2028 || n == 0x2029 || n == 0x202F || n == 0x205F ||
    n == 0x3000

def trimChars (cs : List Char) : List Char :=
  ((cs.dropWhile isSpace).reverse.dropWhile isSpace).reverse

def trim (s : String) : String :=
  String.ofList (trimChars s.toList)

def isBlank (s : String) : Bool :=
  s.toList.all isSpace

def upper (s : String) : String :=
  String.ofList (s.toList.map Char.toUpper)

theorem dropWhile_eq_nil_iff (p : Char → Bool) (cs : List Char) :
    cs.dropWhile p = [] ↔ cs.all p = true := by
  induction cs with
  | nil => simp
  | cons c cs ih => by_cases h : p c = true <;> simp_all

theorem isBlank_iff_trim (s : String) : isBlank s = true ↔ trim s = "" := by
  have h : trim s = "" ↔ trimChars s.toList = [] := by
    rw [trim, ← String.ofList_nil, String.ofList_inj]
  rw [h, trimChars, List.reverse_eq_nil_iff, dropWhile_eq_nil_iff, List.all_reverse, isBlank]
  constructor
  · intro hb
    rw [(dropWhile_eq_nil_iff _ _).2 hb]
    rfl
  · intro hb
    rw [← dropWhile_eq_nil_iff]
    cases hd : s.toList.dropWhile isSpace with
    | nil => rfl
    | cons c cs =>
      have hc : isSpace c = false := by
        have := List.head?_dropWhile_not isSpace s.toList
        rw [hd] at this
        simpa using this
      simp [hd, hc] at hb

end Credential.Text
