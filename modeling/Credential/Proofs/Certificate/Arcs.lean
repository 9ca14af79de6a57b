import Credential.Proofs.Oid
import Credential.Certificate.Reading

namespace Credential

namespace Certificate.RawOid

variable {n : Nat} {ms ns : List Nat} {o p : RawOid} {b : Bytes}

theorem arcs?_continued (n : Nat) (rest : Bytes) : ∃ pending,
    arcs? 0 false (Oid.continued n ++ rest) =
      if n < 1 <<< 64 then arcs? n pending rest else none := by
  -- The septets are written from the last one on and read from the first one on: the induction
  -- takes the last one off and leaves it in front of the rest.
  induction n using Nat.strongRecOn generalizing rest with
  | ind n ih =>
    unfold Oid.continued
    split
    · rename_i hn
      exact ⟨false, by rw [hn]; rfl⟩
    · obtain ⟨pending, hp⟩ := ih (n / 128) (by omega) (UInt8.ofNat (128 + n % 128) :: rest)
      have hb : (UInt8.ofNat (128 + n % 128)).toNat = 128 + n % 128 := by
        rw [UInt8.toNat_ofNat']
        omega
      have hlong : ¬ UInt8.ofNat (128 + n % 128) < 0x80 := by
        rw [UInt8.lt_iff_toNat_lt, hb]
        simp
      have hvalue : n / 128 * 128 + (128 + n % 128) % 128 = n := by omega
      refine ⟨true, ?_⟩
      rw [List.append_assoc, List.singleton_append, hp, arcs?]
      simp only [hb, hvalue, hlong, if_false]
      by_cases hn : n < 1 <<< 64
      · rw [if_pos (by omega), if_neg (Nat.not_le.2 hn), if_pos hn]
      · rw [if_pos (Nat.not_lt.1 hn), if_neg hn, ite_self]

theorem arcs?_arcBytes (n : Nat) (rest : Bytes) : arcs? 0 false (Oid.arcBytes n ++ rest) =
    if n < 1 <<< 64 then (arcs? 0 false rest).map (n :: ·) else none := by
  obtain ⟨pending, hp⟩ := arcs?_continued (n / 128) (UInt8.ofNat (n % 128) :: rest)
  have hb : (UInt8.ofNat (n % 128)).toNat = n % 128 := by
    rw [UInt8.toNat_ofNat']
    omega
  have hlast : UInt8.ofNat (n % 128) < 0x80 := by
    rw [UInt8.lt_iff_toNat_lt, hb]
    exact Nat.mod_lt _ (by decide)
  have hvalue : n / 128 * 128 + n % 128 % 128 = n := by omega
  rw [Oid.arcBytes, List.append_assoc, List.singleton_append, hp, arcs?]
  simp only [hb, hvalue, hlast, if_true]
  by_cases hn : n < 1 <<< 64
  · rw [if_pos (by omega), if_neg (Nat.not_le.2 hn), if_pos hn]
  · rw [if_pos (Nat.not_lt.1 hn), if_neg hn, ite_self]

theorem arcs?_flatMap (ns : List Nat) : arcs? 0 false (ns.flatMap Oid.arcBytes) =
    if ∀ n ∈ ns, n < 1 <<< 64 then some ns else none := by
  induction ns with
  | nil => rfl
  | cons n ns ih =>
    rw [List.flatMap_cons, arcs?_arcBytes, ih]
    simp only [List.forall_mem_cons]
    by_cases hn : n < 1 <<< 64
    · by_cases hns : ∀ n ∈ ns, n < 1 <<< 64
      · rw [if_pos hn, if_pos hns, if_pos ⟨hn, hns⟩]
        rfl
      · rw [if_pos hn, if_neg hns, if_neg fun h => hns h.2]
        rfl
    · rw [if_neg hn, if_neg fun h => hn h.1]

def spelled (o : RawOid) : Option (List Nat) :=
  match o.content with
  | [] => some []
  | b :: rest => (arcs? 0 false rest).map fun tail => (b / 40).toNat :: (b % 40).toNat :: tail

theorem toText_of_spelled (h : o.spelled = some ns) : o.toText = Oid.dotted ns := by
  obtain ⟨content⟩ := o
  cases content with
  | nil =>
    cases h
    rfl
  | cons b rest =>
    obtain ⟨tail, ht, rfl⟩ := Option.map_eq_some_iff.1 h
    simp only [toText, ht]

theorem ofArcs_divMod (b : UInt8) (ns : List Nat) :
    Oid.ofArcs ((b / 40).toNat :: (b % 40).toNat :: ns) = ⟨b :: ns.flatMap Oid.arcBytes⟩ := by
  have hb : UInt8.ofNat ((b / 40).toNat * 40 + (b % 40).toNat) = b := by
    rw [UInt8.toNat_div, UInt8.toNat_mod]
    show UInt8.ofNat (b.toNat / 40 * 40 + b.toNat % 40) = b
    rw [Nat.div_add_mod', UInt8.ofNat_toNat]
  rw [Oid.ofArcs, hb]

theorem ofArcs_of_spelled (ho : Oid.Canonical ⟨o.content⟩) (hs : o.spelled = some ns) :
    Oid.ofArcs ns = ⟨o.content⟩ := by
  obtain ⟨content⟩ := o
  obtain ⟨ms, hms⟩ := ho
  have hc : content = (Oid.ofArcs ms).content := congrArg Oid.content hms
  unfold Oid.ofArcs at hc
  split at hc
  · subst hc
    obtain ⟨tail, ht, rfl⟩ := Option.map_eq_some_iff.1 hs
    rw [arcs?_flatMap] at ht
    split at ht
    · obtain rfl := Option.some.inj ht
      exact ofArcs_divMod _ _
    · cases ht
  · subst hc
    obtain rfl := Option.some.inj hs
    rfl

theorem toList_hexText_cons (x : UInt8) (b : Bytes) : (hexText (x :: b)).toList =
    Nat.digitChar (x.toNat / 16) :: Nat.digitChar (x.toNat % 16) ::
      if b = [] then [] else ' ' :: (hexText b).toList := by
  cases b with
  | nil => simp [hexText]
  | cons y b => simp [hexText, String.toList_intercalate]

theorem isSpace_digitChar {n : Nat} (h : n < 16) : Text.isSpace (Nat.digitChar n) = false := by
  have hall : ∀ n < 16, Text.isSpace (Nat.digitChar n) = false := by decide
  exact hall n h

theorem trim_hexText (b : Bytes) : Text.trim (hexText b) = hexText b := by
  refine Text.trim_eq_self_iff.2 (Text.trimChars_of_ends ?_ ?_)
  · cases b with
    | nil => exact nofun
    | cons x b =>
      rw [toList_hexText_cons]
      rintro c ⟨⟩
      exact isSpace_digitChar (Nat.div_lt_of_lt_mul x.toNat_lt)
  · induction b with
    | nil => exact nofun
    | cons x b ih =>
      rw [toList_hexText_cons]
      cases b with
      | nil =>
        rintro c ⟨⟩
        exact isSpace_digitChar (by omega)
      | cons y b =>
        rw [toList_hexText_cons] at ih ⊢
        simpa only [List.cons_ne_nil, if_false, List.getLast?_cons_cons] using ih

theorem digitChar_injective {m n : Nat} (hm : m < 16) (hn : n < 16)
    (h : Nat.digitChar m = Nat.digitChar n) : m = n := by
  have hall : ∀ m < 16, ∀ n < 16, Nat.digitChar m = Nat.digitChar n → m = n := by decide
  exact hall m hm n hn h

theorem hexText_injective {b c : Bytes} (h : hexText b = hexText c) : b = c := by
  induction b generalizing c with
  | nil =>
    cases c with
    | nil => rfl
    | cons y c =>
      have hnil := congrArg String.toList h
      rw [toList_hexText_cons] at hnil
      cases hnil
  | cons x b ih =>
    have hlist := congrArg String.toList h
    cases c with
    | nil =>
      rw [toList_hexText_cons] at hlist
      cases hlist
    | cons y c =>
      rw [toList_hexText_cons, toList_hexText_cons, List.cons.injEq, List.cons.injEq] at hlist
      obtain ⟨hhigh, hlow, hrest⟩ := hlist
      have hx := x.toNat_lt
      have hy := y.toNat_lt
      have hdiv := digitChar_injective (by omega) (by omega) hhigh
      have hmod := digitChar_injective (by omega) (by omega) hlow
      obtain rfl : x = y := UInt8.toNat_inj.1 (by omega)
      by_cases hb : b = []
      · by_cases hc : c = []
        · rw [hb, hc]
        · rw [if_pos hb, if_neg hc] at hrest
          cases hrest
      · by_cases hc : c = []
        · rw [if_neg hb, if_pos hc] at hrest
          cases hrest
        · rw [if_neg hb, if_neg hc] at hrest
          rw [ih (String.toList_inj.1 (List.cons.inj hrest).2)]

theorem toText_of_spelled_eq_none (h : o.spelled = none) : o.toText = hexText o.content ∧
    ∃ m < 16, ∃ n < 16, ∃ cs,
      o.toText.toList = Nat.digitChar m :: Nat.digitChar n :: ' ' :: cs := by
  obtain ⟨content⟩ := o
  cases content with
  | nil => cases h
  | cons b rest =>
    have harcs : arcs? 0 false rest = none := Option.map_eq_none_iff.1 h
    have htext : toText ⟨b :: rest⟩ = hexText (b :: rest) := by simp only [toText, harcs]
    have hne : rest ≠ [] := by
      rintro rfl
      cases harcs
    have hb := b.toNat_lt
    refine ⟨htext, b.toNat / 16, by omega, b.toNat % 16, by omega, (hexText rest).toList, ?_⟩
    rw [htext, toList_hexText_cons, if_neg hne]

theorem toText_eq_iff (h : o.spelled = some ns) : o.toText = p.toText ↔ p.spelled = some ns := by
  constructor
  · intro ht
    cases hp : p.spelled with
    | none =>
      -- an identifier with too long an arc shows its bytes, and blanks between them
      obtain ⟨-, m, -, n, -, cs, hcs⟩ := toText_of_spelled_eq_none hp
      have hblank : ' ' ∈ (Oid.dotted ns).toList := by
        rw [← toText_of_spelled h, ht, hcs]
        simp
      rcases (Oid.dotted_dotted ns).mem hblank with hd | hd
      · cases hd
      · cases hd
    | some ms =>
      rw [toText_of_spelled h, toText_of_spelled hp] at ht
      rw [Oid.dotted_injective ht]
  · intro hp
    rw [toText_of_spelled h, toText_of_spelled hp]

theorem toText_eq_iff_of_canonical (ho : Oid.Canonical ⟨o.content⟩)
    (hp : Oid.Canonical ⟨p.content⟩) : o.toText = p.toText ↔ o.content = p.content := by
  constructor
  · intro ht
    cases hos : o.spelled with
    | some ns =>
      have hcontent := (ofArcs_of_spelled ho hos).symm.trans
        (ofArcs_of_spelled hp ((toText_eq_iff hos).1 ht))
      exact congrArg Oid.content hcontent
    | none =>
      cases hps : p.spelled with
      | some ns => cases hos.symm.trans ((toText_eq_iff hps).1 ht.symm)
      | none =>
        rw [(toText_of_spelled_eq_none hos).1, (toText_of_spelled_eq_none hps).1] at ht
        exact hexText_injective ht
  · intro hc
    exact congrArg toText (congrArg RawOid.mk hc)

end Certificate.RawOid

namespace Oid

variable {m m' n n' : Nat} {ms ns : List Nat}

theorem ofArcs_injective (hm : isBeginning (m :: m' :: ms) = true)
    (hn : isBeginning (n :: n' :: ns) = true) (hms : ∀ k ∈ ms, k < arcLimit)
    (hns : ∀ k ∈ ns, k < arcLimit) (h : ofArcs (m :: m' :: ms) = ofArcs (n :: n' :: ns)) :
    m :: m' :: ms = n :: n' :: ns := by
  simp only [isBeginning, Bool.and_eq_true, decide_eq_true_eq] at hm hn
  obtain ⟨hbyte, htail⟩ := List.cons.inj (congrArg Oid.content h)
  have hnat := congrArg UInt8.toNat hbyte
  rw [UInt8.toNat_ofNat', UInt8.toNat_ofNat', Nat.mod_eq_of_lt (by omega),
    Nat.mod_eq_of_lt (by omega)] at hnat
  have hread {ks : List Nat} (hks : ∀ k ∈ ks, k < arcLimit) :
      Certificate.RawOid.arcs? 0 false (ks.flatMap arcBytes) = some ks := by
    rw [Certificate.RawOid.arcs?_flatMap]
    exact if_pos fun k hk => Nat.lt_trans (hks k hk) (by decide)
  have hsome := hread hms
  rw [htail, hread hns] at hsome
  obtain rfl := Option.some.inj hsome
  obtain ⟨rfl, rfl⟩ : m = n ∧ m' = n' := by omega
  rfl

end Oid

end Credential
