import Credential.Der.Set
import Credential.Proofs.Powers

namespace Credential

theorem Bytes.length_ofNat_le (k n : Nat) (h : n < 256 ^ k) : (ofNat n).length ≤ k := by
  induction k generalizing n with
  | zero =>
    have h0 : n = 0 := by simpa using h
    subst h0
    simp [ofNat]
  | succ k ih =>
    unfold ofNat
    split
    · simp
    · have hk : n / 256 < 256 ^ k := by
        rw [Nat.pow_succ] at h
        omega
      have := ih (n / 256) hk
      simp only [List.length_append, List.length_cons, List.length_nil]
      omega

theorem Bytes.ofNat_ne_nil {n : Nat} (h : n ≠ 0) : ofNat n ≠ [] := by
  unfold ofNat
  simp [h]

namespace Der

theorem readLength_lengthBytes (n : Nat) (h : n ≤ maxLength) (rest : Bytes) :
    readLength (lengthBytes n ++ rest) = some (n, rest) := by
  by_cases hs : n < 128
  · have hb : UInt8.ofNat n < 0x80 := by
      rw [UInt8.lt_iff_toNat_lt, UInt8.toNat_ofNat']
      simp
      omega
    simp only [lengthBytes, hs, if_true, List.singleton_append, readLength, hb,
      UInt8.toNat_ofNat']
    rw [Nat.mod_eq_of_lt (by omega)]
  · have hle : (Bytes.ofNat n).length ≤ 4 :=
      Bytes.length_ofNat_le 4 n (by simp only [maxLength] at h; omega)
    have hpos : 0 < (Bytes.ofNat n).length :=
      List.length_pos_iff.2 (Bytes.ofNat_ne_nil (by omega))
    have hb : (UInt8.ofNat (128 + (Bytes.ofNat n).length)).toNat = 128 + (Bytes.ofNat n).length := by
      rw [UInt8.toNat_ofNat']
      omega
    have hnot : ¬ UInt8.ofNat (128 + (Bytes.ofNat n).length) < 0x80 := by
      rw [UInt8.lt_iff_toNat_lt, hb]
      simp
    have hl : lengthBytes n = UInt8.ofNat (128 + (Bytes.ofNat n).length) :: Bytes.ofNat n := by
      simp [lengthBytes, hs]
    have hc : 128 + (Bytes.ofNat n).length - 0x80 = (Bytes.ofNat n).length := by omega
    rw [hl, List.cons_append]
    simp only [readLength, hnot, if_false, hb, hc, List.take_left, List.drop_left,
      Bytes.toNat_ofNat, hl, and_true]
    rw [if_pos ⟨hpos, hle⟩]

namespace Value

def Known (v : Value) : Prop := Tag.isKnown v.tag = true

def Fits (v : Value) : Prop := v.encode.length ≤ maxLength

theorem encode_ne_nil (v : Value) : v.encode ≠ [] := List.cons_ne_nil _ _

theorem length_content_lt (v : Value) : v.content.length < v.encode.length := by
  simp only [encode, List.cons_append, List.length_cons, List.length_append]
  omega

theorem Fits.content {v : Value} (h : v.Fits) : v.content.length ≤ maxLength := by
  have := v.length_content_lt
  unfold Fits at h
  omega

theorem readValue_encode {v : Value} (hk : v.Known) (hf : v.Fits) (rest : Bytes) :
    readValue (v.encode ++ rest) = some (v, rest) := by
  have hl := readLength_lengthBytes v.content.length hf.content (v.content ++ rest)
  unfold Known at hk
  simp only [encode, List.cons_append, List.append_assoc, readValue, hk, if_true, hl,
    List.length_append, List.take_left, List.drop_left]
  rw [if_pos (by omega)]

theorem decode?_encode {v : Value} (hk : v.Known) (hf : v.Fits) : decode? v.encode = some v := by
  have h := readValue_encode hk hf []
  rw [List.append_nil] at h
  unfold Fits at hf
  simp [decode?, h, hf]

theorem encodeAll_nil : encodeAll [] = [] := rfl

@[simp] theorem encodeAll_cons (v : Value) (vs : List Value) :
    encodeAll (v :: vs) = v.encode ++ encodeAll vs := by
  simp [encodeAll]

theorem length_encode_le_encodeAll {v : Value} {vs : List Value} (h : v ∈ vs) :
    v.encode.length ≤ (encodeAll vs).length := by
  induction vs with
  | nil => simp at h
  | cons w vs ih =>
    rw [encodeAll_cons, List.length_append]
    rcases List.mem_cons.1 h with rfl | h
    · omega
    · have := ih h
      omega

theorem readValues_encodeAll (vs : List Value) (hk : ∀ v ∈ vs, v.Known)
    (hf : ∀ v ∈ vs, v.Fits) : readValues (encodeAll vs) = some vs := by
  induction vs with
  | nil => simp [encodeAll, readValues]
  | cons v vs ih =>
    have hv := readValue_encode (hk v (by simp)) (hf v (by simp)) (encodeAll vs)
    have hr := ih (fun w hw => hk w (by simp [hw])) (fun w hw => hf w (by simp [hw]))
    obtain ⟨x, xs, hx⟩ : ∃ x xs, v.encode ++ encodeAll vs = x :: xs := by
      simp [encode]
    rw [encodeAll_cons, hx, readValues]
    split
    · rename_i w rest hw
      rw [← hx, hv] at hw
      cases hw
      rw [hr]
      rfl
    · rename_i hw
      rw [← hx, hv] at hw
      cases hw

theorem known_of_readValue {b rest : Bytes} {v : Value} (h : readValue b = some (v, rest)) :
    v.Known := by
  unfold readValue at h
  split at h
  · cases h
  · rename_i tag body
    split at h
    · rename_i hk
      split at h
      · split at h
        · cases h
          exact hk
        · cases h
      · cases h
    · cases h

theorem known_of_readValues {b : Bytes} {vs : List Value} (h : readValues b = some vs) :
    ∀ v ∈ vs, v.Known := by
  induction vs generalizing b with
  | nil => exact List.forall_mem_nil _
  | cons w vs ih =>
    unfold readValues at h
    split at h
    · cases h
    · split at h
      · rename_i v rest hv
        obtain ⟨ws, hr, hw⟩ := Option.map_eq_some_iff.1 h
        obtain ⟨rfl, rfl⟩ := List.cons.inj hw
        exact List.forall_mem_cons.2 ⟨known_of_readValue hv, ih hr⟩
      · cases h

theorem Fits.of_content {v w : Value} (h : w.Fits) (hl : v.encode.length ≤ w.content.length) :
    v.Fits := by
  have := w.length_content_lt
  unfold Fits at h ⊢
  omega

theorem length_encode_congr {v w : Value} (h : v.content.length = w.content.length) :
    v.encode.length = w.encode.length := by
  simp only [encode, List.length_append, List.length_cons, h]

theorem length_encode_le {v : Value} {n : Nat} (h : v.content.length ≤ n) (hn : n ≤ maxLength) :
    v.encode.length ≤ n + 6 := by
  have hl : (lengthBytes v.content.length).length ≤ 5 := by
    unfold lengthBytes
    split
    · simp
    · have := Bytes.length_ofNat_le 4 v.content.length (by simp only [maxLength] at hn; omega)
      simp only [List.length_cons]
      omega
  simp only [encode, List.cons_append, List.length_cons, List.length_append]
  omega

theorem toDer_of_fits {v : Value} {fault : Error} (hf : v.Fits) :
    v.toDer fault = .ok v.encode := if_pos hf

theorem toDer_of_not_fits {v : Value} {fault : Error} (hf : ¬ v.Fits) :
    v.toDer fault = .error fault := if_neg hf

theorem toDer_ok {v : Value} {fault : Error} {b : Bytes} (h : v.toDer fault = .ok b) :
    v.Fits ∧ b = v.encode := by
  unfold toDer at h
  split at h
  · cases h
    exact ⟨by assumption, rfl⟩
  · cases h

section Constructors

variable {vs : List Value} {v : Value}

@[simp] theorem known_sequence (vs : List Value) : (sequence vs).Known := rfl

@[simp] theorem known_natural (n : Nat) : (natural n).Known := rfl

@[simp] theorem known_octets (b : Bytes) : (octets b).Known := rfl

@[simp] theorem known_bits (b : Bytes) : (bits b).Known := rfl

@[simp] theorem known_null : null.Known := rfl

@[simp] theorem known_oid (o : Oid) : (oid o).Known := rfl

@[simp] theorem known_set (vs : List Value) : (set vs).Known := rfl

@[simp] theorem known_explicit (v : Value) : (explicit 0 v).Known :=
  (by decide : Tag.isKnown (Tag.context 0) = true)

@[simp] theorem known_implicit (b : Bytes) : Known ⟨Tag.implicit 0, b⟩ :=
  (by decide : Tag.isKnown (Tag.implicit 0) = true)

theorem Fits.mem_sequence (h : (sequence vs).Fits) (hv : v ∈ vs) : v.Fits :=
  h.of_content (length_encode_le_encodeAll hv)

theorem Fits.second {w : Value} (h : (sequence (w :: v :: vs)).Fits) : v.Fits :=
  h.mem_sequence (List.mem_cons_of_mem w (List.mem_cons_self ..))

theorem Fits.of_explicit {number : UInt8} (h : (explicit number v).Fits) : v.Fits :=
  h.of_content (Nat.le_refl _)

theorem sequence?_sequence (hk : ∀ v ∈ vs, v.Known) (hf : (sequence vs).Fits) :
    (sequence vs).sequence? = some vs :=
  readValues_encodeAll vs hk fun _ => hf.mem_sequence

theorem known_of_sequence? {ws : List Value} (h : v.sequence? = some ws) : ∀ w ∈ ws, w.Known := by
  unfold sequence? at h
  split at h
  · exact known_of_readValues h
  · cases h

theorem decodeSequence?_sequence (hk : ∀ v ∈ vs, v.Known) (hf : (sequence vs).Fits) :
    decodeSequence? (sequence vs).encode = some vs := by
  unfold decodeSequence?
  rw [decode?_encode (known_sequence vs) hf]
  exact sequence?_sequence hk hf

theorem explicit?_explicit {number : UInt8} (hk : v.Known) (hf : (explicit number v).Fits) :
    (explicit number v).explicit? number = some v := by
  have ht : (explicit number v).tag = Tag.context number := rfl
  simp only [explicit?, ht, if_true]
  exact decode?_encode hk hf.of_explicit

theorem oid?_oid {o : Oid} (h : Oid.ofContent? o.content = some o) : (oid o).oid? = some o := h

end Constructors

theorem toNat_naturalBytes (n : Nat) : Bytes.toNat (naturalBytes n) = n := by
  have h := Bytes.toNat_ofNat n
  unfold naturalBytes
  split
  · rename_i hb
    rw [hb] at h
    exact h
  · rename_i b rest hb
    rw [hb] at h
    split
    · exact h
    · rw [← h]
      simp [Bytes.toNat]

theorem natural?_natural (n : Nat) : (natural n).natural? = some n := by
  simp [natural?, natural, toNat_naturalBytes]

theorem naturalBelow?_natural {limit n : Nat} (h : n < limit) :
    (natural n).naturalBelow? limit = some n := by
  simp [naturalBelow?, natural?_natural, h]

theorem precedes_trans (u v w : Value) (huv : precedes u v = true) (hvw : precedes v w = true) :
    precedes u w = true := by
  simp only [precedes, decide_eq_true_eq] at *
  exact List.le_trans huv hvw

theorem precedes_total (v w : Value) : (precedes v w || precedes w v) = true := by
  simp only [precedes, Bool.or_eq_true, decide_eq_true_eq]
  exact List.le_total _ _

theorem sort_sort (vs : List Value) : sort (sort vs) = sort vs :=
  List.mergeSort_of_pairwise (List.pairwise_mergeSort precedes_trans precedes_total vs)

theorem sort_perm (vs : List Value) : (sort vs).Perm vs := List.mergeSort_perm vs precedes

theorem mem_sort {v : Value} {vs : List Value} : v ∈ sort vs ↔ v ∈ vs := (sort_perm vs).mem_iff

theorem set?_set {vs : List Value} (hk : ∀ v ∈ vs, v.Known) (hn : vs.Nodup)
    (hf : (set vs).Fits) : (set vs).set? = some (sort vs) := by
  have ht : (set vs).tag = Tag.set := rfl
  have hr : readValues (set vs).content = some (sort vs) :=
    readValues_encodeAll _ (fun v hv => hk v (mem_sort.1 hv))
      fun v hv => hf.of_content (length_encode_le_encodeAll hv)
  have hd : (sort vs).Nodup := (sort_perm vs).nodup_iff.2 hn
  simp [set?, ht, hr, hd, sort_sort]

theorem Fits.mem_set {v : Value} {vs : List Value} (h : (set vs).Fits) (hv : v ∈ vs) : v.Fits :=
  h.of_content (length_encode_le_encodeAll (mem_sort.2 hv))

end Value

end Der

end Credential
