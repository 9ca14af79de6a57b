import Credential.Error

namespace Credential

variable {ε δ α β : Type}

theorem exists_of_bind_ok {x : Except ε α} {f : α → Except ε β} {b : β}
    (h : (x >>= f) = .ok b) : ∃ a, x = .ok a ∧ f a = .ok b := by
  cases x with
  | error e => cases h
  | ok a => exact ⟨a, rfl, h⟩

theorem bind_error_iff {x : Except ε α} {f : α → Except ε β} {e : ε} :
    (x >>= f) = .error e ↔ x = .error e ∨ ∃ a, x = .ok a ∧ f a = .error e := by
  cases x <;> simp [bind, Except.bind]

theorem mapError_of_ok (f : ε → δ) (a : α) : (.ok a : Except ε α).mapError f = .ok a := rfl

theorem mapError_of_error (f : ε → δ) (e : ε) :
    (.error e : Except ε α).mapError f = .error (f e) := rfl

theorem ok_of_mapError_ok {x : Except ε α} {f : ε → δ} {a : α} (h : x.mapError f = .ok a) :
    x = .ok a := by
  cases x with
  | error e => cases h
  | ok b =>
    cases h
    rfl

theorem exists_mapError_ok {x : Except ε α} {f : ε → δ} :
    (∃ a, x.mapError f = .ok a) ↔ ∃ a, x = .ok a := by
  constructor
  · rintro ⟨a, h⟩
    exact ⟨a, ok_of_mapError_ok h⟩
  · rintro ⟨a, rfl⟩
    exact ⟨a, rfl⟩

theorem mapError_error_iff {x : Except ε α} {f : ε → δ} {e : δ} :
    x.mapError f = .error e ↔ ∃ cause, x = .error cause ∧ e = f cause := by
  constructor
  · intro h
    cases x with
    | error cause =>
      cases h
      exact ⟨cause, rfl, rfl⟩
    | ok a => cases h
  · rintro ⟨cause, rfl, rfl⟩
    rfl

@[simp]
theorem lift_ok (a : α) : (liftM (.ok a : Except ε α) : Except (Failure ε) α) = .ok a := rfl

@[simp]
theorem lift_error (e : ε) :
    (liftM (.error e : Except ε α) : Except (Failure ε) α) = .error (.raised e) := rfl

theorem lift_ok_iff {x : Except ε α} {a : α} :
    (liftM x : Except (Failure ε) α) = .ok a ↔ x = .ok a := by
  cases x <;> simp

theorem lift_error_iff {x : Except ε α} {f : Failure ε} :
    (liftM x : Except (Failure ε) α) = .error f ↔ ∃ e, x = .error e ∧ f = .raised e :=
  mapError_error_iff

theorem map_ok_iff {x : Except ε α} {f : α → β} {b : β} :
    x.map f = .ok b ↔ ∃ a, x = .ok a ∧ f a = b := by
  cases x <;> simp [Except.map]

theorem length_of_mapM {f : α → Option β} {xs : List α} {ys : List β}
    (h : xs.mapM f = some ys) : ys.length = xs.length := by
  induction xs generalizing ys with
  | nil =>
    cases h
    rfl
  | cons x xs ih =>
    rw [List.mapM_cons] at h
    obtain ⟨y, -, h⟩ := Option.bind_eq_some_iff.1 h
    obtain ⟨zs, hs, h⟩ := Option.bind_eq_some_iff.1 h
    obtain rfl := Option.some.inj h
    rw [List.length_cons, List.length_cons, ih hs]

theorem mapM_eq_none {f : α → Option β} {xs : List α} {x : α} (hx : x ∈ xs) (h : f x = none) :
    xs.mapM f = none := by
  induction xs with
  | nil => cases hx
  | cons y ys ih =>
    rw [List.mapM_cons]
    rcases List.mem_cons.1 hx with rfl | hx
    · rw [h]
      rfl
    · rw [ih hx]
      cases f y <;> rfl

theorem exists_of_mem_mapM {f : α → Option β} {xs : List α} {ys : List β}
    (h : xs.mapM f = some ys) {y : β} (hy : y ∈ ys) : ∃ x ∈ xs, f x = some y := by
  induction xs generalizing ys with
  | nil =>
    cases h
    cases hy
  | cons x xs ih =>
    rw [List.mapM_cons] at h
    obtain ⟨z, hz, h⟩ := Option.bind_eq_some_iff.1 h
    obtain ⟨zs, hs, h⟩ := Option.bind_eq_some_iff.1 h
    obtain rfl := Option.some.inj h
    rcases List.mem_cons.1 hy with rfl | hy
    · exact ⟨x, List.mem_cons_self, hz⟩
    · obtain ⟨w, hw, hy⟩ := ih hs hy
      exact ⟨w, List.mem_cons_of_mem _ hw, hy⟩

theorem eq_map_of_mapM {f : α → Option β} {g : β → α} {xs : List α} {ys : List β}
    (hf : ∀ x y, f x = some y → x = g y) (h : xs.mapM f = some ys) : xs = ys.map g := by
  induction xs generalizing ys with
  | nil =>
    cases h
    rfl
  | cons x xs ih =>
    rw [List.mapM_cons] at h
    obtain ⟨y, hy, h⟩ := Option.bind_eq_some_iff.1 h
    obtain ⟨zs, hs, h⟩ := Option.bind_eq_some_iff.1 h
    obtain rfl := Option.some.inj h
    rw [List.map_cons, ← hf x y hy, ← ih hs]

theorem mapM_map_eq_some {γ : Type} {f : β → Option γ} {g : α → β} {k : α → γ} {xs : List α}
    (h : ∀ x ∈ xs, f (g x) = some (k x)) : (xs.map g).mapM f = some (xs.map k) := by
  induction xs with
  | nil => rfl
  | cons x xs ih =>
    obtain ⟨hx, hxs⟩ := List.forall_mem_cons.1 h
    rw [List.map_cons, List.mapM_cons, hx, ih hxs]
    rfl

inductive Blames : List ε → Except ε α → Prop
  | ok (a : α) : Blames [] (.ok a)
  | error (e : ε) (rest : List ε) : Blames (e :: rest) (.error e)

def faultIf (p : Prop) [Decidable p] (e : ε) : List ε := if p then [e] else []

theorem faultIf_eq_nil_iff {p : Prop} [Decidable p] {e : ε} :
    faultIf p e = [] ↔ ¬p := by
  unfold faultIf
  split <;> simp [*]

theorem mem_faultIf_iff {p : Prop} [Decidable p] {e f : ε} :
    f ∈ faultIf p e ↔ p ∧ f = e := by
  unfold faultIf
  split <;> simp [*]

namespace Blames

variable {fs gs : List ε} {y : Except ε α} {e : ε}

theorem bind {f : α → Except ε β} (h : Blames fs y) (hf : ∀ a, y = .ok a → Blames gs (f a)) :
    Blames (fs ++ gs) (y >>= f) := by
  cases h with
  | ok a => exact hf a rfl
  | error e rest => exact .error e (rest ++ gs)

theorem here {p : Prop} [Decidable p] (hp : p) :
    Blames (faultIf p e ++ gs) (.error e : Except ε α) := by
  rw [faultIf, if_pos hp, List.singleton_append]
  exact .error e gs

theorem later {p : Prop} [Decidable p] (hp : ¬p) (h : Blames gs y) :
    Blames (faultIf p e ++ gs) y := by
  rw [faultIf, if_neg hp, List.nil_append]
  exact h

theorem ite {p : Prop} [Decidable p] (h : ¬p → Blames gs y) :
    Blames (faultIf p e ++ gs) (if p then .error e else y) := by
  split
  · exact .here ‹p›
  · exact .later ‹¬p› (h ‹¬p›)

theorem error_iff (h : Blames fs y) : y = .error e ↔ fs.head? = some e := by
  cases h <;> simp

theorem ok_iff (h : Blames fs y) : (∃ a, y = .ok a) ↔ fs = [] := by
  cases h <;> simp

end Blames

end Credential
