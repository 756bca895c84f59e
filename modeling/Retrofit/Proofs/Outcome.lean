import Mathlib.Data.List.Forall2

/-!
# Steps that can fail

A chain of steps succeeds exactly if each of them does. Mapping a step over a list succeeds exactly
if it does at every item, and otherwise fails as it does at the first one where it fails.
-/

namespace Retrofit

variable {ε α β : Type}

theorem bind_eq_ok {x : Except ε α} {f : α → Except ε β} {b : β} :
    (x >>= f) = .ok b ↔ ∃ a, x = .ok a ∧ f a = .ok b := by
  cases x with
  | error e =>
      constructor
      · intro h
        cases h
      · rintro ⟨_, h, -⟩
        cases h
  | ok a =>
      constructor
      · intro h
        exact ⟨a, rfl, h⟩
      · rintro ⟨_, h, hb⟩
        cases h
        exact hb

theorem map_eq_ok {x : Except ε α} {f : α → β} {b : β} :
    (f <$> x) = .ok b ↔ ∃ a, x = .ok a ∧ f a = b := by
  cases x with
  | error e =>
      constructor
      · intro h
        cases h
      · rintro ⟨_, h, -⟩
        cases h
  | ok a =>
      constructor
      · intro h
        cases h
        exact ⟨a, rfl, rfl⟩
      · rintro ⟨_, h, hb⟩
        cases h
        rw [← hb]
        rfl

/-- Mapping a step over a list relates the results to the items one by one. -/
theorem mapM_eq_ok {f : α → Except ε β} {xs : List α} {ys : List β} :
    xs.mapM f = .ok ys ↔ List.Forall₂ (fun x y => f x = .ok y) xs ys := by
  induction xs generalizing ys with
  | nil =>
      rw [List.mapM_nil, List.forall₂_nil_left_iff]
      constructor
      · intro h
        cases h
        rfl
      · rintro rfl
        rfl
  | cons x xs ih =>
      rw [List.mapM_cons, bind_eq_ok, List.forall₂_cons_left_iff]
      constructor
      · rintro ⟨y, hy, h⟩
        obtain ⟨zs, hzs, h⟩ := bind_eq_ok.mp h
        cases h
        exact ⟨y, zs, hy, ih.mp hzs, rfl⟩
      · rintro ⟨y, zs, hy, hzs, rfl⟩
        exact ⟨y, hy, bind_eq_ok.mpr ⟨zs, ih.mpr hzs, rfl⟩⟩

/-- A step that does at every item what a function does. -/
theorem mapM_eq_ok_map {f : α → Except ε β} {g : α → β} {xs : List α}
    (h : ∀ x ∈ xs, f x = .ok (g x)) : xs.mapM f = .ok (xs.map g) := by
  rw [mapM_eq_ok, List.forall₂_map_right_iff, List.forall₂_same]
  exact h

theorem mapM_eq_ok_self {f : α → Except ε α} {xs : List α} (h : ∀ x ∈ xs, f x = .ok x) :
    xs.mapM f = .ok xs := by
  rw [mapM_eq_ok, List.forall₂_same]
  exact h

theorem exists_mapM_eq_ok {f : α → Except ε β} {xs : List α} (h : ∀ x ∈ xs, ∃ y, f x = .ok y) :
    ∃ ys, xs.mapM f = .ok ys := by
  induction xs with
  | nil => exact ⟨[], mapM_eq_ok.mpr .nil⟩
  | cons x xs ih =>
      obtain ⟨⟨y, hy⟩, hxs⟩ := List.forall_mem_cons.mp h
      obtain ⟨ys, hys⟩ := ih hxs
      exact ⟨y :: ys, mapM_eq_ok.mpr (.cons hy (mapM_eq_ok.mp hys))⟩

/-! ### Failures -/

theorem bind_eq_error {x : Except ε α} {f : α → Except ε β} {e : ε} :
    (x >>= f) = .error e ↔ x = .error e ∨ ∃ a, x = .ok a ∧ f a = .error e := by
  cases x with
  | error e' =>
      constructor
      · intro h
        cases h
        exact Or.inl rfl
      · rintro (h | ⟨_, h, -⟩)
        · cases h
          rfl
        · cases h
  | ok a =>
      constructor
      · intro h
        exact Or.inr ⟨a, rfl, h⟩
      · rintro (h | ⟨_, h, he⟩)
        · cases h
        · cases h
          exact he

theorem map_eq_error {x : Except ε α} {f : α → β} {e : ε} :
    (f <$> x) = .error e ↔ x = .error e := by
  cases x with
  | error e' =>
      constructor
      · intro h
        cases h
        rfl
      · intro h
        cases h
        rfl
  | ok a =>
      constructor
      · intro h
        cases h
      · intro h
        cases h

theorem bind_eq_error_of_map {γ : Type} {x : Except ε α} {f : α → Except ε β} {g : β → γ} {e : ε}
    (h : (x >>= fun a => g <$> f a) = .error e) : (x >>= f) = .error e := by
  obtain h | ⟨a, ha, h⟩ := bind_eq_error.mp h
  · exact bind_eq_error.mpr (Or.inl h)
  · exact bind_eq_error.mpr (Or.inr ⟨a, ha, map_eq_error.mp h⟩)

/-- The first of the items that there is something against, and what that is. All items before it are
fine. -/
inductive FirstAgainst (fine : α → Prop) (against : α → ε → Prop) : List α → ε → Prop
  | here {x : α} {xs : List α} {e : ε} (hx : against x e) : FirstAgainst fine against (x :: xs) e
  | later {x : α} {xs : List α} {e : ε} (hx : fine x) (h : FirstAgainst fine against xs e) :
      FirstAgainst fine against (x :: xs) e

namespace FirstAgainst

variable {fine : α → Prop} {against : α → ε → Prop} {xs : List α} {e e' : ε}

theorem exists_mem (h : FirstAgainst fine against xs e) : ∃ x ∈ xs, against x e := by
  induction h with
  | @here x xs _ hx => exact ⟨x, List.mem_cons_self, hx⟩
  | @later x xs _ _ _ ih =>
      obtain ⟨y, hy, he⟩ := ih
      exact ⟨y, List.mem_cons_of_mem x hy, he⟩

/-- There is only one thing against a list if there is only one against an item, and none against one
that is fine. -/
theorem unique (hfine : ∀ x e, fine x → ¬against x e)
    (hagainst : ∀ x e e', against x e → against x e' → e = e') (h : FirstAgainst fine against xs e)
    (h' : FirstAgainst fine against xs e') : e = e' := by
  induction h with
  | here hx =>
      cases h' with
      | here hx' => exact hagainst _ _ _ hx hx'
      | later hx' _ => exact absurd hx (hfine _ _ hx')
  | later hx _ ih =>
      cases h' with
      | here hx' => exact absurd hx' (hfine _ _ hx)
      | later _ h' => exact ih h'

end FirstAgainst

/-- A step that cannot be mapped over a list fails at the first of the items at which it does. -/
theorem firstAgainst_of_mapM {γ : Type} {f : α → Except ε β} {g : α → γ} {fine : γ → Prop}
    {against : γ → ε → Prop} (hfine : ∀ x y, f x = .ok y → fine (g x))
    (hagainst : ∀ x e, f x = .error e → against (g x) e) {xs : List α} {e : ε}
    (h : xs.mapM f = .error e) : FirstAgainst fine against (xs.map g) e := by
  induction xs with
  | nil => cases h
  | cons x xs ih =>
      rw [List.mapM_cons] at h
      obtain h | ⟨y, hy, h⟩ := bind_eq_error.mp h
      · exact .here (hagainst x e h)
      · obtain h | ⟨ys, -, h⟩ := bind_eq_error.mp h
        · exact .later (hfine x y hy) (ih h)
        · cases h

/-- A step that cannot be mapped over a list fails at one of the items. -/
theorem exists_of_mapM_eq_error {f : α → Except ε β} {xs : List α} {e : ε}
    (h : xs.mapM f = .error e) : ∃ x ∈ xs, f x = .error e := by
  have hfirst : FirstAgainst (fun _ => True) (fun x e => f x = .error e) (xs.map id) e :=
    firstAgainst_of_mapM (fun _ _ _ => trivial) (fun _ _ hx => hx) h
  rw [List.map_id] at hfirst
  exact hfirst.exists_mem

end Retrofit
