import Mathlib.Data.List.Flatten
import Mathlib.Data.List.Forall2

/-!
# Lists item by item

Two lists are related item by item when they are as long as each other and the items in the same
place are related. Passes over lists are composed, cut down to one item and put together again in
this form.
-/

namespace Retrofit

section

variable {α β γ : Type} {R : α → β → Prop}

theorem forall₂_trans {S : β → γ → Prop} {T : α → γ → Prop}
    (h : ∀ x y z, R x y → S y z → T x z) {xs : List α} {ys : List β} {zs : List γ}
    (hxy : List.Forall₂ R xs ys) (hyz : List.Forall₂ S ys zs) : List.Forall₂ T xs zs := by
  induction hxy generalizing zs with
  | nil =>
      cases hyz
      exact .nil
  | cons hR _ ih =>
      cases hyz with
      | cons hS hyz => exact .cons (h _ _ _ hR hS) (ih hyz)

theorem exists_of_forall₂ {xs : List α} {ys : List β} (h : List.Forall₂ R xs ys) {x : α}
    (hx : x ∈ xs) : ∃ y ∈ ys, R x y := by
  induction h with
  | nil => cases hx
  | cons hxy _ ih =>
      rcases List.mem_cons.mp hx with rfl | hx
      · exact ⟨_, List.mem_cons_self, hxy⟩
      · obtain ⟨y, hy, hR⟩ := ih hx
        exact ⟨y, List.mem_cons_of_mem _ hy, hR⟩

theorem forall₂_map_zip {S : α → γ → Prop} {join : α × β → γ} (h : ∀ x y, S x (join (x, y)))
    {xs : List α} {ys : List β} (hlen : xs.length ≤ ys.length) :
    List.Forall₂ S xs ((xs.zip ys).map join) := by
  induction xs generalizing ys with
  | nil => exact .nil
  | cons x xs ih =>
      cases ys with
      | nil => simp at hlen
      | cons y ys => exact .cons (h x y) (ih (Nat.le_of_succ_le_succ hlen))

/-- Changing one item, if that item stays related to its partner. -/
theorem forall₂_modify {xs : List α} {ys : List β} (h : List.Forall₂ R xs ys) {i : Nat} {f : β → β}
    (hf : ∀ x y, x ∈ xs → ys[i]? = some y → R x y → R x (f y)) :
    List.Forall₂ R xs (ys.modify i f) := by
  induction h generalizing i with
  | nil =>
      rw [List.modify_nil]
      exact .nil
  | @cons x y xs ys hxy hrest ih =>
      cases i with
      | zero =>
          rw [List.modify_zero_cons]
          exact .cons (hf x y List.mem_cons_self rfl hxy) hrest
      | succ i =>
          rw [List.modify_succ_cons]
          exact .cons hxy (ih fun x' y' hx' hy' => hf x' y' (List.mem_cons_of_mem x hx') hy')

end

/-- Items and what has become of them, if anything, both cut down by tests that agree. -/
theorem forall₂_filter_filterMap {α β : Type} {S : α → β → Prop} {test : α → Bool} {test' : β → Bool}
    {xs : List α} {os : List (Option β)}
    (h : List.Forall₂ (fun x o => (∀ y, o = some y → test' y = test x) ∧
      (test x = true → ∃ y, o = some y ∧ S x y)) xs os) :
    List.Forall₂ S (xs.filter test) ((os.filterMap id).filter test') := by
  induction h with
  | nil => exact .nil
  | @cons x o xs os ho _ ih =>
      obtain ⟨htest, hrelated⟩ := ho
      by_cases hx : test x = true
      · obtain ⟨y, rfl, hy⟩ := hrelated hx
        have hcons : (some y :: os).filterMap id = y :: os.filterMap id := rfl
        rw [List.filter_cons, if_pos hx, hcons, List.filter_cons, if_pos ((htest y rfl).trans hx)]
        exact .cons hy ih
      · rw [List.filter_cons, if_neg hx]
        cases o with
        | none => exact ih
        | some y =>
            have hcons : (some y :: os).filterMap id = y :: os.filterMap id := rfl
            rw [hcons, List.filter_cons, if_neg (by rw [htest y rfl]; exact hx)]
            exact ih

/-! ### Lists put together from pieces -/

section

variable {α β γ : Type}

/-- The second list is the first one with items of the property `P` put in. -/
inductive Padded (P : α → Prop) : List α → List α → Prop
  | nil : Padded P [] []
  | keep {x : α} {xs ys : List α} (h : Padded P xs ys) : Padded P (x :: xs) (x :: ys)
  | insert {y : α} {xs ys : List α} (hy : P y) (h : Padded P xs ys) : Padded P xs (y :: ys)

namespace Padded

variable {P : α → Prop} {xs ys : List α}

theorem refl (P : α → Prop) (xs : List α) : Padded P xs xs := by
  induction xs with
  | nil => exact .nil
  | cons x xs ih => exact .keep ih

theorem of_forall (h : ∀ y ∈ ys, P y) : Padded P [] ys := by
  induction ys with
  | nil => exact .nil
  | cons y ys ih =>
      obtain ⟨hy, hys⟩ := List.forall_mem_cons.mp h
      exact .insert hy (ih hys)

theorem append (h : Padded P xs ys) {xs' ys' : List α} (h' : Padded P xs' ys') :
    Padded P (xs ++ xs') (ys ++ ys') := by
  induction h with
  | nil => exact h'
  | keep _ ih => exact .keep ih
  | insert hy _ ih => exact .insert hy ih

theorem flatMap {f : β → List α} {g : γ → List α} {as : List β} {bs : List γ}
    (h : List.Forall₂ (fun a b => Padded P (f a) (g b)) as bs) :
    Padded P (as.flatMap f) (bs.flatMap g) := by
  induction h with
  | nil => exact .nil
  | cons hab _ ih =>
      rw [List.flatMap_cons, List.flatMap_cons]
      exact hab.append ih

theorem mem_or (h : Padded P xs ys) : ∀ y ∈ ys, y ∈ xs ∨ P y := by
  induction h with
  | nil => simp
  | @keep x xs ys _ ih =>
      rw [List.forall_mem_cons]
      refine ⟨Or.inl List.mem_cons_self, fun y hy => ?_⟩
      exact (ih y hy).imp_left (List.mem_cons_of_mem x)
  | insert hy _ ih =>
      rw [List.forall_mem_cons]
      exact ⟨Or.inr hy, ih⟩

/-- If nothing can be put in, the lists are the same. -/
theorem eq_of_not (h : Padded P xs ys) (hnot : ∀ y, ¬P y) : ys = xs := by
  induction h with
  | nil => rfl
  | keep _ ih => rw [ih]
  | insert hy => exact absurd hy (hnot _)

end Padded

/-- Where in a list with one more item at its end something happens: at that item, or before it. -/
theorem exists_split_concat {P : List α → α → List α → Prop} {xs : List α} {y : α} :
    (∃ before x later, xs ++ [y] = before ++ x :: later ∧ P before x later) ↔
      P xs y [] ∨ ∃ before x later, xs = before ++ x :: later ∧ P before x (later ++ [y]) := by
  constructor
  · rintro ⟨before, x, later, h, hP⟩
    obtain rfl | ⟨later, z, rfl⟩ := List.eq_nil_or_concat later
    · obtain ⟨rfl, hy⟩ := List.append_inj' h rfl
      cases hy
      exact Or.inl hP
    · rw [List.concat_eq_append, ← List.cons_append, ← List.append_assoc] at h
      obtain ⟨rfl, hy⟩ := List.append_inj' h rfl
      cases hy
      rw [List.concat_eq_append] at hP
      exact Or.inr ⟨before, x, later, rfl, hP⟩
  · rintro (hP | ⟨before, x, later, rfl, hP⟩)
    · exact ⟨xs, y, [], rfl, hP⟩
    · exact ⟨before, x, later ++ [y], by simp, hP⟩

/-- Two lists related place by place, each item with its place. -/
theorem forall₂_zipIdx {R : α → β → Prop} {xs : List α} {ys : List β} (h : List.Forall₂ R xs ys) :
    List.Forall₂ (fun x y => y.2 = x.2 ∧ xs[x.2]? = some x.1 ∧ ys[x.2]? = some y.1 ∧ R x.1 y.1)
      xs.zipIdx ys.zipIdx := by
  rw [List.forall₂_iff_get] at h ⊢
  obtain ⟨hlen, hget⟩ := h
  refine ⟨by rw [List.length_zipIdx, List.length_zipIdx, hlen], fun i hi hi' => ?_⟩
  rw [List.length_zipIdx] at hi hi'
  simp only [List.get_eq_getElem, List.getElem_zipIdx, Nat.zero_add]
  exact ⟨trivial, List.getElem?_eq_getElem hi, List.getElem?_eq_getElem hi', hget i hi hi'⟩

end

/-! ### Lists of encoded items -/

section

variable {α β : Type} {f : α → List UInt8} {g : β → List UInt8}

/-- A filter that lets everything pass. -/
theorem map_some_filterMap {α β : Type} {f : α → Option β} {xs : List α}
    (h : ∀ x ∈ xs, (f x).isSome = true) : (xs.filterMap f).map some = xs.map f := by
  induction xs with
  | nil => rfl
  | cons x xs ih =>
      obtain ⟨hx, hxs⟩ := List.forall_mem_cons.mp h
      obtain ⟨y, hy⟩ := Option.isSome_iff_exists.mp hx
      rw [List.filterMap_cons_some hy, List.map_cons, List.map_cons, ih hxs, hy]

theorem length_le_flatMap (f : α → List UInt8) {xs : List α} {x : α} (h : x ∈ xs) :
    (f x).length ≤ (xs.flatMap f).length := by
  have hle := ((List.singleton_sublist.mpr h).flatMap f).length_le
  rwa [List.flatMap_singleton] at hle

theorem length_flatMap_le {xs : List α} {ys : List β}
    (h : List.Forall₂ (fun x y => (g y).length ≤ 3 * (f x).length) xs ys) :
    (ys.flatMap g).length ≤ 3 * (xs.flatMap f).length := by
  induction h with
  | nil => exact Nat.zero_le _
  | cons hxy _ ih =>
      rw [List.flatMap_cons, List.flatMap_cons, List.length_append, List.length_append]
      omega

end

end Retrofit
