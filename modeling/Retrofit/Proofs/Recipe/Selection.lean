import Retrofit.Recipe

/-!
# Choosing a replacement

A static call from references to a list gets a replacement, unless it has more parameters than the
recipe for single arguments may take. Which recipe it gets is decided by the parameters alone. Any
other call is refused, for a reason that is true of it.
-/

namespace Retrofit

/-- What a variable-arity parameter erases to. -/
def FieldType.objectArray : FieldType := array (reference "java/lang/Object")

/-- What the replaced calls return. -/
def FieldType.list : FieldType := reference "java/util/List"

theorem FieldType.isObjectArray_iff {t : FieldType} : t.isObjectArray = true ↔ t = objectArray := by
  constructor
  · intro h
    unfold isObjectArray at h
    split at h
    · rw [eq_of_beq h]
      rfl
    · cases h
  · rintro rfl
    rfl

/-- The recipe takes arguments of these types; single ones only up to the limit. -/
inductive Recipe.Serves (limit : Nat) : List FieldType → Recipe → Prop
  | zeroArity : Serves limit [] zeroArity
  | variableArity : Serves limit [.objectArray] variableArity
  | fixedArity {ps : List FieldType} (hsome : ps ≠ []) (hsingle : ps ≠ [.objectArray])
      (hle : ps.length ≤ limit) : Serves limit ps fixedArity

/-- The reason is true of a call. -/
inductive Unsupported.Applies (kind : CallKind) (t : MethodType) (limit : Nat) : Unsupported → Prop
  | notStatic (h : kind ≠ .static) : Applies kind t limit (notStatic kind)
  | returnType (h : t.returns.isReference = false) : Applies kind t limit (returnType t.returns)
  /-- Parameters are numbered from 1. -/
  | parameter {i : Nat} {p : FieldType} (hp : t.params[i]? = some p) (h : p.isReference = false) :
      Applies kind t limit (parameter (i + 1) p)
  | tooManyParameters (hsingle : t.params ≠ [.objectArray]) (h : limit < t.params.length) :
      Applies kind t limit (tooManyParameters t.params.length limit)
  | resultMismatch {recipe : Recipe} (hserves : recipe.Serves limit t.params)
      (h : t.returns ≠ .list) : Applies kind t limit (resultMismatch t.returns recipe)

namespace Recipe

section

variable {limit : Nat} {ps : List FieldType} {recipe : Recipe} (h : recipe.Serves limit ps)

include h

theorem Serves.zeroArity_iff : recipe = .zeroArity ↔ ps = [] := by
  cases h with
  | zeroArity => simp
  | variableArity => simp
  | fixedArity hsome => simp [hsome]

theorem Serves.variableArity_iff : recipe = .variableArity ↔ ps = [.objectArray] := by
  cases h with
  | zeroArity => simp
  | variableArity => simp
  | fixedArity _ hsingle => simp [hsingle]

theorem Serves.length_bounds (hfixed : recipe = .fixedArity) : 1 ≤ ps.length ∧ ps.length ≤ limit := by
  cases h with
  | zeroArity => cases hfixed
  | variableArity => cases hfixed
  | fixedArity hsome _ hle => exact ⟨List.length_pos_iff.mpr hsome, hle⟩

end

variable {t : MethodType} {limit : Nat}

/-- What comes of choosing a recipe. -/
inductive Selects (t : MethodType) (limit : Nat) : Except Unsupported Recipe → Prop
  | ok {recipe : Recipe} (hreturns : t.returns.isReference = true)
      (hparams : ∀ p ∈ t.params, p.isReference = true) (hserves : recipe.Serves limit t.params) :
      Selects t limit (.ok recipe)
  | error {e : Unsupported} (h : ∀ kind, e.Applies kind t limit) : Selects t limit (.error e)

theorem selects_select (t : MethodType) (limit : Nat) : Selects t limit (select t limit) := by
  unfold select
  split
  · rename_i hreturns
    exact .error fun _ => .returnType (by simpa using hreturns)
  rename_i hreturns
  split
  · rename_i p i hfind
    have hmem := List.mem_zipIdx_iff_getElem?.mp (List.mem_of_find?_eq_some hfind)
    exact .error fun _ => .parameter hmem (by simpa using List.find?_some hfind)
  rename_i hfind
  have hreturns : t.returns.isReference = true := by simpa using hreturns
  have hparams : ∀ p ∈ t.params, p.isReference = true := by
    intro p hp
    obtain ⟨i, hi⟩ := List.mem_iff_getElem?.mp hp
    have hnot := List.find?_eq_none.mp hfind (p, i) (List.mem_zipIdx_iff_getElem?.mpr hi)
    simpa using hnot
  have hmany (hsingle : t.params ≠ [.objectArray]) (hsome : t.params ≠ []) :
      Selects t limit (if t.params.length ≤ limit then .ok fixedArity
        else .error (.tooManyParameters t.params.length limit)) := by
    split
    · rename_i hle
      exact .ok hreturns hparams (.fixedArity hsome hsingle hle)
    · rename_i hlt
      exact .error fun _ => .tooManyParameters hsingle (Nat.lt_of_not_le hlt)
  split
  · rename_i hnil
    exact .ok hreturns hparams (hnil ▸ .zeroArity)
  · rename_i p hone
    split
    · rename_i harray
      rw [FieldType.isObjectArray_iff.mp harray] at hone
      exact .ok hreturns hparams (hone ▸ .variableArity)
    · rename_i harray
      have hsingle : t.params ≠ [.objectArray] := by
        rw [hone]
        rintro ⟨⟩
        exact harray rfl
      simpa [hone] using hmany hsingle (by simp [hone])
  · rename_i hnil hone
    exact hmany (hone _) hnil

/-- Conversely, the recipe that takes the parameters is chosen. -/
theorem select_eq_ok {recipe : Recipe} (hreturns : t.returns.isReference = true)
    (hparams : ∀ p ∈ t.params, p.isReference = true) (h : recipe.Serves limit t.params) :
    select t limit = .ok recipe := by
  unfold select
  rw [hreturns]
  split
  · rename_i h
    cases h
  split
  · rename_i p i hfind
    have hmem := List.mem_zipIdx_iff_getElem?.mp (List.mem_of_find?_eq_some hfind)
    have hnot := List.find?_some hfind
    simp [hparams p (List.mem_of_getElem? hmem)] at hnot
  generalize t.params = ps at h ⊢
  cases h with
  | zeroArity => rfl
  | variableArity => rfl
  | fixedArity hsome hsingle hle =>
      cases ps with
      | nil => exact absurd rfl hsome
      | cons p ps =>
          cases ps with
          | nil =>
              have harray : ¬p.isObjectArray = true :=
                fun h => hsingle (by rw [FieldType.isObjectArray_iff.mp h])
              have hone : 1 ≤ limit := hle
              simp [harray, hone]
          | cons q ps => simpa using hle

theorem resultType?_materialize (recipe : Recipe) (n : UInt16) :
    (recipe.materialize n).resultType? = some .list := by
  cases recipe with
  | fixedArity =>
      have hlast : (fixedArity.materialize n).steps.getLast? = some (.invoke unmodifiableList) := by
        rw [materialize, steps, ← List.append_assoc, ← List.append_assoc]
        exact List.getLast?_concat
      have hlist : MethodType.parse? unmodifiableList.descriptor = some ⟨[.list], .list⟩ := by cbv
      simp only [Replacement.resultType?, hlast, hlist, Option.map_some]
  | zeroArity => cbv
  | variableArity => cbv

end Recipe

namespace Replacement

variable {kind : CallKind} {t : MethodType} {limit : Nat} {r : Replacement}

/-- Which calls are replaced, and by what. -/
theorem forCall_eq_ok_iff :
    forCall kind t limit = .ok r ↔ kind = .static ∧ t.returns = .list ∧
      (∀ p ∈ t.params, p.isReference = true) ∧
      ∃ recipe : Recipe, recipe.Serves limit t.params ∧
        r = recipe.materialize (UInt16.ofNat t.params.length) := by
  constructor
  · intro h
    unfold forCall at h
    split at h
    · cases h
    rename_i hkind
    split at h
    · cases h
    rename_i recipe hselect
    have hselects := Recipe.selects_select t limit
    rw [hselect] at hselects
    cases hselects with
    | ok hreturns hparams hserves =>
        dsimp only at h
        rw [Recipe.resultType?_materialize] at h
        split at h
        · rename_i hlist
          cases h
          exact ⟨Decidable.not_not.mp hkind, (Option.some_inj.mp hlist).symm, hparams, recipe,
            hserves, rfl⟩
        · cases h
  · rintro ⟨rfl, hlist, hparams, recipe, hserves, rfl⟩
    have hreturns : t.returns.isReference = true := by
      rw [hlist]
      rfl
    simp [forCall, Recipe.select_eq_ok hreturns hparams hserves, Recipe.resultType?_materialize, hlist]

/-- A call is refused for a reason that is true of it. -/
theorem applies_of_forCall {e : Unsupported} (h : forCall kind t limit = .error e) :
    e.Applies kind t limit := by
  unfold forCall at h
  split at h
  · rename_i hkind
    cases h
    exact .notStatic hkind
  have hselects := Recipe.selects_select t limit
  split at h
  · rename_i e' hselect
    cases h
    rw [hselect] at hselects
    cases hselects with
    | error h => exact h kind
  · rename_i recipe hselect
    rw [hselect] at hselects
    dsimp only at h
    rw [Recipe.resultType?_materialize] at h
    split at h
    · cases h
    · rename_i hlist
      cases h
      cases hselects with
      | ok _ _ hserves => exact .resultMismatch hserves fun h => hlist (by rw [h])

end Replacement

end Retrofit
