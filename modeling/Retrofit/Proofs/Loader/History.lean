import Mathlib.Data.List.Induction
import Retrofit.Proofs.Lists
import Retrofit.Proofs.Loader

/-!
# What a loader gives out over time

A history is what has been done with a loader that was empty at first: classes were loaded and
released, and instances were changed through their handles. Whatever the history, a class that is held
is given out again without being looked up, as its holders have changed it. A class that is not held is
looked up once, and gets an instance that nobody has had before. No class affects another.
-/

namespace Retrofit.Loader

/-- What is done with a loader and the instances that it gave out. Every load may find other places and
other files. -/
inductive Step where
  | load (cp : ClassPath) (s : Store) (name : String)
  | release (name : String)
  /-- Change the instance behind a handle. -/
  | change (h : Handle) (f : ClassUnit → ClassUnit)

/-- The event tells that the class with the internal name `key` is being looked up. -/
def looksUp (key : String) : Event → Bool
  | .loading name => ClassName.internal name == key
  | _ => false

namespace Step

/-- The step loads the class with the internal name `key`. -/
def Loads (key : String) : Step → Prop
  | load _ _ name => ClassName.internal name = key
  | _ => False

/-- The step releases the class with the internal name `key`. -/
def Releases (key : String) : Step → Prop
  | release name => ClassName.internal name = key
  | _ => False

/-- The step loads the class with the internal name `key` and gets the handle `h`. -/
def Gives (l : Loader) (key : String) (h : Handle) : Step → Prop
  | load cp s name => ClassName.internal name = key ∧ (l.load cp s name).2.1 = .ok h
  | _ => False

/-- The loader after the step. -/
def run (l : Loader) : Step → Loader
  | load cp s name => (l.load cp s name).1
  | release name => l.release name
  | change h f =>
    match l.unit? h with
    | some u => l.update h (f u)
    | none => l

/-- What is told of the step. -/
def events (l : Loader) : Step → List Event
  | load cp s name => (l.load cp s name).2.2
  | _ => []

/-- What the step makes of the instance behind the handle `h`. -/
def effect (h : Handle) (u : ClassUnit) : Step → ClassUnit
  | change h' f => if h' = h then f u else u
  | _ => u

end Step

/-- The loader after the steps. -/
def runAll (l : Loader) (steps : List Step) : Loader := steps.foldl Step.run l

/-- What the steps make, one after the other, of the instance behind the handle `h`. -/
def effects (h : Handle) (u : ClassUnit) (steps : List Step) : ClassUnit :=
  steps.foldl (Step.effect h) u

/-- How often the class with the internal name `key` is looked up in the course of the steps. -/
def lookups (key : String) (l : Loader) : List Step → Nat
  | [] => 0
  | σ :: steps => (σ.events l).countP (looksUp key) + lookups key (σ.run l) steps

/-- The loader after a history. -/
def after (past : List Step) : Loader := empty.runAll past

/-- In the history the class has been loaded, and it has not been released since. -/
def Held (past : List Step) (key : String) : Prop :=
  ∃ before σ later, past = before ++ σ :: later ∧ σ.Loads key ∧ ∀ τ ∈ later, ¬τ.Releases key

/-- In the history the handle `h` was given out for the class. -/
def Given (past : List Step) (key : String) (h : Handle) : Prop :=
  ∃ before σ later, past = before ++ σ :: later ∧ σ.Gives (after before) key h

/-- The step loads or releases the class, or changes an instance through a handle that was given out
for it. -/
def Step.Concerns (past : List Step) (key : String) : Step → Prop
  | .load _ _ name => ClassName.internal name = key
  | .release name => ClassName.internal name = key
  | .change h _ => Given past key h

/-! ### Histories -/

variable {past : List Step} {key : String} {l : Loader}

theorem after_append (past steps : List Step) : after (past ++ steps) = (after past).runAll steps := by
  rw [after, runAll, List.foldl_append]
  rfl

theorem after_concat (past : List Step) (σ : Step) : after (past ++ [σ]) = σ.run (after past) :=
  after_append past [σ]

theorem not_held_nil : ¬Held [] key := by
  rintro ⟨before, σ, later, h, -⟩
  simp at h

theorem held_concat {σ : Step} :
    Held (past ++ [σ]) key ↔ σ.Loads key ∨ Held past key ∧ ¬σ.Releases key := by
  let P (_ : List Step) (τ : Step) (later : List Step) : Prop :=
    τ.Loads key ∧ ∀ υ ∈ later, ¬υ.Releases key
  have hsplit : Held (past ++ [σ]) key ↔ _ := exists_split_concat (P := P)
  rw [hsplit]
  apply or_congr
  · exact and_iff_left (List.forall_mem_nil _)
  · constructor
    · rintro ⟨before, τ, later, h, hτ, hlater⟩
      obtain ⟨hlater, hσ⟩ := List.forall_mem_append.mp hlater
      exact ⟨⟨before, τ, later, h, hτ, hlater⟩, hσ σ (List.mem_singleton_self σ)⟩
    · rintro ⟨⟨before, τ, later, h, hτ, hlater⟩, hσ⟩
      refine ⟨before, τ, later, h, hτ, List.forall_mem_append.mpr ⟨hlater, ?_⟩⟩
      exact List.forall_mem_singleton.mpr hσ

theorem not_given_nil {h : Handle} : ¬Given [] key h := by
  rintro ⟨before, σ, later, hnil, -⟩
  simp at hnil

theorem given_concat {σ : Step} {h : Handle} :
    Given (past ++ [σ]) key h ↔ σ.Gives (after past) key h ∨ Given past key h :=
  exists_split_concat (P := fun before (τ : Step) _ => τ.Gives (after before) key h)

theorem not_held_of_release {name : String} {between : List Step}
    (hname : ClassName.internal name = key) (hbetween : ∀ σ ∈ between, ¬σ.Loads key) :
    ¬Held (past ++ .release name :: between) key := by
  induction between using List.reverseRecOn with
  | nil =>
      rw [held_concat]
      rintro (h | ⟨-, h⟩)
      · exact h
      · exact h hname
  | append_singleton between σ ih =>
      obtain ⟨hbetween, hσ⟩ := List.forall_mem_append.mp hbetween
      rw [← List.cons_append, ← List.append_assoc, held_concat]
      rintro (h | ⟨h, -⟩)
      · exact hσ σ (List.mem_singleton_self σ) h
      · exact ih hbetween h

/-! ### What one step does -/

theorem size_le_load (l : Loader) (cp : ClassPath) (s : Store) (name : String) :
    l.instances.size ≤ (l.load cp s name).1.instances.size := by
  have hload := l.loaded_load cp s name
  generalize l.load cp s name = r at hload ⊢
  cases hload with
  | @found _ u =>
      show l.instances.size ≤ (l.instances.push u).size
      rw [Array.size_push]
      exact Nat.le_succ _
  | _ => exact Nat.le_refl _

theorem outcomes_change (l : Loader) (h : Handle) (f : ClassUnit → ClassUnit) :
    (Step.run l (.change h f)).outcomes = l.outcomes := by
  rw [Step.run]
  split <;> rfl

theorem size_change (l : Loader) (h : Handle) (f : ClassUnit → ClassUnit) :
    (Step.run l (.change h f)).instances.size = l.instances.size := by
  rw [Step.run]
  split
  · exact Array.size_setIfInBounds
  · rfl

/-- A class that is remembered stays so, unless it is released. -/
theorem lookup_run_of_known {σ : Step} {o : LoadOutcome} (ho : l.outcomes.lookup key = some o)
    (hσ : ¬σ.Releases key) : (σ.run l).outcomes.lookup key = some o := by
  cases σ with
  | load cp s name =>
      rw [Step.run, lookup_load]
      split
      · rename_i hkey
        rw [hkey] at ho
        rw [load_of_known ho]
      · exact ho
  | release name =>
      rw [Step.run, lookup_release, if_neg (Ne.symm hσ)]
      exact ho
  | change h f =>
      rw [outcomes_change]
      exact ho

/-- What is remembered of a class changes only if it is loaded or released. -/
theorem lookup_run_of_apart {σ : Step} (hload : ¬σ.Loads key) (hrelease : ¬σ.Releases key) :
    (σ.run l).outcomes.lookup key = l.outcomes.lookup key := by
  cases σ with
  | load cp s name => rw [Step.run, lookup_load, if_neg (Ne.symm hload)]
  | release name => rw [Step.run, lookup_release, if_neg (Ne.symm hrelease)]
  | change h f => rw [outcomes_change]

/-- An instance is changed through its own handle only. -/
theorem unit?_run {h : Handle} {u : ClassUnit} (hu : l.unit? h = some u) (σ : Step) :
    (σ.run l).unit? h = some (σ.effect h u) := by
  cases σ with
  | load cp s name => exact unit?_load hu cp s name
  | release name => exact hu
  | change h' f =>
      rw [Step.effect]
      split
      · rename_i hh
        subst hh
        have hlt := (Array.getElem?_eq_some_iff.mp hu).1
        rw [Step.run, hu]
        show (l.instances.setIfInBounds h' (f u))[h']? = some (f u)
        rw [Array.getElem?_setIfInBounds_self, if_pos hlt]
      · rename_i hh
        rw [Step.run]
        split
        · rename_i u' _
          show (l.instances.setIfInBounds h' (f u'))[h]? = some u
          rw [Array.getElem?_setIfInBounds_ne hh]
          exact hu
        · exact hu

/-! ### What a run does -/

theorem lookup_runAll_of_known {steps : List Step} {o : LoadOutcome}
    (ho : l.outcomes.lookup key = some o) (hsteps : ∀ σ ∈ steps, ¬σ.Releases key) :
    (l.runAll steps).outcomes.lookup key = some o := by
  induction steps generalizing l with
  | nil => exact ho
  | cons σ steps ih =>
      obtain ⟨hσ, hsteps⟩ := List.forall_mem_cons.mp hsteps
      exact ih (lookup_run_of_known ho hσ) hsteps

theorem lookup_runAll_of_apart {steps : List Step}
    (hsteps : ∀ σ ∈ steps, ¬σ.Loads key ∧ ¬σ.Releases key) :
    (l.runAll steps).outcomes.lookup key = l.outcomes.lookup key := by
  induction steps generalizing l with
  | nil => rfl
  | cons σ steps ih =>
      obtain ⟨⟨hload, hrelease⟩, hsteps⟩ := List.forall_mem_cons.mp hsteps
      exact (ih hsteps).trans (lookup_run_of_apart hload hrelease)

theorem unit?_runAll {h : Handle} {u : ClassUnit} (hu : l.unit? h = some u) (steps : List Step) :
    (l.runAll steps).unit? h = some (effects h u steps) := by
  induction steps generalizing l u with
  | nil => exact hu
  | cons σ steps ih => exact ih (unit?_run hu σ)

theorem effects_eq_self {h : Handle} {steps : List Step}
    (hsteps : ∀ h' f, Step.change h' f ∈ steps → h' ≠ h) (u : ClassUnit) :
    effects h u steps = u := by
  induction steps with
  | nil => rfl
  | cons σ steps ih =>
      have heffect : σ.effect h u = u := by
        cases σ with
        | change h' f => exact if_neg (hsteps h' f List.mem_cons_self)
        | _ => rfl
      rw [effects, List.foldl_cons, heffect]
      exact ih fun h' f hmem => hsteps h' f (List.mem_cons_of_mem σ hmem)

/-! ### How often a class is looked up -/

theorem not_looksUp_of_search {s : Store} {name : String} {sources : List Source} {e : Event}
    (he : e ∈ (ClassPath.search s name sources).2) : looksUp key e = false := by
  induction sources with
  | nil => cases he
  | cons source sources ih =>
      unfold ClassPath.search at he
      split at he
      · cases he
      · exact ih he
      · obtain rfl | he := List.mem_cons.mp he
        · rfl
        · exact ih he

theorem events_of_new {name : String} (hnew : l.outcome? name = none) (cp : ClassPath) (s : Store) :
    (l.load cp s name).2.2 = .loading name :: (cp.find? s name).2 := by
  have hload := l.loaded_load cp s name
  generalize l.load cp s name = r at hload ⊢
  cases hload with
  | known ho =>
      rw [hnew] at ho
      cases ho
  | _ => rfl

/-- A load looks its class up if nothing is remembered of it, and no other class ever. -/
theorem countP_load (l : Loader) (cp : ClassPath) (s : Store) (name key : String) :
    (l.load cp s name).2.2.countP (looksUp key) =
      if ClassName.internal name = key ∧ l.outcomes.lookup key = none then 1 else 0 := by
  cases ho : l.outcome? name with
  | some o =>
      rw [load_of_known ho, if_neg]
      · rfl
      · rintro ⟨rfl, hnone⟩
        rw [outcome?, hnone] at ho
        cases ho
  | none =>
      have hrest : ((cp.find? s name).2).countP (looksUp key) = 0 := by
        rw [List.countP_eq_zero]
        intro e he
        rw [not_looksUp_of_search he]
        exact Bool.false_ne_true
      rw [events_of_new ho, List.countP_cons, hrest, Nat.zero_add]
      by_cases hkey : ClassName.internal name = key
      · have hlooks : looksUp key (.loading name) = true := beq_iff_eq.mpr hkey
        have hnone : l.outcomes.lookup key = none := hkey ▸ ho
        rw [if_pos hlooks, if_pos ⟨hkey, hnone⟩]
      · have hlooks : ¬looksUp key (.loading name) = true := fun h => hkey (beq_iff_eq.mp h)
        rw [if_neg hlooks, if_neg fun h => hkey h.1]

theorem lookups_of_known {steps : List Step} {o : LoadOutcome} (ho : l.outcomes.lookup key = some o)
    (hsteps : ∀ σ ∈ steps, ¬σ.Releases key) : lookups key l steps = 0 := by
  induction steps generalizing l with
  | nil => rfl
  | cons σ steps ih =>
      obtain ⟨hσ, hsteps⟩ := List.forall_mem_cons.mp hsteps
      rw [lookups, ih (lookup_run_of_known ho hσ) hsteps]
      cases σ with
      | load cp s name =>
          rw [Step.events, countP_load, if_neg]
          rintro ⟨-, hnone⟩
          rw [ho] at hnone
          cases hnone
      | release name => rfl
      | change h f => rfl

theorem lookups_of_apart {steps : List Step} (hsteps : ∀ σ ∈ steps, ¬σ.Loads key) :
    lookups key l steps = 0 := by
  induction steps generalizing l with
  | nil => rfl
  | cons σ steps ih =>
      obtain ⟨hσ, hsteps⟩ := List.forall_mem_cons.mp hsteps
      rw [lookups, ih hsteps]
      cases σ with
      | load cp s name => rw [Step.events, countP_load, if_neg fun h => hσ h.1]
      | release name => rfl
      | change h f => rfl

/-- The first load looks the class up, and the others do not. -/
theorem lookups_of_new {steps : List Step} (hnone : l.outcomes.lookup key = none)
    (hsteps : ∀ σ ∈ steps, ¬σ.Releases key) (hload : ∃ σ ∈ steps, σ.Loads key) :
    lookups key l steps = 1 := by
  induction steps generalizing l with
  | nil => simp at hload
  | cons σ steps ih =>
      obtain ⟨hσ, hrest⟩ := List.forall_mem_cons.mp hsteps
      by_cases hloads : σ.Loads key
      · cases σ with
        | load cp s name =>
            have hlookup : (Step.run l (.load cp s name)).outcomes.lookup key =
                some (l.load cp s name).2.1 := by
              rw [Step.run, lookup_load, if_pos (Eq.symm hloads)]
            rw [lookups, lookups_of_known hlookup hrest, Step.events, countP_load,
              if_pos ⟨hloads, hnone⟩]
        | release name => cases hloads
        | change h f => cases hloads
      · have hevents : (σ.events l).countP (looksUp key) = 0 := by
          have hone : lookups key l [σ] = 0 :=
            lookups_of_apart (List.forall_mem_singleton.mpr hloads)
          rwa [lookups, lookups, Nat.add_zero] at hone
        have hlater : ∃ τ ∈ steps, τ.Loads key := by
          obtain ⟨τ, hτ, hτloads⟩ := hload
          obtain rfl | hτ := List.mem_cons.mp hτ
          · exact absurd hτloads hloads
          · exact ⟨τ, hτ, hτloads⟩
        rw [lookups, hevents, Nat.zero_add]
        exact ih ((lookup_run_of_apart hloads hσ).trans hnone) hrest hlater

end Retrofit.Loader
