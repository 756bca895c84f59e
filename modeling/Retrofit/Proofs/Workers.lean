import Mathlib.Data.List.Induction
import Retrofit.Proofs.Run.Steady
import Retrofit.Workers

/-!
# Steps of workers

What one step of a schedule can do: load the class of one input, process it or release it, and nothing
to the other inputs. What became of an input is settled at the one step that processes it.
-/

namespace Retrofit

namespace Crew

section

variable {c : Crew} {s : Settings} {cp : ClassPath} {t : Target} {root name : String} {i j : Nat}

/-- All that a step for the input at position `i` can come to. -/
inductive Advanced (c : Crew) (s : Settings) (cp : ClassPath) (t : Target) (root : String) (i : Nat) :
    Crew → Prop
  /-- There is no such input, or it is released. -/
  | idle : Advanced c s cp t root i c
  | loaded {name : String} (hjob : c.jobs[i]? = some ⟨name, .waiting⟩) :
      Advanced c s cp t root i ⟨(c.state.load cp name).1,
        c.jobs.set i ⟨name, .loaded (c.state.load cp name).2⟩⟩
  | processed {name : String} {o : LoadOutcome} (hjob : c.jobs[i]? = some ⟨name, .loaded o⟩) :
      Advanced c s cp t root i ⟨(c.state.processLoaded s cp t root name o).1,
        c.jobs.set i ⟨name, .processed (c.state.processLoaded s cp t root name o).2⟩⟩
  | released {name : String} {r : Except Failure Emitted}
      (hjob : c.jobs[i]? = some ⟨name, .processed r⟩) :
      Advanced c s cp t root i ⟨{ c.state with loader := c.state.loader.release name },
        c.jobs.set i ⟨name, .released r⟩⟩

theorem advanced_advance (c : Crew) (s : Settings) (cp : ClassPath) (t : Target) (root : String)
    (i : Nat) : c.Advanced s cp t root i (c.advance s cp t root i) := by
  unfold advance
  split
  · exact .idle
  · rename_i job hjob
    obtain ⟨name, stage⟩ := job
    cases stage with
    | waiting => exact .loaded hjob
    | loaded o => exact .processed hjob
    | processed r => exact .released hjob
    | released r =>
        have hset : c.jobs.set i ⟨name, .released r⟩ = c.jobs := by
          obtain ⟨hi, hget⟩ := List.getElem?_eq_some_iff.mp hjob
          rw [← hget]
          exact List.set_getElem_self hi
        show Advanced c s cp t root i ⟨c.state, c.jobs.set i ⟨name, .released r⟩⟩
        rw [hset]
        exact .idle

theorem advance_of_loaded {o : LoadOutcome} (hjob : c.jobs[i]? = some ⟨name, .loaded o⟩) :
    c.advance s cp t root i = ⟨(c.state.processLoaded s cp t root name o).1,
      c.jobs.set i ⟨name, .processed (c.state.processLoaded s cp t root name o).2⟩⟩ := by
  unfold advance
  rw [hjob]
  rfl

/-- An input after a step for the input at position `i` is that one, or it is as it was. -/
theorem jobs_set_cases {job job' : Job} (h : (c.jobs.set i job)[j]? = some job') :
    j = i ∧ job' = job ∨ j ≠ i ∧ c.jobs[j]? = some job' := by
  by_cases hij : i = j
  · subst hij
    have hlt := (List.getElem?_eq_some_iff.mp h).1
    rw [List.length_set] at hlt
    rw [List.getElem?_set_self hlt, Option.some_inj] at h
    exact Or.inl ⟨rfl, h.symm⟩
  · rw [List.getElem?_set_ne hij] at h
    exact Or.inr ⟨Ne.symm hij, h⟩

/-- A step is for one input. -/
theorem jobs_advance_of_ne (hne : i ≠ j) : (c.advance s cp t root i).jobs[j]? = c.jobs[j]? := by
  have hstep := c.advanced_advance s cp t root i
  generalize c.advance s cp t root i = c' at hstep ⊢
  cases hstep with
  | idle => rfl
  | loaded | processed | released => exact List.getElem?_set_ne hne

theorem length_jobs_advance (c : Crew) (s : Settings) (cp : ClassPath) (t : Target) (root : String)
    (i : Nat) : (c.advance s cp t root i).jobs.length = c.jobs.length := by
  have hstep := c.advanced_advance s cp t root i
  generalize c.advance s cp t root i = c' at hstep ⊢
  cases hstep with
  | idle => rfl
  | loaded | processed | released => exact List.length_set

/-- No input changes its name. -/
theorem names_advance (c : Crew) (s : Settings) (cp : ClassPath) (t : Target) (root : String)
    (i : Nat) : (c.advance s cp t root i).jobs.map Job.name = c.jobs.map Job.name := by
  have hset {name : String} {stage stage' : Stage} (hjob : c.jobs[i]? = some ⟨name, stage⟩) :
      (c.jobs.set i ⟨name, stage'⟩).map Job.name = c.jobs.map Job.name := by
    refine List.ext_getElem? fun j => ?_
    rw [List.getElem?_map, List.getElem?_map]
    by_cases hij : i = j
    · subst hij
      rw [List.getElem?_set_self (List.getElem?_eq_some_iff.mp hjob).1, hjob]
      rfl
    · rw [List.getElem?_set_ne hij]
  have hstep := c.advanced_advance s cp t root i
  generalize c.advance s cp t root i = c' at hstep ⊢
  cases hstep with
  | idle => rfl
  | loaded hjob => exact hset hjob
  | processed hjob => exact hset hjob
  | released hjob => exact hset hjob

theorem outcome?_eq_some_iff {r : Except Failure Emitted} : c.outcome? i = some (name, r) ↔
    ∃ stage, c.jobs[i]? = some ⟨name, stage⟩ ∧ stage.outcome? = some r := by
  unfold outcome?
  cases c.jobs[i]? with
  | none => simp
  | some job =>
      obtain ⟨name', stage⟩ := job
      cases hstage : stage.outcome? <;> simp [hstage, and_comm]

theorem outcome?_eq_none_of_loaded {o : LoadOutcome} (hjob : c.jobs[i]? = some ⟨name, .loaded o⟩) :
    c.outcome? i = none := by
  unfold outcome?
  rw [hjob]
  rfl

/-- What became of an input stays. -/
theorem outcome?_advance {r : Except Failure Emitted} (h : c.outcome? i = some (name, r)) :
    (c.advance s cp t root j).outcome? i = some (name, r) := by
  by_cases hne : j = i
  · subst hne
    obtain ⟨stage, hjob, hstage⟩ := outcome?_eq_some_iff.mp h
    have hlt := (List.getElem?_eq_some_iff.mp hjob).1
    have hstep := c.advanced_advance s cp t root j
    generalize c.advance s cp t root j = c' at hstep ⊢
    cases hstep with
    | idle => exact h
    | loaded hjob' =>
        rw [hjob] at hjob'
        cases hjob'
        cases hstage
    | processed hjob' =>
        rw [hjob] at hjob'
        cases hjob'
        cases hstage
    | released hjob' =>
        rw [hjob] at hjob'
        cases hjob'
        exact outcome?_eq_some_iff.mpr ⟨_, List.getElem?_set_self hlt, hstage⟩
  · unfold outcome?
    rw [jobs_advance_of_ne hne]
    exact h

/-- It is settled at the step that processes the input. -/
theorem loaded_of_outcome?_advance {r : Except Failure Emitted} (hnone : c.outcome? i = none)
    (h : (c.advance s cp t root j).outcome? i = some (name, r)) :
    j = i ∧ ∃ o, c.jobs[i]? = some ⟨name, .loaded o⟩ ∧
      r = (c.state.processLoaded s cp t root name o).2 := by
  by_cases hne : j = i
  · subst hne
    obtain ⟨stage, hjob, hstage⟩ := outcome?_eq_some_iff.mp h
    have hstep := c.advanced_advance s cp t root j
    generalize c.advance s cp t root j = c' at hstep hjob h
    cases hstep with
    | idle =>
        rw [hnone] at h
        cases h
    | loaded hjob' =>
        rw [List.getElem?_set_self (List.getElem?_eq_some_iff.mp hjob').1] at hjob
        cases hjob
        cases hstage
    | processed hjob' =>
        rw [List.getElem?_set_self (List.getElem?_eq_some_iff.mp hjob').1] at hjob
        cases hjob
        cases hstage
        exact ⟨rfl, _, hjob', rfl⟩
    | released hjob' =>
        rw [outcome?_eq_some_iff.mpr ⟨_, hjob', rfl⟩] at hnone
        cases hnone
  · unfold outcome? at h hnone
    rw [jobs_advance_of_ne hne, hnone] at h
    cases h

end

end Crew

/-! ### Following a schedule -/

section

variable {s : Settings} {cp : ClassPath} {store : Store} {inputs : List String} {root name : String}
  {schedule front : List Nat} {i : Nat}

theorem crewAfter_nil : crewAfter s cp store inputs root [] =
    Crew.start (RunState.target ⟨store, .empty, #[]⟩ s cp).1 inputs := rfl

theorem crewAfter_concat (front : List Nat) (i : Nat) :
    crewAfter s cp store inputs root (front ++ [i]) =
      (crewAfter s cp store inputs root front).advance s cp (s.target cp store) root i := by
  show Crew.follow _ s cp (s.target cp store) root (front ++ [i]) = _
  unfold Crew.follow
  rw [List.foldl_append]
  rfl

theorem names_crewAfter (s : Settings) (cp : ClassPath) (store : Store) (inputs : List String)
    (root : String) (schedule : List Nat) :
    (crewAfter s cp store inputs root schedule).jobs.map Job.name = inputs := by
  induction schedule using List.reverseRecOn with
  | nil =>
      rw [crewAfter_nil, Crew.start, List.map_map]
      exact List.map_id inputs
  | append_singleton front i ih => rw [crewAfter_concat, Crew.names_advance, ih]

theorem name_mem_inputs {job : Job}
    (h : (crewAfter s cp store inputs root schedule).jobs[i]? = some job) : job.name ∈ inputs := by
  rw [← names_crewAfter s cp store inputs root schedule]
  exact List.mem_map_of_mem (List.mem_of_getElem? h)

theorem outcome?_crewAfter_nil : (crewAfter s cp store inputs root []).outcome? i = none := by
  rw [crewAfter_nil, Crew.start, Crew.outcome?, List.getElem?_map]
  cases inputs[i]? <;> rfl

/-- What became of an input stays to the end. -/
theorem outcome?_crewAfter_append {r : Except Failure Emitted} (back : List Nat)
    (h : (crewAfter s cp store inputs root front).outcome? i = some (name, r)) :
    (crewAfter s cp store inputs root (front ++ back)).outcome? i = some (name, r) := by
  induction back using List.reverseRecOn with
  | nil =>
      rw [List.append_nil]
      exact h
  | append_singleton back j ih =>
      rw [← List.append_assoc, crewAfter_concat]
      exact Crew.outcome?_advance ih

/-- The step of a schedule that settles what becomes of the input at position `i`. -/
structure TurnOf (s : Settings) (cp : ClassPath) (store : Store) (inputs : List String)
    (root : String) (schedule : List Nat) (i : Nat) (name : String) (o : LoadOutcome)
    (front back : List Nat) : Prop where
  schedule_eq : schedule = front ++ i :: back
  loaded : (crewAfter s cp store inputs root front).jobs[i]? = some ⟨name, .loaded o⟩

/-- What is settled after one more step was settled before, or is settled at this step. -/
theorem outcome?_crewAfter_concat {r : Except Failure Emitted} {j : Nat}
    (h : (crewAfter s cp store inputs root (front ++ [j])).outcome? i = some (name, r)) :
    (crewAfter s cp store inputs root front).outcome? i = some (name, r) ∨
      i = j ∧ ∃ o, TurnOf s cp store inputs root (front ++ [j]) j name o front [] ∧
        r = ((crewAfter s cp store inputs root front).state.processLoaded s cp (s.target cp store) root
          name o).2 := by
  cases hearlier : (crewAfter s cp store inputs root front).outcome? i with
  | none =>
      rw [crewAfter_concat] at h
      obtain ⟨rfl, o, hjob, hr⟩ := Crew.loaded_of_outcome?_advance hearlier h
      exact Or.inr ⟨rfl, o, ⟨rfl, hjob⟩, hr⟩
  | some settled =>
      obtain ⟨name', r'⟩ := settled
      rw [outcome?_crewAfter_append [j] hearlier] at h
      exact Or.inl h

/-- Each input for which it is settled what became of it was processed at one of the steps. -/
theorem exists_turnOf {r : Except Failure Emitted}
    (h : (crewAfter s cp store inputs root schedule).outcome? i = some (name, r)) :
    ∃ o front back, TurnOf s cp store inputs root schedule i name o front back ∧
      r = ((crewAfter s cp store inputs root front).state.processLoaded s cp (s.target cp store) root
        name o).2 := by
  induction schedule using List.reverseRecOn with
  | nil =>
      rw [outcome?_crewAfter_nil] at h
      cases h
  | append_singleton schedule j ih =>
      rcases outcome?_crewAfter_concat h with hearlier | ⟨rfl, o, hturn, hr⟩
      · obtain ⟨o, front, back, ⟨hschedule, hloaded⟩, hr⟩ := ih hearlier
        refine ⟨o, front, back ++ [j], ⟨?_, hloaded⟩, hr⟩
        rw [hschedule, List.append_assoc, List.cons_append]
      · exact ⟨o, schedule, [], hturn, hr⟩

/-- Before that step it is not settled. -/
theorem TurnOf.unsettled {o : LoadOutcome} {earlier later back : List Nat}
    (h : TurnOf s cp store inputs root schedule i name o (earlier ++ later) back) :
    (crewAfter s cp store inputs root earlier).outcome? i = none := by
  cases hearlier : (crewAfter s cp store inputs root earlier).outcome? i with
  | none => rfl
  | some settled =>
      obtain ⟨name', r⟩ := settled
      have hstays := outcome?_crewAfter_append later hearlier
      rw [Crew.outcome?_eq_none_of_loaded h.loaded] at hstays
      cases hstays

/-- The state after such a step is what processing the class comes to. -/
theorem TurnOf.state_eq {o : LoadOutcome} {back : List Nat}
    (h : TurnOf s cp store inputs root schedule i name o front back) :
    (crewAfter s cp store inputs root (front ++ [i])).state =
      ((crewAfter s cp store inputs root front).state.processLoaded s cp (s.target cp store) root name
        o).1 := by
  rw [crewAfter_concat, Crew.advance_of_loaded h.loaded]

end

end Retrofit
