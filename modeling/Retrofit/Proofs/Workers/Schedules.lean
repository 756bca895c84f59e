import Retrofit.Proofs.Workers.Turns

/-!
# Schedules

How far an input has come is how often the schedule has named it, so a run comes to its end by every
schedule that names each input three times. No worker disturbs another one if the inputs have distinct
internal names, by whatever schedule, and none does in the schedule of a single worker, whatever the
inputs. That schedule is the run over one input after the other.
-/

namespace Retrofit

/-- How many steps an input has taken. -/
def Stage.rank : Stage → Nat
  | waiting => 0
  | loaded _ => 1
  | processed _ => 2
  | released _ => 3

namespace Crew

variable {c : Crew} {s : Settings} {cp : ClassPath} {t : Target} {root : String} {i : Nat}

/-- A step takes its input one stage further, up to the last one. -/
theorem rank_advance {job : Job} (hjob : c.jobs[i]? = some job) (s : Settings) (cp : ClassPath)
    (t : Target) (root : String) :
    ∃ job', (c.advance s cp t root i).jobs[i]? = some job' ∧
      job'.stage.rank = min 3 (job.stage.rank + 1) := by
  obtain ⟨name, stage⟩ := job
  have hlt := (List.getElem?_eq_some_iff.mp hjob).1
  unfold advance
  rw [hjob]
  refine ⟨_, List.getElem?_set_self hlt, ?_⟩
  cases stage <;> rfl

end Crew

section

variable {s : Settings} {cp : ClassPath} {store : Store} {inputs : List String} {root : String}
  {schedule : List Nat} {i : Nat}

theorem rank_crewAfter {job : Job}
    (hjob : (crewAfter s cp store inputs root schedule).jobs[i]? = some job) :
    job.stage.rank = min 3 (schedule.count i) := by
  induction schedule using List.reverseRecOn generalizing job with
  | nil =>
      obtain ⟨name, -, rfl⟩ := List.mem_map.mp (List.mem_of_getElem? hjob)
      rfl
  | append_singleton front j ih =>
      rw [crewAfter_concat] at hjob
      rw [List.count_append, List.count_singleton]
      by_cases hij : j = i
      · subst hij
        have hlt := (List.getElem?_eq_some_iff.mp hjob).1
        rw [Crew.length_jobs_advance] at hlt
        have hbefore := List.getElem?_eq_getElem hlt
        obtain ⟨job', hjob', hrank⟩ := Crew.rank_advance hbefore s cp (s.target cp store) root
        rw [hjob, Option.some_inj] at hjob'
        have hfront := ih hbefore
        rw [hjob', hrank, hfront]
        simp
        omega
      · rw [Crew.jobs_advance_of_ne hij] at hjob
        simp [ih hjob, beq_false_of_ne hij]

theorem isHeld_crewAfter_iff {job : Job}
    (hjob : (crewAfter s cp store inputs root schedule).jobs[i]? = some job) :
    job.stage.isHeld = true ↔ schedule.count i = 1 ∨ schedule.count i = 2 := by
  have hrank := rank_crewAfter hjob
  cases hstage : job.stage <;> rw [hstage, Stage.rank] at hrank <;> simp [Stage.isHeld] <;> omega

theorem getElem?_crewAfter_eq_none_iff :
    (crewAfter s cp store inputs root schedule).jobs[i]? = none ↔ inputs.length ≤ i := by
  rw [← names_crewAfter s cp store inputs root schedule,
    List.length_map, List.getElem?_eq_none_iff, names_crewAfter]

/-- A run has come to its end when each input was named three times. -/
theorem isDone_crewAfter_iff : (crewAfter s cp store inputs root schedule).isDone = true ↔
    ∀ i < inputs.length, 3 ≤ schedule.count i := by
  have hreleased (stage : Stage) : stage.isReleased = true ↔ 3 ≤ stage.rank := by
    cases stage <;> simp [Stage.isReleased, Stage.rank]
  unfold Crew.isDone
  rw [List.all_eq_true]
  constructor
  · intro hdone i hi
    cases hjob : (crewAfter s cp store inputs root schedule).jobs[i]? with
    | none => exact absurd (getElem?_crewAfter_eq_none_iff.mp hjob) (Nat.not_le.mpr hi)
    | some job =>
        have hrank := (hreleased _).mp (hdone job (List.mem_of_getElem? hjob))
        rw [rank_crewAfter hjob] at hrank
        omega
  · intro hcount job hmem
    obtain ⟨i, hjob⟩ := List.mem_iff_getElem?.mp hmem
    rw [hreleased, rank_crewAfter hjob]
    refine Nat.le_min.mpr ⟨Nat.le_refl 3, hcount i (Nat.not_le.mp fun hle => ?_)⟩
    rw [getElem?_crewAfter_eq_none_iff.mpr hle] at hjob
    cases hjob

/-! ### Workers that do not disturb each other -/

/-- Inputs with distinct internal names do not disturb each other. -/
theorem undisturbed_of_nodup (h : (inputs.map ClassName.internal).Nodup) (schedule : List Nat)
    (i : Nat) : Undisturbed s cp store inputs root schedule i := by
  intro front back _ j job job' hne hjob hjob' _ _ heq
  rw [← names_crewAfter s cp store inputs root front,
    List.map_map] at h
  have hkey : ((crewAfter s cp store inputs root front).jobs.map Job.key)[i]? =
      ((crewAfter s cp store inputs root front).jobs.map Job.key)[j]? := by
    rw [List.getElem?_map, List.getElem?_map, hjob, hjob', Option.map_some, Option.map_some, heq]
  have hlt : i < ((crewAfter s cp store inputs root front).jobs.map Job.key).length := by
    rw [List.length_map]
    exact (List.getElem?_eq_some_iff.mp hjob).1
  exact hne ((List.getElem?_inj hlt h).mp hkey).symm

/-- A single worker takes each input through all its steps, and then never comes back to it. -/
theorem count_oneByOne {count : Nat} (hi : i < count) : (oneByOne count).count i = 3 := by
  unfold oneByOne
  induction count with
  | zero => omega
  | succ count ih =>
      rw [List.range_succ, List.flatMap_append, List.count_append]
      by_cases heq : i = count
      · subst heq
        have hzero : ((List.range i).flatMap fun i => [i, i, i]).count i = 0 := by
          rw [List.count_eq_zero]
          simp
        rw [hzero]
        simp
      · rw [ih (by omega)]
        simp [Ne.symm heq]

theorem pairwise_oneByOne (count : Nat) : (oneByOne count).Pairwise (· ≤ ·) := by
  unfold oneByOne
  rw [List.pairwise_flatMap]
  refine ⟨fun i _ => by simp, ?_⟩
  refine (List.pairwise_lt_range).imp fun hlt => ?_
  simp only [List.mem_cons, List.not_mem_nil, or_false, or_self]
  rintro _ rfl _ rfl
  exact Nat.le_of_lt hlt

/-- An input that has begun in a moment of that schedule and has not come to its end is the only one. -/
theorem eq_of_count_oneByOne {count j : Nat} {front back : List Nat}
    (hschedule : oneByOne count = front ++ back) (hi : i < count) (hj : j < count)
    (hbegun : 0 < front.count i) (hbegun' : 0 < front.count j) (hleft : front.count i < 3)
    (hleft' : front.count j < 3) : i = j := by
  have hcount {k : Nat} (hk : k < count) : front.count k + back.count k = 3 := by
    rw [← List.count_append, ← hschedule, count_oneByOne hk]
  have horder := pairwise_oneByOne count
  rw [hschedule, List.pairwise_append] at horder
  have hle {k l : Nat} (hl : l < count) (hk : 0 < front.count k) (hl' : front.count l < 3) : k ≤ l :=
    horder.2.2 k (List.count_pos_iff.mp hk) l (List.count_pos_iff.mp (by have := hcount hl; omega))
  exact Nat.le_antisymm (hle hj hbegun hleft') (hle hi hbegun' hleft)

/-- A single worker disturbs no one. -/
theorem undisturbed_oneByOne (i : Nat) :
    Undisturbed s cp store inputs root (oneByOne inputs.length) i := by
  intro front back hschedule j job job' hne hjob hjob' hheld hheld'
  have hlt {k : Nat} {job : Job}
      (hjob : (crewAfter s cp store inputs root front).jobs[k]? = some job) : k < inputs.length := by
    refine Nat.not_le.mp fun hle => ?_
    rw [getElem?_crewAfter_eq_none_iff.mpr hle] at hjob
    cases hjob
  rw [isHeld_crewAfter_iff hjob] at hheld
  rw [isHeld_crewAfter_iff hjob'] at hheld'
  exact absurd (eq_of_count_oneByOne hschedule (hlt hjob') (hlt hjob) (by omega) (by omega) (by omega)
    (by omega)) hne

end

/-! ### A single worker -/

section

variable {s : Settings} {cp : ClassPath} {t : Target} {root : String}

theorem Crew.advance_of_job {c : Crew} {i : Nat} {name : String} {stage : Stage}
    (hjob : c.jobs[i]? = some ⟨name, stage⟩) (s : Settings) (cp : ClassPath) (t : Target)
    (root : String) : c.advance s cp t root i =
      ⟨(c.state.advance s cp t root name stage).1,
        c.jobs.set i ⟨name, (c.state.advance s cp t root name stage).2⟩⟩ := by
  unfold advance
  rw [hjob]

/-- Three steps take an input from the start to the end. -/
theorem Crew.follow_three {c : Crew} {i : Nat} {name : String}
    (hjob : c.jobs[i]? = some ⟨name, .waiting⟩) (s : Settings) (cp : ClassPath) (t : Target)
    (root : String) : c.follow s cp t root [i, i, i] =
      ⟨{ (c.state.processClass s cp t root name).1 with
          loader := (c.state.processClass s cp t root name).1.loader.release name },
        c.jobs.set i ⟨name, .released (c.state.processClass s cp t root name).2⟩⟩ := by
  have hlt := (List.getElem?_eq_some_iff.mp hjob).1
  have hset (job : Job) : (c.jobs.set i job)[i]? = some job := List.getElem?_set_self hlt
  have hagain (st : RunState) (stage : Stage) :=
    advance_of_job (c := ⟨st, _⟩) (hset ⟨name, stage⟩) s cp t root
  show ((c.advance s cp t root i).advance s cp t root i).advance s cp t root i = _
  rw [advance_of_job hjob, hagain]
  dsimp only
  rw [List.set_set, hagain, List.set_set]
  rfl

/-- A single worker does with the inputs what the run over them does. -/
theorem Crew.follow_oneByOne (s : Settings) (cp : ClassPath) (t : Target) (root : String)
    (st : RunState) (done : List Job) (names : List String) :
    Crew.follow ⟨st, done ++ names.map fun name => ⟨name, .waiting⟩⟩ s cp t root
        ((List.range' done.length names.length).flatMap fun i => [i, i, i]) =
      ⟨(st.processAll s cp t root [] names).1, done ++ (st.processAll s cp t root [] names).2.map
        fun o => ⟨o.1, .released o.2⟩⟩ := by
  induction names generalizing st done with
  | nil => rfl
  | cons name names ih =>
      have hjob : (done ++ ⟨name, .waiting⟩ :: names.map fun name => (⟨name, .waiting⟩ : Job))[done.length]? =
          some ⟨name, .waiting⟩ := by
        rw [List.getElem?_append_right (Nat.le_refl _), Nat.sub_self, List.getElem?_cons_zero]
      have hthree := follow_three (c := ⟨st, _⟩) hjob s cp t root
      have hrest := ih
        { (st.processClass s cp t root name).1 with
          loader := (st.processClass s cp t root name).1.loader.release name }
        (done ++ [⟨name, .released (st.processClass s cp t root name).2⟩])
      rw [List.set_append_right _ _ (Nat.le_refl _), Nat.sub_self, List.set_cons_zero] at hthree
      rw [List.length_append, List.length_singleton, List.append_assoc, List.singleton_append] at hrest
      rw [List.map_cons, List.length_cons, List.range'_succ, List.flatMap_cons, Crew.follow,
        List.foldl_append]
      change Crew.follow (Crew.follow _ s cp t root [done.length, done.length, done.length]) s cp t root _ = _
      rw [hthree]
      dsimp only
      rw [hrest, RunState.processAll]
      dsimp only
      rw [RunState.processAll_eq_append _ [_]]
      simp

/-- The schedule of a single worker is the run over one input after the other. -/
theorem runBy_oneByOne (s : Settings) (cp : ClassPath) (store : Store) (inputs : List String)
    (root : String) :
    runBy (oneByOne inputs.length) s cp store inputs root = some (run s cp store inputs root) := by
  have hcrew := Crew.follow_oneByOne s cp (s.target cp store) root
    (RunState.target ⟨store, .empty, #[]⟩ s cp).1 [] inputs
  rw [List.nil_append, List.nil_append, List.length_nil, ← List.range_eq_range'] at hcrew
  replace hcrew : crewAfter s cp store inputs root (oneByOne inputs.length) = _ := hcrew
  have houtcomes (outcomes : List (String × Except Failure Emitted)) :
      (outcomes.map fun o => (⟨o.1, .released o.2⟩ : Job)).filterMap
        (fun job => job.stage.outcome?.map fun outcome => (job.name, outcome)) = outcomes := by
    rw [List.filterMap_map]
    exact List.filterMap_some
  unfold runBy run
  split
  · rfl
  · dsimp only
    rw [if_pos (isDone_crewAfter_iff.mpr fun i hi => Nat.le_of_eq (count_oneByOne hi).symm), hcrew]
    unfold Crew.outcomes
    dsimp only
    rw [houtcomes]
    rfl

/-- No schedule gets stuck: a run has its result as soon as each input was named three times. -/
theorem runBy_isSome_iff {store : Store} {inputs : List String} {schedule : List Nat} :
    (runBy schedule s cp store inputs root).isSome = true ↔
      (inputs ≠ [] ∧ cp.isEmpty = true) ∨ ∀ i < inputs.length, 3 ≤ schedule.count i := by
  have hdone : (crewAfter s cp store inputs root schedule).isDone = true ↔ _ := isDone_crewAfter_iff
  unfold runBy
  rw [← hdone]
  split
  · rename_i hempty
    simp_all
  · rename_i hempty
    dsimp only
    split <;> simp_all

end

end Retrofit
