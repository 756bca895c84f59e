import Retrofit.Proofs.Workers

/-!
# Instances that workers share

Workers that hold the same class share its instance, and only they do: a handle belongs to one internal
name, as long as it is held and also when the name has been released meanwhile. So what one worker does
to its class concerns no other name. As long as no one else holds the class of an input, its worker
finds the instance as it was loaded.
-/

namespace Retrofit

/-- The name under which the class of an input is remembered. -/
def Job.key (job : Job) : String := ClassName.internal job.name

namespace Crew

/-- Some worker holds the class with the internal name. -/
def Holds (c : Crew) (key : String) : Prop :=
  ∃ (j : Nat) (job : Job), c.jobs[j]? = some job ∧ job.stage.isHeld = true ∧ job.key = key

/-- As long as the class of the input at position `i` is held, no other worker holds that class. -/
def Alone (c : Crew) (i : Nat) : Prop :=
  ∀ (j : Nat) (job job' : Job), j ≠ i → c.jobs[i]? = some job → c.jobs[j]? = some job' →
    job.stage.isHeld = true → job'.stage.isHeld = true → job.key ≠ job'.key

/-- What the loader remembers is right unless someone holds the class, and what workers hold comes from
what was found. No instance is shared between names. -/
structure Sound (find : String → Option (List UInt8)) (c : Crew) : Prop where
  faithful : c.state.loader.Faithful find c.Holds
  stems : ∀ (j : Nat) (job : Job) o, c.jobs[j]? = some job → job.stage = .loaded o →
    c.state.loader.Stems (find job.key) o
  remembered : ∀ (j : Nat) (job : Job) h key, c.jobs[j]? = some job → job.stage = .loaded (.ok h) →
    c.state.loader.outcomes.lookup key = some (.ok h) → key = job.key
  apart : ∀ (j : Nat) (job : Job) (j' : Nat) (job' : Job) h, c.jobs[j]? = some job → c.jobs[j']? = some job' →
    job.stage = .loaded (.ok h) → job'.stage = .loaded (.ok h) → job.key = job'.key

/-- What the worker of the input at position `i` has loaded is as it was found. -/
def Clean (find : String → Option (List UInt8)) (c : Crew) (i : Nat) : Prop :=
  ∀ (job : Job) o, c.jobs[i]? = some job → job.stage = .loaded o → c.state.loader.Right (find job.key) o

section

variable {find : String → Option (List UInt8)} {c : Crew} {s : Settings} {cp : ClassPath} {t : Target}
  {root name : String} {i j : Nat}

theorem sound_start {st : RunState} (h : st.loader.Faithful find fun _ => False)
    (inputs : List String) : (start st inputs).Sound find := by
  have hwaiting : ∀ (j : Nat) (job : Job), (start st inputs).jobs[j]? = some job → job.stage = .waiting := by
    intro j job hjob
    obtain ⟨name, -, rfl⟩ := List.mem_map.mp (List.mem_of_getElem? hjob)
    rfl
  constructor
  · exact h.mono fun _ => False.elim
  · intro j job o hjob hstage
    rw [hwaiting j job hjob] at hstage
    cases hstage
  · intro j job h key hjob hstage
    rw [hwaiting j job hjob] at hstage
    cases hstage
  · intro j job j' job' h hjob _ hstage
    rw [hwaiting j job hjob] at hstage
    cases hstage

/-- An input that moves to a stage at which its class is held changes nothing for other names. -/
theorem holds_of_set {st : RunState} {job : Job} {stage : Stage} (hjob : c.jobs[i]? = some job)
    (hstage : stage.isHeld = true ∨ job.stage.isHeld = false) {key : String} (h : c.Holds key) :
    Holds ⟨st, c.jobs.set i ⟨job.name, stage⟩⟩ key := by
  obtain ⟨j, job', hjob', hheld, hkey⟩ := h
  by_cases hij : i = j
  · subst hij
    rw [hjob, Option.some_inj] at hjob'
    subst hjob'
    refine ⟨i, ⟨job.name, stage⟩, List.getElem?_set_self (List.getElem?_eq_some_iff.mp hjob).1, ?_, hkey⟩
    rcases hstage with hstage | hstage
    · exact hstage
    · rw [hstage] at hheld
      cases hheld
  · exact ⟨j, job', (List.getElem?_set_ne hij).trans hjob', hheld, hkey⟩

/-- A handle that a load gives out is held by others under the same name only. -/
theorem Sound.key_eq_of_load (hc : c.Sound find) {h : Handle} {job : Job}
    (hload : (c.state.load cp name).2 = .ok h) (hjob : c.jobs[j]? = some job)
    (hstage : job.stage = .loaded (.ok h)) : ClassName.internal name = job.key := by
  rcases Loader.known_or_new (l := c.state.loader) hload with hknown | ⟨hnew, -⟩
  · exact hc.remembered j job h _ hjob hstage hknown
  · have hlt := (hc.stems j job _ hjob hstage).lt_size
    rw [hnew] at hlt
    exact absurd hlt (Nat.lt_irrefl _)

/-- Processing changes at most the instance of the class. -/
theorem Sound.processed (hc : c.Sound find) {o : LoadOutcome}
    (hjob : c.jobs[i]? = some ⟨name, .loaded o⟩)
    (hfind : cp.bytes? c.state.store name = find (ClassName.internal name)) (s : Settings) (t : Target)
    (root : String) : c.state.loader.Processed o (c.state.processLoaded s cp t root name o).1.loader := by
  have hstems : c.state.loader.Stems (find (ClassName.internal name)) o := hc.stems i _ o hjob rfl
  rcases RunState.processLoaded_cases hstems hfind s t root with ⟨hnone, heq⟩ | ⟨bytes, p, -, h⟩
  · rw [hnone] at hstems
    rw [heq]
    cases hstems with
    | notFound => exact .failed
  · exact h.loader

/-- What is loaded after a step that loads nothing was loaded before. -/
theorem loaded_of_set {job : Job} {stage : Stage} {o : LoadOutcome}
    (hset : (c.jobs.set i ⟨name, stage⟩)[j]? = some job) (hloaded : job.stage = .loaded o)
    (hstage : ∀ o, stage ≠ .loaded o) : j ≠ i ∧ c.jobs[j]? = some job := by
  rcases jobs_set_cases hset with ⟨rfl, rfl⟩ | hbefore
  · exact absurd hloaded (hstage o)
  · exact hbefore

/-- The handle that is given out is either remembered or new, and those that are held already belong to
the names under which they are held. -/
theorem Sound.load (hc : c.Sound find) (hjob : c.jobs[i]? = some ⟨name, .waiting⟩)
    (hfind : cp.bytes? c.state.store name = find (ClassName.internal name)) :
    Sound find ⟨(c.state.load cp name).1, c.jobs.set i ⟨name, .loaded (c.state.load cp name).2⟩⟩ := by
  obtain ⟨hfaithful, hlookup⟩ := hc.faithful.load hfind
  have hkept : c.state.loader.Retains (c.state.load cp name).1.loader :=
    Loader.retains_of_units fun _ _ hu => Loader.unit?_load hu cp _ name
  constructor
  · exact hfaithful.mono fun key => holds_of_set hjob (Or.inl rfl)
  · intro j job o hset hstage
    rcases jobs_set_cases hset with ⟨rfl, rfl⟩ | ⟨-, hj⟩
    · cases hstage
      exact hfaithful.stems _ _ hlookup
    · exact (hc.stems j job o hj hstage).mono hkept
  · intro j job h key hset hstage hkey
    rcases jobs_set_cases hset with ⟨rfl, rfl⟩ | ⟨-, hj⟩
    · rw [Stage.loaded.injEq] at hstage
      exact hfaithful.distinct key _ h hkey (hlookup.trans (congrArg some hstage))
    · have hold := Loader.lookup_load c.state.loader cp c.state.store name key
      replace hkey := hold.symm.trans hkey
      split at hkey
      · rename_i heq
        rw [heq]
        exact hc.key_eq_of_load (Option.some_inj.mp hkey) hj hstage
      · exact hc.remembered j job h key hj hstage hkey
  · intro j job j' job' h hset hset' hstage hstage'
    rcases jobs_set_cases hset with ⟨rfl, rfl⟩ | ⟨-, hj⟩
    · rcases jobs_set_cases hset' with ⟨rfl, rfl⟩ | ⟨-, hj'⟩
      · rfl
      · exact hc.key_eq_of_load (Stage.loaded.inj hstage) hj' hstage'
    · rcases jobs_set_cases hset' with ⟨rfl, rfl⟩ | ⟨-, hj'⟩
      · exact (hc.key_eq_of_load (Stage.loaded.inj hstage') hj hstage).symm
      · exact hc.apart j job j' job' h hj hj' hstage hstage'

/-- Only the instance of the class may change, and someone holds that. -/
theorem Sound.process (hc : c.Sound find) {o : LoadOutcome}
    (hjob : c.jobs[i]? = some ⟨name, .loaded o⟩)
    (hfind : cp.bytes? c.state.store name = find (ClassName.internal name)) (s : Settings) (t : Target)
    (root : String) : Sound find ⟨(c.state.processLoaded s cp t root name o).1,
      c.jobs.set i ⟨name, .processed (c.state.processLoaded s cp t root name o).2⟩⟩ := by
  have hprocessed := hc.processed hjob hfind s t root
  constructor
  · refine (hc.faithful.processed hprocessed fun key h ho hkey => ?_).mono fun key =>
      holds_of_set hjob (Or.inl rfl)
    rw [ho] at hjob
    exact ⟨i, _, hjob, rfl, (hc.remembered i _ h key hjob rfl hkey).symm⟩
  · intro j job o hset hstage
    obtain ⟨-, hj⟩ := loaded_of_set hset hstage nofun
    exact (hc.stems j job o hj hstage).mono hprocessed.retains
  · intro j job h key hset hstage hkey
    obtain ⟨-, hj⟩ := loaded_of_set hset hstage nofun
    rw [hprocessed.outcomes_eq] at hkey
    exact hc.remembered j job h key hj hstage hkey
  · intro j job j' job' h hset hset' hstage hstage'
    obtain ⟨-, hj⟩ := loaded_of_set hset hstage nofun
    obtain ⟨-, hj'⟩ := loaded_of_set hset' hstage' nofun
    exact hc.apart j job j' job' h hj hj' hstage hstage'

/-- The name is forgotten, and no instance changes. -/
theorem Sound.release (hc : c.Sound find) {r : Except Failure Emitted}
    (hjob : c.jobs[i]? = some ⟨name, .processed r⟩) :
    Sound find ⟨{ c.state with loader := c.state.loader.release name },
      c.jobs.set i ⟨name, .released r⟩⟩ := by
  have hlookup {key : String} {o : LoadOutcome}
      (hkey : (c.state.loader.release name).outcomes.lookup key = some o) :
      c.state.loader.outcomes.lookup key = some o := by
    rw [Loader.lookup_release] at hkey
    split at hkey
    · cases hkey
    · exact hkey
  constructor
  · refine hc.faithful.release fun key hkey hne => ?_
    obtain ⟨j, job, hj, hheld, rfl⟩ := hkey
    have hij : i ≠ j := by
      rintro rfl
      rw [hjob, Option.some_inj] at hj
      exact hne (by rw [← hj]; rfl)
    exact ⟨j, job, (List.getElem?_set_ne hij).trans hj, hheld, rfl⟩
  · intro j job o hset hstage
    obtain ⟨-, hj⟩ := loaded_of_set hset hstage nofun
    exact (hc.stems j job o hj hstage).mono (Loader.retains_of_units fun _ _ hu => hu)
  · intro j job h key hset hstage hkey
    obtain ⟨-, hj⟩ := loaded_of_set hset hstage nofun
    exact hc.remembered j job h key hj hstage (hlookup hkey)
  · intro j job j' job' h hset hset' hstage hstage'
    obtain ⟨-, hj⟩ := loaded_of_set hset hstage nofun
    obtain ⟨-, hj'⟩ := loaded_of_set hset' hstage' nofun
    exact hc.apart j job j' job' h hj hj' hstage hstage'

/-- A step keeps workers sound, as long as the class path gives what it gave. -/
theorem Sound.advance (hc : c.Sound find)
    (hfind : ∀ job, c.jobs[i]? = some job → cp.bytes? c.state.store job.name = find job.key) :
    (c.advance s cp t root i).Sound find := by
  have hstep := c.advanced_advance s cp t root i
  generalize c.advance s cp t root i = c' at hstep ⊢
  cases hstep with
  | idle => exact hc
  | loaded hjob => exact hc.load hjob (hfind _ hjob)
  | processed hjob => exact hc.process hjob (hfind _ hjob) s t root
  | released hjob => exact hc.release hjob

/-- An input of which no other worker holds the class is loaded as it is found, and stays so until it
is processed. -/
theorem Clean.advance (hclean : c.Clean find i) (hc : c.Sound find)
    (hfind : ∀ job, c.jobs[j]? = some job → cp.bytes? c.state.store job.name = find job.key)
    (halone : c.Alone i) (halone' : (c.advance s cp t root j).Alone i) :
    (c.advance s cp t root j).Clean find i := by
  have hstep := c.advanced_advance s cp t root j
  generalize c.advance s cp t root j = c' at hstep halone' ⊢
  cases hstep with
  | idle => exact hclean
  | @loaded name hjob =>
      obtain ⟨hfaithful, hlookup⟩ := hc.faithful.load (hfind _ hjob)
      intro job o hset hstage
      rcases jobs_set_cases hset with ⟨rfl, rfl⟩ | ⟨-, hi⟩
      · rw [Stage.loaded.injEq] at hstage
        rw [← hstage]
        refine hfaithful.right _ _ ?_ hlookup
        rintro ⟨k, job, hk, hheld, hkey⟩
        have hik : i ≠ k := by
          rintro rfl
          rw [hjob, Option.some_inj] at hk
          rw [← hk] at hheld
          cases hheld
        exact halone' k _ job hik.symm hset ((List.getElem?_set_ne hik).trans hk) rfl hheld hkey.symm
      · exact (hclean job o hi hstage).mono fun _ _ _ hu => Loader.unit?_load hu cp _ name
  | @processed name o' hjob =>
      have hprocessed := hc.processed hjob (hfind _ hjob) s t root
      intro job o hset hstage
      obtain ⟨hne, hi⟩ := loaded_of_set hset hstage nofun
      refine (hclean job o hi hstage).mono fun h u ho hu => ?_
      rw [hprocessed.unit?_of_ne, hu]
      rintro rfl
      rw [ho] at hstage
      refine halone j job _ hne.symm hi hjob ?_ rfl (hc.apart i job j _ h hi hjob hstage rfl)
      rw [hstage]
      rfl
  | released hjob =>
      intro job o hset hstage
      obtain ⟨-, hi⟩ := loaded_of_set hset hstage nofun
      exact (hclean job o hi hstage).mono fun _ _ _ hu => hu

end

end Crew

end Retrofit
