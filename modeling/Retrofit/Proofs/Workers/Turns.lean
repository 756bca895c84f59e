import Retrofit.Proofs.Store.AnyOrder
import Retrofit.Proofs.Workers.Sharing

/-!
# What workers write

At the step that processes an input its class is written, and what was written stays until a class that
is processed later is written at the same place. Where the input had its class for itself, what is
written is what is produced from the bytes that are found for it; else it may be what others have made of
the instance. A class that is given up on is written as it was found in any case.
-/

namespace Retrofit

section

variable {s : Settings} {cp : ClassPath} {store : Store} {inputs : List String} {root name : String}
  {schedule front back : List Nat} {i : Nat}

/-- At each step of the schedule the same is found for the inputs. -/
def Unchanging (s : Settings) (cp : ClassPath) (store : Store) (inputs : List String) (root : String)
    (schedule : List Nat) : Prop :=
  ∀ front i back, schedule = front ++ i :: back → ∀ name ∈ inputs,
    cp.bytes? (crewAfter s cp store inputs root front).state.store name = cp.bytes? store name

/-- Whenever the class of the input at position `i` is held, no other worker holds that class. -/
def Undisturbed (s : Settings) (cp : ClassPath) (store : Store) (inputs : List String) (root : String)
    (schedule : List Nat) (i : Nat) : Prop :=
  ∀ front back, schedule = front ++ back → (crewAfter s cp store inputs root front).Alone i

theorem Unchanging.of_append (h : Unchanging s cp store inputs root (front ++ back)) :
    Unchanging s cp store inputs root front := by
  intro front' i back' heq
  exact h front' i (back' ++ back) (by rw [heq, List.append_assoc, List.cons_append])

theorem Undisturbed.of_append (h : Undisturbed s cp store inputs root (front ++ back) i) :
    Undisturbed s cp store inputs root front i := by
  intro front' back' heq
  exact h front' (back' ++ back) (by rw [heq, List.append_assoc])

/-- What is in archives does not change. -/
theorem unchanging_of_archives
    (h : ∀ source ∈ cp.sources, ∃ path content, source = .archive path content) :
    Unchanging s cp store inputs root schedule :=
  fun _ _ _ _ _ _ => ClassPath.bytes?_of_archives h _ _ _

theorem Unchanging.find_eq (h : Unchanging s cp store inputs root (front ++ [i])) {job : Job}
    (hjob : (crewAfter s cp store inputs root front).jobs[i]? = some job) :
    cp.bytes? (crewAfter s cp store inputs root front).state.store job.name =
      cp.bytes? store job.key := by
  rw [h front i [] rfl _ (name_mem_inputs hjob), Job.key, cp.bytes?_internal]

theorem sound_crewAfter (h : Unchanging s cp store inputs root schedule) :
    (crewAfter s cp store inputs root schedule).Sound (cp.bytes? store) := by
  induction schedule using List.reverseRecOn with
  | nil => exact Crew.sound_start (faithful_target s cp store) inputs
  | append_singleton front i ih =>
      rw [crewAfter_concat]
      exact (ih h.of_append).advance fun _ => h.find_eq

theorem clean_crewAfter (h : Unchanging s cp store inputs root schedule)
    (halone : Undisturbed s cp store inputs root schedule i) :
    (crewAfter s cp store inputs root schedule).Clean (cp.bytes? store) i := by
  induction schedule using List.reverseRecOn with
  | nil =>
      intro job o hjob hstage
      obtain ⟨name, -, rfl⟩ := List.mem_map.mp (List.mem_of_getElem? hjob)
      cases hstage
  | append_singleton front j ih =>
      have hafter := halone (front ++ [j]) [] (List.append_nil _).symm
      rw [crewAfter_concat] at hafter ⊢
      exact (ih h.of_append halone.of_append).advance (sound_crewAfter h.of_append)
        (fun _ => h.find_eq) (halone front [j] rfl) hafter

/-! ### The turn of an input -/

/-- At its turn the class of an input is written, if it is found. -/
theorem TurnOf.processed {o : LoadOutcome}
    (h : TurnOf s cp store inputs root schedule i name o front back)
    (hfixed : Unchanging s cp store inputs root schedule) :
    (cp.bytes? store name = none ∧
        (crewAfter s cp store inputs root front).state.processLoaded s cp (s.target cp store) root name o =
          ((crewAfter s cp store inputs root front).state, .error (.classNotFound name))) ∨
      ∃ found p, cp.bytes? store name = some found ∧
        RunState.ProcessedAs (crewAfter s cp store inputs root front).state
          (crewAfter s cp store inputs root (front ++ [i])).state (s.target cp store) s.maxFixedArity
          root name o found ((crewAfter s cp store inputs root front).state.processLoaded s cp
            (s.target cp store) root name o).2 p ∧
        (Undisturbed s cp store inputs root schedule i →
          p = (s.target cp store).produce s.maxFixedArity name found) := by
  have hstate := h.state_eq
  obtain ⟨rfl, hloaded⟩ := h
  have hfront := hfixed.of_append
  have hstems : (crewAfter s cp store inputs root front).state.loader.Stems (cp.bytes? store name) o := by
    rw [← cp.bytes?_internal]
    exact (sound_crewAfter hfront).stems i _ o hloaded rfl
  have hfind : cp.bytes? (crewAfter s cp store inputs root front).state.store name =
      cp.bytes? store name :=
    hfixed front i back rfl name (name_mem_inputs hloaded)
  rw [hstate]
  rcases RunState.processLoaded_cases hstems hfind s (s.target cp store) root with
    hnone | ⟨found, p, hfound, hp⟩
  · exact Or.inl hnone
  · refine Or.inr ⟨found, p, hfound, hp, fun halone => hp.produced ?_⟩
    rw [← hfound, ← cp.bytes?_internal]
    exact clean_crewAfter hfront halone.of_append _ o hloaded rfl

/-- Every failure so far concerns the class of a single input. -/
def Crew.NoneFatal (c : Crew) : Prop :=
  ∀ i name e, c.outcome? i = some (name, .error e) → e.isLocal = true

theorem noneFatal_of_append
    (h : (crewAfter s cp store inputs root (front ++ back)).NoneFatal) :
    (crewAfter s cp store inputs root front).NoneFatal :=
  fun i name e hsettled => h i name e (outcome?_crewAfter_append back hsettled)

/-- What processing comes to is what becomes of the input. -/
theorem TurnOf.settled {o : LoadOutcome}
    (h : TurnOf s cp store inputs root schedule i name o front back) :
    (crewAfter s cp store inputs root schedule).outcome? i = some (name,
      ((crewAfter s cp store inputs root front).state.processLoaded s cp (s.target cp store) root name
        o).2) := by
  obtain ⟨rfl, hloaded⟩ := h
  have hlt := (List.getElem?_eq_some_iff.mp hloaded).1
  rw [← List.singleton_append, ← List.append_assoc]
  apply outcome?_crewAfter_append
  rw [crewAfter_concat, Crew.advance_of_loaded hloaded]
  exact Crew.outcome?_eq_some_iff.mpr ⟨_, List.getElem?_set_self hlt, rfl⟩

/-- What is written for a class that is found, and reported of it, at its turn in a run that no failure
ends. -/
structure WrittenAs (s : Settings) (cp : ClassPath) (store : Store) (inputs : List String)
    (root : String) (schedule : List Nat) (i : Nat) (name : String) (front : List Nat)
    (found : List UInt8) (p : Product) : Prop where
  settled : (crewAfter s cp store inputs root schedule).outcome? i =
    some (name, .ok (p.emitted root name))
  path_eq : Path.ofClass root p.name = (s.target cp store).outputPath s.maxFixedArity root name found
  givenUp : p.passedThrough = true → p.substitutions = [] ∧ p.bytes = found
  produced : Undisturbed s cp store inputs root schedule i →
    p = (s.target cp store).produce s.maxFixedArity name found
  write : (crewAfter s cp store inputs root front).state.store.write (Path.ofClass root p.name)
    p.bytes = ((crewAfter s cp store inputs root (front ++ [i])).state.store, .ok ())

/-- At its turn the class of an input is written if it is found, and nothing is written otherwise. -/
theorem TurnOf.written {o : LoadOutcome}
    (h : TurnOf s cp store inputs root schedule i name o front back)
    (hfixed : Unchanging s cp store inputs root schedule)
    (hlocal : (crewAfter s cp store inputs root schedule).NoneFatal) :
    (cp.bytes? store name = none ∧
        (crewAfter s cp store inputs root schedule).outcome? i =
          some (name, .error (.classNotFound name)) ∧
        (crewAfter s cp store inputs root (front ++ [i])).state =
          (crewAfter s cp store inputs root front).state) ∨
      ∃ found p, cp.bytes? store name = some found ∧
        WrittenAs s cp store inputs root schedule i name front found p := by
  have hsettled := h.settled
  rcases h.processed hfixed with ⟨hnone, heq⟩ | ⟨found, p, hfound, hp, hproduced⟩
  · rw [heq] at hsettled
    refine Or.inl ⟨hnone, hsettled, ?_⟩
    rw [h.state_eq, heq]
  · have hemitted := hp.emitted
    have hsingle : ∀ e, (p.emit (crewAfter s cp store inputs root front).state.store root name).2 =
        .error e → e.isLocal = true :=
      fun e he => hlocal i name e (hsettled.trans (by rw [← he, ← hemitted]))
    obtain ⟨s', hwrite, hemit⟩ := Target.emit_of_isLocal hsingle
    rw [hemit, Prod.mk.injEq] at hemitted
    rw [hemitted.2] at hsettled
    rw [← hemitted.1] at hwrite
    exact Or.inr ⟨found, p, hfound, hsettled, congrArg (Path.ofClass root) hp.name_eq, hp.givenUp,
      hproduced, hwrite⟩

/-! ### From one turn to the next -/

theorem store_crewAfter_nil : (crewAfter s cp store inputs root []).state.store = store :=
  (RunState.target_eq ⟨store, .empty, #[]⟩ s cp).1

/-- A step changes no file, unless it is the turn of an input. -/
theorem store_crewAfter_concat (s : Settings) (cp : ClassPath) (store : Store) (inputs : List String)
    (root : String) (front : List Nat) (i : Nat) :
    (crewAfter s cp store inputs root (front ++ [i])).state.store =
        (crewAfter s cp store inputs root front).state.store ∨
      ∃ name o, TurnOf s cp store inputs root (front ++ [i]) i name o front [] := by
  rw [crewAfter_concat]
  have hstep := (crewAfter s cp store inputs root front).advanced_advance s cp (s.target cp store)
    root i
  generalize (crewAfter s cp store inputs root front).advance s cp (s.target cp store) root i = c
    at hstep ⊢
  cases hstep with
  | idle | loaded | released => exact Or.inl rfl
  | processed hjob => exact Or.inr ⟨_, _, rfl, hjob⟩

/-- When it is settled what becomes of all inputs, nothing more is written. -/
theorem store_crewAfter_of_settled
    (h : ∀ i < inputs.length, ((crewAfter s cp store inputs root front).outcome? i).isSome = true)
    (back : List Nat) : (crewAfter s cp store inputs root (front ++ back)).state.store =
      (crewAfter s cp store inputs root front).state.store := by
  induction back using List.reverseRecOn with
  | nil => rw [List.append_nil]
  | append_singleton back j ih =>
      rw [← List.append_assoc]
      rcases store_crewAfter_concat s cp store inputs root (front ++ back) j with
        heq | ⟨name, o, hturn⟩
      · rw [heq, ih]
      · have hlt := (List.getElem?_eq_some_iff.mp hturn.loaded).1
        rw [← List.length_map (f := Job.name), names_crewAfter] at hlt
        have hsettled := h j hlt
        rw [hturn.unsettled] at hsettled
        cases hsettled

/-- The places of the classes that are written between two moments of a schedule. -/
def WrittenBetween (s : Settings) (cp : ClassPath) (store : Store) (inputs : List String)
    (root : String) (front back : List Nat) (place : Place) : Prop :=
  ∃ j name e, (crewAfter s cp store inputs root front).outcome? j = none ∧
    (crewAfter s cp store inputs root (front ++ back)).outcome? j = some (name, .ok e) ∧
    place = store.placeOf e.path

/-- No other file changes. -/
theorem keeps_crewAfter (hfixed : Unchanging s cp store inputs root (front ++ back))
    (hlocal : (crewAfter s cp store inputs root (front ++ back)).NoneFatal)
    (hplaces : ∀ path, (crewAfter s cp store inputs root front).state.store.placeOf path =
      store.placeOf path) :
    (crewAfter s cp store inputs root front).state.store.Keeps
      (WrittenBetween s cp store inputs root front back)
      (crewAfter s cp store inputs root (front ++ back)).state.store := by
  induction back using List.reverseRecOn with
  | nil =>
      rw [List.append_nil]
      exact .refl _ _
  | append_singleton back j ih =>
      rw [← List.append_assoc] at hfixed hlocal ⊢
      have hkeeps := (ih hfixed.of_append (noneFatal_of_append hlocal))
      have hbefore : ∀ place, WrittenBetween s cp store inputs root front back place →
          WrittenBetween s cp store inputs root front (back ++ [j]) place := by
        rintro place ⟨k, name, e, hnone, hsettled, hplace⟩
        refine ⟨k, name, e, hnone, ?_, hplace⟩
        rw [← List.append_assoc]
        exact outcome?_crewAfter_append [j] hsettled
      rcases store_crewAfter_concat s cp store inputs root (front ++ back) j with
        heq | ⟨name, o, hturn⟩
      · rw [heq]
        exact hkeeps.mono hbefore
      rcases hturn.written hfixed hlocal with ⟨-, -, heq⟩ | ⟨found, p, -, hp⟩
      · rw [heq]
        exact hkeeps.mono hbefore
      · refine (hkeeps.mono hbefore).trans ((Store.write_eq_ok hp.write).1.mono fun place hplace =>
          ⟨j, name, p.emitted root name, hturn.unsettled, ?_, ?_⟩)
        · rw [← List.append_assoc]
          exact hp.settled
        · exact hplace.trans ((hkeeps.placeOf_eq _).trans (hplaces _))

theorem placeOf_crewAfter (hfixed : Unchanging s cp store inputs root schedule)
    (hlocal : (crewAfter s cp store inputs root schedule).NoneFatal) (path : String) :
    (crewAfter s cp store inputs root schedule).state.store.placeOf path = store.placeOf path := by
  have hkeeps := @keeps_crewAfter s cp store inputs root [] schedule hfixed hlocal fun path => by
    rw [store_crewAfter_nil]
  rw [List.nil_append, store_crewAfter_nil] at hkeeps
  exact hkeeps.placeOf_eq path

/-- What was written stays, unless a class that is processed later is written at the same place. -/
theorem WrittenAs.read {p : Product} {found : List UInt8}
    (h : WrittenAs s cp store inputs root schedule i name front found p)
    (hschedule : schedule = front ++ i :: back)
    (hfixed : Unchanging s cp store inputs root schedule)
    (hlocal : (crewAfter s cp store inputs root schedule).NoneFatal) :
    (crewAfter s cp store inputs root (front ++ [i])).state.store.read (p.emitted root name).path =
        .ok p.bytes ∧
      (¬WrittenBetween s cp store inputs root (front ++ [i]) back
          (store.placeOf (p.emitted root name).path) →
        (crewAfter s cp store inputs root schedule).state.store.read (p.emitted root name).path =
          .ok p.bytes) := by
  have hread := (Store.write_eq_ok h.write).2
  refine ⟨hread, fun hkept => ?_⟩
  subst hschedule
  rw [← List.singleton_append, ← List.append_assoc] at hfixed hlocal ⊢
  have hplaces := placeOf_crewAfter hfixed.of_append (noneFatal_of_append hlocal)
  refine (keeps_crewAfter hfixed hlocal hplaces).read hread ?_
  rw [hplaces]
  exact hkept

/-- A class has been written at the path. -/
def Crew.Wrote (c : Crew) (path : String) : Prop :=
  ∃ i name e, c.outcome? i = some (name, .ok e) ∧ e.path = path

theorem not_wrote_nil (path : String) : ¬(crewAfter s cp store inputs root []).Wrote path := by
  rintro ⟨j, name, e, hsettled, -⟩
  rw [outcome?_crewAfter_nil] at hsettled
  cases hsettled

/-- A step adds the path of its input, if that is written. -/
theorem wrote_crewAfter_concat {path : String} {j : Nat} :
    (crewAfter s cp store inputs root (front ++ [j])).Wrote path ↔
      (crewAfter s cp store inputs root front).Wrote path ∨
        ∃ name o e, TurnOf s cp store inputs root (front ++ [j]) j name o front [] ∧
          (crewAfter s cp store inputs root (front ++ [j])).outcome? j = some (name, .ok e) ∧
          e.path = path := by
  constructor
  · rintro ⟨i, name, e, hsettled, hpath⟩
    rcases outcome?_crewAfter_concat hsettled with hearlier | ⟨rfl, o, hturn, -⟩
    · exact Or.inl ⟨i, name, e, hearlier, hpath⟩
    · exact Or.inr ⟨name, o, e, hturn, hsettled, hpath⟩
  · rintro (⟨i, name, e, hsettled, hpath⟩ | ⟨name, o, e, -, hsettled, hpath⟩)
    · exact ⟨i, name, e, outcome?_crewAfter_append [j] hsettled, hpath⟩
    · exact ⟨j, name, e, hsettled, hpath⟩

/-- The files that have been written, in the order of their turns. -/
theorem exists_files (hfixed : Unchanging s cp store inputs root schedule)
    (hlocal : (crewAfter s cp store inputs root schedule).NoneFatal) :
    ∃ files, store.writeAll files = some (crewAfter s cp store inputs root schedule).state.store ∧
      ∀ path, path ∈ files.map Prod.fst ↔ (crewAfter s cp store inputs root schedule).Wrote path := by
  induction schedule using List.reverseRecOn with
  | nil =>
      refine ⟨[], ?_, fun path => iff_of_false List.not_mem_nil (not_wrote_nil path)⟩
      rw [store_crewAfter_nil]
      rfl
  | append_singleton front j ih =>
      obtain ⟨files, hfiles, hpaths⟩ := ih hfixed.of_append (noneFatal_of_append hlocal)
      by_cases hturn : ∃ name o, TurnOf s cp store inputs root (front ++ [j]) j name o front []
      swap
      · refine ⟨files, ?_, fun path => ?_⟩
        · rw [(store_crewAfter_concat s cp store inputs root front j).resolve_right hturn, hfiles]
        · rw [hpaths, wrote_crewAfter_concat, or_iff_left]
          rintro ⟨name, o, e, hself, -⟩
          exact hturn ⟨name, o, hself⟩
      obtain ⟨name, o, hturn⟩ := hturn
      rcases hturn.written hfixed hlocal with ⟨-, hsettled, heq⟩ | ⟨found, p, -, hp⟩
      · refine ⟨files, by rw [heq, hfiles], fun path => ?_⟩
        rw [hpaths, wrote_crewAfter_concat, or_iff_left]
        rintro ⟨name', o', e, -, hwritten, -⟩
        rw [hsettled] at hwritten
        cases hwritten
      · refine ⟨files ++ [(Path.ofClass root p.name, p.bytes)],
          Store.writeAll_concat.mpr ⟨_, hfiles, hp.write⟩, fun path => ?_⟩
        rw [List.map_append, List.mem_append, hpaths, wrote_crewAfter_concat, List.map_singleton,
          List.mem_singleton]
        refine or_congr_right ⟨?_, ?_⟩
        · rintro rfl
          exact ⟨name, o, _, hturn, hp.settled, rfl⟩
        · rintro ⟨name', o', e, -, hwritten, rfl⟩
          rw [hp.settled] at hwritten
          cases hwritten
          rfl

end

end Retrofit
