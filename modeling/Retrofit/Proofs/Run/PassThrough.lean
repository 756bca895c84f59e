import Retrofit.Proofs.Run.Completeness
import Retrofit.Proofs.Unit.AnyOrder
import Retrofit.Proofs.Workers.Runs

/-!
# What passes through a run

Where no call of a class was replaced, the bytes are written that were found for the class, however far
the run had come with it: no call was found, none could be replaced, replacing failed after some were,
the changed class cannot be laid out, or the class cannot be decoded. As long as no call has been
replaced the class is not marked as changed, and a class that is given up on is put back into the state
that it was loaded in.

A class that is given up on is written as it was found whatever other workers do. But a worker that
finds no call may find none because another worker, which holds the same class, has replaced them all.
It reports that no call was replaced, and writes what the other one has made of the class.
-/

namespace Retrofit

/-! ### Nothing replaced -/

namespace ClassUnit

/-- Each replaced call is recorded, and as long as there is no new record nothing has changed. -/
theorem substituteSites_records {maxFixedArity : Nat} {u : ClassUnit} {done records : List Substitution}
    {told : List Event} {todo : List CallSite}
    (h : (u.substituteSites maxFixedArity done told todo).outcome = .ok records) :
    done.length ≤ records.length ∧ (records.length = done.length →
      (u.substituteSites maxFixedArity done told todo).unit = u) := by
  induction todo generalizing u done told with
  | nil =>
      cases h
      exact ⟨Nat.le_refl _, fun _ => rfl⟩
  | cons site todo ih =>
      rw [substituteSites] at h ⊢
      split at h
      · exact ih h
      · dsimp only at h ⊢
        split at h
        · cases h
        · obtain ⟨hle, -⟩ := ih h
          rw [List.length_cons] at hle
          exact ⟨Nat.le_of_succ_le hle, fun heq => by omega⟩

/-- A class of which no call was replaced has not changed. -/
theorem substitute_of_nil {u : ClassUnit} {t : Target} {maxFixedArity : Nat}
    (h : (u.substitute t maxFixedArity).outcome = .ok []) :
    (u.substitute t maxFixedArity).unit = u :=
  (substituteSites_records h).2 rfl

end ClassUnit

/-- A class that is given up on has no replaced calls, and where there are none the class is written
as it was found. -/
theorem Target.produce_passesThrough (t : Target) (maxFixedArity : Nat) (name : String)
    (found : List UInt8) :
    ((t.produce maxFixedArity name found).passedThrough = true →
        (t.produce maxFixedArity name found).substitutions = []) ∧
      ((t.produce maxFixedArity name found).substitutions = [] →
        (t.produce maxFixedArity name found).bytes = found) := by
  unfold produce
  cases hu : ClassUnit.ofBytes found with
  | error e => exact ⟨fun _ => rfl, fun _ => rfl⟩
  | ok u =>
      have hloads := ClassUnit.loads_of_ofBytes hu
      have hloaded : (u.substitute t maxFixedArity).unit.loaded = found :=
        (u.substitute_keeps t maxFixedArity).2.trans hloads.loaded_eq
      dsimp only
      unfold Attempt.product
      split
      · rename_i records bytes houtcome hwritten
        refine ⟨nofun, fun hnil => ?_⟩
        obtain rfl : records = [] := hnil
        rw [ClassUnit.substitute_of_nil houtcome, ClassUnit.written_of_clean hloads.dirty_eq,
          Except.ok.injEq] at hwritten
        exact hwritten.symm.trans hloads.loaded_eq
      · exact ⟨fun _ => rfl, fun _ => hloaded⟩

/-! ### Nothing replaced in a run -/

section

variable {s : Settings} {cp : ClassPath} {store : Store} {root : String} {inputs : List String}
  {schedule : List Nat} {last : Store} {events : List Event} {report : Report}

/-- A class that is reported as passed through is reported without replaced calls, and it is written as
it was found. So is a class that is reported without replaced calls, if no other worker held it
meanwhile. -/
theorem runBy_passesThrough
    (hrun : runBy schedule s cp store inputs root = some ⟨last, events, .ok report⟩)
    (hfixed : Unchanging s cp store inputs root schedule) :
    report.emitted = (crewAfter s cp store inputs root schedule).outcomes.filterMap
        (fun o => o.2.toOption) ∧
      ∀ i name e, (crewAfter s cp store inputs root schedule).outcome? i = some (name, .ok e) →
        inputs[i]? = some name ∧ e.name = name ∧
        (e.passedThrough = true → e.substitutions = []) ∧
        (e.passedThrough = true ∨
            e.substitutions = [] ∧ Undisturbed s cp store inputs root schedule i →
          ∃ found, cp.bytes? store name = some found ∧
            WrittenAtTurn s cp store inputs root schedule i e.path found) := by
  have hcompletes := exists_runBy_iff.mp ⟨events, hrun⟩
  refine ⟨?_, fun i name e hsettled => ?_⟩
  · rw [hcompletes.report_eq]
    exact Report.emitted_join_outcomes _
  have hi := name_of_settled hsettled
  rcases settled_cases hcompletes.done hcompletes.noneFatal hfixed hi with
    ⟨-, hfailed⟩ | ⟨found, p, front, hfound, hp, hwritten⟩
  · rw [hfailed] at hsettled
    cases hsettled
  rw [hp.settled] at hsettled
  cases hsettled
  refine ⟨hi, rfl, fun hpassed => (hp.givenUp hpassed).1, fun h => ⟨found, hfound, ?_⟩⟩
  have hbytes : p.bytes = found := by
    rcases h with hpassed | ⟨hnil, halone⟩
    · exact (hp.givenUp hpassed).2
    · have hunchanged := ((s.target cp store).produce_passesThrough s.maxFixedArity name found).2
      rw [← hp.produced halone] at hunchanged
      exact hunchanged hnil
  rw [hbytes] at hwritten
  exact hwritten

end

section

open ClassUnit

/-- The call in the class without a free local slot is found, and replacing it fails. -/
theorem product_brim : (brimUnit.substitute callerTarget 10).product =
    ⟨"Brim", brim.bytes, [], true⟩ := by
  have hreplacement : brimSite.replacement 10 = .ok (Recipe.fixedArity.materialize 1) := by
    cbv
  have hkeeps := brimUnit.patch_keeps brimSite (Recipe.fixedArity.materialize 1)
  unfold ClassUnit.substitute
  dsimp only
  rw [sites_brimUnit, List.reverse_singleton, ClassUnit.substituteSites, hreplacement]
  dsimp only
  rcases hpatch : brimUnit.patch brimSite (Recipe.fixedArity.materialize 1)
    with ⟨v, outcome⟩
  rw [hpatch] at hkeeps
  cases outcome with
  | ok done => exact absurd hpatch (patch_brim v)
  | error e =>
      unfold Attempt.product
      dsimp only at hkeeps ⊢
      rw [hkeeps.1, hkeeps.2]
      rfl

theorem target_inbox (y : ClassFile) : Settings.target {} inboxPath (inbox y) = callerTarget := by
  have hname : ClassName.internal "java.util.List" = "java/util/List" := by cbv
  rw [Settings.target_eq, bytes?_list_inbox, Settings.targetOf, Option.map_none, Target.ofName, hname]
  rfl

/-- Workers that process the two classes come to a good end by any schedule. -/
theorem unchanging_inbox {y : ClassFile} {u : ClassUnit} {s : Settings} {inputs : List String}
    (hu : ofBytes y.bytes = .ok u) (hname : u.name ∈ outNames) (hinputs : inputs ⊆ ["X", "v9/X"])
    (schedule : List Nat) : Unchanging s inboxPath (inbox y) inputs "out" schedule :=
  unchanging_of_files (tree_inbox y) (kept_inbox hu hname hinputs) (files_inbox hu hname hinputs)

theorem exists_runBy_inbox {y : ClassFile} {u : ClassUnit} {s : Settings} {inputs : List String}
    (hu : ofBytes y.bytes = .ok u) (hname : u.name ∈ outNames) (hinputs : inputs ⊆ ["X", "v9/X"])
    (schedule : List Nat) (hlong : ∀ i < inputs.length, 3 ≤ schedule.count i) :
    ∃ last events report,
      runBy schedule s inboxPath (inbox y) inputs "out" = some ⟨last, events, .ok report⟩ := by
  have hfixed : Unchanging s inboxPath (inbox y) inputs "out" schedule :=
    unchanging_inbox hu hname hinputs schedule
  have hcompletes := completes_of_files (tree_inbox y) (Or.inr rfl) hlong hfixed
    (files_inbox hu hname hinputs)
  obtain ⟨events, hrun⟩ := exists_runBy_iff.mpr hcompletes
  exact ⟨_, events, _, hrun⟩

/-- Two workers take turns: the class of one of them has a call that cannot be replaced, and is written
as it was found. -/
theorem runBy_passesThrough_brim : ∃ last events report,
    runBy [0, 1, 0, 1, 0, 1] {} inboxPath (inbox brim) ["X", "v9/X"] "out" =
        some ⟨last, events, .ok report⟩ ∧
      ⟨"v9/X", "out/Brim.class", [], true⟩ ∈ report.emitted ∧
      WrittenAtTurn {} inboxPath (inbox brim) ["X", "v9/X"] "out" [0, 1, 0, 1, 0, 1] 1 "out/Brim.class"
        brim.bytes := by
  have hload : ofBytes brim.bytes = .ok brimUnit := by decide +kernel
  have hpath : Path.ofClass "out" "Brim" = "out/Brim.class" := by decide +kernel
  have hfixed := unchanging_inbox (s := {}) hload (by decide) (List.Subset.refl _) [0, 1, 0, 1, 0, 1]
  obtain ⟨last, events, report, hrun⟩ := exists_runBy_inbox (s := {}) hload (by decide)
    (List.Subset.refl ["X", "v9/X"]) [0, 1, 0, 1, 0, 1] (by decide)
  have hcompletes := exists_runBy_iff.mp ⟨events, hrun⟩
  obtain ⟨hemitted, hall⟩ := runBy_passesThrough hrun hfixed
  have hsettled := (settled_of_undisturbed hcompletes.done hcompletes.noneFatal hfixed (i := 1) rfl
    (undisturbed_of_nodup (by decide +kernel) _ _)).1
  rw [Settings.alone, (found_inbox brim).2, target_inbox, Target.outcome, Target.produce, hload] at hsettled
  dsimp only at hsettled
  rw [product_brim, Product.emitted, hpath] at hsettled
  obtain ⟨-, -, -, hwritten⟩ := hall 1 _ _ hsettled
  obtain ⟨found, hfound, hturn⟩ := hwritten (Or.inl rfl)
  rw [(found_inbox brim).2, Option.some_inj] at hfound
  subst hfound
  refine ⟨last, events, report, hrun, ?_, hturn⟩
  rw [hemitted]
  rw [← getElem?_outcomes hcompletes.done] at hsettled
  exact List.mem_filterMap.mpr ⟨_, List.mem_of_getElem? hsettled, rfl⟩

/-- When the calls of the class with two of them are replaced, its bytes change and none is left. -/
theorem written_pairTwice : ∃ bytes told, bytes ≠ pair.bytes ∧ pairTwice.written = .ok bytes ∧
    pairTwice.substitute callerTarget 10 = ⟨pairTwice, .ok [], told⟩ := by
  have hchanged : pairTwice.written.toOption.map (· == pair.bytes) = some false := by decide +kernel
  have hnothing : (pairTwice.substitute callerTarget 10).unit = pairTwice ∧
      (pairTwice.substitute callerTarget 10).outcome = .ok [] := by
    decide +kernel
  cases hwritten : pairTwice.written with
  | error e =>
      rw [hwritten] at hchanged
      cases hchanged
  | ok bytes =>
      rw [hwritten] at hchanged
      refine ⟨bytes, (pairTwice.substitute callerTarget 10).events, ?_, rfl, ?_⟩
      · exact ne_of_beq_false (Option.some_inj.mp hchanged)
      · generalize pairTwice.substitute callerTarget 10 = a at hnothing
        obtain ⟨v, outcome, events⟩ := a
        obtain ⟨rfl, rfl⟩ := hnothing
        rfl

/-- Two workers that hold the class with two calls: the second one finds none left, though both calls
would be replaced if it had the class for itself. -/
theorem runBy_pair : ∃ last events report records bytes,
    runBy [0, 1, 0, 1, 0, 1] {} inboxPath (inbox pair) ["v9/X", "v9/X"] "out" =
        some ⟨last, events, .ok report⟩ ∧
      ⟨"v9/X", "out/Pair.class", [], false⟩ ∈ report.emitted ∧
      last.read "out/Pair.class" = .ok bytes ∧ bytes ≠ pair.bytes ∧
      Settings.alone {} inboxPath (inbox pair) "out" "v9/X" =
        .ok ⟨"v9/X", "out/Pair.class", records, false⟩ ∧ records ≠ [] := by
  have hpath : Path.ofClass "out" "Pair" = "out/Pair.class" := by decide +kernel
  obtain ⟨records, hrecords, told, hfirst⟩ : ∃ records, records ≠ [] ∧ ∃ told,
      pairUnit.substitute callerTarget 10 = ⟨pairTwice, .ok records, told⟩ :=
    ⟨_, List.cons_ne_nil _ _, pairUnit_substitute⟩
  obtain ⟨bytes, told', hbytes, hwritten, hsecond⟩ := written_pairTwice
  have htwice : ["v9/X", "v9/X"] ⊆ ["X", "v9/X"] := by decide
  obtain ⟨last, events, report, hrun⟩ := exists_runBy_inbox (s := {}) ofBytes_pair (by decide) htwice
    [0, 1, 0, 1, 0, 1] (by decide)
  have h := exists_runBy_iff.mp ⟨events, hrun⟩
  have hlocal : (crewAfter {} inboxPath (inbox pair) ["v9/X", "v9/X"] "out" [0, 1, 0, 1]).NoneFatal :=
    noneFatal_of_append (show (crewAfter {} _ _ _ _ ([0, 1, 0, 1] ++ [0, 1])).NoneFatal from h.noneFatal)
  obtain ⟨hone, htwo, hread⟩ := settled_of_two rfl (found_inbox pair).2 ofBytes_pair
    (by rw [target_inbox, hfirst]) (by rw [target_inbox, hfirst, hwritten]) hlocal
    (by rw [target_inbox, hfirst, hsecond, Attempt.product_of_written rfl hwritten])
  have hsettled : ∀ i < ["v9/X", "v9/X"].length, ((crewAfter {} inboxPath (inbox pair)
      ["v9/X", "v9/X"] "out" [0, 1, 0, 1]).outcome? i).isSome = true := by
    intro i hi
    change i < 2 at hi
    rcases i with _ | _ | i
    · rw [hone]
      rfl
    · rw [htwo]
      rfl
    · omega
  have hend := store_crewAfter_of_settled hsettled [0, 1]
  have hsecond := (getElem?_outcomes h.done 1).trans (outcome?_crewAfter_append [0, 1] htwo)
  rw [← hpath]
  refine ⟨last, events, report, records, bytes, hrun, ?_, ?_, hbytes, ?_, hrecords⟩
  · rw [h.report_eq, Report.emitted_join_outcomes]
    exact List.mem_filterMap.mpr ⟨_, List.mem_of_getElem? hsecond, rfl⟩
  · rw [h.last_eq]
    exact (congrArg (Store.read · _) hend).trans hread
  · rw [Settings.alone, (found_inbox pair).2, target_inbox, Target.outcome, Target.produce, ofBytes_pair]
    dsimp only
    rw [hfirst, Attempt.product_of_written rfl hwritten]
    rfl

/-- Two workers hold the same class. The first one replaces its calls, the second one finds none and
reports that no call was replaced, but what it has written is not what was found. -/
theorem runBy_not_passesThrough : ∃ last events report e,
    runBy [0, 1, 0, 1, 0, 1] {} inboxPath (inbox pair) ["v9/X", "v9/X"] "out" =
        some ⟨last, events, .ok report⟩ ∧
      Unchanging {} inboxPath (inbox pair) ["v9/X", "v9/X"] "out" [0, 1, 0, 1, 0, 1] ∧
      e ∈ report.emitted ∧ e.name = "v9/X" ∧ e.substitutions = [] ∧
      inboxPath.bytes? (inbox pair) "v9/X" = some pair.bytes ∧
      last.read e.path ≠ .ok pair.bytes := by
  obtain ⟨last, events, report, records, bytes, hrun, hreported, hread, hbytes, -⟩ := runBy_pair
  refine ⟨last, events, report, _, hrun, unchanging_inbox ofBytes_pair (by decide) (by decide) _,
    hreported, rfl, rfl, (found_inbox pair).2, ?_⟩
  rw [hread]
  exact fun h => hbytes (Except.ok.inj h)

end

end Retrofit
