import Retrofit.Proofs.Run.PassThrough

/-!
# Classes on their own

The classes of a run do not influence each other as long as no two workers hold the same class. What
becomes of such an input is what a run over this input alone makes of it, by whatever schedule. It depends
on the settings, on what is found for the input and for the target class, and on nothing else: not on the
other inputs, on what becomes of them, or on the order in which they come. A single worker never holds two
classes at a time.

Workers that hold the same class find what the others have made of it. Then an input still fails or is
written at the same path as alone, but other calls may be reported, and other bytes written.
-/

namespace Retrofit

/-! ### One input -/

section

variable {s : Settings} {cp : ClassPath} {store : Store} {inputs : List String} {root name : String}
  {schedule : List Nat} {last : Store} {report : Report} {i : Nat}

/-- A class is written alone if it is found, and what is written for it is produced from what is
found. -/
theorem Settings.alone_eq_ok {e : Emitted} : s.alone cp store root name = .ok e ↔
    ∃ found, cp.bytes? store name = some found ∧
      e = ((s.target cp store).produce s.maxFixedArity name found).emitted root name := by
  unfold Settings.alone Target.outcome
  cases cp.bytes? store name with
  | none => simp
  | some found => simp [eq_comm]

/-- What becomes of a class alone depends on what is found for it and for the target class. -/
theorem Settings.alone_congr {cp' : ClassPath} {store' : Store}
    (htarget : cp'.bytes? store' s.targetClass = cp.bytes? store s.targetClass)
    (hname : cp'.bytes? store' name = cp.bytes? store name) :
    s.alone cp' store' root name = s.alone cp store root name := by
  rw [Settings.alone, Settings.alone, s.target_eq, s.target_eq, htarget, hname]

/-- Whatever other workers do, an input fails as it does alone, or is written at the same path. -/
theorem Completes.same_path (h : Completes schedule s cp store inputs root last report)
    (hfixed : Unchanging s cp store inputs root schedule) (hi : inputs[i]? = some name) :
    (∃ f, s.alone cp store root name = .error f ∧
        (crewAfter s cp store inputs root schedule).outcome? i = some (name, .error f)) ∨
      ∃ e e', s.alone cp store root name = .ok e ∧
        (crewAfter s cp store inputs root schedule).outcome? i = some (name, .ok e') ∧
        e'.name = e.name ∧ e'.path = e.path := by
  unfold Settings.alone Target.outcome
  rcases settled_cases h.done h.noneFatal hfixed hi with ⟨hnone, hsettled⟩ | ⟨found, p, front, hfound, hp, -⟩
  · rw [hnone]
    exact Or.inl ⟨_, rfl, hsettled⟩
  · rw [hfound]
    exact Or.inr ⟨_, _, rfl, hp.settled, rfl, hp.path_eq⟩

/-- A run over one of the inputs comes to a good end too, and reports what becomes of it alone. -/
theorem Completes.run_singleton (h : Completes schedule s cp store inputs root last report)
    (htree : store.Tree) (hfixed : Unchanging s cp store inputs root schedule) (hname : name ∈ inputs) :
    (run s cp store [name] root).outcome = .ok (.single name (s.alone cp store root name)) ∧
      ∀ found, cp.bytes? store name = some found →
        (run s cp store [name] root).store.read
          ((s.target cp store).outputPath s.maxFixedArity root name found) =
            .ok ((s.target cp store).produce s.maxFixedArity name found).bytes := by
  have hcp : cp.isEmpty = false := h.classPath.resolve_left (List.ne_nil_of_mem hname)
  have hfiles : ∃ s', store.writeAll ((s.target cp store).files s.maxFixedArity (cp.bytes? store) root
      [name]) = some s' :=
    Store.exists_writeAll_of_subset htree (List.map_subset _ (List.filterMap_subset _
      (List.cons_subset.mpr ⟨hname, List.nil_subset _⟩))) (h.exists_files htree hfixed)
  have hrun := run_of_files hcp steady_singleton hfiles
  refine ⟨?_, fun found hfound => run_turn hrun steady_singleton (List.nil_append [name]).symm hfound⟩
  simpa [Report.join, Settings.alone] using hrun

/-- If no input is disturbed, the run reports of each of them what becomes of it alone. -/
theorem Completes.report_of_undisturbed (h : Completes schedule s cp store inputs root last report)
    (hfixed : Unchanging s cp store inputs root schedule)
    (halone : ∀ i, Undisturbed s cp store inputs root schedule i) :
    report = .join (inputs.map fun name => .single name (s.alone cp store root name)) := by
  have houtcomes : (crewAfter s cp store inputs root schedule).outcomes =
      inputs.map fun name => (name, s.alone cp store root name) := by
    refine List.ext_getElem? fun i => ?_
    rw [getElem?_outcomes h.done, List.getElem?_map]
    cases hi : inputs[i]? with
    | some name => exact (settled_of_undisturbed h.done h.noneFatal hfixed hi (halone i)).1
    | none =>
        cases hsettled : (crewAfter s cp store inputs root schedule).outcome? i with
        | none => rfl
        | some settled =>
            rw [name_of_settled hsettled] at hi
            cases hi
  rw [h.report_eq, houtcomes, List.map_map]
  rfl

end

/-! ### All inputs -/

/-- Each input that no other worker disturbs becomes what `alone` says, in this run and in others. -/
structure Independent (schedule : List Nat) (s : Settings) (cp : ClassPath) (store : Store)
    (inputs : List String) (root : String) (report : Report)
    (alone : String → Except Failure Emitted) : Prop where
  /-- The report says of each input once what became of it, in the order of the inputs. -/
  joined : report = .join ((crewAfter s cp store inputs root schedule).outcomes.map fun o =>
      .single o.1 o.2) ∧
    (crewAfter s cp store inputs root schedule).outcomes.map Prod.fst = inputs
  /-- Whatever other workers do, an input fails as it does alone, or is written at the same path. -/
  path : ∀ i name, inputs[i]? = some name →
    (∃ f, alone name = .error f ∧
        (crewAfter s cp store inputs root schedule).outcome? i = some (name, .error f)) ∨
      ∃ e e', alone name = .ok e ∧
        (crewAfter s cp store inputs root schedule).outcome? i = some (name, .ok e') ∧
        e'.name = e.name ∧ e'.path = e.path
  /-- An input that is not disturbed becomes what a run over it alone makes of it, with the same
  bytes. -/
  single : ∀ i name, inputs[i]? = some name → Undisturbed s cp store inputs root schedule i →
    (crewAfter s cp store inputs root schedule).outcome? i = some (name, alone name) ∧
      (run s cp store [name] root).outcome = .ok (.single name (alone name)) ∧
      ∀ e, alone name = .ok e → ∃ bytes, (run s cp store [name] root).store.read e.path = .ok bytes ∧
        WrittenAtTurn s cp store inputs root schedule i e.path bytes
  /-- Some of the inputs, in any order and any number of times, come to a good end by any schedule that
  disturbs none of them, and each becomes the same. -/
  subset : ∀ inputs' ⊆ inputs, ∀ schedule', (∀ i < inputs'.length, 3 ≤ schedule'.count i) →
    Unchanging s cp store inputs' root schedule' →
    (∀ i, Undisturbed s cp store inputs' root schedule' i) →
      ∃ last events, runBy schedule' s cp store inputs' root = some ⟨last, events,
        .ok (.join (inputs'.map fun name => .single name (alone name)))⟩
  /-- Inputs in another order only change the order of the report. -/
  perm : (∀ i, Undisturbed s cp store inputs root schedule i) → ∀ inputs', inputs'.Perm inputs →
    ∀ schedule', (∀ i < inputs'.length, 3 ≤ schedule'.count i) →
    Unchanging s cp store inputs' root schedule' →
    (∀ i, Undisturbed s cp store inputs' root schedule' i) →
      ∃ last events report', runBy schedule' s cp store inputs' root = some ⟨last, events, .ok report'⟩ ∧
        report'.emitted.Perm report.emitted ∧ report'.failures.Perm report.failures
  /-- Nothing changes for an input as long as the same is found for it and for the target class, whatever
  is found for all others, however many of them there are, and whatever becomes of them. -/
  kept : ∀ schedule' cp' store' inputs' last' events' report',
    runBy schedule' s cp' store' inputs' root = some ⟨last', events', .ok report'⟩ →
    Unchanging s cp' store' inputs' root schedule' →
    cp'.bytes? store' s.targetClass = cp.bytes? store s.targetClass →
    ∀ i i' name, inputs[i]? = some name → inputs'[i']? = some name →
      cp'.bytes? store' name = cp.bytes? store name →
      Undisturbed s cp store inputs root schedule i → Undisturbed s cp' store' inputs' root schedule' i' →
        (crewAfter s cp' store' inputs' root schedule').outcome? i' =
            (crewAfter s cp store inputs root schedule).outcome? i ∧
          ∀ e, alone name = .ok e → ∃ bytes,
            WrittenAtTurn s cp store inputs root schedule i e.path bytes ∧
            WrittenAtTurn s cp' store' inputs' root schedule' i' e.path bytes

section

variable {s : Settings} {cp : ClassPath} {store : Store} {inputs : List String} {root : String}
  {schedule : List Nat} {last : Store} {events : List Event} {report : Report}

/-- Inputs that no other worker disturbs do not influence each other. -/
theorem runBy_independent (htree : store.Tree)
    (hrun : runBy schedule s cp store inputs root = some ⟨last, events, .ok report⟩)
    (hfixed : Unchanging s cp store inputs root schedule) :
    ∃ alone, Independent schedule s cp store inputs root report alone := by
  have h := exists_runBy_iff.mp ⟨events, hrun⟩
  have hsubset : ∀ inputs' ⊆ inputs, ∀ schedule', (∀ i < inputs'.length, 3 ≤ schedule'.count i) →
      Unchanging s cp store inputs' root schedule' →
      (∀ i, Undisturbed s cp store inputs' root schedule' i) →
        ∃ last events, runBy schedule' s cp store inputs' root = some ⟨last, events,
          .ok (.join (inputs'.map fun name => .single name (s.alone cp store root name)))⟩ := by
    intro inputs' hsubset schedule' hlong hfixed' halone'
    have h' := h.of_subset htree hfixed hsubset hlong hfixed'
    obtain ⟨events', hrun'⟩ := exists_runBy_iff.mpr h'
    rw [h'.report_of_undisturbed hfixed' halone'] at hrun'
    exact ⟨_, events', hrun'⟩
  refine ⟨s.alone cp store root, ⟨h.report_eq, names_outcomes h.done⟩,
    fun i name hi => h.same_path hfixed hi, ?_, hsubset, ?_, ?_⟩
  · intro i name hi halone
    obtain ⟨hsettled, hwritten⟩ := settled_of_undisturbed h.done h.noneFatal hfixed hi halone
    obtain ⟨hreported, hread⟩ := h.run_singleton htree hfixed (List.mem_of_getElem? hi)
    refine ⟨hsettled, hreported, fun e he => ?_⟩
    obtain ⟨found, hfound, rfl⟩ := Settings.alone_eq_ok.mp he
    exact ⟨_, hread found hfound, hwritten found hfound⟩
  · intro halone inputs' hperm schedule' hlong hfixed' halone'
    obtain ⟨last', events', hrun'⟩ := hsubset inputs' hperm.subset schedule' hlong hfixed' halone'
    refine ⟨last', events', _, hrun', ?_⟩
    rw [h.report_of_undisturbed hfixed halone]
    exact Report.perm_join (hperm.map _)
  · intro schedule' cp' store' inputs' last' events' report' hrun' hfixed' htarget i i' name hi hi' hname
      halone halone'
    have h' := exists_runBy_iff.mp ⟨events', hrun'⟩
    obtain ⟨hsettled, hwritten⟩ := settled_of_undisturbed h.done h.noneFatal hfixed hi halone
    obtain ⟨hsettled', hwritten'⟩ := settled_of_undisturbed h'.done h'.noneFatal hfixed' hi' halone'
    rw [s.alone_congr htarget hname] at hsettled'
    rw [hname, s.target_eq, htarget, ← s.target_eq] at hwritten'
    refine ⟨hsettled'.trans hsettled.symm, fun e he => ?_⟩
    obtain ⟨found, hfound, rfl⟩ := Settings.alone_eq_ok.mp he
    exact ⟨_, hwritten found hfound, hwritten' found hfound⟩

end

/-- By whatever schedule, the second class becomes what it becomes alone, and with another class in its
place the first one becomes what it was. -/
theorem runBy_independent_inbox : ∃ last events report last' events' report',
    runBy [0, 1, 0, 1, 0, 1] {} inboxPath (inbox (marker "v9/X")) ["X", "v9/X"] "out" =
        some ⟨last, events, .ok report⟩ ∧
      runBy [1, 0, 0, 1, 1, 0] {} inboxPath (inbox impostor) ["X", "v9/X"] "out" =
        some ⟨last', events', .ok report'⟩ ∧
      (∃ r, (crewAfter {} inboxPath (inbox (marker "v9/X")) ["X", "v9/X"] "out"
            [0, 1, 0, 1, 0, 1]).outcome? 1 = some ("v9/X", r) ∧
          (run {} inboxPath (inbox (marker "v9/X")) ["v9/X"] "out").outcome = .ok (.single "v9/X" r)) ∧
      (crewAfter {} inboxPath (inbox impostor) ["X", "v9/X"] "out" [1, 0, 0, 1, 1, 0]).outcome? 0 =
        (crewAfter {} inboxPath (inbox (marker "v9/X")) ["X", "v9/X"] "out"
          [0, 1, 0, 1, 0, 1]).outcome? 0 := by
  have hfixed := unchanging_inbox (s := {}) ofBytes_nested (by decide) (List.Subset.refl _)
    [0, 1, 0, 1, 0, 1]
  have hfixed' := unchanging_inbox (s := {}) ofBytes_impostor (by decide) (List.Subset.refl _)
    [1, 0, 0, 1, 1, 0]
  obtain ⟨last, events, report, hrun⟩ := exists_runBy_inbox (s := {}) ofBytes_nested (by decide)
    (List.Subset.refl ["X", "v9/X"]) [0, 1, 0, 1, 0, 1] (by decide)
  obtain ⟨last', events', report', hrun'⟩ := exists_runBy_inbox (s := {}) ofBytes_impostor (by decide)
    (List.Subset.refl ["X", "v9/X"]) [1, 0, 0, 1, 1, 0] (by decide)
  have hnodup : (["X", "v9/X"].map ClassName.internal).Nodup := by decide +kernel
  have hlist : inboxPath.bytes? (inbox impostor) "java.util.List" =
      inboxPath.bytes? (inbox (marker "v9/X")) "java.util.List" := by
    rw [bytes?_list_inbox, bytes?_list_inbox]
  have hfound : inboxPath.bytes? (inbox impostor) "X" = inboxPath.bytes? (inbox (marker "v9/X")) "X" := by
    rw [(found_inbox _).1, (found_inbox _).1]
  obtain ⟨alone, h⟩ := runBy_independent (tree_inbox _) hrun hfixed
  obtain ⟨hsettled, hone, -⟩ := h.single 1 "v9/X" rfl (undisturbed_of_nodup hnodup _ _)
  obtain ⟨hkept, -⟩ := h.kept _ _ _ _ _ _ _ hrun' hfixed' hlist 0 0 "X" rfl rfl hfound
    (undisturbed_of_nodup hnodup _ _) (undisturbed_of_nodup hnodup _ _)
  exact ⟨last, events, report, last', events', report', hrun, hrun', ⟨_, hsettled, hone⟩, hkept⟩

/-- Two workers hold the same class, and what is reported is not what runs over the one input and over
the other one report. -/
theorem runBy_not_independent : ∃ last events report alone,
    runBy [0, 1, 0, 1, 0, 1] {} inboxPath (inbox ClassUnit.pair) ["v9/X", "v9/X"] "out" =
        some ⟨last, events, .ok report⟩ ∧
      (inbox ClassUnit.pair).Tree ∧
      Unchanging {} inboxPath (inbox ClassUnit.pair) ["v9/X", "v9/X"] "out" [0, 1, 0, 1, 0, 1] ∧
      (run {} inboxPath (inbox ClassUnit.pair) ["v9/X"] "out").outcome = .ok alone ∧
      report ≠ .join [alone, alone] := by
  obtain ⟨last, events, report, records, bytes, hrun, hreported, -, -, halone, hrecords⟩ := runBy_pair
  have htwice : ["v9/X", "v9/X"] ⊆ ["X", "v9/X"] := by decide
  have hfixed := unchanging_inbox (s := {}) ClassUnit.ofBytes_pair (by decide) htwice
    [0, 1, 0, 1, 0, 1]
  have h := exists_runBy_iff.mp ⟨events, hrun⟩
  obtain ⟨hone, -⟩ := h.run_singleton (tree_inbox _) hfixed (List.mem_cons_self)
  rw [halone] at hone
  refine ⟨last, events, report, _, hrun, tree_inbox _, hfixed, hone, ?_⟩
  rintro rfl
  have heq := List.mem_pair.mp hreported
  rw [or_self] at heq
  exact hrecords (congrArg Emitted.substitutions heq).symm

end Retrofit
