import Retrofit.Proofs.Run.Processing
import Retrofit.Proofs.Run.Reports
import Retrofit.Proofs.Store

/-!
# Steady runs

A run is steady if nothing that it writes changes what it finds later. Then the loader and the order
in which classes are looked up do not matter: each input becomes what is produced from the bytes that
were found for it at the start, and is written at its turn. What was written stays unless a later
class is written at the same place.
-/

namespace Retrofit

/-! ### Runs without a loader -/

namespace Target

/-- Classes one after the other, given what is found under each internal name. -/
def processAll (t : Target) (maxFixedArity : Nat) (find : String → Option (List UInt8))
    (root : String) (s : Store) : List String → Store × List (String × Except Failure Emitted)
  | [] => (s, [])
  | name :: rest =>
    let (s, outcome) := t.process maxFixedArity (find (ClassName.internal name)) s root name
    let (s, outcomes) := t.processAll maxFixedArity find root s rest
    (s, (name, outcome) :: outcomes)

/-- The classes that come first do not depend on those that follow. -/
theorem processAll_append (t : Target) (maxFixedArity : Nat) (find : String → Option (List UInt8))
    (root : String) (s : Store) (names more : List String) :
    t.processAll maxFixedArity find root s (names ++ more) =
      ((t.processAll maxFixedArity find root (t.processAll maxFixedArity find root s names).1 more).1,
        (t.processAll maxFixedArity find root s names).2 ++
          (t.processAll maxFixedArity find root
            (t.processAll maxFixedArity find root s names).1 more).2) := by
  induction names generalizing s with
  | nil => rfl
  | cons name names ih =>
      rw [List.cons_append, processAll, processAll]
      dsimp only
      rw [ih]
      rfl

end Target

namespace RunState

variable {st : RunState} {s : Settings} {cp : ClassPath} {t : Target} {root : String}

/-- What was done before is only put in front. -/
theorem processAll_eq_append (st : RunState) (done : List (String × Except Failure Emitted))
    (names : List String) :
    st.processAll s cp t root done names = ((st.processAll s cp t root [] names).1,
      done.reverse ++ (st.processAll s cp t root [] names).2) := by
  induction names generalizing st done with
  | nil => simp [processAll]
  | cons name names ih =>
      rw [processAll, processAll]
      dsimp only
      rw [ih, ih _ [_]]
      simp

/-- A run whose inputs are found as `find` says comes to what it does without a loader. -/
theorem processAll_eq (st : RunState) {find : String → Option (List UInt8)}
    (hl : st.loader.Faithful find fun _ => False) {names : List String}
    (hsteady : ∀ before name rest, names = before ++ name :: rest →
      cp.bytes? (st.processAll s cp t root [] before).1.store name =
        find (ClassName.internal name)) :
    ((st.processAll s cp t root [] names).1.store, (st.processAll s cp t root [] names).2) =
      t.processAll s.maxFixedArity find root st.store names := by
  induction names generalizing st with
  | nil => rfl
  | cons name names ih =>
      obtain ⟨hloader, hresult⟩ := processClass_eq hl (hsteady [] name names rfl) s t root
      have hrest := ih { (st.processClass s cp t root name).1 with
        loader := (st.processClass s cp t root name).1.loader.release name } (hloader.release fun _ => absurd)
        fun before later rest heq => by
          have hlater := hsteady (name :: before) later rest (by rw [heq]; rfl)
          rw [processAll] at hlater
          dsimp only at hlater
          rw [processAll_eq_append] at hlater
          exact hlater
      rw [Prod.mk.injEq] at hresult
      rw [processAll, Target.processAll]
      dsimp only
      rw [processAll_eq_append, ← hresult.1, ← hresult.2]
      dsimp only
      rw [← hrest]
      rfl

/-- Looking for the target class changes no file, and leaves the loader with that class loaded. -/
theorem target_eq (st : RunState) (s : Settings) (cp : ClassPath) :
    (st.target s cp).1.store = st.store ∧
      (st.target s cp).1.loader = (st.loader.load cp st.store s.targetClass).1 := by
  unfold target load
  rcases st.loader.load cp st.store s.targetClass with ⟨l, o, events⟩
  dsimp only
  split
  · rename_i heq
    cases heq
    exact ⟨rfl, rfl⟩
  · rename_i heq
    cases heq
    exact ⟨rfl, rfl⟩
  · rename_i heq
    cases heq
    split
    · exact ⟨rfl, rfl⟩
    · split <;> exact ⟨rfl, rfl⟩

end RunState

/-- The calls that a run replaces. -/
def Settings.target (s : Settings) (cp : ClassPath) (store : Store) : Target :=
  (RunState.target ⟨store, .empty, #[]⟩ s cp).2

/-- What they are when the given bytes are found for the target class. -/
def Settings.targetOf (s : Settings) (found : Option (List UInt8)) : Target :=
  let any := Target.ofName s.targetClass s.targetMethod
  match found.map ClassUnit.ofBytes with
  | some (.ok u) =>
    let overloads := OverloadSet.ofClass u s.targetMethod
    if overloads.declared.isEmpty then any else { any with overloads := some overloads }
  | _ => any

theorem Settings.target_eq (s : Settings) (cp : ClassPath) (store : Store) :
    s.target cp store = s.targetOf (cp.bytes? store s.targetClass) := by
  obtain ⟨hfaithful, hlookup⟩ := (Loader.faithful_empty (cp.bytes? store)).load
    (cp.bytes?_internal store s.targetClass).symm
  have hright := hfaithful.right _ _ id hlookup
  rw [cp.bytes?_internal] at hright
  unfold target RunState.target RunState.load targetOf
  rcases hload : Loader.empty.load cp store s.targetClass with ⟨l, o, events⟩
  rw [hload] at hright
  dsimp only at hright ⊢
  generalize cp.bytes? store s.targetClass = found at hright ⊢
  cases hright with
  | notFound => rfl
  | malformed he => rw [Option.map_some, he]
  | loaded hu hunit =>
      rw [Option.map_some, hu]
      dsimp only [RunState.tell]
      rw [hunit]
      dsimp only
      split <;> rfl

section

variable {s : Settings} {cp : ClassPath} {store : Store} {root name : String} {inputs : List String}

/-- A run whose inputs are found at their turn as they were at the start. -/
def Steady (s : Settings) (cp : ClassPath) (store : Store) (inputs : List String) (root : String) :
    Prop :=
  ∀ before name rest, inputs = before ++ name :: rest →
    cp.bytes? (run s cp store before root).store name = cp.bytes? store name

theorem steady_nil : Steady s cp store [] root :=
  fun _ _ _ h => by simp at h

/-- A run over classes in archives is steady. -/
theorem steady_of_archives
    (h : ∀ source ∈ cp.sources, ∃ path content, source = .archive path content) :
    Steady s cp store inputs root :=
  fun _ _ _ _ => ClassPath.bytes?_of_archives h _ _ _

/-- A steady run stays steady with one more input that is found as it was. -/
theorem Steady.concat (h : Steady s cp store inputs root)
    (hname : cp.bytes? (run s cp store inputs root).store name = cp.bytes? store name) :
    Steady s cp store (inputs ++ [name]) root := by
  intro before name' rest heq
  rcases List.eq_nil_or_concat rest with rfl | ⟨rest, last, rfl⟩
  · obtain ⟨rfl, hlast⟩ := List.append_inj' heq rfl
    cases hlast
    exact hname
  · refine h before name' rest ?_
    rw [List.concat_eq_append, ← List.cons_append, ← List.append_assoc] at heq
    exact (List.append_inj' heq rfl).1

theorem run_of_nonempty (hcp : inputs = [] ∨ cp.isEmpty = false) :
    (run s cp store inputs root).store = ((RunState.target ⟨store, .empty, #[]⟩ s cp).1.processAll
        s cp (s.target cp store) root [] inputs).1.store ∧
      (run s cp store inputs root).outcome =
        (Summary.ofOutcomes ((RunState.target ⟨store, .empty, #[]⟩ s cp).1.processAll
          s cp (s.target cp store) root [] inputs).2).outcome := by
  have htest : (!inputs.isEmpty && cp.isEmpty) = false := by
    rcases hcp with rfl | hcp
    · rfl
    · rw [hcp, Bool.and_false]
  unfold run
  rw [htest]
  exact ⟨rfl, rfl⟩

/-- When the first class is loaded, everything that is remembered is right. -/
theorem faithful_target (s : Settings) (cp : ClassPath) (store : Store) :
    (RunState.target ⟨store, .empty, #[]⟩ s cp).1.loader.Faithful (cp.bytes? store)
      fun _ => False := by
  rw [(RunState.target_eq ⟨store, .empty, #[]⟩ s cp).2]
  exact ((Loader.faithful_empty _).load (cp.bytes?_internal store s.targetClass).symm).1

/-- A steady run comes to what it does without a loader. -/
theorem run_eq (hcp : inputs = [] ∨ cp.isEmpty = false)
    (hsteady : Steady s cp store inputs root) :
    (run s cp store inputs root).store = ((s.target cp store).processAll s.maxFixedArity
        (cp.bytes? store) root store inputs).1 ∧
      (run s cp store inputs root).outcome = (Summary.ofOutcomes ((s.target cp store).processAll
        s.maxFixedArity (cp.bytes? store) root store inputs).2).outcome := by
  have hstore := (RunState.target_eq ⟨store, .empty, #[]⟩ s cp).1
  have hfound : ∀ before name rest, inputs = before ++ name :: rest →
      cp.bytes? ((RunState.target ⟨store, .empty, #[]⟩ s cp).1.processAll s cp (s.target cp store)
        root [] before).1.store name = cp.bytes? store (ClassName.internal name) := by
    intro before name rest heq
    have hbefore : before = [] ∨ cp.isEmpty = false := by
      rcases hcp with rfl | hcp
      · simp at heq
      · exact Or.inr hcp
    rw [← (run_of_nonempty hbefore).1, hsteady before name rest heq, cp.bytes?_internal]
  have hall := RunState.processAll_eq _ (faithful_target s cp store) hfound
  rw [hstore] at hall
  rw [(run_of_nonempty hcp).1, (run_of_nonempty hcp).2, ← hall]
  exact ⟨rfl, rfl⟩

end

/-! ### What is written -/

namespace Target

variable {t : Target} {maxFixedArity : Nat} {find : String → Option (List UInt8)} {root : String}
  {s : Store} {names : List String}

/-- The path to which an input is written for which the given bytes are found. -/
def outputPath (t : Target) (maxFixedArity : Nat) (root name : String) (found : List UInt8) : String :=
  Path.ofClass root (t.produce maxFixedArity name found).name

/-- The places that inputs are written to. -/
def Written (t : Target) (maxFixedArity : Nat) (find : String → Option (List UInt8)) (root : String)
    (s : Store) (names : List String) (place : Place) : Prop :=
  ∃ name ∈ names, ∃ found, find (ClassName.internal name) = some found ∧
    place = s.placeOf (t.outputPath maxFixedArity root name found)

/-- A class that is written without a failure that ends the run has its file. -/
theorem emit_of_isLocal {p : Product} {s : Store} {root input : String}
    (h : ∀ e, (p.emit s root input).2 = .error e → e.isLocal = true) :
    ∃ s', s.write (Path.ofClass root p.name) p.bytes = (s', .ok ()) ∧
      p.emit s root input = (s', .ok (p.emitted root input)) := by
  unfold Product.emit at h ⊢
  rcases hwrite : s.write (Path.ofClass root p.name) p.bytes with ⟨s', outcome⟩
  rw [hwrite] at h
  cases outcome with
  | ok done => exact ⟨s', rfl, rfl⟩
  | error e =>
      have hlocal := h _ rfl
      cases hlocal

theorem emit_eq {p : Product} {s : Store} {root input : String}
    (h : ∀ e, (p.emit s root input).2 = .error e → e.isLocal = true) :
    (p.emit s root input).2 = .ok (p.emitted root input) ∧
      s.Keeps (· = s.placeOf (Path.ofClass root p.name)) (p.emit s root input).1 ∧
      (p.emit s root input).1.read (Path.ofClass root p.name) = .ok p.bytes := by
  obtain ⟨s', hwrite, hemit⟩ := emit_of_isLocal h
  rw [hemit]
  exact ⟨rfl, Store.write_eq_ok hwrite⟩

theorem written_of_keeps {changed : Place → Prop} {s' : Store} (h : s.Keeps changed s') :
    t.Written maxFixedArity find root s' names = t.Written maxFixedArity find root s names := by
  funext place
  unfold Written
  simp only [h.placeOf_eq]

theorem Written.cons {name : String} {place : Place}
    (h : t.Written maxFixedArity find root s names place) :
    t.Written maxFixedArity find root s (name :: names) place := by
  obtain ⟨name', hname', found, hfound, hplace⟩ := h
  exact ⟨name', List.mem_cons_of_mem _ hname', found, hfound, hplace⟩

/-- Where no write fails, each input that is found is written and reported, no file but theirs
changes, and what is written stays until its place is written again. -/
theorem processAll_spec
    (h : ∀ o ∈ (t.processAll maxFixedArity find root s names).2, ∀ e, o.2 = .error e →
      e.isLocal = true) :
    (t.processAll maxFixedArity find root s names).2 = (names.map fun name =>
        (name, t.outcome maxFixedArity (find (ClassName.internal name)) root name)) ∧
      s.Keeps (t.Written maxFixedArity find root s names)
        (t.processAll maxFixedArity find root s names).1 ∧
      ∀ before name rest found, names = before ++ name :: rest →
        find (ClassName.internal name) = some found →
        ¬t.Written maxFixedArity find root s rest
          (s.placeOf (t.outputPath maxFixedArity root name found)) →
        (t.processAll maxFixedArity find root s names).1.read
          (t.outputPath maxFixedArity root name found) =
            .ok (t.produce maxFixedArity name found).bytes := by
  induction names generalizing s with
  | nil => exact ⟨rfl, .refl _ _, by simp⟩
  | cons first names ih =>
      rw [processAll] at h ⊢
      dsimp only at h ⊢
      obtain ⟨hfirst, hrest⟩ := List.forall_mem_cons.mp h
      obtain ⟨hreported, hkeeps, hreads⟩ := ih hrest
      dsimp only at hfirst
      cases hfound : find (ClassName.internal first) with
      | none =>
          rw [hfound, process] at hreported hkeeps hreads
          rw [process, List.map_cons, hfound, outcome, hreported]
          refine ⟨rfl, hkeeps.mono fun _ => Written.cons, ?_⟩
          intro before name rest found heq hname hkept
          cases before with
          | nil =>
              cases heq
              rw [hfound] at hname
              cases hname
          | cons _ before =>
              cases heq
              exact hreads before name rest found rfl hname hkept
      | some bytes =>
          rw [hfound, process] at hfirst hreported hkeeps hreads
          obtain ⟨houtcome, hwrites, hread⟩ := emit_eq hfirst
          rw [process, List.map_cons, hfound, outcome, houtcome, hreported]
          have hchanged : ∀ place, t.Written maxFixedArity find root
              ((t.produce maxFixedArity first bytes).emit s root first).1 names place →
                t.Written maxFixedArity find root s (first :: names) place := by
            rw [written_of_keeps hwrites]
            exact fun _ => Written.cons
          have hself : ∀ place, place = s.placeOf (t.outputPath maxFixedArity root first bytes) →
              t.Written maxFixedArity find root s (first :: names) place :=
            fun place hplace => ⟨first, List.mem_cons_self, bytes, hfound, hplace⟩
          refine ⟨rfl, (hwrites.mono hself).trans (hkeeps.mono hchanged), ?_⟩
          intro before name rest found heq hname hkept
          cases before with
          | nil =>
              cases heq
              rw [hfound] at hname
              cases hname
              refine hkeeps.read hread ?_
              rw [written_of_keeps hwrites, hwrites.placeOf_eq]
              exact hkept
          | cons _ before =>
              cases heq
              refine hreads before name rest found rfl hname ?_
              rw [written_of_keeps hwrites, hwrites.placeOf_eq]
              exact hkept

end Target

/-! ### What a run comes to -/

section

variable {s : Settings} {cp : ClassPath} {store : Store} {root name : String}
  {inputs before rest : List String} {report : Report}

/-- The first inputs of a steady run make a steady run. -/
theorem Steady.of_append (h : Steady s cp store (before ++ rest) root) :
    Steady s cp store before root := by
  intro front name back heq
  refine h front name (back ++ rest) ?_
  rw [heq, List.append_assoc, List.cons_append]

/-- A run over one class is steady. -/
theorem steady_singleton : Steady s cp store [name] root :=
  steady_nil.concat (by rw [(run_eq (Or.inl rfl) steady_nil).1, Target.processAll])

/-- A run that does not end early has a class path, unless it has nothing to do. -/
theorem classPath_of_run (hrun : (run s cp store inputs root).outcome = .ok report) :
    inputs = [] ∨ cp.isEmpty = false := by
  by_cases hinputs : inputs = []
  · exact Or.inl hinputs
  · refine Or.inr (Bool.eq_false_of_not_eq_true fun hempty => ?_)
    unfold run at hrun
    rw [if_pos (by simp [hinputs, hempty])] at hrun
    cases hrun

/-- A steady run does not end early as long as what fails concerns single classes, and its report is
put together from what becomes of each input. -/
theorem run_eq_ok_iff (hcp : inputs = [] ∨ cp.isEmpty = false)
    (hsteady : Steady s cp store inputs root) : (run s cp store inputs root).outcome = .ok report ↔
      (∀ o ∈ ((s.target cp store).processAll s.maxFixedArity (cp.bytes? store) root store inputs).2,
        ∀ e, o.2 = .error e → e.isLocal = true) ∧
      report = .join (inputs.map fun name => .single name
        ((s.target cp store).outcome s.maxFixedArity (cp.bytes? store name) root name)) := by
  rw [(run_eq hcp hsteady).2, Summary.outcome_eq_ok_iff]
  refine and_congr_right fun hlocal => ?_
  rw [(Target.processAll_spec hlocal).1, List.map_map]
  simp only [cp.bytes?_internal]
  rfl

/-- A run over the first inputs does not end early either. -/
theorem run_of_append (hrun : (run s cp store (before ++ rest) root).outcome = .ok report)
    (hsteady : Steady s cp store (before ++ rest) root) :
    ∃ report', (run s cp store before root).outcome = .ok report' := by
  have hcp := classPath_of_run hrun
  obtain ⟨hlocal, -⟩ := (run_eq_ok_iff hcp hsteady).mp hrun
  rw [Target.processAll_append] at hlocal
  refine ⟨_, (run_eq_ok_iff ?_ hsteady.of_append).mpr
    ⟨fun o ho => hlocal o (List.mem_append_left _ ho), rfl⟩⟩
  exact hcp.imp_left List.append_eq_nil_iff.mp |>.imp_left And.left

/-- What a steady run writes and reports. -/
theorem run_spec (hrun : (run s cp store inputs root).outcome = .ok report)
    (hsteady : Steady s cp store inputs root) :
    report.emitted = (inputs.filterMap fun name => (cp.bytes? store name).map fun found =>
        ((s.target cp store).produce s.maxFixedArity name found).emitted root name) ∧
      ∀ before name rest found, inputs = before ++ name :: rest →
        cp.bytes? store name = some found →
        ¬(s.target cp store).Written s.maxFixedArity (cp.bytes? store) root store
          rest (store.placeOf ((s.target cp store).outputPath s.maxFixedArity root name found)) →
        (run s cp store inputs root).store.read
          ((s.target cp store).outputPath s.maxFixedArity root name found) =
            .ok ((s.target cp store).produce s.maxFixedArity name found).bytes := by
  have hcp := classPath_of_run hrun
  obtain ⟨hlocal, rfl⟩ := (run_eq_ok_iff hcp hsteady).mp hrun
  obtain ⟨-, -, hreads⟩ := Target.processAll_spec hlocal
  simp only [cp.bytes?_internal] at hreads
  rw [(run_eq hcp hsteady).1]
  refine ⟨?_, hreads⟩
  simp only [Report.emitted_join_single, Target.toOption_outcome]

/-- At its turn each input that is found is written. -/
theorem run_turn (hrun : (run s cp store inputs root).outcome = .ok report)
    (hsteady : Steady s cp store inputs root) (hinputs : inputs = before ++ name :: rest)
    {found : List UInt8} (hfound : cp.bytes? store name = some found) :
    (run s cp store (before ++ [name]) root).store.read
      ((s.target cp store).outputPath s.maxFixedArity root name found) =
        .ok ((s.target cp store).produce s.maxFixedArity name found).bytes := by
  rw [hinputs, ← List.singleton_append, ← List.append_assoc] at hrun hsteady
  obtain ⟨report', hturn⟩ := run_of_append hrun hsteady
  refine (run_spec hturn hsteady.of_append).2 before name [] found rfl hfound ?_
  rintro ⟨later, hlater, -⟩
  cases hlater

end

end Retrofit
