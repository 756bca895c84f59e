import Retrofit.Proofs.Run.Files
import Retrofit.Proofs.Workers.Schedules

/-!
# Runs by workers

A class is written at the path of the name that it has itself, whatever other workers do with its
instance. So by any schedule a run comes to a good end exactly if its files can be written one after the
other, and it reports each input once and in their order. An input that is not disturbed becomes what is
produced from the bytes that are found for it.
-/

namespace Retrofit

section

variable {s : Settings} {cp : ClassPath} {store : Store} {inputs : List String} {root name : String}
  {schedule : List Nat} {i : Nat}

/-! ### The files of a run -/

theorem mem_files_of_wrote (hfixed : Unchanging s cp store inputs root schedule)
    (hlocal : (crewAfter s cp store inputs root schedule).NoneFatal) {path : String}
    (h : (crewAfter s cp store inputs root schedule).Wrote path) :
    path ∈ ((s.target cp store).files s.maxFixedArity (cp.bytes? store) root inputs).map Prod.fst := by
  obtain ⟨i, name, e, hsettled, rfl⟩ := h
  obtain ⟨o, front, back, hturn, -⟩ := exists_turnOf hsettled
  rcases hturn.written hfixed hlocal with ⟨-, hfailed, -⟩ | ⟨found, p, hfound, hp⟩
  · rw [hfailed] at hsettled
    cases hsettled
  · rw [hp.settled] at hsettled
    cases hsettled
    refine Target.mem_files.mpr ⟨name, name_mem_inputs hturn.loaded, found, ?_, hp.path_eq⟩
    rw [cp.bytes?_internal, hfound]

/-- As long as the files of all inputs can be written, no failure ends the run. -/
theorem noneFatal_of_files (htree : store.Tree) (hfixed : Unchanging s cp store inputs root schedule)
    (hfiles : ∃ s', store.writeAll ((s.target cp store).files s.maxFixedArity (cp.bytes? store) root
      inputs) = some s') : (crewAfter s cp store inputs root schedule).NoneFatal := by
  induction schedule using List.reverseRecOn with
  | nil =>
      intro i name e hsettled
      rw [outcome?_crewAfter_nil] at hsettled
      cases hsettled
  | append_singleton front j ih =>
      have hlocal := ih hfixed.of_append
      intro i name e hsettled
      rcases outcome?_crewAfter_concat hsettled with hearlier | ⟨rfl, o, hturn, he⟩
      · exact hlocal i name e hearlier
      rcases hturn.processed hfixed with ⟨-, heq⟩ | ⟨found, p, hfound, hp, -⟩
      · rw [heq] at he
        cases he
        rfl
      · obtain ⟨files, hwritten, hpaths⟩ := exists_files hfixed.of_append hlocal
        have hself : Path.ofClass root p.name ∈ ((s.target cp store).files s.maxFixedArity
            (cp.bytes? store) root inputs).map Prod.fst := by
          refine Target.mem_files.mpr ⟨name, name_mem_inputs hturn.loaded, found, ?_,
            congrArg (Path.ofClass root) hp.name_eq⟩
          rw [cp.bytes?_internal, hfound]
        have hsubset : (files ++ [(Path.ofClass root p.name, p.bytes)]).map Prod.fst ⊆
            ((s.target cp store).files s.maxFixedArity (cp.bytes? store) root inputs).map Prod.fst := by
          intro path hpath
          rw [List.map_append, List.mem_append, List.map_singleton, List.mem_singleton] at hpath
          rcases hpath with hpath | rfl
          · exact mem_files_of_wrote hfixed.of_append hlocal ((hpaths path).mp hpath)
          · exact hself
        obtain ⟨s', hall⟩ := Store.exists_writeAll_of_subset htree hsubset hfiles
        obtain ⟨before, hbefore, hwrite⟩ := Store.writeAll_concat.mp hall
        rw [hwritten, Option.some_inj] at hbefore
        subst hbefore
        have hemitted := hp.emitted
        rw [Product.emit, hwrite, ← he] at hemitted
        cases (Prod.mk.inj hemitted).2

/-- The class path may hold directories as long as no file of the run is found in them. -/
theorem unchanging_of_files (htree : store.Tree)
    (hkept : ∀ s', store.Keeps ((s.target cp store).Written s.maxFixedArity (cp.bytes? store) root
      store inputs) s' → ∀ name ∈ inputs, cp.bytes? s' name = cp.bytes? store name)
    (hfiles : ∃ s', store.writeAll ((s.target cp store).files s.maxFixedArity (cp.bytes? store) root
      inputs) = some s') : Unchanging s cp store inputs root schedule := by
  induction schedule using List.reverseRecOn with
  | nil =>
      intro front i back heq
      simp at heq
  | append_singleton earlier j ih =>
      have hlocal := noneFatal_of_files htree ih hfiles
      obtain ⟨files, hwritten, hpaths⟩ := exists_files ih hlocal
      intro front i back heq
      rcases List.eq_nil_or_concat back with rfl | ⟨back, k, rfl⟩
      · obtain ⟨rfl, -⟩ := List.append_inj' heq rfl
        refine hkept _ ((Store.keeps_writeAll hwritten).mono ?_)
        rintro place ⟨path, hpath, rfl⟩
        obtain ⟨name, hname, found, hfound, rfl⟩ :=
          Target.mem_files.mp (mem_files_of_wrote ih hlocal ((hpaths path).mp hpath))
        exact ⟨name, hname, found, hfound, rfl⟩
      · rw [List.concat_eq_append, ← List.cons_append, ← List.append_assoc] at heq
        exact ih front i back (List.append_inj' heq rfl).1

/-! ### The end of a run -/

/-- In a run that has come to its end it is settled what became of each input. -/
theorem exists_settled (hdone : (crewAfter s cp store inputs root schedule).isDone = true)
    (hi : inputs[i]? = some name) :
    ∃ r, (crewAfter s cp store inputs root schedule).outcome? i = some (name, r) := by
  rw [← names_crewAfter s cp store inputs root schedule,
    List.getElem?_map, Option.map_eq_some_iff] at hi
  obtain ⟨⟨name, stage⟩, hjob, rfl⟩ := hi
  have hreleased := List.all_eq_true.mp hdone _ (List.mem_of_getElem? hjob)
  cases stage with
  | released r => exact ⟨r, Crew.outcome?_eq_some_iff.mpr ⟨_, hjob, rfl⟩⟩
  | waiting | loaded | processed => cases hreleased

theorem name_of_settled {r : Except Failure Emitted}
    (h : (crewAfter s cp store inputs root schedule).outcome? i = some (name, r)) :
    inputs[i]? = some name := by
  obtain ⟨stage, hjob, -⟩ := Crew.outcome?_eq_some_iff.mp h
  rw [← names_crewAfter s cp store inputs root schedule,
    List.getElem?_map, hjob]
  rfl

/-- What became of the inputs is listed in their order. -/
theorem getElem?_outcomes (hdone : (crewAfter s cp store inputs root schedule).isDone = true) (i : Nat) :
    (crewAfter s cp store inputs root schedule).outcomes[i]? =
      (crewAfter s cp store inputs root schedule).outcome? i := by
  have hall : ∀ job ∈ (crewAfter s cp store inputs root schedule).jobs,
      (job.stage.outcome?.map fun outcome => (job.name, outcome)).isSome = true := by
    intro job hjob
    have hreleased := List.all_eq_true.mp hdone job hjob
    cases hstage : job.stage with
    | released r => rfl
    | waiting | loaded | processed =>
        rw [hstage] at hreleased
        cases hreleased
  have hget := congrArg (·[i]?) (map_some_filterMap hall)
  rw [List.getElem?_map, List.getElem?_map] at hget
  unfold Crew.outcomes Crew.outcome?
  cases hjob : (crewAfter s cp store inputs root schedule).jobs[i]? with
  | none =>
      rw [hjob, Option.map_none, Option.map_eq_none_iff] at hget
      exact hget
  | some job =>
      rw [hjob, Option.map_some, Option.map_eq_some_iff] at hget
      obtain ⟨settled, hsettled, hget⟩ := hget
      rw [hsettled, hget]
      exact Option.map_eq_bind

theorem names_outcomes (hdone : (crewAfter s cp store inputs root schedule).isDone = true) :
    (crewAfter s cp store inputs root schedule).outcomes.map Prod.fst = inputs := by
  refine List.ext_getElem? fun i => ?_
  rw [List.getElem?_map, getElem?_outcomes hdone]
  cases hname : inputs[i]? with
  | some name =>
      obtain ⟨r, hsettled⟩ := exists_settled hdone hname
      rw [hsettled]
      rfl
  | none =>
      cases hsettled : (crewAfter s cp store inputs root schedule).outcome? i with
      | none => rfl
      | some settled =>
          rw [name_of_settled hsettled] at hname
          cases hname

/-- What it means that a run comes to a good end. -/
structure Completes (schedule : List Nat) (s : Settings) (cp : ClassPath) (store : Store)
    (inputs : List String) (root : String) (last : Store) (report : Report) : Prop where
  classPath : inputs = [] ∨ cp.isEmpty = false
  done : (crewAfter s cp store inputs root schedule).isDone = true
  noneFatal : (crewAfter s cp store inputs root schedule).NoneFatal
  last_eq : last = (crewAfter s cp store inputs root schedule).state.store
  report_eq : report =
    .join ((crewAfter s cp store inputs root schedule).outcomes.map fun o => .single o.1 o.2)

theorem noneFatal_iff (hdone : (crewAfter s cp store inputs root schedule).isDone = true) :
    (crewAfter s cp store inputs root schedule).NoneFatal ↔
      ∀ o ∈ (crewAfter s cp store inputs root schedule).outcomes, ∀ e, o.2 = .error e →
        e.isLocal = true := by
  unfold Crew.NoneFatal
  simp only [← getElem?_outcomes hdone]
  constructor
  · intro h o ho e he
    obtain ⟨i, hi⟩ := List.mem_iff_getElem?.mp ho
    exact h i o.1 e (by rw [hi, ← he])
  · exact fun h i name e hi => h _ (List.mem_of_getElem? hi) e rfl

theorem exists_runBy_iff {last : Store} {report : Report} :
    (∃ events, runBy schedule s cp store inputs root = some ⟨last, events, .ok report⟩) ↔
      Completes schedule s cp store inputs root last report := by
  have hcp : ¬((!inputs.isEmpty && cp.isEmpty) = true) ↔ inputs = [] ∨ cp.isEmpty = false := by
    simp [or_iff_not_imp_left]
  unfold runBy
  dsimp only
  by_cases hempty : (!inputs.isEmpty && cp.isEmpty) = true
  · rw [if_pos hempty]
    constructor
    · rintro ⟨events, hrun⟩
      cases hrun
    · exact fun h => absurd hempty (hcp.mpr h.classPath)
  rw [if_neg hempty]
  by_cases hdone : (crewAfter s cp store inputs root schedule).isDone = true
  swap
  · rw [if_neg hdone]
    constructor
    · rintro ⟨events, hrun⟩
      cases hrun
    · exact fun h => absurd h.done hdone
  rw [if_pos hdone]
  simp only [Option.some_inj, RunResult.mk.injEq, Summary.outcome_eq_ok_iff, ← noneFatal_iff hdone]
  constructor
  · rintro ⟨events, hlast, -, hlocal, hreport⟩
    exact ⟨hcp.mp hempty, hdone, hlocal, hlast.symm, hreport⟩
  · intro h
    exact ⟨_, h.last_eq.symm, rfl, h.noneFatal, h.report_eq⟩

/-! ### What becomes of an input -/

/-- At its turn the given bytes are written for the input at position `i`. They stay unless a class that
is processed later is written at the same place. -/
def WrittenAtTurn (s : Settings) (cp : ClassPath) (store : Store) (inputs : List String) (root : String)
    (schedule : List Nat) (i : Nat) (path : String) (bytes : List UInt8) : Prop :=
  ∃ name o front back, TurnOf s cp store inputs root schedule i name o front back ∧
    (crewAfter s cp store inputs root front).state.store.write path bytes =
      ((crewAfter s cp store inputs root (front ++ [i])).state.store, .ok ()) ∧
    (¬WrittenBetween s cp store inputs root (front ++ [i]) back (store.placeOf path) →
      (crewAfter s cp store inputs root schedule).state.store.read path = .ok bytes)

/-- In a run that comes to a good end each input that is found is written, and each other one is
reported as not found. -/
theorem settled_cases (hdone : (crewAfter s cp store inputs root schedule).isDone = true)
    (hlocal : (crewAfter s cp store inputs root schedule).NoneFatal)
    (hfixed : Unchanging s cp store inputs root schedule) (hi : inputs[i]? = some name) :
    (cp.bytes? store name = none ∧ (crewAfter s cp store inputs root schedule).outcome? i =
        some (name, .error (.classNotFound name))) ∨
      ∃ found p front, cp.bytes? store name = some found ∧
        WrittenAs s cp store inputs root schedule i name front found p ∧
        WrittenAtTurn s cp store inputs root schedule i (p.emitted root name).path p.bytes := by
  obtain ⟨r, hsettled⟩ := exists_settled hdone hi
  obtain ⟨o, front, back, hturn, -⟩ := exists_turnOf hsettled
  rcases hturn.written hfixed hlocal with ⟨hnone, hfailed, -⟩ | ⟨found, p, hfound, hp⟩
  · exact Or.inl ⟨hnone, hfailed⟩
  · exact Or.inr ⟨found, p, front, hfound, hp, name, o, front, back, hturn, hp.write,
      (hp.read hturn.schedule_eq hfixed hlocal).2⟩

/-- What becomes of an input as long as no one disturbs it. -/
def Settings.alone (s : Settings) (cp : ClassPath) (store : Store) (root name : String) :
    Except Failure Emitted :=
  (s.target cp store).outcome s.maxFixedArity (cp.bytes? store name) root name

/-- An input that is not disturbed becomes what is produced from the bytes that are found for it. -/
theorem settled_of_undisturbed (hdone : (crewAfter s cp store inputs root schedule).isDone = true)
    (hlocal : (crewAfter s cp store inputs root schedule).NoneFatal)
    (hfixed : Unchanging s cp store inputs root schedule) (hi : inputs[i]? = some name)
    (halone : Undisturbed s cp store inputs root schedule i) :
    (crewAfter s cp store inputs root schedule).outcome? i = some (name, s.alone cp store root name) ∧
      ∀ found, cp.bytes? store name = some found → WrittenAtTurn s cp store inputs root schedule i
        ((s.target cp store).outputPath s.maxFixedArity root name found)
        ((s.target cp store).produce s.maxFixedArity name found).bytes := by
  unfold Settings.alone
  rcases settled_cases hdone hlocal hfixed hi with ⟨hnone, hsettled⟩ | ⟨found, p, front, hfound, hp, hwritten⟩
  · rw [hnone]
    exact ⟨hsettled, nofun⟩
  · rw [hfound]
    obtain rfl := hp.produced halone
    refine ⟨hp.settled, ?_⟩
    rintro _ ⟨⟩
    exact hwritten

/-! ### Two workers with one class -/

/-- Two workers that load one class, one after the other, hold the same instance. -/
theorem loaded_of_two {found : List UInt8} {a b : String}
    (hkey : ClassName.internal b = ClassName.internal a) (hfound : cp.bytes? store a = some found)
    {u : ClassUnit} (hu : ClassUnit.ofBytes found = .ok u) (s : Settings) (root : String) :
    ∃ st h, st.store = store ∧ st.loader.unit? h = some u ∧ crewAfter s cp store [a, b] root [0, 1] =
      ⟨st, [⟨a, .loaded (.ok h)⟩, ⟨b, .loaded (.ok h)⟩]⟩ := by
  have hstart : (crewAfter s cp store [a, b] root []).state.store = store := store_crewAfter_nil
  have hcrew : crewAfter s cp store [a, b] root [0, 1] =
      ((crewAfter s cp store [a, b] root []).advance s cp (s.target cp store) root 0).advance s cp
        (s.target cp store) root 1 := rfl
  have hfaithful : (crewAfter s cp store [a, b] root []).state.loader.Faithful (cp.bytes? store)
      fun _ => False := faithful_target s cp store
  have hjobs : (crewAfter s cp store [a, b] root []).jobs = [⟨a, .waiting⟩, ⟨b, .waiting⟩] := rfl
  have hfirst (c : Crew) (hc : c.jobs = [⟨a, .waiting⟩, ⟨b, .waiting⟩]) :
      c.jobs[0]? = some ⟨a, .waiting⟩ := by rw [hc]; rfl
  generalize crewAfter s cp store [a, b] root [] = c at hstart hcrew hfaithful hjobs
  obtain ⟨⟨store', l, events⟩, jobs⟩ := c
  dsimp only at hstart hfaithful hjobs
  subst hstart hjobs
  have hfind : cp.bytes? store' a = cp.bytes? store' (ClassName.internal a) :=
    (cp.bytes?_internal _ _).symm
  obtain ⟨hloaded, hlookup⟩ := hfaithful.load hfind
  have hright := hloaded.right _ _ id hlookup
  rw [cp.bytes?_internal, hfound] at hright
  rw [hcrew, Crew.advance_of_job (hfirst _ rfl)]
  unfold RunState.advance RunState.load
  dsimp only
  generalize l.load cp store' a = r at hlookup hright ⊢
  obtain ⟨l, o, told⟩ := r
  dsimp only at hlookup hright ⊢
  cases hright with
  | malformed he =>
      rw [hu] at he
      cases he
  | @loaded _ u' h hu' hunit =>
      rw [hu, Except.ok.injEq] at hu'
      subst hu'
      have hknown : l.outcome? b = some (.ok h) := by rw [Loader.outcome?, hkey, hlookup]
      have hsecond (st : RunState) (job : Job) :
          (⟨st, [job, ⟨b, .waiting⟩]⟩ : Crew).jobs[1]? = some ⟨b, .waiting⟩ := rfl
      rw [List.set_cons_zero, Crew.advance_of_job (hsecond _ _)]
      unfold RunState.advance RunState.load RunState.tell
      dsimp only
      rw [Loader.load_of_known hknown]
      exact ⟨_, h, rfl, hunit, rfl⟩

/-- The second of two workers that hold one class finds the instance as the first one has left it. -/
theorem settled_of_two {found bytes : List UInt8} {a b : String}
    (hkey : ClassName.internal b = ClassName.internal a) (hfound : cp.bytes? store a = some found)
    {u : ClassUnit} (hu : ClassUnit.ofBytes found = .ok u) {records : List Substitution}
    (houtcome : (u.substitute (s.target cp store) s.maxFixedArity).outcome = .ok records)
    (hwritten : (u.substitute (s.target cp store) s.maxFixedArity).unit.written = .ok bytes)
    (hlocal : (crewAfter s cp store [a, b] root [0, 1, 0, 1]).NoneFatal) {p : Product}
    (hp : ((u.substitute (s.target cp store) s.maxFixedArity).unit.substitute (s.target cp store)
      s.maxFixedArity).product = p) :
    (crewAfter s cp store [a, b] root [0, 1, 0, 1]).outcome? 0 =
        some (a, .ok ⟨a, Path.ofClass root u.name, records, false⟩) ∧
      (crewAfter s cp store [a, b] root [0, 1, 0, 1]).outcome? 1 = some (b, .ok (p.emitted root b)) ∧
      (crewAfter s cp store [a, b] root [0, 1, 0, 1]).state.store.read (Path.ofClass root p.name) =
        .ok p.bytes := by
  obtain ⟨st, h, hstore, hunit, hcrew⟩ := loaded_of_two hkey hfound hu s root
  have hfirst : TurnOf s cp store [a, b] root [0, 1, 0, 1] 0 a (.ok h) [0, 1] [1] :=
    ⟨rfl, by rw [hcrew]; rfl⟩
  have hsecond : TurnOf s cp store [a, b] root [0, 1, 0, 1] 1 b (.ok h) [0, 1, 0] [] := by
    refine ⟨rfl, ?_⟩
    show (crewAfter s cp store [a, b] root ([0, 1] ++ [0])).jobs[1]? = _
    rw [crewAfter_concat, Crew.jobs_advance_of_ne (by decide), hcrew]
    rfl
  have hstate : (crewAfter s cp store [a, b] root [0, 1, 0]).state = _ := hfirst.state_eq
  have hsettled := hfirst.settled
  rw [hcrew, RunState.processLoaded_of_unit? hunit] at hstate hsettled
  have hleft := RunState.unit?_finish hunit houtcome hwritten root a
  rw [← hstate] at hleft
  have hstate' : (crewAfter s cp store [a, b] root [0, 1, 0, 1]).state = _ := hsecond.state_eq
  have hsettled' := hsecond.settled
  rw [RunState.processLoaded_of_unit? hleft] at hstate' hsettled'
  have hwrites := (st.finish_eq root a h (u.substitute (s.target cp store) s.maxFixedArity)).2
  have hwrites' := (RunState.finish_eq (crewAfter s cp store [a, b] root [0, 1, 0]).state root b h
    ((u.substitute (s.target cp store) s.maxFixedArity).unit.substitute (s.target cp store)
      s.maxFixedArity)).2
  rw [Attempt.product_of_written houtcome hwritten,
    (u.substitute_keeps (s.target cp store) s.maxFixedArity).1] at hwrites
  rw [hp, ← hstate'] at hwrites'
  obtain ⟨s₁, -, hemit⟩ := Target.emit_of_isLocal fun e he => hlocal 0 a e (by
    rw [hsettled, ← he, ← hwrites])
  obtain ⟨s₂, hwrite, hemit'⟩ := Target.emit_of_isLocal fun e he => hlocal 1 b e (by
    rw [hsettled', ← he, ← hwrites'])
  rw [hemit, Prod.mk.injEq] at hwrites
  rw [hemit', Prod.mk.injEq] at hwrites'
  rw [hsettled, hsettled', hwrites.2, hwrites'.2, hwrites'.1]
  exact ⟨rfl, rfl, (Store.write_eq_ok hwrite).2⟩

/-! ### Any schedule -/

/-- A run that comes to a good end has written the files of all its inputs. -/
theorem Completes.exists_files {last : Store} {report : Report}
    (h : Completes schedule s cp store inputs root last report) (htree : store.Tree)
    (hfixed : Unchanging s cp store inputs root schedule) :
    ∃ s', store.writeAll ((s.target cp store).files s.maxFixedArity (cp.bytes? store) root inputs) =
      some s' := by
  obtain ⟨files, hfiles, hpaths⟩ := Retrofit.exists_files hfixed h.noneFatal
  refine Store.exists_writeAll_of_subset htree (fun path hpath => ?_) ⟨_, hfiles⟩
  obtain ⟨name, hname, found, hfound, rfl⟩ := Target.mem_files.mp hpath
  obtain ⟨i, hi⟩ := List.mem_iff_getElem?.mp hname
  rw [cp.bytes?_internal] at hfound
  rw [hpaths]
  rcases settled_cases h.done h.noneFatal hfixed hi with ⟨hnone, -⟩ | ⟨found', p, front, hfound', hp, -⟩
  · rw [hnone] at hfound
    cases hfound
  · rw [hfound', Option.some_inj] at hfound
    subst hfound
    exact ⟨i, name, _, hp.settled, hp.path_eq⟩

/-- As long as the files can be written a run comes to a good end by any schedule that is long enough. -/
theorem completes_of_files (htree : store.Tree) (hcp : inputs = [] ∨ cp.isEmpty = false)
    (hlong : ∀ i < inputs.length, 3 ≤ schedule.count i)
    (hfixed : Unchanging s cp store inputs root schedule)
    (hfiles : ∃ s', store.writeAll ((s.target cp store).files s.maxFixedArity (cp.bytes? store) root
      inputs) = some s') :
    Completes schedule s cp store inputs root (crewAfter s cp store inputs root schedule).state.store
      (.join ((crewAfter s cp store inputs root schedule).outcomes.map fun o => .single o.1 o.2)) :=
  ⟨hcp, isDone_crewAfter_iff.mpr hlong, noneFatal_of_files htree hfixed hfiles, rfl, rfl⟩

/-- So does a run over some of the inputs, in any order and any number of times. -/
theorem Completes.of_subset {last : Store} {report : Report}
    (h : Completes schedule s cp store inputs root last report) (htree : store.Tree)
    (hfixed : Unchanging s cp store inputs root schedule) {inputs' : List String}
    (hsubset : inputs' ⊆ inputs) {schedule' : List Nat}
    (hlong : ∀ i < inputs'.length, 3 ≤ schedule'.count i)
    (hfixed' : Unchanging s cp store inputs' root schedule') :
    Completes schedule' s cp store inputs' root (crewAfter s cp store inputs' root schedule').state.store
      (.join ((crewAfter s cp store inputs' root schedule').outcomes.map fun o => .single o.1 o.2)) := by
  have hcp : inputs' = [] ∨ cp.isEmpty = false := by
    refine h.classPath.imp_left fun hinputs => ?_
    rw [hinputs] at hsubset
    exact List.subset_nil.mp hsubset
  refine completes_of_files htree hcp hlong hfixed' ?_
  exact Store.exists_writeAll_of_subset htree (List.map_subset _ (List.filterMap_subset _ hsubset))
    (h.exists_files htree hfixed)

end

end Retrofit
