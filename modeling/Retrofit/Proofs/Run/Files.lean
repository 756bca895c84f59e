import Retrofit.Proofs.Run.Steady
import Retrofit.Proofs.Store.AnyOrder

/-!
# The files of a run

A run that writes nothing among the classes that it looks for does not end early as long as the files
can be written one after the other: each of them by itself, and none of them in the way of another.
-/

namespace Retrofit

namespace Target

variable {t : Target} {maxFixedArity : Nat} {find : String → Option (List UInt8)} {root : String}

/-- The files that are written for the inputs that are found. -/
def files (t : Target) (maxFixedArity : Nat) (find : String → Option (List UInt8)) (root : String)
    (names : List String) : List (String × List UInt8) :=
  names.filterMap fun name => (find (ClassName.internal name)).map fun found =>
    (t.outputPath maxFixedArity root name found, (t.produce maxFixedArity name found).bytes)

theorem mem_files {path : String} {names : List String} :
    path ∈ (t.files maxFixedArity find root names).map Prod.fst ↔
      ∃ name ∈ names, ∃ found, find (ClassName.internal name) = some found ∧
        path = t.outputPath maxFixedArity root name found := by
  unfold files
  simp only [List.mem_map, List.mem_filterMap, Option.map_eq_some_iff]
  constructor
  · rintro ⟨f, ⟨name, hname, found, hfound, rfl⟩, rfl⟩
    exact ⟨name, hname, found, hfound, rfl⟩
  · rintro ⟨name, hname, found, hfound, rfl⟩
    exact ⟨_, ⟨name, hname, found, hfound, rfl⟩, rfl⟩

/-- Where all the files can be written, they are what a run leaves, and what fails concerns single
classes. -/
theorem writeAll_files {s s' : Store} {names : List String} :
    s.writeAll (t.files maxFixedArity find root names) = some s' ↔
      (t.processAll maxFixedArity find root s names).1 = s' ∧
        ∀ o ∈ (t.processAll maxFixedArity find root s names).2, ∀ e, o.2 = .error e →
          e.isLocal = true := by
  induction names generalizing s with
  | nil => simp [processAll, files, Store.writeAll]
  | cons name names ih =>
      rw [processAll]
      dsimp only
      rw [List.forall_mem_cons]
      cases hfound : find (ClassName.internal name) with
      | none =>
          have hfiles : t.files maxFixedArity find root (name :: names) =
              t.files maxFixedArity find root names := by
            rw [files, List.filterMap_cons_none (by rw [hfound]; rfl), files]
          rw [hfiles, process, ih]
          refine and_congr_right fun _ => (and_iff_right ?_).symm
          rintro e he
          cases he
          rfl
      | some found =>
          have hfiles : t.files maxFixedArity find root (name :: names) =
              (t.outputPath maxFixedArity root name found,
                (t.produce maxFixedArity name found).bytes) ::
                  t.files maxFixedArity find root names := by
            rw [files, List.filterMap_cons, hfound]
            rfl
          rw [hfiles, process, Product.emit, Store.writeAll, ← outputPath]
          rcases hwrite : s.write (t.outputPath maxFixedArity root name found)
            (t.produce maxFixedArity name found).bytes with ⟨s₁, outcome⟩
          cases outcome with
          | ok done =>
              dsimp only
              rw [ih]
              simp
          | error e => simp [Failure.isLocal]

theorem isLocal_iff {s : Store} {names : List String} :
    (∀ o ∈ (t.processAll maxFixedArity find root s names).2, ∀ e, o.2 = .error e →
        e.isLocal = true) ↔
      ∃ s', s.writeAll (t.files maxFixedArity find root names) = some s' := by
  simp only [writeAll_files, exists_eq_left']

end Target

section

variable {s : Settings} {cp : ClassPath} {store : Store} {root : String} {inputs : List String}

/-- A run is steady if the classes are found as before whatever its files hold, and these can be
written. -/
theorem steady_of_files (hcp : cp.isEmpty = false)
    (hkept : ∀ s', store.Keeps ((s.target cp store).Written s.maxFixedArity (cp.bytes? store) root
      store inputs) s' → ∀ name ∈ inputs, cp.bytes? s' name = cp.bytes? store name)
    (hfiles : ∃ s', store.writeAll ((s.target cp store).files s.maxFixedArity (cp.bytes? store) root
      inputs) = some s') : Steady s cp store inputs root := by
  have hlocal := Target.isLocal_iff.mpr hfiles
  have hprefix (before rest : List String) (heq : inputs = before ++ rest) :
      Steady s cp store before root := by
    induction before using List.reverseRecOn generalizing rest with
    | nil => exact steady_nil
    | append_singleton before name ih =>
        rw [List.append_assoc, List.singleton_append] at heq
        subst heq
        have hbefore := ih (name :: rest) rfl
        rw [Target.processAll_append] at hlocal
        obtain ⟨-, hkeeps, -⟩ := Target.processAll_spec fun o ho =>
          hlocal o (List.mem_append_left _ ho)
        refine hbefore.concat ?_
        rw [(run_eq (Or.inr hcp) hbefore).1]
        refine hkept _ (hkeeps.mono ?_) name (by simp)
        rintro place ⟨earlier, hearlier, hplace⟩
        exact ⟨earlier, List.mem_append_left _ hearlier, hplace⟩
  exact hprefix inputs [] (List.append_nil _).symm

/-- It reports each input if its files can be written. -/
theorem run_of_files (hcp : cp.isEmpty = false) (hsteady : Steady s cp store inputs root)
    (hfiles : ∃ s', store.writeAll ((s.target cp store).files s.maxFixedArity (cp.bytes? store) root
      inputs) = some s') : (run s cp store inputs root).outcome = .ok (.join (inputs.map fun name =>
        .single name ((s.target cp store).outcome s.maxFixedArity (cp.bytes? store name) root name))) :=
  (run_eq_ok_iff (Or.inr hcp) hsteady).mpr ⟨Target.isLocal_iff.mpr hfiles, rfl⟩

end

end Retrofit
