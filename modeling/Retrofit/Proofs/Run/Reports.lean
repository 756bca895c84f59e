import Retrofit.Run

/-!
# What a report is made of

A run that does not end early has failures of single classes only. Its report is put together from
one part for each class, in the order of the inputs, and each part either says what was written for
its class or why nothing was.
-/

namespace Retrofit

namespace Report

/-- Reports one after the other. -/
def join (parts : List Report) : Report := ⟨parts.flatMap emitted, parts.flatMap failures⟩

/-- The report of a run over a single class. -/
def single (name : String) : Except Failure Emitted → Report
  | .ok e => ⟨[e], []⟩
  | .error f => ⟨[], [(name, f)]⟩

theorem join_cons (part : Report) (parts : List Report) :
    join (part :: parts) =
      ⟨part.emitted ++ (join parts).emitted, part.failures ++ (join parts).failures⟩ := by
  unfold join
  rw [List.flatMap_cons, List.flatMap_cons]

/-- What was written for the classes. -/
theorem emitted_join_outcomes (outcomes : List (String × Except Failure Emitted)) :
    (join (outcomes.map fun o => single o.1 o.2)).emitted =
      outcomes.filterMap fun o => o.2.toOption := by
  induction outcomes with
  | nil => rfl
  | cons o outcomes ih =>
      rw [List.map_cons, join_cons, List.filterMap_cons]
      dsimp only
      rw [ih]
      cases o.2 <;> rfl

theorem emitted_join_single (outcome : String → Except Failure Emitted) (names : List String) :
    (join (names.map fun name => single name (outcome name))).emitted =
      names.filterMap fun name => (outcome name).toOption := by
  have hjoin := emitted_join_outcomes (names.map fun name => (name, outcome name))
  rw [List.map_map, List.filterMap_map] at hjoin
  exact hjoin

/-- Classes in another order only change the order of the report. -/
theorem perm_join {parts parts' : List Report} (h : parts.Perm parts') :
    (join parts).emitted.Perm (join parts').emitted ∧
      (join parts).failures.Perm (join parts').failures :=
  ⟨h.flatMap_right _, h.flatMap_right _⟩

end Report

namespace Summary

/-- One more class does not end the run: it is reported, or its failure concerns it alone. -/
theorem fatal_add (summary : Summary) (o : String × Except Failure Emitted) :
    ((summary.add o).fatal = none ↔
        summary.fatal = none ∧ ∀ e, o.2 = .error e → e.isLocal = true) ∧
      ((summary.add o).fatal = none →
        (summary.add o).report = .join [summary.report, .single o.1 o.2]) := by
  obtain ⟨name, outcome⟩ := o
  cases outcome with
  | ok emitted => simp [add, Report.join, Report.single]
  | error e =>
      cases hlocal : e.isLocal <;> cases hfatal : summary.fatal <;>
        simp [add, hlocal, hfatal, Report.join, Report.single]

theorem fatal_foldl_add (outcomes : List (String × Except Failure Emitted)) (summary : Summary) :
    ((outcomes.foldl add summary).fatal = none ↔
        summary.fatal = none ∧ ∀ o ∈ outcomes, ∀ e, o.2 = .error e → e.isLocal = true) ∧
      ((outcomes.foldl add summary).fatal = none → (outcomes.foldl add summary).report =
        .join (summary.report :: outcomes.map fun o => .single o.1 o.2)) := by
  induction outcomes generalizing summary with
  | nil => simp [Report.join]
  | cons o outcomes ih =>
      obtain ⟨hfatal, hreport⟩ := ih (summary.add o)
      obtain ⟨hadd, hone⟩ := summary.fatal_add o
      rw [List.foldl_cons, hfatal, hadd, List.forall_mem_cons, and_assoc]
      refine ⟨Iff.rfl, fun h => ?_⟩
      have hnone := hadd.mpr ⟨h.1, h.2.1⟩
      rw [hreport (hfatal.mpr ⟨hnone, h.2.2⟩), Report.join_cons, hone hnone]
      simp [Report.join]

/-- Classes end a run only with a failure that concerns more than one of them; else each of them is
in the report. -/
theorem outcome_eq_ok_iff {outcomes : List (String × Except Failure Emitted)} {report : Report} :
    (ofOutcomes outcomes).outcome = .ok report ↔
      (∀ o ∈ outcomes, ∀ e, o.2 = .error e → e.isLocal = true) ∧
        report = .join (outcomes.map fun o => .single o.1 o.2) := by
  obtain ⟨hfatal, hreport⟩ := fatal_foldl_add outcomes ⟨⟨[], []⟩, none⟩
  have hjoin : Report.join (⟨[], []⟩ :: outcomes.map fun o => .single o.1 o.2) =
      .join (outcomes.map fun o => .single o.1 o.2) := by rw [Report.join_cons]; rfl
  rw [hjoin] at hreport
  unfold outcome ofOutcomes
  split
  · rename_i e he
    constructor
    · intro h
      cases h
    · rintro ⟨hlocal, -⟩
      rw [hfatal.mpr ⟨rfl, hlocal⟩] at he
      cases he
  · rename_i hnone
    rw [hreport hnone, Except.ok.injEq, eq_comm]
    exact (and_iff_right (hfatal.mp hnone).2).symm

end Summary

end Retrofit
