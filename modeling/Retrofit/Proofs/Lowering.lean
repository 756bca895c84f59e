import Mathlib
import Retrofit.Lowering
import Retrofit.Proofs.Body.ControlFlow
import Retrofit.Proofs.Pool.Growth

/-!
# Lowered replacements

Lowering appends to the pool and to nothing else. A step that was lowered once asks for nothing more,
so what is still asked for by a fixed list of steps is a potential: each lowering lowers it by at
least what the pool grows. That is why one replacement fits into a fixed headroom, however many
arguments there are.
-/

namespace Retrofit

namespace Step

/-- The texts that a step enters into the pool. -/
def texts : Step → List String
  | new type => [type]
  | invoke c => [c.owner, c.name, c.descriptor]
  | _ => []

/-- The entries that a step may ask for. -/
def demand : Step → Nat
  | new _ => 2
  | invoke _ => 6
  | _ => 0

variable {T : List UInt8 → Prop} (scratch : UInt16)

theorem lower_interns {s : Step} (hs : ∀ t ∈ s.texts, T (bytesOfText t)) :
    Pool.Interns (Constant.Interned T) s.demand fun p => s.lower scratch p := by
  cases s with
  | new type =>
      have htype := Pool.internClass_interns (hs type List.mem_cons_self)
      exact htype.map fun index => Except.ok (Instruction.new index)
  | invoke c =>
      have hmethod := Pool.internMethod_interns (hs c.owner (by simp [texts]))
        (hs c.name (by simp [texts])) (hs c.descriptor (by simp [texts])) (c.kind == .interface)
      exact hmethod.map c.call
  | _ => exact .pure _ _

/-! ### The potential -/

/-- What lowering the step would still ask of the pool. -/
def demandOn (p : Pool) (s : Step) : Nat := if (s.lower scratch p).1 = p then 0 else s.demand

/-- What lowering the steps would still ask of the pool, each on its own. -/
def demandLeft (p : Pool) (steps : List Step) : Nat := (steps.map (demandOn scratch p)).sum

theorem demandOn_le (p : Pool) (s : Step) : demandOn scratch p s ≤ s.demand := by
  unfold demandOn
  split
  · exact Nat.zero_le _
  · exact Nat.le_refl _

theorem demandLeft_le (p : Pool) (steps : List Step) :
    demandLeft scratch p steps ≤ (steps.map demand).sum :=
  List.sum_le_sum fun s _ => demandOn_le scratch p s

/-- Lowering any of the steps lets none of them ask for more. -/
theorem demandOn_lower_le (p : Pool) (s t : Step) :
    demandOn scratch (s.lower scratch p).1 t ≤ demandOn scratch p t := by
  have ht := lower_interns (T := fun _ => True) scratch (s := t) fun _ _ => trivial
  have hs := lower_interns (T := fun _ => True) scratch (s := s) fun _ _ => trivial
  by_cases hp : (t.lower scratch p).1 = p
  · have hgrows := (hs.grows p).mono fun _ _ => trivial
    have hagain := ht.again p (s.lower scratch p).1 (by rw [hp]; exact hgrows)
    have hzero : demandOn scratch (s.lower scratch p).1 t = 0 := by
      rw [demandOn, hagain]
      exact if_pos rfl
    rw [hzero]
    exact Nat.zero_le _
  · have hle := demandOn_le scratch (s.lower scratch p).1 t
    have hfull : demandOn scratch p t = t.demand := if_neg hp
    rw [hfull]
    exact hle

/-- What the pool grows by, the lowered step does not ask for any more. -/
theorem size_lower_le (p : Pool) (s : Step) :
    (s.lower scratch p).1.entries.size + demandOn scratch (s.lower scratch p).1 s ≤
      p.entries.size + demandOn scratch p s := by
  have hs := lower_interns (T := fun _ => True) scratch (s := s) fun _ _ => trivial
  have hsettled : demandOn scratch (s.lower scratch p).1 s = 0 := by
    have hagain := hs.again p (s.lower scratch p).1 (.refl _ _)
    rw [demandOn, hagain]
    exact if_pos rfl
  rw [hsettled]
  by_cases hp : (s.lower scratch p).1 = p
  · rw [hp]
    exact Nat.le_add_right _ _
  · have hle := hs.size_le p
    rw [demandOn, if_neg hp]
    exact hle

theorem size_add_demandLeft_lower_le {steps : List Step} {s : Step} (hs : s ∈ steps) (p : Pool) :
    (s.lower scratch p).1.entries.size + demandLeft scratch (s.lower scratch p).1 steps ≤
      p.entries.size + demandLeft scratch p steps := by
  induction steps with
  | nil => cases hs
  | cons t steps ih =>
      simp only [demandLeft, List.map_cons, List.sum_cons] at ih ⊢
      obtain rfl | hs := List.mem_cons.mp hs
      · have hsize := size_lower_le scratch p s
        have hrest : (steps.map (demandOn scratch (s.lower scratch p).1)).sum ≤
            (steps.map (demandOn scratch p)).sum :=
          List.sum_le_sum fun t _ => demandOn_lower_le scratch p s t
        omega
      · have ht := demandOn_lower_le scratch p s t
        have hrest := ih hs
        omega

/-! ### No jumps -/

theorem straight_aload (index : UInt16) : Body.Straight (.aload index) := by
  unfold Instruction.aload
  split
  case h_5 => split <;> rfl
  all_goals rfl

theorem straight_astore (index : UInt16) : Body.Straight (.astore index) := by
  unfold Instruction.astore
  split
  case h_5 => split <;> rfl
  all_goals rfl

theorem straight_pushInt (value : Int32) : Body.Straight (.pushInt value) := by
  unfold Instruction.pushInt
  repeat' split
  all_goals rfl

theorem straight_of_call {c : Callee} {index : UInt16} {i : Instruction}
    (h : c.call index = .ok i) : Body.Straight i := by
  unfold Callee.call at h
  split at h
  case h_4 =>
    split at h
    · cases h
    · cases h
      rfl
  all_goals
    cases h
    rfl

/-- A step is lowered to an instruction that does not jump. -/
theorem straight_of_lower {s : Step} {p q : Pool} {i : Instruction}
    (h : s.lower scratch p = (q, .ok i)) : Body.Straight i := by
  have hi := congrArg Prod.snd h
  cases s with
  | new type =>
      cases hi
      rfl
  | dup =>
      cases hi
      rfl
  | pop =>
      cases hi
      rfl
  | push value =>
      cases hi
      exact straight_pushInt value
  | invoke c => exact straight_of_call hi
  | store argument =>
      obtain ⟨slot, -, rfl⟩ := map_eq_ok.mp hi
      exact straight_astore slot
  | load argument =>
      obtain ⟨slot, -, rfl⟩ := map_eq_ok.mp hi
      exact straight_aload slot

/-! ### All the steps -/

/-- Lowering steps that ask for nothing but what the given ones ask for. -/
theorem size_lowerOnto_le {asking : List Step} {steps : List Step}
    (hsteps : ∀ s ∈ steps, s ∈ asking ∨ s.demand = 0) (p : Pool) (acc : List Instruction) :
    (lowerOnto scratch p acc steps).1.entries.size ≤
      p.entries.size + demandLeft scratch p asking := by
  induction steps generalizing p acc with
  | nil => exact Nat.le_add_right _ _
  | cons s steps ih =>
      obtain ⟨hs, hsteps⟩ := List.forall_mem_cons.mp hsteps
      have hsize : (s.lower scratch p).1.entries.size +
          demandLeft scratch (s.lower scratch p).1 asking ≤
            p.entries.size + demandLeft scratch p asking := by
        obtain hs | hs := hs
        · exact size_add_demandLeft_lower_le scratch hs p
        · cases s with
          | new => cases hs
          | invoke => cases hs
          | _ => exact Nat.le_refl _
      rw [lowerOnto]
      split
      · rename_i q i hlower
        rw [hlower] at hsize
        exact Nat.le_trans (ih hsteps q _) hsize
      · rename_i q e hlower
        rw [hlower] at hsize
        exact Nat.le_trans (Nat.le_add_right _ _) hsize

theorem lowerOnto_grows {steps : List Step} (hsteps : ∀ s ∈ steps, ∀ t ∈ s.texts, T (bytesOfText t))
    (p : Pool) (acc : List Instruction) :
    Pool.Grows (Constant.Interned T) p (lowerOnto scratch p acc steps).1 := by
  induction steps generalizing p acc with
  | nil => exact .refl _ p
  | cons s steps ih =>
      obtain ⟨hs, hsteps⟩ := List.forall_mem_cons.mp hsteps
      have hgrows := (lower_interns scratch hs).grows p
      rw [lowerOnto]
      split
      · rename_i q i hlower
        rw [hlower] at hgrows
        exact hgrows.trans (ih hsteps q _)
      · rename_i q e hlower
        rw [hlower] at hgrows
        exact hgrows

/-- There is one instruction for each step, and none of them jumps. -/
theorem straight_of_lowerOnto {steps : List Step} {p q : Pool} {acc is : List Instruction}
    (h : lowerOnto scratch p acc steps = (q, .ok is)) (hacc : ∀ i ∈ acc, Body.Straight i) :
    is.length = acc.length + steps.length ∧ ∀ i ∈ is, Body.Straight i := by
  induction steps generalizing p acc with
  | nil =>
      cases h
      simpa using hacc
  | cons s steps ih =>
      rw [lowerOnto] at h
      split at h
      · rename_i p' i hlower
        have hi := straight_of_lower scratch hlower
        obtain ⟨hlen, his⟩ := ih h (List.forall_mem_cons.mpr ⟨hi, hacc⟩)
        refine ⟨?_, his⟩
        rw [hlen, List.length_cons, List.length_cons]
        omega
      · cases h

end Step

end Retrofit
