import Retrofit.CallSite
import Retrofit.Proofs.Pool.Members
import Retrofit.Proofs.Recipe.Lowering

/-!
# Calls in lowered recipes

An instruction that a step was lowered to calls what the step calls, and the pool names it so. The
methods that the recipes call are those of the library. Only the recipe for no arguments starts with
a call.
-/

namespace Retrofit

namespace Step

/-- If the instruction is a call, the step `s` calls the method that the pool names. -/
def LoweredTo (q : Pool) (s : Step) (i : Instruction) : Prop :=
  ∀ kind index, i.call? = some (kind, index) → ∃ c : Callee, s = .invoke c ∧ kind = c.kind ∧
    q.member? index = some ⟨c.owner, c.name, c.descriptor, c.kind == .interface⟩

variable {scratch : UInt16}

theorem call?_aload (index : UInt16) : (Instruction.aload index).call? = none := by
  unfold Instruction.aload
  split
  case h_5 => split <;> rfl
  all_goals rfl

theorem call?_astore (index : UInt16) : (Instruction.astore index).call? = none := by
  unfold Instruction.astore
  split
  case h_5 => split <;> rfl
  all_goals rfl

theorem call?_pushInt (value : Int32) : (Instruction.pushInt value).call? = none := by
  unfold Instruction.pushInt
  repeat' split
  all_goals rfl

theorem call?_of_call {c : Callee} {index : UInt16} {i : Instruction} (h : c.call index = .ok i) :
    i.call? = some (c.kind, index) := by
  unfold Callee.call at h
  split at h
  case h_4 hkind =>
    split at h
    · cases h
    · cases h
      rw [hkind]
      rfl
  all_goals
    rename_i hkind
    cases h
    rw [hkind]
    rfl

theorem loweredTo_of_lower {s : Step} {p q : Pool} {i : Instruction}
    (h : s.lower scratch p = (q, .ok i)) (hsize : q.entries.size ≤ 65534) : s.LoweredTo q i := by
  intro kind index hcall
  have hi := congrArg Prod.snd h
  have hq := congrArg Prod.fst h
  cases s with
  | invoke c =>
      have hcall' := call?_of_call hi
      rw [hcall, Option.some_inj, Prod.mk.injEq] at hcall'
      obtain ⟨hkind, hindex⟩ := hcall'
      refine ⟨c, rfl, hkind, ?_⟩
      subst hq
      rw [hindex]
      exact Pool.internMethod_member? hsize
  | new type =>
      cases hi
      cases hcall
  | dup =>
      cases hi
      cases hcall
  | pop =>
      cases hi
      cases hcall
  | push value =>
      cases hi
      rw [call?_pushInt] at hcall
      cases hcall
  | store argument =>
      obtain ⟨slot, -, rfl⟩ := map_eq_ok.mp hi
      rw [call?_astore] at hcall
      cases hcall
  | load argument =>
      obtain ⟨slot, -, rfl⟩ := map_eq_ok.mp hi
      rw [call?_aload] at hcall
      cases hcall

theorem LoweredTo.grow {P : Constant → Prop} {p q : Pool} (hgrows : p.Grows P q) {s : Step}
    {i : Instruction} (h : s.LoweredTo p i) : s.LoweredTo q i := by
  intro kind index hcall
  obtain ⟨c, hs, hkind, hmember⟩ := h kind index hcall
  exact ⟨c, hs, hkind, hgrows.member?_eq hmember⟩

/-- What relates each step to the instruction it is lowered to, and outlasts the growth of the pool,
relates the steps to what all of them are lowered to. -/
theorem forall₂_of_lowerOnto {R : Pool → Step → Instruction → Prop}
    (hlower : ∀ s p q i, s.lower scratch p = (q, .ok i) → q.entries.size ≤ 65534 → R q s i)
    (hgrow : ∀ p q s i, p.Grows (fun _ => True) q → R p s i → R q s i) {steps : List Step}
    {p q : Pool} {acc is : List Instruction} (h : lowerOnto scratch p acc steps = (q, .ok is))
    (hsize : q.entries.size ≤ 65534) :
    ∃ js, is = acc.reverse ++ js ∧ List.Forall₂ (R q) steps js := by
  induction steps generalizing p acc with
  | nil =>
      cases h
      exact ⟨[], (List.append_nil _).symm, .nil⟩
  | cons s steps ih =>
      rw [lowerOnto] at h
      split at h
      · rename_i p' i hs
        have hgrows : p'.Grows (Constant.Interned fun _ => True)
            (lowerOnto scratch p' (i :: acc) steps).1 :=
          lowerOnto_grows scratch (fun _ _ _ _ => trivial) p' (i :: acc)
        rw [h] at hgrows
        have hi := hlower s p p' i hs (Nat.le_trans hgrows.size_le hsize)
        obtain ⟨js, rfl, hjs⟩ := ih h
        refine ⟨i :: js, ?_, .cons (hgrow p' q s i (hgrows.mono fun _ _ => trivial) hi) hjs⟩
        rw [List.reverse_cons, List.append_assoc, List.singleton_append]
      · cases h

end Step

namespace Recipe

/-- What relates each step to its instruction relates the steps of a recipe to what it is lowered
to. -/
theorem forall₂_of_lower {R : Pool → Step → Instruction → Prop} {scratch : UInt16}
    (hlower : ∀ s p q i, s.lower scratch p = (q, .ok i) → q.entries.size ≤ 65534 → R q s i)
    (hgrow : ∀ p q s i, p.Grows (fun _ => True) q → R p s i → R q s i) {recipe : Recipe} {n : UInt16}
    {p q : Pool} {is : List Instruction}
    (h : (recipe.materialize n).lower p scratch = (q, .ok is)) :
    List.Forall₂ (R q) (recipe.steps n) is := by
  obtain ⟨-, hsize, -⟩ := lower_materialize h
  unfold Replacement.lower at h
  split at h
  · cases h
  obtain ⟨js, rfl, hjs⟩ := Step.forall₂_of_lowerOnto hlower hgrow h hsize
  exact hjs

/-- The instructions of a recipe call what its steps call. -/
theorem loweredTo_of_lower {recipe : Recipe} {n scratch : UInt16} {p q : Pool}
    {is : List Instruction} (h : (recipe.materialize n).lower p scratch = (q, .ok is)) :
    List.Forall₂ (Step.LoweredTo q) (recipe.steps n) is :=
  forall₂_of_lower (fun _ _ _ _ => Step.loweredTo_of_lower) (fun _ _ _ _ hgrows hi => hi.grow hgrows) h

/-- A recipe that starts with a call is the one for no arguments. -/
theorem head_steps {recipe : Recipe} {n : UInt16} {c : Callee} {steps : List Step}
    (h : recipe.steps n = .invoke c :: steps) : c = emptyList := by
  cases recipe with
  | fixedArity =>
      rw [Recipe.steps] at h
      cases harguments : (arguments n).reverse with
      | nil =>
          rw [harguments] at h
          cases h
      | cons argument rest =>
          rw [harguments] at h
          cases h
  | zeroArity =>
      cases h
      rfl
  | variableArity => cases h

/-- The first instruction of a recipe calls nothing but the factory of empty lists. -/
theorem head_lower {recipe : Recipe} {n scratch : UInt16} {p q : Pool} {i : Instruction}
    {is : List Instruction} (h : (recipe.materialize n).lower p scratch = (q, .ok (i :: is)))
    {kind : CallKind} {index : UInt16} (hcall : i.call? = some (kind, index)) :
    q.member? index =
      some ⟨emptyList.owner, emptyList.name, emptyList.descriptor, false⟩ := by
  have hsteps := loweredTo_of_lower h
  generalize hrecipe : recipe.steps n = steps at hsteps
  cases hsteps with
  | cons hs _ =>
      obtain ⟨c, rfl, -, hmember⟩ := hs kind index hcall
      obtain rfl := head_steps hrecipe
      exact hmember

end Recipe

end Retrofit
