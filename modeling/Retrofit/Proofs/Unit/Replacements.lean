import Retrofit.Proofs.Lowering.Meaning
import Retrofit.Proofs.Recipe.Profile
import Retrofit.Proofs.Unit.Descriptors
import Retrofit.Proofs.Unit.Limits
import Retrofit.Proofs.Unit.Reverting

/-!
# Replacements of scanned calls

What is put in the place of a scanned call takes exactly the arguments of the call off the stack and
leaves its one result. Which recipe it is can be told from the descriptor's text. The number of
arguments is carried in 16 bits and pushed in 15 of them; it is never cut down, as no descriptor of a
loaded class has room for so many references.
-/

namespace Retrofit

/-! ### Types of replaced calls -/

theorem FieldType.slotSize_of_isReference {t : FieldType} (h : t.isReference = true) :
    t.slotSize = 1 := by
  cases t with
  | reference | array => rfl
  | _ => cases h

namespace MethodType

theorem paramSlots_of_references {t : MethodType} (h : ∀ p ∈ t.params, p.isReference = true) :
    t.paramSlots = t.params.length := by
  unfold paramSlots
  generalize t.params = ps at h
  induction ps with
  | nil => rfl
  | cons p ps ih =>
      obtain ⟨hp, hps⟩ := List.forall_mem_cons.mp h
      rw [List.foldr_cons, List.length_cons, ih hps, FieldType.slotSize_of_isReference hp, Nat.add_comm]

/-- A text is read as a type without brackets in class names only if it is the type's descriptor. -/
theorem parse?_eq_iff_of_bracketFree {text descriptor : String} {t : MethodType}
    (hparse : parse? descriptor = some t) (hfree : t.BracketFree) :
    parse? text = some t ↔ text = descriptor := by
  constructor
  · intro h
    have htext := eq_render_of_readsAs (parse?_eq_some_iff.mp h) hfree
    have hdescriptor := eq_render_of_readsAs (parse?_eq_some_iff.mp hparse) hfree
    exact String.toList_inj.mp (htext.trans hdescriptor.symm)
  · rintro rfl
    exact hparse

end MethodType

/-- The highest depth that the recipe reaches when `n` slots are on the stack to begin with. -/
def Recipe.height (n : Nat) : Recipe → Nat
  | fixedArity => max n 3
  | zeroArity => 1
  | variableArity => 3

theorem Replacement.Chosen.eq_height {r : Replacement} {peak : Nat} (h : Chosen r peak) :
    peak = r.recipe.height r.argCount.toNat := by
  cases h <;> rfl

/-! ### Effect and shape -/

/-- The replacement can stand for the call, and is of the kind that the descriptor asks for. -/
structure CallSite.Suits (s : CallSite) (limit : Nat) (r : Replacement) : Prop where
  kind : s.kind = .static
  references : ∀ p ∈ s.type.params, p.isReference = true
  result : r.resultType? = some s.type.returns
  argCount : r.argCount.toNat = s.type.paramSlots
  profile : ∃ top : UInt16, r.stackProfile = .ok ⟨top, 1⟩ ∧
    top.toNat = r.recipe.height r.argCount.toNat
  slotSize : s.type.returns.slotSize = 1
  argSlots : r.argSlots.toNat = s.type.params.length
  variableArity : r.recipe = .variableArity ↔
    s.descriptor = "([Ljava/lang/Object;)Ljava/util/List;"
  zeroArity : r.recipe = .zeroArity ↔ s.descriptor = "()Ljava/util/List;"
  fixedArity : r.recipe = .fixedArity → 1 ≤ s.type.params.length ∧ s.type.params.length ≤ limit

namespace ClassUnit

variable {bytes : List UInt8} {u : ClassUnit} {t : Target} {s : CallSite} {limit : Nat}
  {r : Replacement}

/-- The number of parameters is carried in 16 bits as it is. -/
theorem argCount_of_replacement (hload : ofBytes bytes = .ok u) (hs : s ∈ Target.sites (t.scan u))
    (h : s.replacement limit = .ok r) : r.argCount.toNat = s.type.params.length := by
  obtain ⟨-, -, -, recipe, -, rfl⟩ := Replacement.forCall_eq_ok_iff.mp h
  have hlt := length_params_lt hload hs
  exact UInt16.toNat_ofNat_of_lt' (by show _ < 65536; omega)

/-- A scanned call is replaced by what can stand for it, or refused for a reason that is true of
it. -/
theorem replacement_suits (hload : ofBytes bytes = .ok u) (hs : s ∈ Target.sites (t.scan u))
    (limit : Nat) :
    (∀ r, s.replacement limit = .ok r → s.Suits limit r) ∧
      ∀ e, s.replacement limit = .error e → e.Applies s.kind s.type limit := by
  refine ⟨fun r h => ?_, fun e h => Replacement.applies_of_forCall h⟩
  have hcount := argCount_of_replacement hload hs h
  obtain ⟨peak, hchosen⟩ := Replacement.chosen_of_replacement h
  obtain ⟨c, hdescribes⟩ := Target.describes_of_mem_sites hs
  obtain ⟨hkind, hlist, hreferences, recipe, hserves, rfl⟩ := Replacement.forCall_eq_ok_iff.mp h
  have hdescriptor {descriptor : String} {ps : List FieldType}
      (hparse : MethodType.parse? descriptor = some ⟨ps, .list⟩)
      (hfree : MethodType.BracketFree ⟨ps, .list⟩) :
      s.type.params = ps ↔ s.descriptor = descriptor := by
    rw [← MethodType.parse?_eq_iff_of_bracketFree hparse hfree, hdescribes.type, Option.some_inj,
      MethodType.mk.injEq, hlist]
    simp
  constructor
  case kind => exact hkind
  case references => exact hreferences
  case result => rw [Recipe.resultType?_materialize, hlist]
  case argCount => rw [hcount, MethodType.paramSlots_of_references hreferences]
  case profile =>
    rw [← hchosen.eq_height]
    exact hchosen.stackProfile_eq
  case slotSize =>
    rw [hlist]
    rfl
  case argSlots => rw [hchosen.argSlots_eq, hcount]
  case variableArity => exact hserves.variableArity_iff.trans (hdescriptor (by cbv) (by decide))
  case zeroArity => exact hserves.zeroArity_iff.trans (hdescriptor (by cbv) (by decide))
  case fixedArity => exact hserves.length_bounds

theorem pairSite_mem : pairSite 1 1 ∈ Target.sites (callerTarget.scan pairUnit) := by
  rw [sites_pairUnit]
  exact List.mem_cons_self

/-- Calls with one argument and with none are replaced, but not if no single argument is allowed. -/
theorem replacement_suits_pair :
    (pairSite 1 1).Suits 10 (Recipe.fixedArity.materialize 1) ∧
      callerSite.Suits 10 (Recipe.zeroArity.materialize 0) ∧
      (pairSite 1 1).replacement 0 = .error (.tooManyParameters 1 0) ∧
      Unsupported.Applies (pairSite 1 1).kind (pairSite 1 1).type 0 (.tooManyParameters 1 0) := by
  have hcaller : callerSite ∈ Target.sites (callerTarget.scan callerUnit) := by
    rw [sites_callerUnit]
    exact List.mem_cons_self
  have hrefused : (pairSite 1 1).replacement 0 = .error (.tooManyParameters 1 0) := by cbv
  exact ⟨(replacement_suits ofBytes_pair pairSite_mem 10).1 _ (pairSite_replacement 1 1),
    (replacement_suits ofBytes_caller hcaller 10).1 _ callerSite_replacement, hrefused,
    (replacement_suits ofBytes_pair pairSite_mem 0).2 _ hrefused⟩

end ClassUnit

/-! ### Numbers of arguments -/

/-- No number in the replacement of the call is cut down, and none is less than one. -/
structure CallSite.Counts (s : CallSite) (r : Replacement) : Prop where
  converted : (UInt16.ofNat s.type.params.length).toNat = s.type.params.length
  argCount : r.argCount.toNat = s.type.params.length
  sized : r.recipe = .fixedArity → ∃ v, .push v ∈ r.steps
  capacity : ∀ v : Int32, .push v ∈ r.steps → v.toInt = s.type.params.length ∧
    v.toInt ≤ 32767 ∧ (Instruction.pushInt v).intPushed? = some v.toInt
  arguments : ∀ step ∈ r.steps, ∀ k, step.argument? = some k →
    1 ≤ k.toNat ∧ k.toNat ≤ s.type.params.length

/-- Only arguments one by one are counted in a step. -/
theorem Recipe.push_mem_iff {recipe : Recipe} {n : UInt16} {v : Int32} :
    .push v ∈ recipe.steps n ↔ recipe = .fixedArity ∧ v = Int32.ofInt n.toNat := by
  cases recipe <;> simp [steps, addStep]

namespace ClassUnit

/-- The numbers in a replacement of a scanned call are exact, whatever limit is set on them. -/
theorem replacement_counts {bytes : List UInt8} {u : ClassUnit} {t : Target} {s : CallSite}
    {limit : Nat} {r : Replacement} (hload : ofBytes bytes = .ok u)
    (hs : s ∈ Target.sites (t.scan u)) (h : s.replacement limit = .ok r) : s.Counts r := by
  have hcount := argCount_of_replacement hload hs h
  obtain ⟨peak, hchosen⟩ := Replacement.chosen_of_replacement h
  obtain ⟨-, -, hreferences, recipe, -, rfl⟩ := Replacement.forCall_eq_ok_iff.mp h
  have hconverted : (UInt16.ofNat s.type.params.length).toNat = s.type.params.length := hcount
  have hle := length_params_le_of_references hload hs hreferences
  constructor
  case converted => exact hconverted
  case argCount => exact hcount
  case sized => exact fun hfixed => ⟨_, Recipe.push_mem_iff.mpr ⟨hfixed, rfl⟩⟩
  case capacity =>
    intro v hv
    have hvalue : v.toInt = s.type.params.length := by
      rw [(Recipe.push_mem_iff.mp hv).2, hconverted]
      exact Int32.toInt_ofInt_of_le (by omega) (by omega)
    exact ⟨hvalue, by omega, Instruction.intPushed?_pushInt (by omega) (by omega)⟩
  case arguments =>
    intro step hstep k hk
    rw [← hcount]
    exact hchosen.argument_bounds hstep hk

theorem replacement_counts_pair :
    (pairSite 1 1).Counts (Recipe.fixedArity.materialize 1) ∧
      .push 1 ∈ (Recipe.fixedArity.materialize 1).steps :=
  ⟨replacement_counts ofBytes_pair pairSite_mem (pairSite_replacement 1 1), by decide⟩

end ClassUnit

end Retrofit
