import Retrofit.Proofs.Lowering
import Retrofit.Proofs.Pool.Naming
import Retrofit.Proofs.Recipe.Selection

/-!
# Lowered recipes

What the recipes ask of the pool fits into the headroom that is checked before a replacement is
lowered, for any number of arguments: the steps for the arguments ask for the same method again and
again. The texts they enter are names of the library, none of which names an attribute.
-/

namespace Retrofit

namespace Recipe

/-- The steps of a recipe that ask something of the pool. -/
def asking : Recipe → List Step
  | fixedArity => [.new arrayList, .invoke initSized, .invoke add, .invoke unmodifiableList]
  | zeroArity => [.invoke emptyList]
  | variableArity =>
    [.new arrayList, .invoke initEmpty, .invoke asList, .invoke addAll, .invoke unmodifiableList]

theorem demand_asking_le (r : Recipe) :
    (r.asking.map Step.demand).sum ≤ Replacement.poolDemand := by
  cases r <;> decide

theorem mem_asking_or {r : Recipe} {n : UInt16} {s : Step} (hs : s ∈ r.steps n) :
    s ∈ r.asking ∨ s.demand = 0 ∧ s.texts = [] := by
  cases r with
  | fixedArity =>
      rw [steps, List.mem_append, List.mem_append, List.mem_append] at hs
      rcases hs with hs | hs | hs | hs
      · obtain ⟨argument, -, rfl⟩ := List.mem_map.mp hs
        exact Or.inr ⟨rfl, rfl⟩
      · simp only [List.mem_cons, List.not_mem_nil, or_false] at hs
        rcases hs with rfl | rfl | rfl | rfl
        · exact Or.inl (by simp [asking])
        · exact Or.inr ⟨rfl, rfl⟩
        · exact Or.inr ⟨rfl, rfl⟩
        · exact Or.inl (by simp [asking])
      · obtain ⟨argument, -, hs⟩ := List.mem_flatMap.mp hs
        simp only [addStep, List.mem_cons, List.not_mem_nil, or_false] at hs
        rcases hs with rfl | rfl | rfl | rfl
        · exact Or.inr ⟨rfl, rfl⟩
        · exact Or.inr ⟨rfl, rfl⟩
        · exact Or.inl (by simp [asking])
        · exact Or.inr ⟨rfl, rfl⟩
      · rw [List.mem_singleton] at hs
        exact Or.inl (by simp [asking, hs])
  | zeroArity => exact Or.inl hs
  | variableArity =>
      simp only [steps, List.mem_cons, List.not_mem_nil, or_false] at hs
      simp only [asking, List.mem_cons, List.not_mem_nil, or_false]
      rcases hs with rfl | rfl | rfl | rfl | rfl | rfl | rfl | rfl | rfl | rfl <;>
        simp [Step.demand, Step.texts]

/-- The texts of the library that the recipes enter. -/
def libraryTexts : List String :=
  [arrayList, "<init>", "()V", "(I)V", "add", "(Ljava/lang/Object;)Z", "addAll",
    "(Ljava/util/Collection;)Z", "java/util/Arrays", "asList",
    "([Ljava/lang/Object;)Ljava/util/List;", "java/util/Collections", "emptyList",
    "()Ljava/util/List;", "unmodifiableList", "(Ljava/util/List;)Ljava/util/List;"]

theorem texts_subset {r : Recipe} {s : Step} (hs : s ∈ r.asking) : s.texts ⊆ libraryTexts := by
  cases r <;> revert s <;> decide

theorem plainText_of_mem {t : String} (ht : t ∈ libraryTexts) : PlainText (bytesOfText t) := by
  have hfits : ∀ t ∈ libraryTexts, (bytesOfText t).length < 65536 := by decide
  have hnames : ∀ t ∈ libraryTexts, t ∉ "Code" :: CodeTable.names := by decide
  refine ⟨hfits t ht, fun name hname htext => ?_⟩
  rw [textOfBytes?_bytesOfText, Option.some_inj] at htext
  rw [← htext] at hname
  exact hnames t ht hname

theorem steps_ne_nil (r : Recipe) (n : UInt16) : r.steps n ≠ [] := by
  cases r <;> simp [steps]

end Recipe

/-- A replacement for a call is a recipe for some number of arguments. -/
theorem Replacement.exists_materialize {kind : CallKind} {t : MethodType} {maxFixedArity : Nat}
    {r : Replacement} (h : forCall kind t maxFixedArity = .ok r) :
    ∃ recipe n, r = Recipe.materialize recipe n := by
  obtain ⟨-, -, -, recipe, -, hr⟩ := forCall_eq_ok_iff.mp h
  exact ⟨recipe, _, hr⟩

/-- Lowering a recipe appends no more than the check reserves, however many arguments there are. -/
theorem Recipe.size_lower_le (recipe : Recipe) (n : UInt16) (p : Pool) (scratch : UInt16) :
    ((recipe.materialize n).lower p scratch).1.entries.size ≤
      p.entries.size + Replacement.poolDemand := by
  unfold Replacement.lower
  split
  · exact Nat.le_add_right _ _
  · have hasking : ∀ s ∈ recipe.steps n, s ∈ recipe.asking ∨ s.demand = 0 :=
      fun s hs => (mem_asking_or hs).imp_right And.left
    have hsize := Step.size_lowerOnto_le scratch hasking p []
    have hdemand := Step.demandLeft_le scratch p recipe.asking
    have hreserved := recipe.demand_asking_le
    show (Step.lowerOnto scratch p [] (recipe.steps n)).1.entries.size ≤ _
    omega

/-- A pool that has an index for each entry keeps one for each: it is only appended to if the check
finds room for all that may be asked for. -/
theorem Recipe.size_lower_le_max (recipe : Recipe) (n : UInt16) (p : Pool) (scratch : UInt16) :
    ((recipe.materialize n).lower p scratch).1.entries.size ≤ max p.entries.size 65534 := by
  have hle := recipe.size_lower_le n p scratch
  by_cases hroom : p.headroom < Replacement.poolDemand
  · rw [Replacement.lower, if_pos hroom]
    exact Nat.le_max_left _ _
  · have hreserved : Replacement.poolDemand = 32 := rfl
    unfold Pool.headroom at hroom
    omega

/-- Lowering a recipe enters plain texts only, leaves the pool with an index for each entry, and
gives at least one instruction and no jump. -/
theorem Recipe.lower_materialize {recipe : Recipe} {n scratch : UInt16} {p q : Pool}
    {is : List Instruction}
    (h : (recipe.materialize n).lower p scratch = (q, .ok is)) :
    p.Grows (Constant.Interned PlainText) q ∧ q.entries.size ≤ 65534 ∧ is ≠ [] ∧
      ∀ i ∈ is, Body.Straight i := by
  have hmax := recipe.size_lower_le_max n p scratch
  rw [h] at hmax
  unfold Replacement.lower at h
  split at h
  · cases h
  rename_i hroom
  have htexts : ∀ s ∈ recipe.steps n, ∀ t ∈ s.texts, PlainText (bytesOfText t) := by
    intro s hs t ht
    rcases mem_asking_or hs with hasking | ⟨-, hnone⟩
    · exact plainText_of_mem (texts_subset hasking ht)
    · rw [hnone] at ht
      cases ht
  have hgrows := Step.lowerOnto_grows scratch htexts p []
  obtain ⟨hlen, hstraight⟩ := Step.straight_of_lowerOnto scratch h (by simp)
  rw [materialize] at h
  rw [h] at hgrows
  refine ⟨hgrows, ?_, ?_, hstraight⟩
  · unfold Pool.headroom at hroom
    have hreserved : Replacement.poolDemand = 32 := rfl
    dsimp only at hmax
    omega
  · have hpos := List.length_pos_iff.mpr (recipe.steps_ne_nil n)
    rw [← List.length_pos_iff, hlen]
    exact Nat.lt_of_lt_of_le hpos (Nat.le_add_left _ _)

/-- The instructions for a call with one argument that is kept in `slot`, by the pool entries for the
class and the methods that they name. -/
def Recipe.singleCode (slot list init added wrap : UInt16) : List Instruction :=
  [.astore slot, .new list, .dup, .pushInt 1, .invokespecial init, .dup, .aload slot,
    .invokevirtual added, .pop, .invokestatic wrap]

/-- A call with one argument is lowered to these, if there is room in the pool. -/
theorem Recipe.lower_single {p p₁ p₂ p₃ q : Pool} {scratch slot list init added wrap : UInt16}
    (hroom : ¬p.headroom < Replacement.poolDemand) (hslot : argumentSlot scratch 1 = .ok slot)
    (hlist : p.internClass arrayList = (p₁, list))
    (hinit : p₁.internMethod initSized.owner initSized.name initSized.descriptor false = (p₂, init))
    (hadd : p₂.internMethod add.owner add.name add.descriptor false = (p₃, added))
    (hwrap : p₃.internMethod unmodifiableList.owner unmodifiableList.name
      unmodifiableList.descriptor false = (q, wrap)) :
    (fixedArity.materialize 1).lower p scratch = (q, .ok (singleCode slot list init added wrap)) := by
  have hsteps : fixedArity.steps 1 = [.store 1, .new arrayList, .dup, .push 1, .invoke initSized, .dup,
      .load 1, .invoke add, .pop, .invoke unmodifiableList] := by decide
  have hstore : Instruction.astore <$> argumentSlot scratch 1 = .ok (.astore slot) := by
    rw [hslot]
    rfl
  have hload : Instruction.aload <$> argumentSlot scratch 1 = .ok (.aload slot) := by
    rw [hslot]
    rfl
  have hinit' : initSized.lower p₁ = (p₂, .ok (.invokespecial init)) :=
    congrArg (fun x => (x.1, initSized.call x.2)) hinit
  have hadd' : add.lower p₂ = (p₃, .ok (.invokevirtual added)) :=
    congrArg (fun x => (x.1, add.call x.2)) hadd
  have hwrap' : unmodifiableList.lower p₃ = (q, .ok (.invokestatic wrap)) :=
    congrArg (fun x => (x.1, unmodifiableList.call x.2)) hwrap
  unfold Replacement.lower
  rw [if_neg hroom, materialize, hsteps]
  simp only [Step.lowerOnto, Step.lower, hstore, hload, hlist, hinit', hadd', hwrap']
  rfl

end Retrofit
