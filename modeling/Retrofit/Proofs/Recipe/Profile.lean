import Retrofit.Proofs.Instruction.Usage
import Retrofit.Proofs.Lists
import Retrofit.Proofs.Recipe.Calls

/-!
# Stack and slots of lowered recipes

The stack use of a recipe is known exactly, and the instructions that its steps are lowered to move
the operand stack as the steps do, from any depth. The slots that they touch are those of the
arguments, above the first free one.
-/

namespace Retrofit

/-! ### Slots of arguments -/

theorem toNat_max (a b : UInt16) : (max a b).toNat = max a.toNat b.toNat := by
  rw [show max a b = if a ≤ b then b else a from rfl]
  split
  · rename_i h
    exact (Nat.max_eq_right (UInt16.le_iff_toNat_le.mp h)).symm
  · rename_i h
    exact (Nat.max_eq_left (Nat.le_of_not_le fun hle => h (UInt16.le_iff_toNat_le.mpr hle))).symm

namespace Step

/-- The argument that a step stores or loads. -/
def argument? : Step → Option UInt16
  | store k | load k => some k
  | _ => none

/-- The larger of a number of slots and the number of the step's argument. -/
def raiseSlots (m : UInt16) (s : Step) : UInt16 :=
  match s.argument? with
  | some k => max m k
  | none => m

theorem le_foldl_raiseSlots (ss : List Step) (m : UInt16) :
    m.toNat ≤ (ss.foldl raiseSlots m).toNat ∧
      ∀ s ∈ ss, ∀ k, s.argument? = some k → k.toNat ≤ (ss.foldl raiseSlots m).toNat := by
  induction ss generalizing m with
  | nil => simp
  | cons s ss ih =>
      obtain ⟨hle, hss⟩ := ih (raiseSlots m s)
      rw [List.foldl_cons, List.forall_mem_cons]
      have hs : m.toNat ≤ (raiseSlots m s).toNat ∧
          ∀ k, s.argument? = some k → k.toNat ≤ (raiseSlots m s).toNat := by
        unfold raiseSlots
        cases s.argument? with
        | none => simp
        | some k => simp [toNat_max]
      exact ⟨Nat.le_trans hs.1 hle, fun k hk => Nat.le_trans (hs.2 k hk) hle, hss⟩

theorem foldl_raiseSlots_le {ss : List Step} {m : UInt16} {bound : Nat} (hm : m.toNat ≤ bound)
    (hss : ∀ s ∈ ss, ∀ k, s.argument? = some k → k.toNat ≤ bound) :
    (ss.foldl raiseSlots m).toNat ≤ bound := by
  induction ss generalizing m with
  | nil => exact hm
  | cons s ss ih =>
      obtain ⟨hs, hss⟩ := List.forall_mem_cons.mp hss
      refine ih ?_ hss
      unfold raiseSlots
      cases hk : s.argument? with
      | none => exact hm
      | some k =>
          rw [toNat_max]
          exact Nat.max_le.mpr ⟨hm, hs k hk⟩

end Step

theorem Replacement.argSlots_eq_foldl (r : Replacement) :
    r.argSlots = r.steps.foldl Step.raiseSlots 0 := by
  unfold argSlots
  congr
  funext m s
  cases s <;> rfl

/-- There is a slot for each argument that is stored or loaded. -/
theorem Replacement.le_argSlots {r : Replacement} {s : Step} (hs : s ∈ r.steps) {k : UInt16}
    (hk : s.argument? = some k) : k.toNat ≤ r.argSlots.toNat := by
  rw [argSlots_eq_foldl]
  exact (Step.le_foldl_raiseSlots r.steps 0).2 s hs k hk

namespace Replacement

/-! ### Stack profiles -/

theorem walk_cons_of_effect {s : Step} {ss : List Step} {peak depth pops pushes : Nat}
    (h : s.effect = .ok (pops, pushes)) (hle : pops ≤ depth) :
    walk (s :: ss) peak depth =
      walk ss (max peak (depth - pops + pushes)) (depth - pops + pushes) := by
  rw [walk, h]
  exact if_neg (Nat.not_lt.mpr hle)

/-- Steps after a start that was walked go on from where it ended. -/
theorem walk_append {ss ts : List Step} {peak depth peak' depth' : Nat}
    (h : walk ss peak depth = .ok (peak', depth')) :
    walk (ss ++ ts) peak depth = walk ts peak' depth' := by
  induction ss generalizing peak depth with
  | nil =>
      cases h
      rfl
  | cons s ss ih =>
      rw [List.cons_append]
      rw [walk] at h ⊢
      split at h
      · cases h
      · rename_i pops pushes heffect
        split at h
        · cases h
        · rename_i hle
          rw [if_neg hle]
          exact ih h

theorem walk_stores (ks : List UInt16) {peak depth : Nat} (h : ks.length + depth ≤ peak) :
    walk (ks.map .store) peak (ks.length + depth) = .ok (peak, depth) := by
  induction ks with
  | nil =>
      rw [List.length_nil, Nat.zero_add]
      rfl
  | cons k ks ih =>
      have heffect : (Step.store k).effect = .ok (1, 0) := rfl
      rw [List.length_cons] at h
      rw [List.map_cons, List.length_cons, walk_cons_of_effect heffect (by omega)]
      have hdepth : ks.length + 1 + depth - 1 + 0 = ks.length + depth := by omega
      rw [hdepth, Nat.max_eq_left (by omega)]
      exact ih (by omega)

theorem effect_add : (Step.invoke Recipe.add).effect = .ok (2, 1) := by cbv

/-- Appending arguments to a list takes two slots above it and leaves none of them. -/
theorem walk_adds (ks : List UInt16) {peak : Nat} (h : 3 ≤ peak) :
    walk (ks.flatMap Recipe.addStep) peak 1 = .ok (peak, 1) := by
  induction ks with
  | nil => rfl
  | cons k ks ih =>
      have hone : walk (Recipe.addStep k) peak 1 = .ok (peak, 1) := by
        have hdup : Step.dup.effect = .ok (1, 2) := rfl
        have hload : (Step.load k).effect = .ok (0, 1) := rfl
        have hpop : Step.pop.effect = .ok (1, 0) := rfl
        rw [Recipe.addStep, walk_cons_of_effect hdup (by decide),
          walk_cons_of_effect hload (by decide), walk_cons_of_effect effect_add (by decide),
          walk_cons_of_effect hpop (by decide), walk]
        congr 2
        omega
      rw [List.flatMap_cons, walk_append hone]
      exact ih

/-- The steps that make a growable list take three slots. -/
theorem walk_newSizedList (peak : Nat) (capacity : Int32) :
    walk [.new Recipe.arrayList, .dup, .push capacity, .invoke Recipe.initSized] peak 0 =
      .ok (max peak 3, 1) := by
  have hnew : (Step.new Recipe.arrayList).effect = .ok (0, 1) := rfl
  have hdup : Step.dup.effect = .ok (1, 2) := rfl
  have hpush : (Step.push capacity).effect = .ok (0, 1) := rfl
  have hinit : (Step.invoke Recipe.initSized).effect = .ok (2, 0) := by cbv
  rw [walk_cons_of_effect hnew (by decide), walk_cons_of_effect hdup (by decide),
    walk_cons_of_effect hpush (by decide), walk_cons_of_effect hinit (by decide), walk]
  congr 2
  omega

theorem walk_fixedArity (n : UInt16) :
    walk (Recipe.fixedArity.steps n) n.toNat n.toNat = .ok (max n.toNat 3, 1) := by
  have hlength : (Recipe.arguments n).reverse.length = n.toNat := by
    rw [List.length_reverse, Recipe.arguments, List.length_map, List.length_range]
  have hstores : walk ((Recipe.arguments n).reverse.map .store) n.toNat
      ((Recipe.arguments n).reverse.length + 0) = .ok (n.toNat, 0) :=
    walk_stores _ (by rw [hlength]; omega)
  have hwrap : (Step.invoke Recipe.unmodifiableList).effect = .ok (1, 1) := by cbv
  rw [hlength, Nat.add_zero] at hstores
  rw [Recipe.steps, walk_append hstores, walk_append (walk_newSizedList _ _),
    walk_append (walk_adds _ (Nat.le_max_right _ _)), walk_cons_of_effect hwrap (by decide), walk]
  congr 2
  omega

/-- Arguments one by one need as many slots as there are of them, and three at least. -/
theorem stackProfile_fixedArity (n : UInt16) :
    (Recipe.fixedArity.materialize n).stackProfile =
      .ok ⟨UInt16.ofNat (max n.toNat 3), 1⟩ := by
  have hwalk : walk (Recipe.fixedArity.materialize n).steps
      (Recipe.fixedArity.materialize n).argCount.toNat
      (Recipe.fixedArity.materialize n).argCount.toNat = _ := walk_fixedArity n
  rw [stackProfile, hwalk]
  rfl

theorem stackProfile_zeroArity : (Recipe.zeroArity.materialize 0).stackProfile = .ok ⟨1, 1⟩ := by
  cbv

theorem stackProfile_variableArity :
    (Recipe.variableArity.materialize 1).stackProfile = .ok ⟨3, 1⟩ := by
  cbv

/-- The replacements that are chosen for calls, with what they need: the recipe, the number of its
arguments, and the highest depth that it reaches from them. -/
inductive Chosen : Replacement → Nat → Prop
  | fixedArity (n : UInt16) : Chosen (Recipe.fixedArity.materialize n) (max n.toNat 3)
  | zeroArity : Chosen (Recipe.zeroArity.materialize 0) 1
  | variableArity : Chosen (Recipe.variableArity.materialize 1) 3

theorem chosen_of_forCall {kind : CallKind} {t : MethodType} {maxFixedArity : Nat} {r : Replacement}
    (h : forCall kind t maxFixedArity = .ok r) : ∃ peak, Chosen r peak := by
  obtain ⟨-, -, -, recipe, hserves, rfl⟩ := forCall_eq_ok_iff.mp h
  generalize t.params = ps at hserves ⊢
  cases hserves with
  | fixedArity => exact ⟨_, .fixedArity _⟩
  | zeroArity => exact ⟨_, .zeroArity⟩
  | variableArity => exact ⟨_, .variableArity⟩

namespace Chosen

variable {r : Replacement} {peak : Nat} (h : Chosen r peak)

include h

theorem exists_materialize : ∃ recipe n, r = Recipe.materialize recipe n := by
  cases h with
  | fixedArity n => exact ⟨_, n, rfl⟩
  | zeroArity => exact ⟨_, 0, rfl⟩
  | variableArity => exact ⟨_, 1, rfl⟩

theorem walk_eq : walk r.steps r.argCount.toNat r.argCount.toNat = .ok (peak, 1) := by
  cases h with
  | fixedArity n => exact walk_fixedArity n
  | zeroArity => cbv
  | variableArity => cbv

theorem argCount_le : max r.argCount.toNat 1 ≤ peak := by
  cases h with
  | fixedArity n =>
      show max n.toNat 1 ≤ max n.toNat 3
      omega
  | zeroArity => decide
  | variableArity => decide

theorem stackProfile_eq :
    ∃ top : UInt16, r.stackProfile = .ok ⟨top, 1⟩ ∧ top.toNat = peak := by
  cases h with
  | fixedArity n =>
      refine ⟨_, stackProfile_fixedArity n, UInt16.toNat_ofNat_of_lt' ?_⟩
      have hn := n.toNat_lt
      show max n.toNat 3 < 65536
      omega
  | zeroArity => exact ⟨_, stackProfile_zeroArity, rfl⟩
  | variableArity => exact ⟨_, stackProfile_variableArity, rfl⟩

/-- Arguments are numbered from 1, and no higher than there are slots of them. -/
theorem argument_bounds {s : Step} (hs : s ∈ r.steps) {k : UInt16} (hk : s.argument? = some k) :
    0 < k.toNat ∧ k.toNat ≤ r.argCount.toNat := by
  cases h with
  | fixedArity n =>
      have hmem : k ∈ Recipe.arguments n := by
        rw [Recipe.materialize, Recipe.steps] at hs
        simp only [List.mem_append, List.mem_map, List.mem_flatMap, List.mem_reverse, Recipe.addStep,
          List.mem_cons, List.not_mem_nil, or_false] at hs
        rcases hs with ⟨j, hj, rfl⟩ | (rfl | rfl | rfl | rfl) | ⟨j, hj, rfl | rfl | rfl | rfl⟩ | rfl <;>
          cases hk
        · exact hj
        · exact hj
      obtain ⟨i, hi, rfl⟩ := List.mem_map.mp hmem
      have hn := n.toNat_lt
      have hlt := List.mem_range.mp hi
      have hk : (UInt16.ofNat (i + 1)).toNat = i + 1 :=
        UInt16.toNat_ofNat_of_lt' (by show i + 1 < 65536; omega)
      rw [hk]
      exact ⟨Nat.succ_pos i, hlt⟩
  | zeroArity =>
      rw [List.mem_singleton.mp hs] at hk
      cases hk
  | variableArity =>
      rw [Recipe.materialize, Recipe.steps] at hs
      simp only [List.mem_cons, List.not_mem_nil, or_false] at hs
      rcases hs with rfl | rfl | rfl | rfl | rfl | rfl | rfl | rfl | rfl | rfl <;> cases hk <;> decide

/-- There are no more slots than arguments, as the last one is stored. -/
theorem argSlots_eq : r.argSlots = r.argCount := by
  refine UInt16.toNat_inj.mp (Nat.le_antisymm ?_ ?_)
  · rw [argSlots_eq_foldl]
    exact Step.foldl_raiseSlots_le (Nat.zero_le _) fun s hs k hk => (h.argument_bounds hs hk).2
  · cases h with
    | fixedArity n =>
        by_cases hn : n.toNat = 0
        · exact hn ▸ Nat.zero_le _
        · have hlast : n ∈ Recipe.arguments n := List.mem_map.mpr ⟨n.toNat - 1,
            List.mem_range.mpr (by omega), by rw [Nat.sub_add_cancel (by omega), UInt16.ofNat_toNat]⟩
          have hmem : Step.store n ∈ (Recipe.fixedArity.materialize n).steps :=
            List.mem_append_left _ (List.mem_map_of_mem (List.mem_reverse.mpr hlast))
          exact le_argSlots hmem rfl
    | zeroArity => decide
    | variableArity => exact le_argSlots (s := .store 1) List.mem_cons_self rfl

end Chosen

theorem chosen_of_replacement {s : CallSite} {maxFixedArity : Nat} {r : Replacement}
    (h : s.replacement maxFixedArity = .ok r) : ∃ peak, Chosen r peak :=
  chosen_of_forCall h

end Replacement

namespace Step

/-- The instruction moves the stack as the step does, and touches no slot but that of the step's
argument. -/
structure UsesAs (scratch : UInt16) (q : Pool) (s : Step) (i : Instruction) : Prop where
  effect : ∀ e, s.effect = .ok e → i.stackEffect? q = some e
  slots : ∀ x ∈ i.localSlots, ∃ k, s.argument? = some k ∧ x = scratch.toNat + (k.toNat - 1)

theorem toNat_of_argumentSlot {scratch k slot : UInt16} (h : argumentSlot scratch k = .ok slot) :
    slot.toNat = scratch.toNat + (k.toNat - 1) := by
  unfold argumentSlot at h
  dsimp only at h
  split at h
  · rename_i hle
    cases h
    exact UInt16.toNat_ofNat_of_lt' (Nat.lt_succ_of_le hle)
  · cases h

theorem usesAs_of_lower {scratch : UInt16} {s : Step} {p q : Pool} {i : Instruction}
    (h : s.lower scratch p = (q, .ok i)) (hsize : q.entries.size ≤ 65534) :
    s.UsesAs scratch q i := by
  have hi := congrArg Prod.snd h
  cases s with
  | invoke c =>
      have hcall := call?_of_call hi
      obtain ⟨c', hc', -, hmember⟩ := loweredTo_of_lower h hsize _ _ hcall
      cases hc'
      constructor
      · intro e he
        rw [effect] at he
        split at he
        · cases he
        · rename_i t ht
          cases he
          rw [Instruction.stackEffect?_of_call hcall, Instruction.callEffect?, hmember]
          dsimp only [Option.bind_eq_bind, Option.bind_some]
          rw [ht]
          rfl
      · rw [Instruction.localSlots_of_call hcall]
        simp
  | new type =>
      cases hi
      exact ⟨fun e he => by cases he; rfl, by simp [Instruction.new, Instruction.localSlots]⟩
  | dup =>
      cases hi
      exact ⟨fun e he => by cases he; rfl, by simp [Instruction.dup, Instruction.localSlots]⟩
  | pop =>
      cases hi
      exact ⟨fun e he => by cases he; rfl, by simp [Instruction.pop, Instruction.localSlots]⟩
  | push value =>
      cases hi
      refine ⟨fun e he => ?_, by simp [Instruction.localSlots_pushInt]⟩
      cases he
      exact Instruction.stackEffect?_pushInt value
  | store k =>
      obtain ⟨slot, hslot, rfl⟩ := map_eq_ok.mp hi
      refine ⟨fun e he => ?_, fun x hx => ⟨k, rfl, ?_⟩⟩
      · cases he
        exact Instruction.stackEffect?_astore slot
      · rw [Instruction.localSlots_astore, List.mem_singleton] at hx
        rw [hx, toNat_of_argumentSlot hslot]
  | load k =>
      obtain ⟨slot, hslot, rfl⟩ := map_eq_ok.mp hi
      refine ⟨fun e he => ?_, fun x hx => ⟨k, rfl, ?_⟩⟩
      · cases he
        exact Instruction.stackEffect?_aload slot
      · rw [Instruction.localSlots_aload, List.mem_singleton] at hx
        rw [hx, toNat_of_argumentSlot hslot]

theorem UsesAs.grow {scratch : UInt16} {P : Constant → Prop} {p q : Pool} (hgrows : p.Grows P q)
    {s : Step} {i : Instruction} (h : s.UsesAs scratch p i) : s.UsesAs scratch q i :=
  ⟨fun e he => Instruction.stackEffect?_grow hgrows (h.effect e he), h.slots⟩

end Step

/-! ### Lowered recipes -/

theorem Replacement.le_of_walk {ss : List Step} {peak depth peak' last : Nat}
    (h : walk ss peak depth = .ok (peak', last)) : peak ≤ peak' := by
  induction ss generalizing peak depth with
  | nil =>
      cases h
      exact Nat.le_refl _
  | cons s ss ih =>
      rw [walk] at h
      split at h
      · cases h
      · split at h
        · cases h
        · exact Nat.le_trans (Nat.le_max_left _ _) (ih h)

/-- Instructions reach the depths that their steps reach, above whatever lies below. -/
theorem Replacement.depths?_of_walk {scratch : UInt16} {q : Pool} {ss : List Step}
    {is : List Instruction} (h : List.Forall₂ (Step.UsesAs scratch q) ss is)
    {peak depth peak' last : Nat} (hwalk : walk ss peak depth = .ok (peak', last))
    (hpeak : depth ≤ peak) (below : Nat) :
    ∃ ds, Code.depths? q is (below + depth) = some ds ∧ (∀ x ∈ ds, x ≤ below + peak') ∧
      ds.getLast? = some (below + last) := by
  induction h generalizing peak depth with
  | nil =>
      cases hwalk
      refine ⟨_, rfl, ?_, rfl⟩
      simpa using hpeak
  | @cons s i ss is hi _ ih =>
      have hle := Nat.le_trans hpeak (le_of_walk hwalk)
      rw [walk] at hwalk
      split at hwalk
      · cases hwalk
      rename_i pops pushes heffect
      split at hwalk
      · cases hwalk
      rename_i hpops
      obtain ⟨ds, hds, hbound, hlast⟩ := ih hwalk (Nat.le_max_right _ _)
      have hdepth : below + depth - pops + pushes = below + (depth - pops + pushes) := by omega
      refine ⟨(below + depth) :: ds, ?_, ?_, ?_⟩
      · rw [Code.depths?, hi.effect _ heffect]
        dsimp only [Option.bind_eq_bind, Option.bind_some]
        rw [if_neg (by omega), hdepth, hds]
        rfl
      · rw [List.forall_mem_cons]
        exact ⟨Nat.add_le_add_left hle below, hbound⟩
      · rw [List.getLast?_cons, hlast]
        rfl

namespace Replacement.Chosen

variable {r : Replacement} {peak : Nat} {scratch : UInt16} {p q : Pool} {is : List Instruction}
  (h : Chosen r peak) (hlower : r.lower p scratch = (q, .ok is))

include h hlower

theorem usesAs : List.Forall₂ (Step.UsesAs scratch q) r.steps is := by
  obtain ⟨recipe, n, rfl⟩ := h.exists_materialize
  exact Recipe.forall₂_of_lower (fun _ _ _ _ => Step.usesAs_of_lower)
    (fun _ _ _ _ hgrows hi => hi.grow hgrows) hlower

/-- From any depth that leaves room for the arguments, the instructions put one slot in the place of
the arguments and reach no higher than the recipe does above what lies below them. -/
theorem depths?_eq {P : Constant → Prop} {q' : Pool} (hgrows : q.Grows P q') {d : Nat}
    (hd : r.argCount.toNat ≤ d) :
    ∃ ds, Code.depths? q' is d = some ds ∧ (∀ x ∈ ds, x ≤ d - r.argCount.toNat + peak) ∧
      ds.getLast? = some (d - r.argCount.toNat + 1) := by
  have huses := (h.usesAs hlower).imp fun _ _ hi => hi.grow hgrows
  have hdepths := depths?_of_walk huses h.walk_eq (Nat.le_refl _) (d - r.argCount.toNat)
  rwa [Nat.sub_add_cancel hd] at hdepths

/-- The instructions touch the slots of the arguments only. -/
theorem localSlots_bound : ∀ i ∈ is, ∀ x ∈ i.localSlots,
    scratch.toNat ≤ x ∧ x < scratch.toNat + r.argSlots.toNat := by
  intro i hi x hx
  obtain ⟨s, hs, huses⟩ := exists_of_forall₂ (h.usesAs hlower).flip hi
  obtain ⟨k, hk, rfl⟩ := huses.slots x hx
  have hpos := (h.argument_bounds hs hk).1
  have hle := le_argSlots hs hk
  omega

end Replacement.Chosen

end Retrofit
