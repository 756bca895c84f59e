import Mathlib.Data.List.Induction
import Retrofit.Proofs.Recipe.Machine

/-!
# Recipes build lists

Run on the arguments of a call, a recipe leaves one read-only list of them in their order. With the
arguments one by one, the stores take them off the stack from the last to the first, and then each
addition appends the next one from the first to the last; both loops are followed by an induction
that takes the last argument off.
-/

namespace Retrofit.Machine

open Recipe (arguments addStep)

/-- Run on the arguments, of which the last one is on top, the steps leave a list with the given
elements that cannot be changed. They change no object that was there before, reach nothing below the
arguments and store to no slot but those of the arguments. -/
structure Builds (r : Replacement) (args : List Value) (heap : Heap) (elements : List Value) :
    Prop where
  result : ∀ slots, ∃ a slots', ∃ heap' : Heap, heap <+: heap' ∧
    heap'.readOnly? a = some elements ∧ ∀ below, run r.steps ⟨args.reverse ++ below, slots, heap⟩ =
      some ⟨.object a :: below, slots', heap'⟩
  frame : ∀ slots ss, ss <+: r.steps → ∃ stack slots' heap',
    (∀ below, run ss ⟨args.reverse ++ below, slots, heap⟩ =
      some ⟨stack ++ below, slots', heap'⟩) ∧
    ∀ k, ¬(1 ≤ k ∧ k ≤ r.argCount) → slots' k = slots k

/-- It is enough to look at a run with nothing below the arguments. -/
theorem builds_of_run {r : Replacement} {args : List Value} {heap : Heap} {elements : List Value}
    (hrun : ∀ slots, ∃ a slots', ∃ heap' : Heap, heap <+: heap' ∧
      heap'.readOnly? a = some elements ∧ run r.steps ⟨args.reverse, slots, heap⟩ = some ⟨[.object a], slots', heap'⟩)
    (hstores : ∀ k, .store k ∈ r.steps → 1 ≤ k ∧ k ≤ r.argCount) :
    Builds r args heap elements := by
  constructor
  · intro slots
    obtain ⟨a, slots', heap', hheap, ha, h⟩ := hrun slots
    exact ⟨a, slots', heap', hheap, ha, run_above h⟩
  · intro slots ss hstart
    obtain ⟨a, slots', heap', -, -, h⟩ := hrun slots
    obtain ⟨mid, hmid⟩ := exists_run_of_isPrefix h hstart
    refine ⟨mid.stack, mid.slots, mid.heap, hmid, fun k hk => ?_⟩
    have hself := hmid []
    rw [State.above, State.above, List.append_nil, List.append_nil] at hself
    exact run_slots hself fun hmem => hk (hstores k (hstart.subset hmem))

/-! ### Single steps -/

variable (slots : UInt16 → Option Value) (heap : Heap) (stack : List Value)

theorem getElem?_length (o : Object) (os : List Object) :
    (heap ++ o :: os)[heap.length]? = some o := by
  simp

theorem set_length (o o' : Object) (os : List Object) :
    (heap ++ o :: os).set heap.length o' = heap ++ o' :: os := by
  simp

/-- A new growable list. -/
theorem run_newSizedList {capacity : Int32} (h : 0 ≤ capacity) :
    run [.new Recipe.arrayList, .dup, .push capacity, .invoke Recipe.initSized]
      ⟨stack, slots, heap⟩ =
      some ⟨.object heap.length :: stack, slots, heap ++ [.arrayList []]⟩ := by
  have hmethod : Method.of? Recipe.initSized = some .newSizedList := by decide
  have hfresh : 0 ≤ capacity ∧ (heap ++ [Object.fresh Recipe.arrayList])[heap.length]? =
      some (.fresh "java/util/ArrayList") := ⟨h, getElem?_length heap _ []⟩
  simp only [run, step, hmethod, call, Option.bind_some]
  rw [if_pos hfresh, set_length]
  rfl

theorem run_newList :
    run [.new Recipe.arrayList, .dup, .invoke Recipe.initEmpty] ⟨stack, slots, heap⟩ =
      some ⟨.object heap.length :: stack, slots, heap ++ [.arrayList []]⟩ := by
  have hmethod : Method.of? Recipe.initEmpty = some .newList := by decide
  have hfresh : (heap ++ [Object.fresh Recipe.arrayList])[heap.length]? =
      some (.fresh "java/util/ArrayList") := getElem?_length heap _ []
  simp only [run, step, hmethod, call, Option.bind_some]
  rw [if_pos hfresh, set_length]
  rfl

/-- Appending the elements of an array to the list on top of the stack, by way of a view of it. -/
theorem run_addArray {slots : UInt16 → Option Value} {heap : Heap} {a : Nat} {ys : List Value}
    (hslot : slots 1 = some (.object a)) (ha : heap[a]? = some (.array ys)) (xs : List Value) :
    run [.dup, .load 1, .invoke Recipe.asList, .invoke Recipe.addAll, .pop]
      ⟨.object heap.length :: stack, slots, heap ++ [.arrayList xs]⟩ =
      some ⟨.object heap.length :: stack, slots, heap ++ [.arrayList (xs ++ ys), .view a]⟩ := by
  have hasList : Method.of? Recipe.asList = some .asList := by decide
  have haddAll : Method.of? Recipe.addAll = some .addAll := by decide
  have hlt : a < heap.length := (List.getElem?_eq_some_iff.mp ha).1
  have harray : (heap ++ [Object.arrayList xs])[a]? = some (.array ys) := by
    rw [List.getElem?_append_left hlt, ha]
  have hlist : (heap ++ [.arrayList xs, .view a])[heap.length]? = some (.arrayList xs) :=
    getElem?_length heap _ _
  have hview : Heap.elements? (heap ++ [.arrayList xs, .view a]) (heap.length + 1) = some ys := by
    have hobject : (heap ++ [.arrayList xs, .view a])[heap.length + 1]? = some (.view a) := by
      simp
    rw [Heap.elements?, hobject]
    dsimp only
    rw [List.getElem?_append_left hlt, ha]
  have hlength : (heap ++ [Object.arrayList xs]).length = heap.length + 1 := List.length_append
  simp only [run, step, hasList, haddAll, call, hslot, harray, hlength, Option.bind_some,
    Option.map_some, List.append_assoc, List.singleton_append, hlist, hview, set_length]

/-- Appending one argument to the list on top of the stack. -/
theorem run_addStep {slots : UInt16 → Option Value} {k : UInt16} {x : Value}
    (hx : slots k = some x) (xs : List Value) :
    run (addStep k) ⟨.object heap.length :: stack, slots, heap ++ [.arrayList xs]⟩ =
      some ⟨.object heap.length :: stack, slots, heap ++ [.arrayList (xs ++ [x])]⟩ := by
  have hmethod : Method.of? Recipe.add = some .add := by decide
  simp only [addStep, run, step, hx, hmethod, call, Option.bind_some, Option.map_some,
    getElem?_length, set_length]

/-- The list on top of the stack made read-only. -/
theorem run_unmodifiableList {heap : Heap} {a : Nat} {xs : List Value}
    (hlist : heap.elements? a = some xs) :
    run [.invoke Recipe.unmodifiableList] ⟨.object a :: stack, slots, heap⟩ =
      some ⟨.object heap.length :: stack, slots, heap ++ [.readOnly a]⟩ := by
  have hmethod : Method.of? Recipe.unmodifiableList = some .unmodifiableList := by decide
  simp only [run, step, hmethod, call, Option.bind_some, hlist, Option.isSome_some, if_true]

/-! ### The two loops -/

/-- The slots after the arguments were stored. -/
def stored (args : List Value) (slots : UInt16 → Option Value) (k : UInt16) : Option Value :=
  if 1 ≤ k.toNat ∧ k.toNat ≤ args.length then args[k.toNat - 1]? else slots k

/-- The numbers of the first `n` arguments. -/
def numbers (n : Nat) : List UInt16 := (List.range n).map fun i => UInt16.ofNat (i + 1)

theorem arguments_eq (n : UInt16) : arguments n = numbers n.toNat := rfl

theorem numbers_succ (n : Nat) : numbers (n + 1) = numbers n ++ [UInt16.ofNat (n + 1)] := by
  rw [numbers, List.range_succ, List.map_append]
  rfl

theorem toNat_number {n : Nat} (h : n < 65536) : (UInt16.ofNat n).toNat = n :=
  UInt16.toNat_ofNat_of_lt' h

/-- Storing the last argument first. -/
theorem stored_append_singleton {args : List Value} (h : args.length < 65535) (x : Value) :
    stored args (Function.update slots (UInt16.ofNat (args.length + 1)) (some x)) =
      stored (args ++ [x]) slots := by
  funext k
  have hlast : (UInt16.ofNat (args.length + 1)).toNat = args.length + 1 :=
    toNat_number (by omega)
  unfold stored
  rw [List.length_append, List.length_singleton]
  by_cases hk : k.toNat = args.length + 1
  · have hkeq : k = UInt16.ofNat (args.length + 1) := by
      apply UInt16.toNat_inj.mp
      rw [hlast, hk]
    rw [if_neg (by omega), if_pos (by omega), hkeq, Function.update_self, hlast,
      Nat.add_sub_cancel, List.getElem?_concat_length]
  · have hne : k ≠ UInt16.ofNat (args.length + 1) := by
      rintro rfl
      exact hk hlast
    rw [Function.update_of_ne hne]
    by_cases hin : 1 ≤ k.toNat ∧ k.toNat ≤ args.length
    · rw [if_pos hin, if_pos (by omega), List.getElem?_append_left (by omega)]
    · rw [if_neg hin, if_neg (by omega)]

theorem run_stores {args : List Value} (h : args.length < 65536) :
    run ((numbers args.length).reverse.map .store) ⟨args.reverse ++ stack, slots, heap⟩ =
      some ⟨stack, stored args slots, heap⟩ := by
  induction args using List.reverseRecOn generalizing slots with
  | nil =>
      have hslots : stored [] slots = slots := by
        funext k
        exact if_neg (by rw [List.length_nil]; omega)
      rw [hslots]
      rfl
  | append_singleton args x ih =>
      rw [List.length_append, List.length_singleton] at h
      have hlt : args.length < 65535 := by omega
      rw [List.length_append, List.length_singleton, numbers_succ, List.reverse_append,
        List.reverse_append]
      rw [← stored_append_singleton slots hlt]
      exact ih _ (by omega)

theorem run_adds {args : List Value} (h : args.length < 65536) {n : Nat} (hn : n ≤ args.length) :
    run ((numbers n).flatMap addStep)
      ⟨.object heap.length :: stack, stored args slots, heap ++ [.arrayList []]⟩ =
      some ⟨.object heap.length :: stack, stored args slots, heap ++ [.arrayList (args.take n)]⟩ := by
  induction n with
  | zero => rfl
  | succ n ih =>
      have hlt : n < args.length := hn
      have hslot : stored args slots (UInt16.ofNat (n + 1)) = some args[n] := by
        unfold stored
        rw [toNat_number (by omega), if_pos (by omega), Nat.add_sub_cancel,
          List.getElem?_eq_getElem hlt]
      rw [numbers_succ, List.flatMap_append, run_append, ih (by omega), List.flatMap_singleton,
        Option.bind_some, run_addStep _ _ hslot, List.take_append_getElem hlt]

/-! ### The recipes -/

theorem elements?_arrayList (xs : List Value) (os : List Object) :
    Heap.elements? (heap ++ .arrayList xs :: os) heap.length = some xs := by
  rw [Heap.elements?, getElem?_length]

/-- A wrapper reads as the older list that it wraps. -/
theorem readOnly?_wrapper (xs : List Value) (os : List Object) :
    Heap.readOnly? (heap ++ .arrayList xs :: (os ++ [.readOnly heap.length]))
      (heap.length + 1 + os.length) = some xs := by
  have hwrapper : (heap ++ .arrayList xs :: (os ++ [.readOnly heap.length]))[heap.length + 1 +
      os.length]? = some (.readOnly heap.length) := by
    rw [List.getElem?_append_right (by omega), Nat.add_assoc, Nat.add_sub_cancel_left,
      Nat.add_comm 1, List.getElem?_cons_succ, getElem?_length]
  rw [Heap.readOnly?, hwrapper]
  dsimp only
  rw [Heap.elements?, hwrapper]
  dsimp only
  rw [if_pos (by omega), elements?_arrayList]

theorem store_mem_fixedArity {n k : UInt16} (h : .store k ∈ Recipe.steps n .fixedArity) :
    1 ≤ k ∧ k ≤ n := by
  have hmem : k ∈ arguments n := by
    simpa [Recipe.steps, addStep] using h
  obtain ⟨i, hi, rfl⟩ := List.mem_map.mp hmem
  have hlt : i < n.toNat := List.mem_range.mp hi
  have hn := n.toNat_lt
  have hk : (UInt16.ofNat (i + 1)).toNat = i + 1 := toNat_number (by omega)
  rw [UInt16.le_iff_toNat_le, UInt16.le_iff_toNat_le, hk]
  exact ⟨Nat.le_add_left 1 i, hlt⟩

theorem fixedArity_builds {n : UInt16} {args : List Value} (h : args.length = n.toNat) :
    Builds (Recipe.fixedArity.materialize n) args heap args := by
  have hn := n.toNat_lt
  have hlt : args.length < 65536 := by omega
  have hcapacity : 0 ≤ Int32.ofInt n.toNat := by
    rw [Int32.le_iff_toInt_le, Int32.toInt_ofInt_of_le (by omega) (by omega)]
    exact Int.natCast_nonneg _
  refine builds_of_run (fun slots => ?_) fun k hk => store_mem_fixedArity hk
  refine ⟨heap.length + 1, stored args slots, heap ++ [.arrayList args, .readOnly heap.length],
    List.prefix_append _ _, readOnly?_wrapper heap args [], ?_⟩
  have hstores := run_stores slots heap [] hlt
  have hnew := run_newSizedList (stored args slots) heap [] hcapacity
  have hadds := run_adds slots heap [] hlt (Nat.le_refl _)
  have hwrap := run_unmodifiableList (stored args slots) [] (elements?_arrayList heap args [])
  rw [List.append_nil] at hstores
  rw [List.take_length] at hadds
  show run (Recipe.steps n .fixedArity) _ = _
  rw [Recipe.steps, arguments_eq, ← h, run_append, hstores, Option.bind_some, run_append, h, hnew,
    Option.bind_some, run_append, ← h, hadds, Option.bind_some, hwrap]
  simp

theorem zeroArity_builds : Builds (Recipe.zeroArity.materialize 0) [] heap [] := by
  refine builds_of_run (fun slots => ?_) fun k hk => ?_
  · refine ⟨heap.length, slots, heap ++ [.empty], List.prefix_append _ _, ?_, ?_⟩
    · rw [Heap.readOnly?, getElem?_length]
      dsimp only
      rw [Heap.elements?, getElem?_length]
    · have hmethod : Method.of? Recipe.emptyList = some .emptyList := by decide
      simp [Recipe.materialize, Recipe.steps, run, step, hmethod, call]
  · simp [Recipe.materialize, Recipe.steps] at hk

theorem variableArity_builds {a : Nat} {xs : List Value} (ha : heap[a]? = some (.array xs)) :
    Builds (Recipe.variableArity.materialize 1) [.object a] heap xs := by
  refine builds_of_run (fun slots => ?_) fun k hk => ?_
  · have hslot : Function.update slots 1 (some (.object a)) 1 = some (Value.object a) :=
      Function.update_self 1 _ slots
    refine ⟨heap.length + 2, Function.update slots 1 (some (.object a)),
      heap ++ [.arrayList xs, .view a, .readOnly heap.length], List.prefix_append _ _,
      readOnly?_wrapper heap xs [.view a], ?_⟩
    have hwrap := run_unmodifiableList (Function.update slots 1 (some (.object a))) []
      (elements?_arrayList heap xs [.view a])
    have hsteps : (Recipe.variableArity.materialize 1).steps =
        ([.store 1] : List Step) ++
          (([.new Recipe.arrayList, .dup, .invoke Recipe.initEmpty] : List Step) ++
            (([.dup, .load 1, .invoke Recipe.asList, .invoke Recipe.addAll, .pop] : List Step) ++
              ([.invoke Recipe.unmodifiableList] : List Step))) := rfl
    have hstore : run [.store 1] ⟨[.object a], slots, heap⟩ =
        some ⟨[], Function.update slots 1 (some (.object a)), heap⟩ := rfl
    rw [hsteps, List.reverse_singleton, run_append, hstore, Option.bind_some, run_append, run_newList,
      Option.bind_some, run_append, run_addArray [] hslot ha, Option.bind_some, List.nil_append, hwrap]
    simp
  · have hk : k = 1 := by simpa [Recipe.materialize, Recipe.steps] using hk
    subst hk
    exact ⟨UInt16.le_refl 1, UInt16.le_refl 1⟩

/-- Every recipe builds the list that its call stands for: of the arguments one by one, of nothing,
or of the elements of the one array. -/
theorem recipes_build :
    (∀ (n : UInt16) (args : List Value) (heap : Heap), args.length = n.toNat →
      Builds (Recipe.fixedArity.materialize n) args heap args) ∧
    (∀ heap : Heap, Builds (Recipe.zeroArity.materialize 0) [] heap []) ∧
    ∀ (heap : Heap) (a : Nat) (xs : List Value), heap[a]? = some (.array xs) →
      Builds (Recipe.variableArity.materialize 1) [.object a] heap xs :=
  ⟨fun _ _ heap h => fixedArity_builds heap h, zeroArity_builds,
    fun heap _ _ ha => variableArity_builds heap ha⟩

theorem recipes_build_pair :
    Builds (Recipe.fixedArity.materialize 2) [.object 0, .null] [.array []] [.object 0, .null] ∧
    Builds (Recipe.zeroArity.materialize 0) [] [] [] ∧
    Builds (Recipe.variableArity.materialize 1) [.object 0] [.array [.null, .object 0]]
      [.null, .object 0] :=
  ⟨recipes_build.1 2 _ _ rfl, recipes_build.2.1 [], recipes_build.2.2 _ 0 _ rfl⟩

end Retrofit.Machine
