import Mathlib.Logic.Function.Basic
import Retrofit.Recipe

/-!
# A machine for recipe steps

Steps run on an operand stack, a slot for each argument and a heap of the objects that the library
makes. The library methods do what their documentation says; which method a call means is told by
its kind and its texts alone. A step fails when it pops from an empty stack, reads an empty slot or
hands the library something it does not take, so a run that succeeds with nothing below its operands
reaches below them in no other run.
-/

namespace Retrofit.Machine

/-- A value on the stack, in a slot or in a list. Objects are known by their place in the heap. -/
inductive Value where
  | null
  | int (value : Int32)
  | boolean (value : Bool)
  | object (address : Nat)
  deriving DecidableEq, Repr

/-- An object, as far as the library tells objects apart. -/
inductive Object where
  /-- A new instance on which no constructor was called yet. -/
  | fresh (type : String)
  | array (elements : List Value)
  /-- A growable list. -/
  | arrayList (elements : List Value)
  /-- The elements of the array at `address`, as a list. -/
  | view (address : Nat)
  /-- A list that reads as the one at `address` and cannot be changed. -/
  | readOnly (address : Nat)
  /-- The empty list that cannot be changed. -/
  | empty
  deriving DecidableEq, Repr

abbrev Heap := List Object

/-- The elements of the list at an address, in order. A wrapper is younger than what it wraps. -/
def Heap.elements? (heap : Heap) (address : Nat) : Option (List Value) :=
  match heap[address]? with
  | some (.arrayList elements) => some elements
  | some (.view array) =>
    match heap[array]? with
    | some (.array elements) => some elements
    | _ => none
  | some (.readOnly list) => if list < address then Heap.elements? heap list else none
  | some .empty => some []
  | _ => none

/-- The elements of the list at an address, if the list cannot be changed. -/
def Heap.readOnly? (heap : Heap) (address : Nat) : Option (List Value) :=
  match heap[address]? with
  | some (.readOnly _) | some .empty => heap.elements? address
  | _ => none

structure State where
  /-- The operand stack, its top first. -/
  stack : List Value
  /-- What is stored for an argument number. -/
  slots : UInt16 → Option Value
  heap : Heap

/-! ### The library -/

/-- The library methods that the machine knows. -/
inductive Method where
  | newList | newSizedList | add | addAll | asList | emptyList | unmodifiableList
  deriving DecidableEq, Repr

/-- The library method that a call means. -/
def Method.of? (c : Callee) : Option Method :=
  if c = ⟨.special, "java/util/ArrayList", "<init>", "()V"⟩ then some newList
  else if c = ⟨.special, "java/util/ArrayList", "<init>", "(I)V"⟩ then some newSizedList
  else if c = ⟨.virtual, "java/util/ArrayList", "add", "(Ljava/lang/Object;)Z"⟩ then some add
  else if c = ⟨.virtual, "java/util/ArrayList", "addAll", "(Ljava/util/Collection;)Z"⟩ then
    some addAll
  else if c = ⟨.static, "java/util/Arrays", "asList", "([Ljava/lang/Object;)Ljava/util/List;"⟩ then
    some asList
  else if c = ⟨.static, "java/util/Collections", "emptyList", "()Ljava/util/List;"⟩ then
    some emptyList
  else if c = ⟨.static, "java/util/Collections", "unmodifiableList",
      "(Ljava/util/List;)Ljava/util/List;"⟩ then
    some unmodifiableList
  else none

/-- Call a library method: the operands come off the stack, the last one from its top, and the result
goes on it. -/
def call : Method → State → Option State
  | .newList, ⟨.object a :: s, slots, heap⟩ =>
    if heap[a]? = some (.fresh "java/util/ArrayList") then
      some ⟨s, slots, heap.set a (.arrayList [])⟩
    else none
  | .newSizedList, ⟨.int capacity :: .object a :: s, slots, heap⟩ =>
    if 0 ≤ capacity ∧ heap[a]? = some (.fresh "java/util/ArrayList") then
      some ⟨s, slots, heap.set a (.arrayList [])⟩
    else none
  | .add, ⟨x :: .object a :: s, slots, heap⟩ =>
    match heap[a]? with
    | some (.arrayList xs) => some ⟨.boolean true :: s, slots, heap.set a (.arrayList (xs ++ [x]))⟩
    | _ => none
  | .addAll, ⟨.object b :: .object a :: s, slots, heap⟩ =>
    match heap[a]?, heap.elements? b with
    | some (.arrayList xs), some ys =>
      some ⟨.boolean (!ys.isEmpty) :: s, slots, heap.set a (.arrayList (xs ++ ys))⟩
    | _, _ => none
  | .asList, ⟨.object a :: s, slots, heap⟩ =>
    match heap[a]? with
    | some (.array _) => some ⟨.object heap.length :: s, slots, heap ++ [.view a]⟩
    | _ => none
  | .emptyList, ⟨s, slots, heap⟩ => some ⟨.object heap.length :: s, slots, heap ++ [.empty]⟩
  | .unmodifiableList, ⟨.object a :: s, slots, heap⟩ =>
    if (heap.elements? a).isSome then some ⟨.object heap.length :: s, slots, heap ++ [.readOnly a]⟩
    else none
  | _, _ => none

/-! ### Runs -/

/-- Run one step. -/
def step : Step → State → Option State
  | .new type, ⟨s, slots, heap⟩ => some ⟨.object heap.length :: s, slots, heap ++ [.fresh type]⟩
  | .dup, ⟨v :: s, slots, heap⟩ => some ⟨v :: v :: s, slots, heap⟩
  | .pop, ⟨_ :: s, slots, heap⟩ => some ⟨s, slots, heap⟩
  | .push value, ⟨s, slots, heap⟩ => some ⟨.int value :: s, slots, heap⟩
  | .invoke c, st => (Method.of? c).bind fun m => call m st
  | .store argument, ⟨v :: s, slots, heap⟩ =>
    some ⟨s, Function.update slots argument (some v), heap⟩
  | .load argument, ⟨s, slots, heap⟩ => (slots argument).map fun v => ⟨v :: s, slots, heap⟩
  | _, _ => none

/-- Run steps one after the other. -/
def run : List Step → State → Option State
  | [], st => some st
  | s :: ss, st => (step s st).bind (run ss)

theorem run_append (ss ts : List Step) (st : State) :
    run (ss ++ ts) st = (run ss st).bind (run ts) := by
  induction ss generalizing st with
  | nil => rfl
  | cons s ss ih =>
      rw [List.cons_append, run, run, Option.bind_assoc]
      congr 1
      funext st'
      exact ih st'

/-- The state with more values below its stack. -/
def State.above (st : State) (below : List Value) : State := { st with stack := st.stack ++ below }

theorem call_above {m : Method} {st st' : State} (h : call m st = some st') (below : List Value) :
    call m (st.above below) = some (st'.above below) := by
  unfold call at h
  split at h
  · split at h <;> cases h
    rename_i hfresh
    exact if_pos hfresh
  · split at h <;> cases h
    rename_i hfresh
    exact if_pos hfresh
  · split at h <;> cases h
    rename_i hlist
    simp only [State.above, List.cons_append, call, hlist]
  · split at h <;> cases h
    rename_i hlist hall
    simp only [State.above, List.cons_append, call, hlist, hall]
  · split at h <;> cases h
    rename_i harray
    simp only [State.above, List.cons_append, call, harray]
  · cases h
    rfl
  · split at h <;> cases h
    rename_i hlist
    exact if_pos hlist
  · cases h

/-- What lies below the operands of a step does not matter to it, and stays there. -/
theorem step_above {s : Step} {st st' : State} (h : step s st = some st') (below : List Value) :
    step s (st.above below) = some (st'.above below) := by
  unfold step at h
  split at h
  · cases h
    rfl
  · cases h
    rfl
  · cases h
    rfl
  · cases h
    rfl
  · obtain ⟨m, hm, h⟩ := Option.bind_eq_some_iff.mp h
    rw [step, hm]
    exact call_above h below
  · cases h
    rfl
  · obtain ⟨v, hv, rfl⟩ := Option.map_eq_some_iff.mp h
    simp only [State.above, step, hv]
    rfl
  · cases h

theorem run_above {ss : List Step} {st st' : State} (h : run ss st = some st')
    (below : List Value) : run ss (st.above below) = some (st'.above below) := by
  induction ss generalizing st with
  | nil =>
      cases h
      rfl
  | cons s ss ih =>
      obtain ⟨mid, hmid, h⟩ := Option.bind_eq_some_iff.mp h
      rw [run, step_above hmid below]
      exact ih h

theorem call_slots {m : Method} {st st' : State} (h : call m st = some st') :
    st'.slots = st.slots := by
  unfold call at h
  split at h
  case h_6 =>
    cases h
    rfl
  case h_8 => cases h
  all_goals
    split at h
    · cases h
      rfl
    · cases h

theorem step_slots {s : Step} {st st' : State} (h : step s st = some st') {k : UInt16}
    (hk : s ≠ .store k) : st'.slots k = st.slots k := by
  unfold step at h
  split at h
  · cases h
    rfl
  · cases h
    rfl
  · cases h
    rfl
  · cases h
    rfl
  · obtain ⟨m, -, h⟩ := Option.bind_eq_some_iff.mp h
    rw [call_slots h]
  · rename_i argument v s slots heap
    cases h
    have hne : k ≠ argument := fun hka => hk (by rw [hka])
    exact Function.update_of_ne hne _ _
  · obtain ⟨v, -, rfl⟩ := Option.map_eq_some_iff.mp h
    rfl
  · cases h

/-- A slot keeps its value if no step stores to it. -/
theorem run_slots {ss : List Step} {st st' : State} (h : run ss st = some st') {k : UInt16}
    (hk : .store k ∉ ss) : st'.slots k = st.slots k := by
  induction ss generalizing st with
  | nil =>
      cases h
      rfl
  | cons s ss ih =>
      obtain ⟨mid, hmid, h⟩ := Option.bind_eq_some_iff.mp h
      rw [List.mem_cons, not_or] at hk
      rw [ih h hk.2, step_slots hmid (Ne.symm hk.1)]

/-- The first steps of a run that succeeds do as well, whatever lies below. -/
theorem exists_run_of_isPrefix {ss ts : List Step} {st st' : State} (h : run ts st = some st')
    (hstart : ss <+: ts) :
    ∃ mid : State, ∀ below, run ss (st.above below) = some (mid.above below) := by
  obtain ⟨us, rfl⟩ := hstart
  rw [run_append] at h
  obtain ⟨mid, hmid, -⟩ := Option.bind_eq_some_iff.mp h
  exact ⟨mid, run_above hmid⟩

end Retrofit.Machine
