import Mathlib.Data.List.Forall2
import Mathlib.Logic.Relation
import Retrofit.Body

/-!
# Spliced bodies

Replacing nodes again and again never mixes up what stands for which loaded instruction. However
many splices there were, the nodes fall into runs, one for each loaded node and in their order: a
run is the loaded node itself, or instructions that took its place, of which the first has its
origin and the others have none.
-/

namespace Retrofit

namespace Body

variable (p : Instruction → Prop)

/-- One splice: a node gives way to at least one instruction, each of them with the property `p`. -/
def SpliceStep (b c : Body) : Prop :=
  ∃ position i is, position < b.nodes.length ∧ (∀ j ∈ i :: is, p j) ∧
    c = b.splice position (i :: is)

/-- Any number of splices. -/
abbrev Spliced : Body → Body → Prop := Relation.ReflTransGen (SpliceStep p)

/-- A run of nodes that stands for one loaded node. -/
inductive StandsFor (n : Node) : List Node → Prop
  | kept : StandsFor n [n]
  | replaced {i : Instruction} {is : List Instruction} (h : ∀ j ∈ i :: is, p j) :
      StandsFor n (replacementNodes n.origin (i :: is))

/-- The nodes fall into runs that stand for the loaded nodes. -/
def Runs (loaded nodes : List Node) (runs : List (List Node)) : Prop :=
  List.Forall₂ (StandsFor p) loaded runs ∧ nodes = runs.flatten

variable {p}

theorem splice_nodes {b : Body} {position : Nat} (h : position < b.nodes.length)
    (is : List Instruction) :
    (b.splice position is).nodes = b.nodes.take position ++
      (replacementNodes b.nodes[position].origin is ++ b.nodes.drop (position + 1)) := by
  rw [splice, List.getElem?_eq_getElem h]

/-- A splice changes nothing but the nodes. -/
theorem splice_eq (b : Body) (position : Nat) (is : List Instruction) :
    b.splice position is = { b with nodes := (b.splice position is).nodes } := by
  unfold splice
  split <;> rfl

theorem Spliced.loadedLength_eq {b c : Body} (h : Spliced p b c) :
    c.loadedLength = b.loadedLength := by
  induction h with
  | refl => rfl
  | tail _ hstep ih =>
      obtain ⟨position, i, is, -, -, rfl⟩ := hstep
      rw [splice_eq]
      exact ih

/-! ### Runs -/

theorem replacementNodes_none (is : List Instruction) :
    replacementNodes none is = is.map fun j => ⟨none, j⟩ := by
  cases is <;> rfl

/-- What lies before a node of a replacement, more instructions, and what lies behind that node make
up a longer replacement. -/
theorem replacementNodes_splice {origin : Option Nat} {j : Instruction} {js : List Instruction}
    {k : Nat} (hk : k < (replacementNodes origin (j :: js)).length) (i : Instruction)
    (is : List Instruction) :
    ∃ l ls, (∀ m ∈ l :: ls, m ∈ i :: is ∨ m ∈ j :: js) ∧
      (replacementNodes origin (j :: js)).take k ++
        (replacementNodes (replacementNodes origin (j :: js))[k].origin (i :: is) ++
          (replacementNodes origin (j :: js)).drop (k + 1)) = replacementNodes origin (l :: ls) := by
  cases k with
  | zero =>
      refine ⟨i, is ++ js, ?_, by simp [replacementNodes]⟩
      intro m hm
      rw [← List.cons_append, List.mem_append] at hm
      exact hm.imp_right (List.mem_cons_of_mem j)
  | succ k =>
      refine ⟨j, js.take k ++ (i :: is ++ js.drop (k + 1)), ?_, ?_⟩
      · intro m hm
        rw [List.mem_cons, List.mem_append, List.mem_append] at hm
        obtain rfl | hm | hm | hm := hm
        · exact Or.inr List.mem_cons_self
        · exact Or.inr (List.mem_cons_of_mem j (List.mem_of_mem_take hm))
        · exact Or.inl hm
        · exact Or.inr (List.mem_cons_of_mem j (List.mem_of_mem_drop hm))
      · have hnone : (replacementNodes origin (j :: js))[k + 1].origin = none := by
          simp [replacementNodes]
        rw [hnone, replacementNodes_none]
        simp [replacementNodes, List.map_take, List.map_drop]

/-- Splicing inside a run leaves a run for the same loaded node. -/
theorem StandsFor.splice {n : Node} {run : List Node} (h : StandsFor p n run) {k : Nat}
    (hk : k < run.length) {i : Instruction} {is : List Instruction} (his : ∀ j ∈ i :: is, p j) :
    StandsFor p n (run.take k ++ (replacementNodes run[k].origin (i :: is) ++ run.drop (k + 1))) := by
  cases h with
  | kept =>
      obtain rfl : k = 0 := by simpa using hk
      simpa using StandsFor.replaced his
  | replaced hjs =>
      obtain ⟨l, ls, hls, hnodes⟩ := replacementNodes_splice hk i is
      rw [hnodes]
      exact StandsFor.replaced fun m hm => (hls m hm).elim (his m) (hjs m)

theorem Runs.refl (nodes : List Node) : Runs p nodes nodes (nodes.map fun n => [n]) := by
  refine ⟨?_, ?_⟩
  · rw [List.forall₂_map_right_iff, List.forall₂_same]
    exact fun n _ => .kept
  · rw [← List.flatMap_def, List.flatMap_singleton']

/-- A splice happens inside one of the runs. -/
theorem Runs.splice {loaded nodes : List Node} {runs : List (List Node)}
    (h : Runs p loaded nodes runs) {position : Nat} (hlt : position < nodes.length)
    {i : Instruction} {is : List Instruction} (his : ∀ j ∈ i :: is, p j) :
    ∃ runs', Runs p loaded (nodes.take position ++
      (replacementNodes nodes[position].origin (i :: is) ++ nodes.drop (position + 1))) runs' := by
  obtain ⟨hruns, rfl⟩ := h
  induction hruns generalizing position with
  | nil => simp at hlt
  | @cons n run loaded runs hn hruns ih =>
      simp only [List.flatten_cons] at hlt ⊢
      by_cases hk : position < run.length
      · refine ⟨_, .cons (hn.splice hk his) hruns, ?_⟩
        rw [List.take_append_of_le_length (Nat.le_of_lt hk), List.getElem_append_left hk,
          List.drop_append_of_le_length hk, List.flatten_cons, List.append_assoc, List.append_assoc]
      · have hle : run.length ≤ position := Nat.le_of_not_lt hk
        have hrest : position - run.length < runs.flatten.length := by
          rw [List.length_append] at hlt
          omega
        have hsub : position + 1 - run.length = position - run.length + 1 := by omega
        obtain ⟨runs', hruns', hnodes⟩ := ih hrest
        refine ⟨run :: runs', .cons hn hruns', ?_⟩
        show _ = run ++ runs'.flatten
        rw [List.take_append, List.take_of_length_le hle, List.getElem_append_right hle,
          List.drop_append, List.drop_of_length_le (by omega), hsub, ← hnodes,
          List.nil_append, List.append_assoc]

/-- The nodes of a body fall into runs however often it was spliced. -/
theorem Spliced.exists_runs {b c : Body} (h : Spliced p b c) :
    ∃ runs, Runs p b.nodes c.nodes runs := by
  induction h with
  | refl => exact ⟨_, .refl b.nodes⟩
  | tail _ hstep ih =>
      obtain ⟨position, i, is, hlt, his, rfl⟩ := hstep
      obtain ⟨runs, hruns⟩ := ih
      rw [splice_nodes hlt]
      exact hruns.splice hlt his

end Body

end Retrofit
