import Retrofit.Proofs.Body.ControlFlow

/-!
# Revised bodies

A splice may also put nothing in the place of a node. The loaded offset of that node then has no place
in the new code, unless the code ends there. The loaded offsets that are left keep their order, and so
do their places.
-/

namespace Retrofit.Body

variable (p : Instruction → Prop)

/-- One splice: a node gives way to any number of instructions, each of them with the property `p`. -/
def RevisionStep (b c : Body) : Prop :=
  ∃ position is, position < b.nodes.length ∧ (∀ j ∈ is, p j) ∧ c = b.splice position is

/-- Any number of splices, of which some may leave nothing. -/
abbrev Revised : Body → Body → Prop := Relation.ReflTransGen (RevisionStep p)

variable {p}

theorem Spliced.revised {b c : Body} (h : Spliced p b c) : Revised p b c := by
  refine Relation.ReflTransGen.mono ?_ b c h
  rintro _ _ ⟨position, i, is, hlt, his, rfl⟩
  exact ⟨position, i :: is, hlt, his, rfl⟩

/-! ### One splice -/

/-- The first instruction of a replacement inherits the origin, if there is a first one. -/
theorem filterMap_origin_replacementNodes (origin : Option Nat) (is : List Instruction) :
    ((replacementNodes origin is).filterMap Node.origin).Sublist origin.toList := by
  cases is with
  | nil => exact List.nil_sublist _
  | cons i is =>
      have htail : (is.map fun j => (⟨none, j⟩ : Node)).filterMap Node.origin = [] := by
        simp [List.filterMap_map]
      cases origin with
      | none =>
          rw [replacementNodes, List.filterMap_cons_none rfl, htail]
          exact List.nil_sublist _
      | some o =>
          have hhead : Node.origin ⟨some o, i⟩ = some o := rfl
          rw [replacementNodes, List.filterMap_cons_some hhead, htail]
          exact List.Sublist.refl _

section

variable {b : Body} {position : Nat} (hlt : position < b.nodes.length) (is : List Instruction)

include hlt

/-- No origin is made up, and those that stay do so in order. -/
theorem origins_splice_sublist : (b.splice position is).origins.Sublist b.origins := by
  have hnodes : b.nodes =
      b.nodes.take position ++ (b.nodes[position] :: b.nodes.drop (position + 1)) := by
    rw [List.getElem_cons_drop, List.take_append_drop]
  have hsingle : [b.nodes[position]].filterMap Node.origin = b.nodes[position].origin.toList := by
    cases h : b.nodes[position].origin <;> simp [h]
  rw [origins, origins, splice_nodes hlt]
  nth_rewrite 4 [hnodes]
  rw [← List.singleton_append, List.filterMap_append, List.filterMap_append, List.filterMap_append,
    List.filterMap_append, hsingle]
  exact (List.Sublist.refl _).append
    ((filterMap_origin_replacementNodes _ is).append (List.Sublist.refl _))

theorem Ordered.splice (h : b.Ordered) : (b.splice position is).Ordered := by
  have hsublist := origins_splice_sublist hlt is
  refine ⟨h.increasing.sublist hsublist, fun o ho => ?_⟩
  rw [splice_eq]
  exact h.lt_loadedLength o (hsublist.subset ho)

end

/-! ### Any number of splices -/

namespace Revised

variable {b c : Body} (h : Revised p b c)

include h

/-- Splices change nothing but the nodes. -/
theorem eq : c = { b with nodes := c.nodes } := by
  induction h with
  | refl => rfl
  | tail _ hstep ih =>
      obtain ⟨position, is, -, -, rfl⟩ := hstep
      rw [splice_eq, ih]

theorem loadedLength_eq : c.loadedLength = b.loadedLength := by
  rw [h.eq]

theorem origins_sublist : c.origins.Sublist b.origins := by
  induction h with
  | refl => exact List.Sublist.refl _
  | tail _ hstep ih =>
      obtain ⟨position, is, hlt, -, rfl⟩ := hstep
      exact (origins_splice_sublist hlt is).trans ih

theorem ordered (hb : b.Ordered) : c.Ordered := by
  induction h with
  | refl => exact hb
  | tail _ hstep ih =>
      obtain ⟨position, is, hlt, -, rfl⟩ := hstep
      exact ih.splice hlt is

end Revised

end Retrofit.Body
