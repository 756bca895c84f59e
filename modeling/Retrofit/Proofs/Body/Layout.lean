import Mathlib.Data.List.Induction
import Retrofit.Body.Layout
import Retrofit.Proofs.CodeArray
import Retrofit.Proofs.Instruction.Relocation

/-!
# Where loaded offsets land

The offset map of a body takes the origin of each node to the node's new address, and the end of the
loaded code to the end of the new code. The map is looked up in a table in which later pairs win, so
this holds only while the origins are distinct and lie before the end of the loaded code.
-/

namespace Retrofit

namespace OffsetMap

/-- A table of pairs with distinct old offsets holds these pairs and no others. -/
theorem get?_ofPairs_iff {pairs : List (Nat × Nat)} (h : (pairs.map Prod.fst).Nodup)
    {old new : Nat} : (ofPairs pairs).get? old = some new ↔ (old, new) ∈ pairs := by
  induction pairs using List.reverseRecOn with
  | nil => simp [get?_ofPairs_nil]
  | append_singleton pairs p ih =>
      rw [List.map_append, List.nodup_append] at h
      obtain ⟨hnodup, -, hnew⟩ := h
      rw [get?_ofPairs_append_singleton, List.mem_append, List.mem_singleton]
      by_cases hold : p.1 = old
      · have hnot : (old, new) ∉ pairs := fun hmem =>
          hnew old (List.mem_map.mpr ⟨_, hmem, rfl⟩) p.1 (by simp) hold.symm
        rw [if_pos hold, Option.some_inj]
        constructor
        · rintro rfl
          exact Or.inr (by rw [← hold])
        · rintro (hmem | rfl)
          · exact absurd hmem hnot
          · rfl
      · rw [if_neg hold, ih hnodup]
        constructor
        · exact Or.inl
        · rintro (hmem | rfl)
          · exact hmem
          · exact absurd rfl hold

end OffsetMap

namespace Body

/-- Where a loaded offset lies in the new code: the origin of a node at the node's address, and the
end of the loaded code at the end of the new code. -/
inductive Lands (b : Body) : Nat → Nat → Prop
  | node {n : Node} {origin address : Nat} (hmem : (n, address) ∈ b.nodes.zip b.addresses)
      (horigin : n.origin = some origin) : Lands b origin address
  | stop : Lands b b.loadedLength b.length

/-- The origins of the nodes, in order. -/
def origins (b : Body) : List Nat := b.nodes.filterMap Node.origin

/-- Origins are distinct and lie before the end of the loaded code. -/
structure Anchored (b : Body) : Prop where
  nodup : b.origins.Nodup
  lt_loadedLength : ∀ o ∈ b.origins, o < b.loadedLength

/-- Origins are in order and lie before the end of the loaded code. -/
structure Ordered (b : Body) : Prop where
  increasing : b.origins.Pairwise (· < ·)
  lt_loadedLength : ∀ o ∈ b.origins, o < b.loadedLength

variable {b : Body}

theorem Ordered.anchored (h : b.Ordered) : b.Anchored :=
  ⟨h.increasing.imp Nat.ne_of_lt, h.lt_loadedLength⟩

theorem length_addresses (b : Body) : b.addresses.length = b.nodes.length + 1 := by
  simp [addresses, Code.addresses, instructions]

theorem mem_offsetPairs {old new : Nat} : (old, new) ∈ b.offsetPairs ↔ b.Lands old new := by
  simp only [offsetPairs, List.mem_append, List.mem_filterMap, List.mem_singleton,
    Option.map_eq_some_iff, Prod.mk.injEq]
  constructor
  · rintro (⟨⟨n, address⟩, hmem, origin, horigin, rfl, rfl⟩ | ⟨rfl, rfl⟩)
    · exact .node hmem horigin
    · exact .stop
  · rintro (⟨hmem, horigin⟩ | _)
    · exact Or.inl ⟨_, hmem, _, horigin, rfl, rfl⟩
    · exact Or.inr ⟨rfl, rfl⟩

theorem map_fst_offsetPairs (b : Body) :
    b.offsetPairs.map Prod.fst = b.origins ++ [b.loadedLength] := by
  have hzip : (b.nodes.zip b.addresses).map Prod.fst = b.nodes := by
    apply List.map_fst_zip
    rw [length_addresses]
    exact Nat.le_succ _
  have horigins : b.origins = (b.nodes.zip b.addresses).filterMap fun p => p.1.origin := by
    rw [origins]
    nth_rewrite 1 [← hzip]
    rw [List.filterMap_map]
    rfl
  rw [offsetPairs, List.map_append, List.map_filterMap, List.map_singleton, horigins]
  simp [Function.comp_def]

theorem Anchored.nodup_offsetPairs (h : b.Anchored) : (b.offsetPairs.map Prod.fst).Nodup := by
  rw [map_fst_offsetPairs, List.nodup_append]
  refine ⟨h.nodup, List.pairwise_singleton _ _, ?_⟩
  intro o ho stop hstop
  rw [List.mem_singleton] at hstop
  have hlt := h.lt_loadedLength o ho
  omega

/-- The offset map says where loaded offsets land. -/
theorem Anchored.get?_iff (h : b.Anchored) {old new : Nat} :
    (OffsetMap.ofPairs b.offsetPairs).get? old = some new ↔ b.Lands old new := by
  rw [OffsetMap.get?_ofPairs_iff h.nodup_offsetPairs, mem_offsetPairs]

/-- A loaded offset lands in one place at most. -/
theorem Anchored.lands_unique (h : b.Anchored) {old new new' : Nat} (hnew : b.Lands old new)
    (hnew' : b.Lands old new') : new = new' := by
  rw [← h.get?_iff] at hnew hnew'
  rw [hnew] at hnew'
  exact Option.some_inj.mp hnew'

/-! ### Laying out -/

theorem moveNode_eq_ok_iff {map : Nat → Option Nat} {n : Node} {address : Nat} {i : Instruction} :
    moveNode map n address = .ok i ↔
      (n.origin = none ∧ i = n.instruction) ∨
        ∃ origin, n.origin = some origin ∧ n.instruction.relocate map origin address = .ok i := by
  unfold moveNode
  split
  · rename_i h
    simp [h, eq_comm]
  · rename_i origin h
    split
    · rename_i j hj
      simp [h, hj]
    · rename_i e he
      simp [h, he]

/-- What it takes to lay a body out, and what the `Code` attribute then holds. -/
theorem encode_eq_ok_iff {c : CodeAttribute} :
    b.encode = .ok c ↔ b.length ≤ 65535 ∧ ∃ is guards tables,
      (b.nodes.zip b.addresses).mapM (fun (n, address) =>
        moveNode (OffsetMap.ofPairs b.offsetPairs).get? n address) = .ok is ∧
      b.guards.mapM (moveGuard (OffsetMap.ofPairs b.offsetPairs).get?) = .ok guards ∧
      b.tables.mapM (moveNamedTable (OffsetMap.ofPairs b.offsetPairs).get?
        (b.offsetPairs.any fun p => p.1 ≠ p.2)) = .ok tables ∧
      c = { maxStack := b.maxStack, maxLocals := b.maxLocals, code := Code.encode is, guards,
            attributes := (tables.filterMap id).map NamedTable.toAttribute } := by
  unfold encode
  dsimp only
  split
  · rename_i hlt
    constructor
    · intro h
      cases h
    · rintro ⟨hle, -⟩
      omega
  · rename_i hle
    simp only [bind_eq_ok]
    constructor
    · rintro ⟨is, his, guards, hguards, tables, htables, hc⟩
      cases hc
      exact ⟨by omega, is, guards, tables, his, hguards, htables, rfl⟩
    · rintro ⟨-, is, guards, tables, his, hguards, htables, rfl⟩
      exact ⟨is, his, guards, hguards, tables, htables, rfl⟩

end Body

end Retrofit
