import Retrofit.Proofs.Body.Layout
import Retrofit.Proofs.Body.Splicing

/-!
# Loaded bodies

A loaded body has one node for each instruction of its code, at the offset of that instruction.
Splices leave the origins alone, so they stay distinct and inside the loaded code for good.
-/

namespace Retrofit.Body

/-- What it takes to take a `Code` attribute apart, and what the body then holds. -/
theorem decode_eq_ok_iff {pool : Pool} {code : CodeAttribute} {b : Body} :
    Body.decode pool code = .ok b ↔ ∃ is tables, Code.Spells 0 code.code is ∧
      code.attributes.mapM (NamedTable.decode pool) = .ok tables ∧
      b = { maxStack := code.maxStack, maxLocals := code.maxLocals, scratchBase := code.maxLocals,
            nodes := (Code.placesFrom 0 is).map fun p => ⟨some p.1, p.2⟩,
            loadedLength := code.code.length, guards := code.guards, tables } := by
  unfold Body.decode
  simp only [bind_eq_ok, Code.decode_eq_ok_iff]
  constructor
  · rintro ⟨_, ⟨is, his, rfl⟩, tables, htables, hb⟩
    cases hb
    exact ⟨is, tables, his, htables, rfl⟩
  · rintro ⟨is, tables, his, htables, rfl⟩
    exact ⟨_, ⟨is, his, rfl⟩, tables, htables, rfl⟩

theorem filterMap_origin_places (places : List (Nat × Instruction)) :
    (places.map fun p => (⟨some p.1, p.2⟩ : Node)).filterMap Node.origin = places.map Prod.fst := by
  rw [List.filterMap_map, ← List.filterMap_eq_map]
  rfl

theorem map_instruction_places (is : List Instruction) :
    ((Code.placesFrom 0 is).map fun p => (⟨some p.1, p.2⟩ : Node)).map Node.instruction = is := by
  rw [List.map_map]
  exact Code.map_snd_placesFrom 0 is

theorem loadedLength_of_decode {pool : Pool} {code : CodeAttribute} {b : Body}
    (h : Body.decode pool code = .ok b) : b.loadedLength = code.code.length := by
  obtain ⟨is, tables, -, -, rfl⟩ := decode_eq_ok_iff.mp h
  rfl

/-- The origins of a loaded body are the offsets of the loaded instructions. -/
theorem exists_decode_origins {pool : Pool} {code : CodeAttribute} {b : Body}
    (h : Body.decode pool code = .ok b) :
    ∃ l, Code.decode code.code = .ok l ∧ b.origins = l.map Prod.fst := by
  obtain ⟨is, tables, his, -, rfl⟩ := decode_eq_ok_iff.mp h
  exact ⟨_, Code.decode_eq_ok_iff.mpr ⟨is, his, rfl⟩, filterMap_origin_places _⟩

/-- Loaded instructions start one behind the other inside the code. -/
theorem ordered_of_decode {pool : Pool} {code : CodeAttribute} {b : Body}
    (h : Body.decode pool code = .ok b) : b.Ordered := by
  obtain ⟨is, tables, his, -, rfl⟩ := decode_eq_ok_iff.mp h
  constructor
  · rw [origins, filterMap_origin_places]
    exact Code.placesFrom_increasing 0 is
  · intro o ho
    rw [origins, filterMap_origin_places, List.mem_map] at ho
    obtain ⟨⟨o, i⟩, hmem, rfl⟩ := ho
    have hlt := (Code.mem_placesFrom hmem).2
    rw [his.stopFrom_eq] at hlt
    simpa using hlt

theorem anchored_of_decode {pool : Pool} {code : CodeAttribute} {b : Body}
    (h : Body.decode pool code = .ok b) : b.Anchored :=
  (ordered_of_decode h).anchored

/-! ### After splices -/

variable {p : Instruction → Prop}

theorem StandsFor.filterMap_origin {n : Node} {run : List Node} (h : StandsFor p n run) :
    run.filterMap Node.origin = n.origin.toList := by
  cases h with
  | kept => cases hn : n.origin <;> simp [hn]
  | replaced h => cases hn : n.origin <;> simp [replacementNodes, List.filterMap_map]

theorem Runs.filterMap_origin {loaded nodes : List Node} {runs : List (List Node)}
    (h : Runs p loaded nodes runs) : nodes.filterMap Node.origin = loaded.filterMap Node.origin := by
  obtain ⟨hruns, rfl⟩ := h
  induction hruns with
  | nil => rfl
  | @cons n run loaded runs hn _ ih =>
      rw [List.flatten_cons, List.filterMap_append, hn.filterMap_origin, ih]
      cases h : n.origin with
      | none => rw [List.filterMap_cons_none h]; rfl
      | some o => rw [List.filterMap_cons_some h]; rfl

theorem Spliced.anchored {b c : Body} (h : Spliced p b c) (hb : b.Anchored) : c.Anchored := by
  obtain ⟨runs, hruns⟩ := h.exists_runs
  have horigins : c.origins = b.origins := hruns.filterMap_origin
  constructor
  · rw [horigins]
    exact hb.nodup
  · rw [horigins, h.loadedLength_eq]
    exact hb.lt_loadedLength

end Retrofit.Body
