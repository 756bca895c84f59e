import Std.Data.HashMap

/-!
# Offset maps

A partial map between code offsets, given by pairs of an old and a new offset. Of two pairs with the
same old offset the later one counts.
-/

namespace Retrofit

/-- A partial map from old offsets to new ones. -/
structure OffsetMap where
  table : Std.HashMap Nat Nat

namespace OffsetMap

/-- The map given by pairs of an old and a new offset. -/
def ofPairs (pairs : List (Nat × Nat)) : OffsetMap :=
  ⟨pairs.foldl (fun m p => m.insert p.1 p.2) ∅⟩

/-- The new offset for an old one. -/
def get? (m : OffsetMap) (old : Nat) : Option Nat := m.table[old]?

theorem get?_ofPairs_nil (old : Nat) : (ofPairs []).get? old = none := by
  simp [ofPairs, get?]

/-- One more pair at the end decides its own old offset and no other. -/
theorem get?_ofPairs_append_singleton (pairs : List (Nat × Nat)) (p : Nat × Nat) (old : Nat) :
    (ofPairs (pairs ++ [p])).get? old =
      if p.1 = old then some p.2 else (ofPairs pairs).get? old := by
  simp [ofPairs, get?, List.foldl_append, Std.HashMap.getElem?_insert]

end OffsetMap

end Retrofit
