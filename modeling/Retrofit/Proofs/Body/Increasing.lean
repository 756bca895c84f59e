import Retrofit.Proofs.Body.Placement

/-!
# Loaded offsets in their order

Whatever was spliced into a loaded body or taken out of it, the origins of its nodes are offsets of
loaded instructions in the order of the loaded code. So the offset map of its layout is strictly
increasing: no two loaded offsets share a place, and the end of the code stays behind all of them. The
map changes nothing exactly if all that is left of the loaded code is where it was.
-/

namespace Retrofit.Body

/-- The origins of the nodes are some of the offsets `starts`, in their order and before `stop`. -/
structure KeepsOrigins (starts : List Nat) (stop : Nat) (b : Body) : Prop where
  sublist : b.origins.Sublist starts
  nodup : b.origins.Nodup
  increasing : b.origins.Pairwise (· < ·)
  lt_stop : ∀ o ∈ b.origins, o < stop

/-- Each node has an address behind that of the node before it, and the code ends behind all of them. -/
structure Climbs (b : Body) : Prop where
  nodes_eq : (b.nodes.zip b.addresses).map Prod.fst = b.nodes
  increasing : (b.nodes.zip b.addresses).Pairwise fun x y => x.2 < y.2
  lt_length : ∀ n a, (n, a) ∈ b.nodes.zip b.addresses → a < b.length

/-- The map `m` takes the origin of each node to the address of the node, and `stop` to the end of the
code, and it is strictly increasing. A loaded instruction is left as long as a node has its origin, and
it has moved if that node is somewhere else. -/
structure Increases (b : Body) (stop : Nat) (m : OffsetMap) : Prop where
  get?_iff : ∀ o a, m.get? o = some a ↔
    (∃ n, (n, a) ∈ b.nodes.zip b.addresses ∧ n.origin = some o) ∨ (o = stop ∧ a = b.length)
  lt_iff : ∀ o a o' a', m.get? o = some a → m.get? o' = some a' → (a < a' ↔ o < o')
  injective : ∀ o o' a, m.get? o = some a → m.get? o' = some a → o = o'
  identity_iff : (∀ o a, m.get? o = some a → a = o) ↔
    (∀ n a o, (n, a) ∈ b.nodes.zip b.addresses → n.origin = some o → a = o) ∧ b.length = stop
  /-- The layout takes something to have moved exactly if the map is not the identity. -/
  moved_iff : (b.offsetPairs.any fun x => x.1 ≠ x.2) = true ↔ ∃ o a, m.get? o = some a ∧ a ≠ o

variable {b : Body}

theorem climbs (b : Body) : b.Climbs := by
  refine ⟨zip_addresses_fst b, ?_, fun n a h => address_lt_length h⟩
  rw [List.pairwise_iff_getElem]
  intro q r hq hr hlt
  rw [List.getElem_zip, List.getElem_zip]
  exact List.pairwise_iff_getElem.mp (Code.addresses_increasing b.instructions) q r _ _ hlt

theorem lands_iff {o a : Nat} : b.Lands o a ↔
    (∃ n, (n, a) ∈ b.nodes.zip b.addresses ∧ n.origin = some o) ∨
      (o = b.loadedLength ∧ a = b.length) := by
  constructor
  · rintro (⟨hmem, horigin⟩ | _)
    · exact Or.inl ⟨_, hmem, horigin⟩
    · exact Or.inr ⟨rfl, rfl⟩
  · rintro (⟨n, hmem, horigin⟩ | ⟨rfl, rfl⟩)
    · exact .node hmem horigin
    · exact .stop

/-- All that is left of the loaded code is where it was: each node with an origin, and the end. -/
theorem forall_lands_iff : (∀ o a, b.Lands o a → a = o) ↔
    (∀ n a o, (n, a) ∈ b.nodes.zip b.addresses → n.origin = some o → a = o) ∧
      b.length = b.loadedLength := by
  constructor
  · intro h
    exact ⟨fun n a o hmem horigin => h o a (.node hmem horigin), h _ _ .stop⟩
  · rintro ⟨hnodes, hstop⟩ o a (⟨hmem, horigin⟩ | _)
    · exact hnodes _ a o hmem horigin
    · exact hstop

/-- A loaded offset shares its place with no other one. -/
theorem Ordered.lands_injective (h : b.Ordered) {o o' a : Nat} (hland : b.Lands o a)
    (hland' : b.Lands o' a) : o = o' := by
  have hlt := h.lands_lt_iff hland hland'
  have hgt := h.lands_lt_iff hland' hland
  omega

/-- Origins in order are all that it takes for the offset map to be strictly increasing. -/
theorem Ordered.increases (h : b.Ordered) :
    b.Increases b.loadedLength (OffsetMap.ofPairs b.offsetPairs) := by
  have hget : ∀ o a, (OffsetMap.ofPairs b.offsetPairs).get? o = some a ↔ b.Lands o a :=
    fun _ _ => h.anchored.get?_iff
  constructor
  · exact fun o a => (hget o a).trans lands_iff
  · intro o a o' a' hmap hmap'
    exact h.lands_lt_iff ((hget o a).mp hmap) ((hget o' a').mp hmap')
  · intro o o' a hmap hmap'
    exact h.lands_injective ((hget o a).mp hmap) ((hget o' a).mp hmap')
  · simp only [hget]
    exact forall_lands_iff
  · simp only [hget]
    exact any_offsetPairs_iff

/-- However a loaded body was spliced, also with nothing in the place of some of its nodes: its origins
are offsets of loaded instructions, distinct and in order before the end of the loaded code. The
addresses of its layout increase up to the length of the new code. So does the map from the ones to the
others, which is the identity exactly if nothing that is left of the loaded code has moved. -/
theorem Revised.keepsOrder {pool : Pool} {code : CodeAttribute} {loaded : Body}
    (hload : Body.decode pool code = .ok loaded) (hrevised : Revised (fun _ => True) loaded b) :
    ∃ l, Code.decode code.code = .ok l ∧ b.loadedLength = code.code.length ∧
      b.KeepsOrigins (l.map Prod.fst) code.code.length ∧ b.Climbs ∧
      b.Increases code.code.length (OffsetMap.ofPairs b.offsetPairs) := by
  obtain ⟨l, hl, horigins⟩ := exists_decode_origins hload
  have hordered := hrevised.ordered (ordered_of_decode hload)
  have hsublist := hrevised.origins_sublist
  rw [horigins] at hsublist
  have hstop : b.loadedLength = code.code.length :=
    hrevised.loadedLength_eq.trans (loadedLength_of_decode hload)
  have hincreases := hordered.increases
  have hlt := hordered.lt_loadedLength
  rw [hstop] at hincreases hlt
  exact ⟨l, hl, hstop, ⟨hsublist, hordered.anchored.nodup, hordered.increasing, hlt⟩, climbs b,
    hincreases⟩

/-- A `Nop` and a load in front of a switch with one byte of padding. -/
def siding : CodeAttribute :=
  ⟨1, 1, [0x00, 0x1a, 0xaa, 0, 0, 0, 0, 18, 0, 0, 0, 0, 0, 0, 0, 0, 0, 0, 0, 18, 0xb1], [], []⟩

def sidingBody : Body where
  maxStack := 1
  maxLocals := 1
  scratchBase := 1
  nodes := [⟨some 0, .nop⟩, ⟨some 1, .plain ⟨0x1a, rfl⟩⟩, ⟨some 2, .tableswitch 18 0 0 [18]⟩,
    ⟨some 20, .vreturn⟩]
  loadedLength := 21
  guards := []
  tables := []

/-- The `Nop` taken out, the load replaced by two other instructions and a load, the second of them
taken out again and that load replaced once more. The switch has moved into its padding. -/
def sidingRevised : Body :=
  (((sidingBody.splice 0 []).splice 0 [.nop, .pushNull, .plain ⟨0x1a, rfl⟩]).splice 1 []).splice 1
    [.nop, .plain ⟨0x1a, rfl⟩]

theorem keepsOrder_siding :
    Body.decode ⟨1, #[]⟩ siding = .ok sidingBody ∧ Revised (fun _ => True) sidingBody sidingRevised ∧
      sidingRevised.offsetPairs = [(1, 0), (2, 3), (20, 20), (21, 21)] ∧
      sidingRevised.KeepsOrigins [0, 1, 2, 20] 21 ∧ sidingRevised.Climbs ∧
      sidingRevised.Increases 21 (OffsetMap.ofPairs sidingRevised.offsetPairs) := by
  have hload : Body.decode ⟨1, #[]⟩ siding = .ok sidingBody := by cbv
  have hcode : Code.decode siding.code = .ok [(0, .nop), (1, .plain ⟨0x1a, rfl⟩),
      (2, .tableswitch 18 0 0 [18]), (20, .vreturn)] := by cbv
  have hstep : ∀ (b : Body) (position : Nat) (is : List Instruction), position < b.nodes.length →
      RevisionStep (fun _ => True) b (b.splice position is) :=
    fun b position is hlt => ⟨position, is, hlt, fun _ _ => trivial, rfl⟩
  -- the last two splices are at nodes without an origin
  have hrevised : Revised (fun _ => True) sidingBody sidingRevised :=
    (((Relation.ReflTransGen.single (hstep _ 0 [] (by decide))).tail
      (hstep _ 0 _ (by decide))).tail (hstep _ 1 [] (by decide))).tail (hstep _ 1 _ (by decide))
  obtain ⟨l, hl, -, horigins, hclimbs, hincreases⟩ := Revised.keepsOrder hload hrevised
  rw [hcode] at hl
  cases hl
  exact ⟨hload, hrevised, by decide, horigins, hclimbs, hincreases⟩

end Retrofit.Body
