import Retrofit.Proofs.Body.Revising

/-!
# The order of nodes

A node has a source: the loaded instruction that it is, or whose place it took. Splices leave the
nodes in the order of their sources, and the first node of a source is the one that has its origin.
So a loaded offset lands at or before a node exactly if the source of the node lies at or behind it,
and loaded offsets land in the order that they had.
-/

namespace Retrofit

/-- Items put in the place of one of a list in order, each of which stands to the others as that one
did. -/
theorem pairwise_replace {α : Type} {R : α → α → Prop} {front back mid : List α} {x : α}
    (h : (front ++ x :: back).Pairwise R) (hmid : mid.Pairwise R)
    (hleft : ∀ y ∈ mid, ∀ a, R a x → R a y) (hright : ∀ y ∈ mid, ∀ b, R x b → R y b) :
    (front ++ (mid ++ back)).Pairwise R := by
  obtain ⟨hfront, hx, hcross⟩ := List.pairwise_append.mp h
  obtain ⟨hxback, hback⟩ := List.pairwise_cons.mp hx
  rw [List.pairwise_append, List.pairwise_append]
  refine ⟨hfront, ⟨hmid, hback, fun y hy b hb => hright y hy b (hxback b hb)⟩, ?_⟩
  intro a ha y hy
  obtain hy | hy := List.mem_append.mp hy
  · exact hleft y hy a (hcross a ha x List.mem_cons_self)
  · exact hcross a ha y (List.mem_cons_of_mem x hy)

namespace Code

theorem scanl_eq (address : Nat) (is : List Instruction) :
    is.scanl (fun a i => a + i.size a) address =
      (placesFrom address is).map Prod.fst ++ [stopFrom address is] := by
  induction is generalizing address with
  | nil => rfl
  | cons i is ih => rw [List.scanl_cons, ih, placesFrom, List.map_cons, List.cons_append, stopFrom_cons]

/-- Every instruction has a place of its own, and the end of the code is behind all of them. -/
theorem addresses_increasing (is : List Instruction) : (addresses is).Pairwise (· < ·) := by
  rw [addresses, scanl_eq, List.pairwise_append]
  refine ⟨placesFrom_increasing 0 is, List.pairwise_singleton _ _, ?_⟩
  intro a ha stop hstop
  obtain ⟨⟨a, i⟩, hmem, rfl⟩ := List.mem_map.mp ha
  rw [List.mem_singleton] at hstop
  rw [hstop]
  exact (mem_placesFrom hmem).2

end Code

namespace Body

/-- The body was got from the loaded one by splices. The offsets are those of the sources of its
nodes: a loaded node is its own source, and nodes that are put in the place of another one have the
source of that one. -/
inductive SplicedFrom (loaded : Body) : Body → List Nat → Prop
  | loaded : SplicedFrom loaded loaded loaded.origins
  | splice {b : Body} {sources : List Nat} {position source : Nat} (i : Instruction)
      (is : List Instruction) (h : SplicedFrom loaded b sources)
      (hsource : sources[position]? = some source) :
      SplicedFrom loaded (b.splice position (i :: is)) (sources.take position ++
        (List.replicate (i :: is).length source ++ sources.drop (position + 1)))

/-- The nodes are in the order of their sources. A node with an origin is the first one of its
source. -/
structure InOrder (b : Body) (sources : List Nat) : Prop where
  length_eq : sources.length = b.nodes.length
  own : ∀ x ∈ b.nodes.zip sources, ∀ o, x.1.origin = some o → x.2 = o
  order : (b.nodes.zip sources).Pairwise fun x y =>
    x.2 ≤ y.2 ∧ (y.1.origin ≠ none → x.2 < y.2)
  inside : ∀ s ∈ sources, s < b.loadedLength

/-! ### Splices keep the order -/

theorem inOrder_of_decode {pool : Pool} {code : CodeAttribute} {b : Body}
    (h : Body.decode pool code = .ok b) : b.InOrder b.origins := by
  have hinside := (anchored_of_decode h).lt_loadedLength
  obtain ⟨is, tables, -, -, rfl⟩ := decode_eq_ok_iff.mp h
  refine ⟨?_, ?_, ?_, hinside⟩
  · rw [origins, filterMap_origin_places, List.length_map, List.length_map]
  · intro x hx o ho
    rw [origins, filterMap_origin_places, List.zip_map'] at hx
    obtain ⟨p, -, rfl⟩ := List.mem_map.mp hx
    exact Option.some_inj.mp ho
  · rw [origins, filterMap_origin_places, List.zip_map', List.pairwise_map]
    have hincreasing := List.pairwise_map.mp (Code.placesFrom_increasing 0 is)
    exact hincreasing.imp fun hlt => ⟨Nat.le_of_lt hlt, fun _ => hlt⟩

/-- The nodes of a replacement in order, all with one source. -/
theorem replacementNodes_inOrder (origin : Option Nat) (is : List Instruction) (source : Nat) :
    ((replacementNodes origin is).zip (List.replicate is.length source)).Pairwise fun x y =>
      x.2 ≤ y.2 ∧ (y.1.origin ≠ none → x.2 < y.2) := by
  cases is with
  | nil => exact .nil
  | cons i is =>
      rw [replacementNodes, List.length_cons, List.replicate_succ, List.zip_cons_cons]
      have htail : ∀ x ∈ (is.map fun j => (⟨none, j⟩ : Node)).zip (List.replicate is.length source),
          x.2 = source ∧ x.1.origin = none := by
        intro x hx
        obtain ⟨hnode, hsource⟩ := List.of_mem_zip hx
        obtain ⟨j, -, hnode⟩ := List.mem_map.mp hnode
        exact ⟨List.eq_of_mem_replicate hsource, by rw [← hnode]⟩
      refine .cons ?_ (List.pairwise_of_forall_mem_list ?_)
      · intro y hy
        obtain ⟨hsource, hnone⟩ := htail y hy
        exact ⟨Nat.le_of_eq hsource.symm, fun hne => absurd hnone hne⟩
      · intro x hx y hy
        obtain ⟨hx, -⟩ := htail x hx
        obtain ⟨hy, hnone⟩ := htail y hy
        exact ⟨Nat.le_of_eq (hx.trans hy.symm), fun hne => absurd hnone hne⟩

theorem mem_replacementNodes_zip {origin : Option Nat} {is : List Instruction} {source : Nat}
    {x : Node × Nat}
    (hx : x ∈ (replacementNodes origin is).zip (List.replicate is.length source)) :
    x.2 = source ∧ (x.1.origin = origin ∨ x.1.origin = none) := by
  obtain ⟨hnode, hsource⟩ := List.of_mem_zip hx
  refine ⟨List.eq_of_mem_replicate hsource, ?_⟩
  cases is with
  | nil => cases hnode
  | cons i is =>
      rw [replacementNodes, List.mem_cons, List.mem_map] at hnode
      obtain hnode | ⟨j, -, hnode⟩ := hnode
      · exact Or.inl (by rw [hnode])
      · exact Or.inr (by rw [← hnode])

theorem length_replacementNodes (origin : Option Nat) (is : List Instruction) :
    (replacementNodes origin is).length = is.length := by
  cases is with
  | nil => rfl
  | cons i is => rw [replacementNodes, List.length_cons, List.length_map, List.length_cons]

/-- Nodes with their sources, before and after a splice. -/
theorem zip_splice {b : Body} {sources : List Nat} (hlength : sources.length = b.nodes.length)
    {position : Nat} (hlt : position < b.nodes.length) (hlt' : position < sources.length)
    (is : List Instruction) :
    b.nodes.zip sources = (b.nodes.take position).zip (sources.take position) ++
      (b.nodes[position], sources[position]) ::
        (b.nodes.drop (position + 1)).zip (sources.drop (position + 1)) ∧
    (b.splice position is).nodes.zip (sources.take position ++
      (List.replicate is.length sources[position] ++ sources.drop (position + 1))) =
        (b.nodes.take position).zip (sources.take position) ++
          ((replacementNodes b.nodes[position].origin is).zip
            (List.replicate is.length sources[position]) ++
              (b.nodes.drop (position + 1)).zip (sources.drop (position + 1))) := by
  constructor
  · rw [← List.zip_cons_cons, ← List.zip_append (by simp [hlength]), List.getElem_cons_drop,
      List.getElem_cons_drop, List.take_append_drop, List.take_append_drop]
  · rw [splice_nodes hlt, List.zip_append (by simp [hlength]),
      List.zip_append (by rw [length_replacementNodes, List.length_replicate])]

/-- After a splice a node and its source were there before, or the node was put in: then it has the
source of the node that gave way to it, and the origin of that node or none. -/
theorem mem_zip_splice {b : Body} {sources : List Nat} (hlength : sources.length = b.nodes.length)
    {position : Nat} (hlt : position < b.nodes.length) (hlt' : position < sources.length)
    {is : List Instruction} {x : Node × Nat}
    (hx : x ∈ (b.splice position is).nodes.zip (sources.take position ++
      (List.replicate is.length sources[position] ++ sources.drop (position + 1)))) :
    x ∈ b.nodes.zip sources ∨
      x.2 = sources[position] ∧ (x.1.origin = b.nodes[position].origin ∨ x.1.origin = none) := by
  obtain ⟨hold, hnew⟩ := zip_splice hlength hlt hlt' is
  rw [hnew, List.mem_append, List.mem_append] at hx
  rw [hold, List.mem_append, List.mem_cons]
  obtain hx | hx | hx := hx
  · exact Or.inl (Or.inl hx)
  · exact Or.inr (mem_replacementNodes_zip hx)
  · exact Or.inl (Or.inr (Or.inr hx))

theorem InOrder.splice {b : Body} {sources : List Nat} (h : b.InOrder sources)
    {position source : Nat} (hsource : sources[position]? = some source) (i : Instruction)
    (is : List Instruction) :
    (b.splice position (i :: is)).InOrder (sources.take position ++
      (List.replicate (i :: is).length source ++ sources.drop (position + 1))) := by
  obtain ⟨hlt', rfl⟩ := List.getElem?_eq_some_iff.mp hsource
  have hlt : position < b.nodes.length := by
    rw [← h.length_eq]
    exact hlt'
  obtain ⟨hold, hnew⟩ := zip_splice h.length_eq hlt hlt' (i :: is)
  have hmem : (b.nodes[position], sources[position]) ∈ b.nodes.zip sources := by
    rw [hold]
    exact List.mem_append_right _ List.mem_cons_self
  refine ⟨?_, ?_, ?_, ?_⟩
  · rw [splice_nodes hlt]
    simp only [List.length_append, List.length_take, List.length_drop, List.length_replicate,
      length_replacementNodes, h.length_eq]
  · intro x hx o ho
    obtain hx | ⟨hxsource, horigin | hnone⟩ := mem_zip_splice h.length_eq hlt hlt' hx
    · exact h.own x hx o ho
    · rw [hxsource]
      exact h.own _ hmem o (by rw [← horigin]; exact ho)
    · rw [hnone] at ho
      cases ho
  · have horder := h.order
    rw [hold] at horder
    rw [hnew]
    refine pairwise_replace horder (replacementNodes_inOrder _ _ _) ?_ ?_
    · rintro y hy a ⟨hle, hmark⟩
      obtain ⟨hysource, horigin⟩ := mem_replacementNodes_zip hy
      rw [hysource]
      refine ⟨hle, fun hne => hmark ?_⟩
      obtain horigin | hnone := horigin
      · rw [← horigin]
        exact hne
      · exact absurd hnone hne
    · intro y hy b hb
      rw [(mem_replacementNodes_zip hy).1]
      exact hb
  · have hlength : (b.splice position (i :: is)).loadedLength = b.loadedLength := by rw [splice_eq]
    intro s hs
    rw [hlength]
    rw [List.mem_append, List.mem_append] at hs
    obtain hs | hs | hs := hs
    · exact h.inside s (List.mem_of_mem_take hs)
    · rw [List.eq_of_mem_replicate hs]
      exact h.inside _ (List.getElem_mem hlt')
    · exact h.inside s (List.mem_of_mem_drop hs)

theorem SplicedFrom.inOrder {pool : Pool} {code : CodeAttribute} {loaded b : Body}
    {sources : List Nat} (h : SplicedFrom loaded b sources)
    (hload : Body.decode pool code = .ok loaded) : b.InOrder sources := by
  induction h with
  | loaded => exact inOrder_of_decode hload
  | splice i is _ hsource ih => exact ih.splice hsource i is

/-! ### Splices with and without sources -/

theorem Spliced.eq {p : Instruction → Prop} {b c : Body} (h : Spliced p b c) :
    c = { b with nodes := c.nodes } :=
  h.revised.eq

section

variable {pool : Pool} {code : CodeAttribute} {loaded b : Body} {sources : List Nat}
  (hload : Body.decode pool code = .ok loaded)

include hload

theorem SplicedFrom.spliced (h : SplicedFrom loaded b sources) :
    Spliced (fun _ => True) loaded b := by
  induction h with
  | loaded => exact .refl
  | @splice b sources position source i is h hsource ih =>
      have hlt : position < b.nodes.length := by
        rw [← (h.inOrder hload).length_eq]
        exact (List.getElem?_eq_some_iff.mp hsource).1
      exact ih.tail ⟨position, i, is, hlt, fun _ _ => trivial, rfl⟩

theorem Spliced.exists_sources (h : Spliced (fun _ => True) loaded b) :
    ∃ sources, SplicedFrom loaded b sources := by
  induction h with
  | refl => exact ⟨_, .loaded⟩
  | tail _ hstep ih =>
      obtain ⟨position, i, is, hlt, -, rfl⟩ := hstep
      obtain ⟨sources, hsources⟩ := ih
      rw [← (hsources.inOrder hload).length_eq] at hlt
      exact ⟨_, hsources.splice i is (List.getElem?_eq_getElem hlt)⟩

end

/-! ### Loaded offsets and nodes -/

theorem addresses_lt {b : Body} {q r a a' : Nat} (ha : b.addresses[q]? = some a)
    (ha' : b.addresses[r]? = some a') (hlt : q < r) : a < a' := by
  obtain ⟨hq, rfl⟩ := List.getElem?_eq_some_iff.mp ha
  obtain ⟨hr, rfl⟩ := List.getElem?_eq_some_iff.mp ha'
  exact List.pairwise_iff_getElem.mp (Code.addresses_increasing b.instructions) q r hq hr hlt

/-- The code ends behind every node. -/
theorem address_lt_length {b : Body} {n : Node} {a : Nat} (h : (n, a) ∈ b.nodes.zip b.addresses) :
    a < b.length := by
  obtain ⟨q, hq⟩ := List.mem_iff_getElem?.mp h
  obtain ⟨hn, ha⟩ := List.getElem?_zip_eq_some.mp hq
  have hlast := (List.getElem?_eq_some_iff.mp hn).1
  exact addresses_lt ha b.getElem?_addresses_length hlast

namespace Ordered

variable {b : Body} (h : b.Ordered)

include h

/-- The pairs of the offset map are in order, the old offsets as well as the new ones. -/
theorem offsetPairs_increasing :
    b.offsetPairs.Pairwise fun x y => x.1 < y.1 ∧ x.2 < y.2 := by
  have haddresses := List.pairwise_iff_getElem.mp (Code.addresses_increasing b.instructions)
  have horigins := h.increasing
  rw [origins, List.pairwise_filterMap, List.pairwise_iff_getElem] at horigins
  rw [offsetPairs, List.pairwise_append, List.pairwise_filterMap, List.pairwise_iff_getElem]
  refine ⟨?_, List.pairwise_singleton _ _, ?_⟩
  · intro i j hi hj hlt x hx y hy
    rw [List.getElem_zip] at hx hy
    obtain ⟨o, ho, rfl⟩ := Option.map_eq_some_iff.mp hx
    obtain ⟨o', ho', rfl⟩ := Option.map_eq_some_iff.mp hy
    exact ⟨horigins i j _ _ hlt o ho o' ho', haddresses i j _ _ hlt⟩
  · intro x hx stop hstop
    obtain ⟨⟨n, a⟩, hmem, hx⟩ := List.mem_filterMap.mp hx
    obtain ⟨o, ho, rfl⟩ := Option.map_eq_some_iff.mp hx
    rw [List.mem_singleton] at hstop
    rw [hstop]
    refine ⟨h.lt_loadedLength o ?_, address_lt_length hmem⟩
    exact List.mem_filterMap.mpr ⟨n, (List.of_mem_zip hmem).1, ho⟩

/-- Loaded offsets land in their order. -/
theorem lands_lt_iff {o o' a a' : Nat} (hland : b.Lands o a) (hland' : b.Lands o' a') :
    a < a' ↔ o < o' := by
  obtain ⟨i, hi, hx⟩ := List.mem_iff_getElem.mp (mem_offsetPairs.mpr hland)
  obtain ⟨j, hj, hy⟩ := List.mem_iff_getElem.mp (mem_offsetPairs.mpr hland')
  have hpairs := List.pairwise_iff_getElem.mp h.offsetPairs_increasing
  rcases Nat.lt_trichotomy i j with hlt | rfl | hlt
  · have hboth := hpairs i j hi hj hlt
    rw [hx, hy] at hboth
    exact iff_of_true hboth.2 hboth.1
  · rw [hx, Prod.mk.injEq] at hy
    omega
  · have hboth := hpairs j i hj hi hlt
    rw [hx, hy] at hboth
    dsimp only at hboth
    omega

end Ordered

namespace InOrder

variable {b : Body} {sources : List Nat} (h : b.InOrder sources)

include h

theorem getElem?_zip {q o : Nat} (hsource : sources[q]? = some o) :
    ∃ n, b.nodes[q]? = some n ∧ (b.nodes.zip sources)[q]? = some (n, o) := by
  have hq : q < b.nodes.length := by
    rw [← h.length_eq]
    exact (List.getElem?_eq_some_iff.mp hsource).1
  have hn := List.getElem?_eq_getElem hq
  exact ⟨b.nodes[q], hn, List.getElem?_zip_eq_some.mpr ⟨hn, hsource⟩⟩

/-- A node with an origin is its own source. -/
theorem exists_source {n : Node} {o a : Nat} (hmem : (n, a) ∈ b.nodes.zip b.addresses)
    (horigin : n.origin = some o) :
    ∃ q : Nat, b.nodes[q]? = some n ∧ b.addresses[q]? = some a ∧ sources[q]? = some o := by
  obtain ⟨q, hq⟩ := List.mem_iff_getElem?.mp hmem
  obtain ⟨hn, ha⟩ := List.getElem?_zip_eq_some.mp hq
  have hlt : q < sources.length := by
    rw [h.length_eq]
    exact (List.getElem?_eq_some_iff.mp hn).1
  have hsource := List.getElem?_eq_getElem hlt
  have hx : (b.nodes.zip sources)[q]? = some (n, sources[q]) :=
    List.getElem?_zip_eq_some.mpr ⟨hn, hsource⟩
  have hown : sources[q] = o := h.own _ (List.mem_of_getElem? hx) o horigin
  rw [hown] at hsource
  exact ⟨q, hn, ha, hsource⟩

/-- A loaded offset lands at or before a node exactly if the source of the node lies at or behind
it. -/
theorem le_iff {q t t' o a : Nat} (hland : b.Lands t t') (hsource : sources[q]? = some o)
    (ha : b.addresses[q]? = some a) : t' ≤ a ↔ t ≤ o := by
  obtain ⟨m, hm, hx⟩ := h.getElem?_zip hsource
  cases hland with
  | stop =>
      have hq := (List.getElem?_eq_some_iff.mp hm).1
      have hlt := addresses_lt ha b.getElem?_addresses_length hq
      have hinside := h.inside o (List.mem_of_getElem? hsource)
      omega
  | @node n _ _ hmem horigin =>
      obtain ⟨j, hn, ht', hown⟩ := h.exists_source hmem horigin
      have hy : (b.nodes.zip sources)[j]? = some (n, t) :=
        List.getElem?_zip_eq_some.mpr ⟨hn, hown⟩
      obtain ⟨hxlt, hx⟩ := List.getElem?_eq_some_iff.mp hx
      obtain ⟨hylt, hy⟩ := List.getElem?_eq_some_iff.mp hy
      have horder := List.pairwise_iff_getElem.mp h.order
      rcases Nat.lt_trichotomy q j with hlt | rfl | hlt
      · have haddress := addresses_lt ha ht' hlt
        have hbefore := (horder q j hxlt hylt hlt).2
        rw [hx, hy] at hbefore
        have hsourcelt : o < t := hbefore (by rw [horigin]; simp)
        omega
      · rw [ha, Option.some_inj] at ht'
        rw [hsource, Option.some_inj] at hown
        omega
      · have haddress := addresses_lt ht' ha hlt
        have hbehind := (horder j q hylt hxlt hlt).1
        rw [hx, hy] at hbehind
        have hsourcele : t ≤ o := hbehind
        omega

/-- Nodes in the order of their sources have their origins in order. -/
theorem ordered : b.Ordered := by
  have hnodes : (b.nodes.zip sources).map Prod.fst = b.nodes :=
    List.map_fst_zip (Nat.le_of_eq h.length_eq.symm)
  constructor
  · rw [origins, List.pairwise_filterMap, ← hnodes, List.pairwise_map]
    refine h.order.imp_of_mem ?_
    rintro x y hx hy ⟨-, hlt⟩ o ho o' ho'
    rw [← h.own x hx o ho, ← h.own y hy o' ho']
    exact hlt (by rw [ho']; simp)
  · intro o ho
    obtain ⟨n, hn, ho⟩ := List.mem_filterMap.mp ho
    rw [← hnodes] at hn
    obtain ⟨x, hx, rfl⟩ := List.mem_map.mp hn
    rw [← h.own x hx o ho]
    exact h.inside x.2 (List.of_mem_zip hx).2

end InOrder

/-! ### Emitted code and its tables -/

/-- The code is made of one instruction for each node, at the address of the node, and the end of the
loaded code, at `stop`, has become the end of this one. -/
structure EmittedAs (b : Body) (stop : Nat) (code : List UInt8) : Prop where
  exists_addresses_eq : ∃ is, code = Code.encode is ∧ Code.addresses is = b.addresses
  stop : b.Lands stop code.length

theorem Spliced.emits {pool : Pool} {code c : CodeAttribute} {loaded b : Body}
    (h : Spliced (fun _ => True) loaded b) (hload : Body.decode pool code = .ok loaded)
    (henc : b.encode = .ok c) : b.EmittedAs code.code.length c.code := by
  obtain ⟨is, hlaid, hcode⟩ := exists_laidOut (h.anchored (anchored_of_decode hload)) henc
  refine ⟨⟨is, hcode, addresses_of_laidOut hlaid⟩, ?_⟩
  have hstop : b.Lands b.loadedLength b.length := .stop
  rw [h.loadedLength_eq, loadedLength_of_decode hload] at hstop
  rw [hcode, length_encode_of_laidOut hlaid]
  exact hstop

theorem moveOffset_eq_ok {map : Nat → Option Nat} {user : OffsetUser} {offset new : Nat}
    (h : moveOffset map user offset = .ok new) : map offset = some new := by
  unfold moveOffset at h
  split at h
  · cases h
    assumption
  · cases h

theorem Lands.le_length {b : Body} {o a : Nat} (h : b.Lands o a) : a ≤ b.length := by
  cases h with
  | stop => exact Nat.le_refl _
  | node hmem _ => exact Nat.le_of_lt (address_lt_length hmem)

/-- A 16-bit offset in a table is moved to where it lands. -/
theorem lands_of_moveOffset16 {b : Body} (hb : b.Anchored) (hlen : b.length ≤ 65535)
    {user : OffsetUser} {offset new : UInt16}
    (h : moveOffset16 (OffsetMap.ofPairs b.offsetPairs).get? user offset = .ok new) :
    b.Lands offset.toNat new.toNat := by
  obtain ⟨a, ha, rfl⟩ := map_eq_ok.mp h
  have hland := hb.get?_iff.mp (moveOffset_eq_ok ha)
  have hle := hland.le_length
  rw [UInt16.toNat_ofNat_of_lt' (by show a < 65536; omega)]
  exact hland

end Body

end Retrofit
