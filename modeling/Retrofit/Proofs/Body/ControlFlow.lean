import Mathlib
import Retrofit.Instruction.Short
import Retrofit.Proofs.Body.Loading

/-!
# Control flow

Instructions without displacements may take the place of others, again and again, and no jump goes
astray. In the code laid out afterwards every instruction is the one of its node, and it jumps to
where the targets it was loaded with have landed: at the first of the nodes that stand for the
target. The places are those of the layout because no displacement has a say in the size of an
instruction.
-/

namespace Retrofit

namespace Body

/-- The instruction carries no displacements. -/
def Straight (i : Instruction) : Prop := i.isBranch = false

/-- The loaded target `t` lies at `t'` in the new code. -/
def Follows (b : Body) (t t' : Int) : Prop :=
  ∃ old new : Nat, t = old ∧ b.Lands old new ∧ t' = new

/-- The instruction `i` at `address` is the one of the node `n`, aimed at where the loaded targets of
the node have landed. -/
structure LaidOut (b : Body) (n : Node) (address : Nat) (i : Instruction) : Prop where
  unaimed_eq : i.unaimed = n.instruction.unaimed
  follows : ∀ o, n.origin = some o →
    List.Forall₂ b.Follows (n.instruction.targets o) (i.targets address)

/-- The new instructions `is` of a spliced body carry on the control flow of the loaded code, which
ends at `stop`. -/
structure CarriesOn (loaded : List (Nat × Instruction)) (stop : Nat) (b : Body)
    (is : List Instruction) : Prop where
  /-- There is one new instruction for each node. -/
  laidOut : List.Forall₂ (fun n i => b.LaidOut n.1 n.2 i) (b.nodes.zip b.addresses) is
  /-- A node that jumps is a loaded instruction at its own offset. -/
  branch_loaded : ∀ n ∈ b.nodes, n.instruction.isBranch = true →
    ∃ o, n.origin = some o ∧ (o, n.instruction) ∈ loaded
  /-- A loaded offset lands at the first of the nodes that stand for the instruction there, and the
  end of the loaded code at the end of the new one. -/
  enters : ∃ runs, Runs Straight (loaded.map fun p => ⟨some p.1, p.2⟩) b.nodes runs ∧
    ∀ k o, (loaded.map Prod.fst ++ [stop])[k]? = some o →
      ∀ a, b.Lands o a ↔ b.addresses[(runs.take k).flatten.length]? = some a

/-! ### One instruction for each node -/

theorem laidOut_of_moveNode {b : Body} (hb : b.Anchored) {n : Node} {address : Nat}
    {i : Instruction}
    (h : moveNode (OffsetMap.ofPairs b.offsetPairs).get? n address = .ok i) :
    b.LaidOut n address i := by
  obtain ⟨hnone, rfl⟩ | ⟨origin, horigin, hi⟩ := moveNode_eq_ok_iff.mp h
  · refine ⟨rfl, fun o ho => ?_⟩
    rw [hnone] at ho
    cases ho
  · obtain ⟨hunaimed, htargets⟩ := Instruction.relocate_eq_ok_iff.mp hi
    refine ⟨hunaimed, fun o ho => ?_⟩
    rw [horigin, Option.some_inj] at ho
    subst ho
    refine htargets.imp ?_
    rintro t t' ⟨old, new, ht, -, hmap, ht'⟩
    exact ⟨old, new, ht, hb.get?_iff.mp hmap, ht'⟩

theorem scanl_size_congr {is js : List Instruction}
    (h : List.Forall₂ (fun i j => j.unaimed = i.unaimed) is js) (address : Nat) :
    js.scanl (fun a i => a + i.size a) address = is.scanl (fun a i => a + i.size a) address := by
  induction h generalizing address with
  | nil => rfl
  | @cons i j is js hij _ ih =>
      have hsize : j.size address = i.size address := by
        rw [← Instruction.size_unaimed, hij, Instruction.size_unaimed]
      rw [List.scanl_cons, List.scanl_cons, hsize, ih]

theorem wellFormed_congr {is js : List Instruction}
    (h : List.Forall₂ (fun i j => j.unaimed = i.unaimed) is js) (his : ∀ i ∈ is, i.WellFormed) :
    ∀ j ∈ js, j.WellFormed := by
  induction h with
  | nil => simp
  | @cons i j is js hij _ ih =>
      obtain ⟨hi, his⟩ := List.forall_mem_cons.mp his
      refine List.forall_mem_cons.mpr ⟨?_, ih his⟩
      rw [← Instruction.wellFormed_unaimed, hij, Instruction.wellFormed_unaimed]
      exact hi

theorem zip_addresses_fst (b : Body) : (b.nodes.zip b.addresses).map Prod.fst = b.nodes := by
  apply List.map_fst_zip
  rw [length_addresses]
  exact Nat.le_succ _

section

variable {b : Body} {is : List Instruction}
  (h : List.Forall₂ (fun n i => b.LaidOut n.1 n.2 i) (b.nodes.zip b.addresses) is)

include h

theorem unaimed_of_laidOut :
    List.Forall₂ (fun i j => j.unaimed = i.unaimed) b.instructions is := by
  rw [instructions, ← zip_addresses_fst, List.map_map, List.forall₂_map_left_iff]
  exact h.imp fun _ _ hi => hi.unaimed_eq

/-- Aimed anew, the instructions keep their places. -/
theorem addresses_of_laidOut : Code.addresses is = b.addresses :=
  scanl_size_congr (unaimed_of_laidOut h) 0

/-- The new instructions are decoded again, each at the address of its node. -/
theorem decode_of_laidOut (hform : ∀ n ∈ b.nodes, n.instruction.WellFormed) :
    Code.decode (Code.encode is) = .ok (b.addresses.zip is) := by
  rw [← addresses_of_laidOut h]
  apply Code.decode_encode
  apply wellFormed_congr (unaimed_of_laidOut h)
  intro i hi
  obtain ⟨n, hn, rfl⟩ := List.mem_map.mp hi
  exact hform n hn

theorem length_encode_of_laidOut : (Code.encode is).length = b.length := by
  have hlast := congrArg List.getLast? (addresses_of_laidOut h)
  rw [addresses, Code.addresses, Code.addresses, List.getLast?_scanl, List.getLast?_scanl,
    Option.some_inj] at hlast
  rw [Code.length_encode]
  exact hlast

end

/-- A body that was laid out has one new instruction for each node, and the code is made of them. -/
theorem exists_laidOut {b : Body} (hb : b.Anchored) {c : CodeAttribute} (henc : b.encode = .ok c) :
    ∃ is, List.Forall₂ (fun n i => b.LaidOut n.1 n.2 i) (b.nodes.zip b.addresses) is ∧
      c.code = Code.encode is := by
  obtain ⟨-, is, guards, tables, his, -, -, rfl⟩ := encode_eq_ok_iff.mp henc
  exact ⟨is, (mapM_eq_ok.mp his).imp fun _ _ h => laidOut_of_moveNode hb h, rfl⟩

/-! ### Runs -/

variable {p : Instruction → Prop}

/-- The first node of a run has the origin of the node that the run stands for. -/
theorem StandsFor.exists_head {n : Node} {run : List Node} (h : StandsFor p n run) :
    ∃ m rest, run = m :: rest ∧ m.origin = n.origin := by
  cases h with
  | kept => exact ⟨n, [], rfl, rfl⟩
  | replaced _ => exact ⟨_, _, rfl, rfl⟩

theorem mem_replacementNodes {origin : Option Nat} {is : List Instruction} {n : Node}
    (h : n ∈ replacementNodes origin is) : n.instruction ∈ is := by
  cases is with
  | nil => cases h
  | cons i is =>
      rw [replacementNodes, List.mem_cons, List.mem_map] at h
      obtain rfl | ⟨j, hj, rfl⟩ := h
      · exact List.mem_cons_self
      · exact List.mem_cons_of_mem i hj

/-- A node is a loaded one or holds an instruction that was put in. -/
theorem Runs.mem_or {loaded nodes : List Node} {runs : List (List Node)}
    (h : Runs p loaded nodes runs) {n : Node} (hn : n ∈ nodes) :
    n ∈ loaded ∨ p n.instruction := by
  obtain ⟨hruns, rfl⟩ := h
  induction hruns with
  | nil => simp at hn
  | @cons m run loaded runs hm _ ih =>
      rw [List.flatten_cons, List.mem_append] at hn
      obtain hn | hn := hn
      · cases hm with
        | kept =>
            rw [List.mem_singleton] at hn
            exact Or.inl (by rw [hn]; exact List.mem_cons_self)
        | replaced hp => exact Or.inr (hp _ (mem_replacementNodes hn))
      · exact (ih hn).imp_left (List.mem_cons_of_mem m)

/-- The first node of the run that stands for the loaded node `n` at `k`. -/
theorem Runs.exists_first {loaded nodes : List Node} {runs : List (List Node)}
    (h : Runs p loaded nodes runs) {k : Nat} {n : Node} (hn : loaded[k]? = some n) :
    ∃ m, nodes[(runs.take k).flatten.length]? = some m ∧ m.origin = n.origin := by
  obtain ⟨hruns, rfl⟩ := h
  induction hruns generalizing k with
  | nil => simp at hn
  | @cons n' run loaded runs hn' _ ih =>
      cases k with
      | zero =>
          obtain ⟨m, rest, rfl, hm⟩ := hn'.exists_head
          cases hn
          exact ⟨m, rfl, hm⟩
      | succ k =>
          obtain ⟨m, hmem, hm⟩ := ih hn
          refine ⟨m, ?_, hm⟩
          rw [List.take_succ_cons, List.flatten_cons, List.flatten_cons, List.length_append,
            List.getElem?_append_right (Nat.le_add_right _ _), Nat.add_sub_cancel_left]
          exact hmem

/-! ### Splices and layout together -/

theorem Straight.wellFormed {i : Instruction} (h : Straight i) : i.WellFormed := by
  cases i with
  | tableswitch => cases h
  | lookupswitch => cases h
  | _ => trivial

/-- The nodes are instructions that can be read back, at distinct loaded offsets or without one. -/
structure Sound (b : Body) : Prop where
  anchored : b.Anchored
  wellFormed : ∀ n ∈ b.nodes, n.instruction.WellFormed

theorem sound_of_decode {pool : Pool} {code : CodeAttribute} {b : Body}
    (h : Body.decode pool code = .ok b) : b.Sound := by
  refine ⟨anchored_of_decode h, fun n hn => ?_⟩
  obtain ⟨is, tables, his, -, rfl⟩ := decode_eq_ok_iff.mp h
  obtain ⟨⟨o, i⟩, hmem, rfl⟩ := List.mem_map.mp hn
  apply his.wellFormed
  rw [← Code.map_snd_placesFrom 0 is]
  exact List.mem_map.mpr ⟨_, hmem, rfl⟩

/-- Splices with instructions that do not jump leave a body sound. -/
theorem Spliced.sound {b c : Body} (h : Spliced Straight b c) (hb : b.Sound) : c.Sound := by
  refine ⟨h.anchored hb.anchored, fun n hn => ?_⟩
  obtain ⟨runs, hruns⟩ := h.exists_runs
  rcases hruns.mem_or hn with hloaded | hstraight
  · exact hb.wellFormed n hloaded
  · exact hstraight.wellFormed

theorem getElem?_addresses_length (b : Body) : b.addresses[b.nodes.length]? = some b.length := by
  have hlen : b.instructions.length = b.nodes.length := List.length_map _
  rw [addresses, Code.addresses, List.getElem?_scanl, if_pos (Nat.le_of_eq hlen.symm), ← hlen,
    List.take_length]
  rfl

/-- A node's origin lands at the address of the node. -/
theorem lands_of_getElem? {b : Body} {q o : Nat} {n : Node} (hn : b.nodes[q]? = some n)
    (ho : n.origin = some o) : ∃ a, b.addresses[q]? = some a ∧ b.Lands o a := by
  have hlt : q < b.nodes.length := (List.getElem?_eq_some_iff.mp hn).1
  have hlt' : q < b.addresses.length := by
    rw [length_addresses]
    omega
  have ha : b.addresses[q]? = some b.addresses[q] := List.getElem?_eq_getElem hlt'
  refine ⟨b.addresses[q], ha, .node ?_ ho⟩
  apply List.mem_of_getElem?
  rw [List.getElem?_zip_eq_some]
  exact ⟨hn, ha⟩

theorem lands_iff_enters {b : Body} (hb : b.Anchored) {loaded : List (Nat × Instruction)}
    {runs : List (List Node)}
    (hruns : Runs p (loaded.map fun p => ⟨some p.1, p.2⟩) b.nodes runs) {k o : Nat}
    (ho : (loaded.map Prod.fst ++ [b.loadedLength])[k]? = some o) (a : Nat) :
    b.Lands o a ↔ b.addresses[(runs.take k).flatten.length]? = some a := by
  have hland : ∃ a, b.addresses[(runs.take k).flatten.length]? = some a ∧ b.Lands o a := by
    by_cases hk : k < loaded.length
    · rw [List.getElem?_append_left (by simpa using hk), List.getElem?_map,
        List.getElem?_eq_getElem hk] at ho
      cases ho
      have hn : (loaded.map fun p => (⟨some p.1, p.2⟩ : Node))[k]? =
          some ⟨some loaded[k].1, loaded[k].2⟩ := by
        rw [List.getElem?_map, List.getElem?_eq_getElem hk]
        rfl
      obtain ⟨m, hm, horigin⟩ := hruns.exists_first hn
      exact lands_of_getElem? hm horigin
    · have hlen : (loaded.map Prod.fst).length = loaded.length := List.length_map _
      rw [List.getElem?_append_right (by omega), hlen] at ho
      obtain rfl : k = loaded.length := by
        have hlt := (List.getElem?_eq_some_iff.mp ho).1
        rw [List.length_singleton] at hlt
        omega
      rw [Nat.sub_self] at ho
      cases ho
      have hcount := hruns.1.length_eq
      rw [List.length_map] at hcount
      rw [hcount, List.take_length, ← hruns.2]
      exact ⟨_, getElem?_addresses_length b, .stop⟩
  obtain ⟨a', ha', hlands'⟩ := hland
  constructor
  · intro hlands
    rw [hb.lands_unique hlands hlands', ha']
  · intro ha
    rw [ha'] at ha
    cases ha
    exact hlands'

/-- However a loaded body was spliced with instructions that do not jump: once it is laid out, its
code decodes to one instruction for each node, at the node's address, and carries on the control flow
of the loaded code. -/
theorem encode_carriesOn {pool : Pool} {code c : CodeAttribute} {loaded b : Body}
    (hload : Body.decode pool code = .ok loaded) (hsplices : Spliced Straight loaded b)
    (henc : b.encode = .ok c) :
    ∃ l is, Code.decode code.code = .ok l ∧ Code.decode c.code = .ok (b.addresses.zip is) ∧
      CarriesOn l code.code.length b is ∧ b.Lands code.code.length c.code.length := by
  have hb : b.Sound := hsplices.sound (sound_of_decode hload)
  have hstop : b.loadedLength = loaded.loadedLength := hsplices.loadedLength_eq
  obtain ⟨js, tables, hjs, -, rfl⟩ := decode_eq_ok_iff.mp hload
  obtain ⟨runs, hruns⟩ := hsplices.exists_runs
  obtain ⟨is, hlaid, hcode⟩ := exists_laidOut hb.anchored henc
  have hbranch : ∀ n ∈ b.nodes, n.instruction.isBranch = true →
      ∃ o, n.origin = some o ∧ (o, n.instruction) ∈ Code.placesFrom 0 js := by
    intro n hn hjump
    rcases hruns.mem_or hn with hmem | hstraight
    · obtain ⟨⟨o, i⟩, hplace, rfl⟩ := List.mem_map.mp hmem
      exact ⟨o, rfl, hplace⟩
    · rw [hstraight] at hjump
      cases hjump
  rw [hcode]
  refine ⟨Code.placesFrom 0 js, is, Code.decode_eq_ok_iff.mpr ⟨js, hjs, rfl⟩,
    decode_of_laidOut hlaid hb.wellFormed, ⟨hlaid, hbranch, runs, hruns, ?_⟩, ?_⟩
  · intro k o ho
    exact lands_iff_enters hb.anchored hruns (by rw [hstop]; exact ho)
  · have hlands : b.Lands b.loadedLength b.length := .stop
    rw [hstop] at hlands
    rw [length_encode_of_laidOut hlaid]
    exact hlands

end Body

namespace Instruction

def nop : Instruction := .plain ⟨0x00, rfl⟩

def pushNull : Instruction := .plain ⟨0x01, rfl⟩

/-- Return a reference. -/
def areturn : Instruction := .plain ⟨0xb0, rfl⟩

/-- Return nothing. -/
def vreturn : Instruction := .plain ⟨0xb1, rfl⟩

def athrow : Instruction := .plain ⟨0xbf, rfl⟩

end Instruction

namespace Body

/-- A jump to a `Nop` from before it, and one from behind it. -/
def hurdle : CodeAttribute := ⟨1, 1, [0xa7, 0, 3, 0, 0xc6, 0xff, 0xff, 0xb1], [], []⟩

def hurdleBody : Body where
  maxStack := 1
  maxLocals := 1
  scratchBase := 1
  nodes := [⟨some 0, .jump ⟨0xa7, rfl⟩ 3⟩, ⟨some 3, .nop⟩,
    ⟨some 4, .jump ⟨0xc6, rfl⟩ (-1)⟩, ⟨some 7, .vreturn⟩]
  loadedLength := 8
  guards := []
  tables := []

/-- The body with the `Nop` replaced by a push and a pop. -/
def hurdleSpliced : Body :=
  hurdleBody.splice 1 [.pushNull, .pop]

def hurdleEncoded : CodeAttribute :=
  ⟨1, 1, [0xa7, 0, 3, 0x01, 0x57, 0xc6, 0xff, 0xfe, 0xb1], [], []⟩

theorem encode_carriesOn_hurdle :
    Body.decode ⟨1, #[]⟩ hurdle = .ok hurdleBody ∧ Spliced Straight hurdleBody hurdleSpliced ∧
      hurdleSpliced.encode = .ok hurdleEncoded ∧
      ∃ l is, Code.decode hurdle.code = .ok l ∧
        Code.decode hurdleEncoded.code = .ok (hurdleSpliced.addresses.zip is) ∧
        CarriesOn l 8 hurdleSpliced is ∧ hurdleSpliced.Lands 8 9 := by
  have hload : Body.decode ⟨1, #[]⟩ hurdle = .ok hurdleBody := by cbv
  have hsplices : Spliced Straight hurdleBody hurdleSpliced := by
    refine .single ⟨1, .pushNull, [.pop], by decide, ?_, rfl⟩
    intro i hi
    rw [List.mem_cons, List.mem_singleton] at hi
    obtain rfl | rfl := hi <;> rfl
  have henc : hurdleSpliced.encode = .ok hurdleEncoded := by cbv
  exact ⟨hload, hsplices, henc, encode_carriesOn hload hsplices henc⟩

end Body

end Retrofit
