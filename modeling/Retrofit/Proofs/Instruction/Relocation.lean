import Retrofit.Instruction.Relocation
import Retrofit.Proofs.Instruction.Codec
import Retrofit.Proofs.Lists
import Retrofit.Proofs.Outcome

/-!
# Moved branches

Moving an instruction takes its absolute targets where the map takes them, one by one, and leaves
everything else of it alone. It succeeds exactly if there is such an instruction at the new place, and
otherwise names the first target that is gone or too far away. Two moves in a row are one.
-/

namespace Retrofit.Instruction

/-- The instruction with every displacement set to zero: all of it that does not say where it jumps
to. -/
def unaimed : Instruction → Instruction
  | jump op _ => jump op 0
  | longJump op _ => longJump op 0
  | tableswitch _ low high displacements => tableswitch 0 low high (displacements.map fun _ => 0)
  | lookupswitch _ stated cases => lookupswitch 0 stated (cases.map fun c => (c.1, 0))
  | i => i

/-- The map takes the target `t` to the target `t'`. Targets are unsigned 32-bit offsets. -/
def Moves (map : Nat → Option Nat) (t t' : Int) : Prop :=
  ∃ old new : Nat, t = old ∧ old < 2 ^ 32 ∧ map old = some new ∧ t' = new

/-! ### What does not depend on displacements -/

theorem isBranch_unaimed (i : Instruction) : i.unaimed.isBranch = i.isBranch := by
  cases i <;> rfl

theorem size_unaimed (address : Nat) (i : Instruction) : i.unaimed.size address = i.size address := by
  cases i <;> simp [unaimed, size]

theorem wellFormed_unaimed (i : Instruction) : i.unaimed.WellFormed ↔ i.WellFormed := by
  cases i <;> simp [unaimed, WellFormed]

theorem unaimed_of_not_branch {i : Instruction} (h : i.isBranch = false) : i.unaimed = i := by
  cases i <;> first | rfl | cases h

theorem eq_of_unaimed_eq {i j : Instruction} (h : j.unaimed = i.unaimed)
    (hi : i.isBranch = false) : j = i := by
  have hj : j.isBranch = false := by rw [← isBranch_unaimed, h, isBranch_unaimed, hi]
  rw [← unaimed_of_not_branch hj, h, unaimed_of_not_branch hi]

/-! ### One displacement -/

variable {map : Nat → Option Nat} {old new : Nat}

theorem narrow_eq_ok_iff {d : Int} {x : Int16} : narrow d = .ok x ↔ x.toInt = d := by
  unfold narrow
  have hlo := x.minValue_le_toInt
  have hhi := x.toInt_lt
  split
  · rename_i h
    constructor
    · intro hx
      cases hx
      exact Int16.toInt_ofInt_of_le h.1 h.2
    · rintro rfl
      rw [Int16.ofInt_toInt]
  · rename_i h
    constructor
    · intro hx
      cases hx
    · rintro rfl
      exact absurd ⟨hlo, hhi⟩ h

theorem wide_eq_ok_iff {d : Int} {x : Int32} : wide d = .ok x ↔ x.toInt = d := by
  unfold wide
  have hlo := x.minValue_le_toInt
  have hhi := x.toInt_lt
  split
  · rename_i h
    constructor
    · intro hx
      cases hx
      exact Int32.toInt_ofInt_of_le h.1 h.2
    · rintro rfl
      rw [Int32.ofInt_toInt]
  · rename_i h
    constructor
    · intro hx
      cases hx
    · rintro rfl
      exact absurd ⟨hlo, hhi⟩ h

/-- A displacement is computed anew exactly if the map takes its target somewhere. -/
theorem retarget_eq_ok_iff {d e : Int} :
    retarget map old new d = .ok e ↔ Moves map (old + d) (new + e) := by
  unfold retarget
  constructor
  · intro h
    dsimp only at h
    split at h
    · rename_i t ht
      split at ht
      · rename_i hrange
        cases h
        exact ⟨(old + d).toNat, t, by omega, by omega, ht, by omega⟩
      · cases ht
    · cases h
  · rintro ⟨x, y, hx, hlt, hmap, hy⟩
    have hrange : 0 ≤ (old : Int) + d ∧ (old : Int) + d < 4294967296 := by omega
    have hnat : ((old : Int) + d).toNat = x := by omega
    have he : (y : Int) - new = e := by omega
    simp only [hrange, and_self, if_true, hnat, hmap, he]

theorem moved_eq_ok_iff {d e : Int32} :
    relocate.moved map old new d = .ok e ↔ Moves map (old + d.toInt) (new + e.toInt) := by
  unfold relocate.moved
  simp only [bind_eq_ok, retarget_eq_ok_iff, wide_eq_ok_iff]
  constructor
  · rintro ⟨_, h, rfl⟩
    exact h
  · intro h
    exact ⟨_, h, rfl⟩

/-! ### A whole instruction -/

/-- The displacement `e` at the new place leads to where the map takes the target of `d`. -/
def Aims (map : Nat → Option Nat) (old new : Nat) (d e : Int) : Prop :=
  Moves map (old + d) (new + e)

theorem relocate_jump_eq_ok_iff {op : Opcode .jump} {d : Int16} {j : Instruction} :
    (jump op d).relocate map old new = .ok j ↔
      ∃ e, j = jump op e ∧ Aims map old new d.toInt e.toInt := by
  simp only [relocate, bind_eq_ok, retarget_eq_ok_iff, narrow_eq_ok_iff]
  constructor
  · rintro ⟨_, h, e, rfl, hj⟩
    cases hj
    exact ⟨e, rfl, h⟩
  · rintro ⟨e, rfl, h⟩
    exact ⟨_, h, e, rfl, rfl⟩

theorem relocate_longJump_eq_ok_iff {op : Opcode .longJump} {d : Int32} {j : Instruction} :
    (longJump op d).relocate map old new = .ok j ↔
      ∃ e, j = longJump op e ∧ Aims map old new d.toInt e.toInt := by
  simp only [relocate, bind_eq_ok, retarget_eq_ok_iff, wide_eq_ok_iff]
  constructor
  · rintro ⟨_, h, e, rfl, hj⟩
    cases hj
    exact ⟨e, rfl, h⟩
  · rintro ⟨e, rfl, h⟩
    exact ⟨_, h, e, rfl, rfl⟩

theorem relocate_tableswitch_eq_ok_iff {d low high : Int32} {ds : List Int32} {j : Instruction} :
    (tableswitch d low high ds).relocate map old new = .ok j ↔
      ∃ e es, j = tableswitch e low high es ∧ Aims map old new d.toInt e.toInt ∧
        List.Forall₂ (fun d e => Aims map old new d.toInt e.toInt) ds es := by
  simp only [relocate, bind_eq_ok, mapM_eq_ok, moved_eq_ok_iff]
  constructor
  · rintro ⟨e, he, es, hes, hj⟩
    cases hj
    exact ⟨e, es, rfl, he, hes⟩
  · rintro ⟨e, es, rfl, he, hes⟩
    exact ⟨e, he, es, hes, rfl⟩

theorem relocate_lookupswitch_eq_ok_iff {d : Int32} {stated : UInt32} {cs : List (Int32 × Int32)}
    {j : Instruction} :
    (lookupswitch d stated cs).relocate map old new = .ok j ↔
      ∃ e cs', j = lookupswitch e stated cs' ∧ Aims map old new d.toInt e.toInt ∧
        List.Forall₂ (fun c c' => c'.1 = c.1 ∧ Aims map old new c.2.toInt c'.2.toInt) cs cs' := by
  have hcase : ∀ c c' : Int32 × Int32,
      (do return (c.1, ← relocate.moved map old new c.2) : Except RelocationError _) = .ok c' ↔
        c'.1 = c.1 ∧ Aims map old new c.2.toInt c'.2.toInt := by
    rintro ⟨v, d⟩ ⟨v', d'⟩
    simp only [bind_eq_ok, moved_eq_ok_iff]
    constructor
    · rintro ⟨e, he, h⟩
      cases h
      exact ⟨rfl, he⟩
    · rintro ⟨rfl, h⟩
      exact ⟨d', h, rfl⟩
  simp only [relocate, bind_eq_ok, mapM_eq_ok, moved_eq_ok_iff, hcase]
  constructor
  · rintro ⟨e, he, cs', hcs, hj⟩
    cases hj
    exact ⟨e, cs', rfl, he, hcs⟩
  · rintro ⟨e, cs', rfl, he, hcs⟩
    exact ⟨e, he, cs', hcs, rfl⟩

theorem map_pair_eq_iff {cs cs' : List (Int32 × Int32)} :
    (cs'.map fun c => (c.1, (0 : Int32))) = (cs.map fun c => (c.1, 0)) ↔
      List.Forall₂ (fun c c' => c'.1 = c.1) cs cs' := by
  rw [eq_comm, ← List.forall₂_eq_eq_eq, List.forall₂_map_left_iff, List.forall₂_map_right_iff]
  simp only [Prod.mk.injEq, and_true, eq_comm]

/-- An instruction is moved to `j` exactly if `j` differs from it in its displacements only, and
these lead to where the map takes the targets, in order. -/
theorem relocate_eq_ok_iff {i j : Instruction} :
    i.relocate map old new = .ok j ↔
      j.unaimed = i.unaimed ∧ List.Forall₂ (Moves map) (i.targets old) (j.targets new) := by
  cases i with
  | jump op d =>
      rw [relocate_jump_eq_ok_iff]
      cases j <;> simp [unaimed, targets, displacements, Aims, and_assoc, eq_comm]
  | longJump op d =>
      rw [relocate_longJump_eq_ok_iff]
      cases j <;> simp [unaimed, targets, displacements, Aims, and_assoc, eq_comm]
  | tableswitch d low high ds =>
      rw [relocate_tableswitch_eq_ok_iff]
      cases j with
      | tableswitch e low' high' es =>
          simp only [tableswitch.injEq, Aims, ↓existsAndEq, and_true, true_and, unaimed,
            List.map_const', List.replicate_inj, List.length_eq_zero_iff, or_true, targets,
            displacements, List.map_cons, List.map_map, List.forall₂_cons,
            List.forall₂_map_right_iff, Function.comp_apply, List.forall₂_map_left_iff,
            and_congr_left_iff, and_congr_right_iff, iff_self_and, and_imp]
          intro _ hes _ _
          exact hes.length_eq.symm
      | _ => simp [unaimed]
  | lookupswitch d stated cs =>
      rw [relocate_lookupswitch_eq_ok_iff]
      cases j with
      | lookupswitch e stated' cs' =>
          simp only [lookupswitch.injEq, Aims, ↓existsAndEq, and_true, unaimed,
            map_pair_eq_iff, true_and, targets, displacements, List.map_cons, List.map_map,
            List.forall₂_cons, List.forall₂_map_right_iff, Function.comp_apply,
            List.forall₂_map_left_iff]
          constructor
          · rintro ⟨hstated, he, h⟩
            exact ⟨⟨hstated, h.imp fun _ _ => And.left⟩, he, h.imp fun _ _ => And.right⟩
          · rintro ⟨⟨hstated, hkeys⟩, he, h⟩
            exact ⟨hstated, he, List.Forall₂.mp (fun _ _ => And.intro) hkeys h⟩
      | _ => simp [unaimed]
  | _ =>
      constructor
      · intro h
        cases h
        exact ⟨rfl, .nil⟩
      · rintro ⟨h, -⟩
        rw [eq_of_unaimed_eq h rfl]
        rfl

/-! ### What cannot be moved -/

/-- How far the operands of the instruction reach: to the displacements from `-reach` on and below
`reach`. -/
def reach : Instruction → Int
  | jump _ _ => 32768
  | _ => 2147483648

/-- An operand of the given reach leads from `new` to where the target `t` has moved. -/
def Reaches (map : Nat → Option Nat) (new : Nat) (reach t : Int) : Prop :=
  ∃ t', Moves map t t' ∧ -reach ≤ t' - new ∧ t' - new < reach

/-- Why no operand of the given reach leads from `new` to where the target `t` has moved. -/
inductive Stuck (map : Nat → Option Nat) (new : Nat) (reach t : Int) : RelocationError → Prop
  | unmapped (h : ∀ t', ¬Moves map t t') : Stuck map new reach t (.unmappedTarget t)
  | overflow {t' : Int} (h : Moves map t t') (hfar : t' - new < -reach ∨ reach ≤ t' - new) :
      Stuck map new reach t (.overflow (t' - new))

/-- A target moves to one place only. -/
theorem Moves.unique {t t' t'' : Int} (h : Moves map t t') (h' : Moves map t t'') : t' = t'' := by
  obtain ⟨x, y, rfl, -, hy, rfl⟩ := h
  obtain ⟨x', y', hx, -, hy', rfl⟩ := h'
  rw [← Int.ofNat_inj.mp hx, hy] at hy'
  rw [Option.some.inj hy']

theorem Reaches.not_stuck {reach t : Int} {e : RelocationError} (h : Reaches map new reach t) :
    ¬Stuck map new reach t e := by
  obtain ⟨t', hmoves, hlo, hhi⟩ := h
  intro hstuck
  cases hstuck with
  | unmapped hunmapped => exact hunmapped t' hmoves
  | overflow hmoves' hfar =>
      rw [hmoves'.unique hmoves] at hfar
      omega

theorem Stuck.unique {reach t : Int} {e e' : RelocationError} (h : Stuck map new reach t e)
    (h' : Stuck map new reach t e') : e = e' := by
  cases h with
  | unmapped hunmapped =>
      cases h' with
      | unmapped => rfl
      | overflow hmoves => exact absurd hmoves (hunmapped _)
  | overflow hmoves =>
      cases h' with
      | unmapped hunmapped => exact absurd hmoves (hunmapped _)
      | overflow hmoves' => rw [hmoves.unique hmoves']

theorem reach_unaimed (i : Instruction) : i.unaimed.reach = i.reach := by
  cases i <;> rfl

theorem wide_in_reach (x : Int32) : -2147483648 ≤ x.toInt ∧ x.toInt < 2147483648 :=
  ⟨x.minValue_le_toInt, x.toInt_lt⟩

theorem displacement_in_reach {i : Instruction} {d : Int} (h : d ∈ i.displacements) :
    -i.reach ≤ d ∧ d < i.reach := by
  cases i with
  | jump op x =>
      rw [displacements, List.mem_singleton] at h
      rw [h]
      exact ⟨x.minValue_le_toInt, x.toInt_lt⟩
  | longJump op x =>
      rw [displacements, List.mem_singleton] at h
      rw [h]
      exact wide_in_reach x
  | tableswitch x low high xs =>
      obtain rfl | h := List.mem_cons.mp h
      · exact wide_in_reach x
      · obtain ⟨y, -, rfl⟩ := List.mem_map.mp h
        exact wide_in_reach y
  | lookupswitch x stated cs =>
      obtain rfl | h := List.mem_cons.mp h
      · exact wide_in_reach x
      · obtain ⟨c, -, rfl⟩ := List.mem_map.mp h
        exact wide_in_reach c.2
  | _ => cases h

/-- The operands of a moved instruction reach all its targets. -/
theorem reaches_of_relocate {i j : Instruction} (h : i.relocate map old new = .ok j) :
    ∀ t ∈ i.targets old, Reaches map new i.reach t := by
  obtain ⟨hsame, htargets⟩ := relocate_eq_ok_iff.mp h
  have hreach : j.reach = i.reach := by rw [← reach_unaimed, hsame, reach_unaimed]
  intro t ht
  obtain ⟨t', ht', hmoves⟩ := exists_of_forall₂ htargets ht
  obtain ⟨d, hd, rfl⟩ := List.mem_map.mp ht'
  obtain ⟨hlo, hhi⟩ := displacement_in_reach hd
  rw [hreach] at hlo hhi
  exact ⟨_, hmoves, by omega, by omega⟩

theorem narrow_eq_error {d : Int} {e : RelocationError} (h : narrow d = .error e) :
    e = .overflow d ∧ (d < -32768 ∨ 32768 ≤ d) := by
  unfold narrow at h
  split at h
  · cases h
  · cases h
    exact ⟨rfl, by omega⟩

theorem wide_eq_error {d : Int} {e : RelocationError} (h : wide d = .error e) :
    e = .overflow d ∧ (d < -2147483648 ∨ 2147483648 ≤ d) := by
  unfold wide at h
  split at h
  · cases h
  · cases h
    exact ⟨rfl, by omega⟩

theorem retarget_eq_error {d : Int} {e : RelocationError} (h : retarget map old new d = .error e) :
    e = .unmappedTarget (old + d) ∧ ∀ t', ¬Moves map (old + d) t' := by
  constructor
  · unfold retarget at h
    dsimp only at h
    split at h
    · cases h
    · cases h
      rfl
  · intro t' hmoves
    have hplace : (new : Int) + (t' - new) = t' := by omega
    have hok : retarget map old new d = .ok (t' - new) := by
      rw [retarget_eq_ok_iff, hplace]
      exact hmoves
    rw [hok] at h
    cases h

/-- An operand that cannot be computed anew. -/
theorem stuck_of_error {α : Type} {operand : Int → Except RelocationError α} {reach d : Int}
    {e : RelocationError}
    (hoperand : ∀ d e, operand d = .error e → e = .overflow d ∧ (d < -reach ∨ reach ≤ d))
    (h : (retarget map old new d >>= operand) = .error e) : Stuck map new reach (old + d) e := by
  obtain h | ⟨d', hd', h⟩ := bind_eq_error.mp h
  · obtain ⟨rfl, hunmapped⟩ := retarget_eq_error h
    exact .unmapped hunmapped
  · obtain ⟨rfl, hfar⟩ := hoperand d' e h
    have hmoves := retarget_eq_ok_iff.mp hd'
    have hd : d' = new + d' - new := by omega
    rw [hd] at hfar ⊢
    exact .overflow hmoves hfar

theorem stuck_of_moved {d : Int32} {e : RelocationError}
    (h : relocate.moved map old new d = .error e) :
    Stuck map new 2147483648 (old + d.toInt) e :=
  stuck_of_error (fun _ _ => wide_eq_error) h

theorem reaches_of_moved {d e : Int32} (h : relocate.moved map old new d = .ok e) :
    Reaches map new 2147483648 (old + d.toInt) := by
  obtain ⟨hlo, hhi⟩ := wide_in_reach e
  exact ⟨_, moved_eq_ok_iff.mp h, by omega, by omega⟩

/-- The first of the targets that no operand of the given reach leads to. -/
abbrev FirstStuck (map : Nat → Option Nat) (new : Nat) (reach : Int) :
    List Int → RelocationError → Prop :=
  FirstAgainst (Reaches map new reach) (Stuck map new reach)

/-- An instruction that cannot be moved has a target that its operand cannot be aimed at. The first
such target decides the error. -/
theorem firstStuck_of_relocate {i : Instruction} {e : RelocationError}
    (h : i.relocate map old new = .error e) : FirstStuck map new i.reach (i.targets old) e := by
  cases i with
  | jump op d =>
      exact .here (stuck_of_error (fun _ _ => narrow_eq_error) (bind_eq_error_of_map h))
  | longJump op d =>
      exact .here (stuck_of_error (fun _ _ => wide_eq_error) (bind_eq_error_of_map h))
  | tableswitch d low high ds =>
      obtain h | ⟨d', hd', h⟩ := bind_eq_error.mp h
      · exact .here (stuck_of_moved h)
      · refine .later (reaches_of_moved hd') ?_
        rw [List.map_map]
        exact firstAgainst_of_mapM (fun _ _ => reaches_of_moved) (fun _ _ => stuck_of_moved)
          (map_eq_error.mp h)
  | lookupswitch d stated cs =>
      obtain h | ⟨d', hd', h⟩ := bind_eq_error.mp h
      · exact .here (stuck_of_moved h)
      · refine .later (reaches_of_moved hd') ?_
        rw [List.map_map]
        refine firstAgainst_of_mapM (fun c c' hc => ?_) (fun c e hc => ?_) (map_eq_error.mp h)
        · obtain ⟨d', hd', -⟩ := map_eq_ok.mp hc
          exact reaches_of_moved hd'
        · exact stuck_of_moved (map_eq_error.mp hc)
  | _ => cases h

theorem relocate_eq_error {i : Instruction} {e : RelocationError}
    (h : i.relocate map old new = .error e) : ∃ t ∈ i.targets old, Stuck map new i.reach t e :=
  (firstStuck_of_relocate h).exists_mem

theorem relocate_eq_error_iff {i : Instruction} {e : RelocationError} :
    i.relocate map old new = .error e ↔ FirstStuck map new i.reach (i.targets old) e := by
  refine ⟨firstStuck_of_relocate, fun h => ?_⟩
  cases hi : i.relocate map old new with
  | ok j =>
      obtain ⟨t, ht, hstuck⟩ := h.exists_mem
      exact absurd hstuck (reaches_of_relocate hi t ht).not_stuck
  | error e' =>
      rw [h.unique (fun _ _ => Reaches.not_stuck) (fun _ _ _ => Stuck.unique)
        (firstStuck_of_relocate hi)]

theorem exists_relocate_iff {i : Instruction} :
    (∃ j, i.relocate map old new = .ok j) ↔ ∀ t ∈ i.targets old, Reaches map new i.reach t := by
  constructor
  · rintro ⟨j, hj⟩
    exact reaches_of_relocate hj
  · intro h
    cases hi : i.relocate map old new with
    | ok j => exact ⟨j, rfl⟩
    | error e =>
        obtain ⟨t, ht, hstuck⟩ := relocate_eq_error hi
        exact absurd hstuck (h t ht).not_stuck

/-! ### One move after the other -/

theorem Moves.trans {further : Nat → Option Nat} {t t' t'' : Int} (h : Moves map t t')
    (h' : Moves further t' t'') : Moves (fun o => (map o).bind further) t t'' := by
  obtain ⟨x, y, rfl, hlt, hy, rfl⟩ := h
  obtain ⟨y', z, hyy', -, hz, rfl⟩ := h'
  rw [← Int.ofNat_inj.mp hyy'] at hz
  have hboth : (map x).bind further = some z := by rw [hy, Option.bind_some, hz]
  exact ⟨x, z, rfl, hlt, hboth, rfl⟩

theorem relocate_relocate {further : Nat → Option Nat} {newer : Nat} {i j k : Instruction}
    (hj : i.relocate map old new = .ok j) (hk : j.relocate further new newer = .ok k) :
    i.relocate (fun o => (map o).bind further) old newer = .ok k := by
  obtain ⟨hsame, htargets⟩ := relocate_eq_ok_iff.mp hj
  obtain ⟨hsame', htargets'⟩ := relocate_eq_ok_iff.mp hk
  exact relocate_eq_ok_iff.mpr
    ⟨hsame'.trans hsame, forall₂_trans (fun _ _ _ => Moves.trans) htargets htargets'⟩

/-- Moving an instruction is exact, whatever the map. It succeeds if and only if the map has every
target and the operand reaches the place that the target is taken to. The moved instruction is the one
that differs in its displacements only, is as long at every address, and leads from its new place to
where the map takes the targets. Otherwise the first target that cannot be reached is named. Two moves
in a row are one move along both maps. -/
theorem relocate_exact (map : Nat → Option Nat) (old new : Nat) (i : Instruction) :
    ((∃ j, i.relocate map old new = .ok j) ↔ ∀ t ∈ i.targets old, Reaches map new i.reach t) ∧
    (∀ j, i.relocate map old new = .ok j ↔
      j.unaimed = i.unaimed ∧ List.Forall₂ (Moves map) (i.targets old) (j.targets new)) ∧
    (∀ j, i.relocate map old new = .ok j → ∀ address, j.size address = i.size address) ∧
    (∀ e, i.relocate map old new = .error e ↔
      FirstStuck map new i.reach (i.targets old) e) ∧
    ∀ further newer j k, i.relocate map old new = .ok j →
      j.relocate further new newer = .ok k →
        i.relocate (fun o => (map o).bind further) old newer = .ok k := by
  refine ⟨exists_relocate_iff, fun j => relocate_eq_ok_iff, fun j hj address => ?_,
    fun e => relocate_eq_error_iff, fun further newer j k => relocate_relocate⟩
  have hsame := (relocate_eq_ok_iff.mp hj).1
  rw [← size_unaimed, hsame, size_unaimed]

/-- The default target is reached, the first entry is too far away and the second one is gone. -/
example : (tableswitch 0 1 2 [1, 2]).relocate (fun o => [7, 2147483648][o]?) 0 0 =
    .error (.overflow 2147483648) := by decide

end Retrofit.Instruction
