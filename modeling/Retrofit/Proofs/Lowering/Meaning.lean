import Retrofit.Proofs.Recipe.Profile

/-!
# What lowered steps mean

Lowering gives one instruction for each step, and with the pool as it is in the end the instruction
does what the step says: indexes that were given out while the pool was still growing have kept their
meaning. Lowering fails exactly if the pool is too full to start with, an argument has no slot or the
descriptor of a call through an interface cannot be read.
-/

namespace Retrofit

/-! ### Instructions for small ints and references -/

namespace Instruction

/-- The int that an instruction pushes. The smallest ones have opcodes of their own, from that of -1
on. -/
def intPushed? : Instruction → Option Int
  | plain op => if 0x02 ≤ op.byte ∧ op.byte ≤ 0x08 then some (op.byte.toNat - 3) else none
  | bipush value => some value.toInt
  | sipush value => some value.toInt
  | _ => none

/-- The slot of an access with the opcode `general`, or with one of the four opcodes from `first` on
that stand for the first four slots. -/
def slotAccessed? (first general : UInt8) : Instruction → Option Nat
  | plain op =>
    if first ≤ op.byte ∧ op.byte.toNat < first.toNat + 4 then some (op.byte.toNat - first.toNat)
    else none
  | slot op index => if op.byte = general then some index.toNat else none
  | wideSlot op index => if op.byte = general then some index.toNat else none
  | _ => none

/-- The local slot from which an instruction loads a reference. -/
def referenceLoaded? : Instruction → Option Nat := slotAccessed? 0x2a 0x19

/-- The local slot into which an instruction stores a reference. -/
def referenceStored? : Instruction → Option Nat := slotAccessed? 0x4b 0x3a

theorem referenceLoaded?_aload (index : UInt16) : (aload index).referenceLoaded? = some index.toNat := by
  unfold aload
  split
  case h_5 =>
    split
    · rename_i hlt
      exact congrArg some (toNat_toUInt8_of_lt hlt)
    · rfl
  all_goals rfl

theorem referenceStored?_astore (index : UInt16) :
    (astore index).referenceStored? = some index.toNat := by
  unfold astore
  split
  case h_5 =>
    split
    · rename_i hlt
      exact congrArg some (toNat_toUInt8_of_lt hlt)
    · rfl
  all_goals rfl

theorem intPushed?_pushInt {value : Int32} (hlo : -32768 ≤ value.toInt) (hhi : value.toInt ≤ 32767) :
    (pushInt value).intPushed? = some value.toInt := by
  unfold pushInt
  repeat' split
  rotate_left 7
  · rename_i hrange
    obtain ⟨hlo', hhi'⟩ := hrange
    rw [Int32.le_iff_toInt_le] at hlo' hhi'
    have hlo' : -128 ≤ value.toInt := hlo'
    have hhi' : value.toInt ≤ 127 := hhi'
    have hbyte : value.toInt8.toInt = value.toInt := by
      rw [Int32.toInt_toInt8]
      exact Int.bmod_eq_of_le (by omega) (by omega)
    exact congrArg some hbyte
  · have hword : value.toInt16.toInt = value.toInt := by
      rw [Int32.toInt_toInt16]
      exact Int.bmod_eq_of_le (by omega) (by omega)
    exact congrArg some hword
  -- the smallest ones, each with its own opcode
  all_goals
    rename_i hvalue
    rw [hvalue]
    rfl

end Instruction

/-! ### Single steps -/

namespace Step

/-- With the pool `q` and arguments from the local slot `scratch` on, the instruction does what the step
says. -/
inductive Denotes (q : Pool) (scratch : UInt16) : Step → Instruction → Prop
  | new {type : String} {index : UInt16} (hclass : q.className? index = some type) :
      Denotes q scratch (.new type) (.new index)
  | dup : Denotes q scratch .dup .dup
  | pop : Denotes q scratch .pop .pop
  | push {value : Int32} {i : Instruction} (hvalue : i.intPushed? = some value.toInt) :
      Denotes q scratch (.push value) i
  /-- The call is of the kind of the step, and of the entry it refers to. A call through an interface
  states how many slots it takes, if they can be stated. -/
  | invoke {c : Callee} {i : Instruction} {index owner nt : UInt16}
      (hcall : i.call? = some (c.kind, index))
      (hmember : q.member? index = some ⟨c.owner, c.name, c.descriptor, c.kind == .interface⟩)
      (hentry : q.constant? index = some
        (if c.kind == .interface then .interfaceMethodRef owner nt else .methodRef owner nt))
      (hcount : c.kind = .interface → ∃ t count, MethodType.parse? c.descriptor = some t ∧
        i = .invokeinterface index count 0 ∧
        (1 + t.paramSlots ≤ 255 → count.toNat = 1 + t.paramSlots)) :
      Denotes q scratch (.invoke c) i
  | store {n : UInt16} {i : Instruction} {slot : Nat} (hslot : i.referenceStored? = some slot)
      (hn : slot + 1 = scratch.toNat + n.toNat) : Denotes q scratch (.store n) i
  | load {n : UInt16} {i : Instruction} {slot : Nat} (hslot : i.referenceLoaded? = some slot)
      (hn : slot + 1 = scratch.toNat + n.toNat) : Denotes q scratch (.load n) i

/-- Arguments are counted from 1, and ints to be pushed have 16 bits. -/
structure Plain (s : Step) : Prop where
  argument : ∀ n, s.argument? = some n → 1 ≤ n.toNat
  value : ∀ v, s = .push v → -32768 ≤ v.toInt ∧ v.toInt ≤ 32767

/-- Why a step cannot be lowered, with arguments from the local slot `scratch` on. -/
inductive Fails (scratch : UInt16) : Step → LoweringError → Prop
  | slot {s : Step} {n : UInt16} (hs : s.argument? = some n)
      (hlarge : 65535 < scratch.toNat + (n.toNat - 1)) : Fails scratch s (.slotOutOfRange n)
  | descriptor {c : Callee} (hkind : c.kind = .interface)
      (hparse : MethodType.parse? c.descriptor = none) :
      Fails scratch (.invoke c) (.badDescriptor c.descriptor)

variable {scratch : UInt16}

/-- What an instruction does with a pool it does with any pool that has grown from it. -/
theorem Denotes.grow {P : Constant → Prop} {p q : Pool} (hgrows : p.Grows P q) {s : Step}
    {i : Instruction} (h : s.Denotes p scratch i) : s.Denotes q scratch i := by
  cases h with
  | new hclass => exact .new (hgrows.className?_eq hclass)
  | dup => exact .dup
  | pop => exact .pop
  | push hvalue => exact .push hvalue
  | invoke hcall hmember hentry hcount =>
      exact .invoke hcall (hgrows.member?_eq hmember) (hgrows.constant?_eq hentry) hcount
  | store hslot hn => exact .store hslot hn
  | load hslot hn => exact .load hslot hn

theorem argumentSlot_eq_ok {n slot : UInt16} (h : argumentSlot scratch n = .ok slot)
    (hn : 1 ≤ n.toNat) : slot.toNat + 1 = scratch.toNat + n.toNat := by
  unfold argumentSlot at h
  dsimp only at h
  split at h
  · rename_i hle
    cases h
    rw [UInt16.toNat_ofNat_of_lt' (by show _ < 65536; omega)]
    omega
  · cases h

theorem argumentSlot_eq_error_iff {n : UInt16} {e : LoweringError} :
    argumentSlot scratch n = .error e ↔
      65535 < scratch.toNat + (n.toNat - 1) ∧ e = .slotOutOfRange n := by
  unfold argumentSlot
  dsimp only
  split
  · rename_i hle
    constructor
    · intro h
      cases h
    · rintro ⟨hlt, -⟩
      omega
  · rename_i hlt
    constructor
    · intro h
      cases h
      exact ⟨by omega, rfl⟩
    · rintro ⟨-, rfl⟩
      rfl

theorem argumentSlot_eq_error_iff_fails {s : Step} {n : UInt16} (hs : s.argument? = some n)
    {e : LoweringError} : argumentSlot scratch n = .error e ↔ s.Fails scratch e := by
  rw [argumentSlot_eq_error_iff]
  constructor
  · rintro ⟨hlarge, rfl⟩
    exact .slot hs hlarge
  · intro h
    cases h with
    | slot hs' hlarge =>
        rw [hs, Option.some_inj] at hs'
        subst hs'
        exact ⟨hlarge, rfl⟩
    | descriptor => cases hs

/-- A call through an interface states its slots. -/
theorem count_of_call {c : Callee} {index : UInt16} {i : Instruction} (h : c.call index = .ok i)
    (hkind : c.kind = .interface) :
    ∃ t count, MethodType.parse? c.descriptor = some t ∧ i = .invokeinterface index count 0 ∧
      (1 + t.paramSlots ≤ 255 → count.toNat = 1 + t.paramSlots) := by
  unfold Callee.call at h
  rw [hkind] at h
  dsimp only at h
  split at h
  · cases h
  · rename_i t ht
    cases h
    exact ⟨t, _, ht, rfl, fun hle => UInt8.toNat_ofNat_of_lt' (by show _ < 256; omega)⟩

theorem call_eq_error_iff {c : Callee} {index : UInt16} {e : LoweringError} :
    c.call index = .error e ↔ c.kind = .interface ∧ MethodType.parse? c.descriptor = none ∧
      e = .badDescriptor c.descriptor := by
  unfold Callee.call
  split
  case h_4 hkind =>
    split
    · rename_i hnone
      simp [hkind, hnone, eq_comm]
    · rename_i t ht
      simp [ht]
  all_goals
    rename_i hkind
    simp [hkind]

theorem denotes_of_lower {s : Step} (hs : s.Plain) {p q : Pool} {i : Instruction}
    (h : s.lower scratch p = (q, .ok i)) (hsize : q.entries.size ≤ 65534) :
    s.Denotes q scratch i := by
  have hi := congrArg Prod.snd h
  obtain rfl := congrArg Prod.fst h
  cases s with
  | new type =>
      cases hi
      exact .new (Pool.internClass_className? hsize)
  | dup =>
      cases hi
      exact .dup
  | pop =>
      cases hi
      exact .pop
  | push value =>
      cases hi
      obtain ⟨hlo, hhi⟩ := hs.value value rfl
      exact .push (Instruction.intPushed?_pushInt hlo hhi)
  | invoke c =>
      exact .invoke (call?_of_call hi) (Pool.internMethod_member? hsize)
        (Pool.internMethod_constant? hsize) (count_of_call hi)
  | store n =>
      obtain ⟨slot, hslot, rfl⟩ := map_eq_ok.mp hi
      exact .store (Instruction.referenceStored?_astore slot)
        (argumentSlot_eq_ok hslot (hs.argument n rfl))
  | load n =>
      obtain ⟨slot, hslot, rfl⟩ := map_eq_ok.mp hi
      exact .load (Instruction.referenceLoaded?_aload slot)
        (argumentSlot_eq_ok hslot (hs.argument n rfl))

/-- Whether a step can be lowered does not depend on the pool. -/
theorem lower_eq_error_iff {s : Step} {p : Pool} {e : LoweringError} :
    (s.lower scratch p).2 = .error e ↔ s.Fails scratch e := by
  cases s with
  | invoke c =>
      show c.call _ = .error e ↔ _
      rw [call_eq_error_iff]
      constructor
      · rintro ⟨hkind, hparse, rfl⟩
        exact .descriptor hkind hparse
      · intro h
        cases h with
        | slot hs => cases hs
        | descriptor hkind hparse => exact ⟨hkind, hparse, rfl⟩
  | store n => exact map_eq_error.trans (argumentSlot_eq_error_iff_fails (s := .store n) rfl)
  | load n => exact map_eq_error.trans (argumentSlot_eq_error_iff_fails (s := .load n) rfl)
  | _ =>
      constructor
      · intro h
        cases h
      · intro h
        cases h with
        | slot hs => cases hs

/-! ### All the steps -/

theorem fails_of_lowerOnto {steps : List Step} {p : Pool} {acc : List Instruction}
    {e : LoweringError} (h : (lowerOnto scratch p acc steps).2 = .error e) :
    ∃ s ∈ steps, s.Fails scratch e := by
  induction steps generalizing p acc with
  | nil => cases h
  | cons s steps ih =>
      rw [lowerOnto] at h
      split at h
      · obtain ⟨t, ht, he⟩ := ih h
        exact ⟨t, List.mem_cons_of_mem s ht, he⟩
      · rename_i q e' hs
        cases h
        exact ⟨s, List.mem_cons_self, lower_eq_error_iff.mp (congrArg Prod.snd hs)⟩

theorem exists_of_fails {steps : List Step} {s : Step} (hs : s ∈ steps) {e : LoweringError}
    (he : s.Fails scratch e) (p : Pool) (acc : List Instruction) :
    ∃ e', (lowerOnto scratch p acc steps).2 = .error e' := by
  induction steps generalizing p acc with
  | nil => cases hs
  | cons t steps ih =>
      rw [lowerOnto]
      split
      · rename_i q i ht
        obtain rfl | hs := List.mem_cons.mp hs
        · have hfails := lower_eq_error_iff (p := p).mpr he
          rw [ht] at hfails
          cases hfails
        · exact ih hs q (i :: acc)
      · exact ⟨_, rfl⟩

end Step

namespace Replacement

/-- Why a replacement cannot be lowered with the pool `p` and arguments from the local slot `scratch`
on. -/
inductive Fails (r : Replacement) (p : Pool) (scratch : UInt16) : LoweringError → Prop
  | poolFull (hroom : p.headroom < 32) : Fails r p scratch .poolFull
  | step {s : Step} {e : LoweringError} (hs : s ∈ r.steps) (he : s.Fails scratch e) :
      Fails r p scratch e

variable {r : Replacement} {p : Pool} {scratch : UInt16}

theorem fails_of_lower {e : LoweringError} (h : (r.lower p scratch).2 = .error e) :
    r.Fails p scratch e := by
  unfold lower at h
  split at h
  · rename_i hroom
    cases h
    exact .poolFull hroom
  · obtain ⟨s, hs, he⟩ := Step.fails_of_lowerOnto h
    exact .step hs he

theorem exists_error_of_fails {e : LoweringError} (h : r.Fails p scratch e) :
    ∃ e', (r.lower p scratch).2 = .error e' := by
  unfold lower
  split
  · exact ⟨_, rfl⟩
  · rename_i hroom
    cases h with
    | poolFull hfull => exact absurd hfull hroom
    | step hs he => exact Step.exists_of_fails hs he p []

/-- The steps of a replacement are lowered to one instruction each, which does what the step says with
the pool as it is in the end; and a replacement that is not lowered has one of the known reasons. -/
theorem lower_denotes (hplain : ∀ s ∈ r.steps, s.Plain)
    (hsize : (r.lower p scratch).1.entries.size ≤ 65534) :
    (∀ is, (r.lower p scratch).2 = .ok is →
      List.Forall₂ (Step.Denotes (r.lower p scratch).1 scratch) r.steps is) ∧
    ((∃ e, (r.lower p scratch).2 = .error e) ↔ ∃ e, r.Fails p scratch e) ∧
    ∀ e, (r.lower p scratch).2 = .error e → r.Fails p scratch e := by
  refine ⟨fun is his => ?_, ?_, fun _ => fails_of_lower⟩
  · have hlower : r.lower p scratch = ((r.lower p scratch).1, .ok is) := Prod.ext rfl his
    generalize (r.lower p scratch).1 = q at hlower hsize ⊢
    unfold lower at hlower
    split at hlower
    · cases hlower
    obtain ⟨js, rfl, hjs⟩ := Step.forall₂_of_lowerOnto
      (R := fun q s i => s.Plain → s.Denotes q scratch i)
      (fun _ _ _ _ h hsize hs => Step.denotes_of_lower hs h hsize)
      (fun _ _ _ _ hgrows h hs => (h hs).grow hgrows) hlower hsize
    exact ((List.forall₂_and_left _ _).mpr ⟨hplain, hjs⟩).imp fun _ _ h => h.2 h.1
  · exact ⟨fun ⟨e, h⟩ => ⟨e, fails_of_lower h⟩, fun ⟨_, h⟩ => exists_error_of_fails h⟩

/-- Arguments above and among the slots with short forms, an int of two bytes and a call through an
interface. -/
def mixed : Replacement where
  recipe := .fixedArity
  argCount := 2
  steps := [.store 2, .store 1, .new "List", .push 300, .load 1,
    .invoke ⟨.interface, "List", "put", "(JI)V"⟩]

/-- A pool that has the class under its second text, behind a long. -/
def mixedPool : Pool :=
  ⟨6, #[.long 0, .unusable, .utf8 (bytesOfText "List"), .utf8 (bytesOfText "List"), .classInfo 4]⟩

def mixedLowered : List Instruction :=
  [.astore 4, .astore 3, .new 6, .sipush 300, .aload 3, .invokeinterface 10 4 0]

theorem lower_denotes_mixed :
    (∀ s ∈ mixed.steps, s.Plain) ∧ (mixed.lower mixedPool 3).1.entries.size ≤ 65534 ∧
      (mixed.lower mixedPool 3).2 = .ok mixedLowered ∧
      List.Forall₂ (Step.Denotes (mixed.lower mixedPool 3).1 3) mixed.steps mixedLowered ∧
      (mixed.lower mixedPool 65535).2 = .error (.slotOutOfRange 2) ∧
      mixed.Fails mixedPool 65535 (.slotOutOfRange 2) := by
  have hplain : ∀ s ∈ mixed.steps, s.Plain := by
    simp only [mixed, List.forall_mem_cons]
    refine ⟨?_, ?_, ?_, ?_, ?_, ?_, by simp⟩
    all_goals
      constructor
      · intro n h
        cases h <;> decide
      · intro v h
        cases h <;> decide
  have hlowered : (mixed.lower mixedPool 3).2 = .ok mixedLowered := by cbv
  have herror : (mixed.lower mixedPool 65535).2 = .error (.slotOutOfRange 2) := by cbv
  have hsize : (mixed.lower mixedPool 3).1.entries.size ≤ 65534 := by cbv
  have hsize' : (mixed.lower mixedPool 65535).1.entries.size ≤ 65534 := by cbv
  exact ⟨hplain, hsize, hlowered, (lower_denotes hplain hsize).1 _ hlowered, herror,
    (lower_denotes hplain hsize').2.2 _ herror⟩

end Replacement

end Retrofit
