import Retrofit.Proofs.Lowering.Meaning
import Retrofit.Proofs.Recipe.Machine

/-!
# Ints that are pushed

An int that is to be pushed is never a reason not to lower a replacement. The instruction for it, read
back from the code, pushes the number that the low 16 bits of the int stand for, so it pushes the int
exactly if that lies between -32768 and 32767.
-/

namespace Retrofit

namespace Instruction

theorem toInt_toInt16_eq_iff {value : Int32} :
    value.toInt16.toInt = value.toInt ↔ -32768 ≤ value.toInt ∧ value.toInt ≤ 32767 := by
  constructor
  · intro h
    have hlo := value.toInt16.le_toInt
    have hhi := value.toInt16.toInt_lt
    omega
  · rintro ⟨hlo, hhi⟩
    rw [Int32.toInt_toInt16]
    exact Int.bmod_eq_of_le (by omega) (by omega)

/-- Ints with a form of their own have at most 8 bits. -/
theorem pushInt_eq_sipush {value : Int32} (h : ¬(-32768 ≤ value.toInt ∧ value.toInt ≤ 32767)) :
    pushInt value = .sipush value.toInt16 := by
  have hne {small : Int32} (hsmall : -32768 ≤ small.toInt ∧ small.toInt ≤ 32767) :
      value ≠ small := by
    rintro rfl
    exact h hsmall
  have hbyte : ¬(-128 ≤ value ∧ value ≤ 127) := by
    rintro ⟨hlo, hhi⟩
    rw [Int32.le_iff_toInt_le] at hlo hhi
    have hlo : -128 ≤ value.toInt := hlo
    have hhi : value.toInt ≤ 127 := hhi
    omega
  unfold pushInt
  rw [if_neg (hne (by decide)), if_neg (hne (by decide)), if_neg (hne (by decide)),
    if_neg (hne (by decide)), if_neg (hne (by decide)), if_neg (hne (by decide)),
    if_neg (hne (by decide)), if_neg hbyte]

/-- Of any int the low 16 bits are pushed. -/
theorem intPushed?_pushInt_low (value : Int32) :
    (pushInt value).intPushed? = some value.toInt16.toInt := by
  by_cases hrange : -32768 ≤ value.toInt ∧ value.toInt ≤ 32767
  · rw [toInt_toInt16_eq_iff.mpr hrange]
    exact intPushed?_pushInt hrange.1 hrange.2
  · rw [pushInt_eq_sipush hrange]
    rfl

end Instruction

/-! ### On the machine -/

namespace Machine

/-- Execute an instruction that pushes an int. -/
def exec? (i : Instruction) (st : State) : Option State :=
  i.intPushed?.map fun n => { st with stack := .int (Int32.ofInt n) :: st.stack }

theorem exec?_pushInt (value : Int32) (st : State) :
    exec? (.pushInt value) st = step (.push value.toInt16.toInt32) st := by
  rw [exec?, Instruction.intPushed?_pushInt_low, Option.map_some, Int32.ofInt_int16ToInt]
  rfl

/-- Steps that leave the same behind push the same. -/
theorem step_push_inj {v w : Int32} {st : State} (h : step (.push v) st = step (.push w) st) :
    v = w := by
  have hstack := congrArg (Option.map State.stack) h
  simpa [step] using hstack

/-- The instruction does what the step says exactly if the int has 16 bits. -/
theorem exec?_pushInt_eq_iff {value : Int32} :
    (∀ st, exec? (.pushInt value) st = step (.push value) st) ↔
      -32768 ≤ value.toInt ∧ value.toInt ≤ 32767 := by
  rw [← Instruction.toInt_toInt16_eq_iff]
  constructor
  · intro h
    have hlow := step_push_inj ((exec?_pushInt value ⟨[], fun _ => none, []⟩).symm.trans (h _))
    rw [← Int16.toInt_toInt32, hlow]
  · intro h st
    have hlow : value.toInt16.toInt32 = value := by
      rw [← Int32.ofInt_int16ToInt, h, Int32.ofInt_toInt]
    rw [exec?_pushInt, hlow]

end Machine

/-! ### Lowered replacements -/

namespace Step

variable {scratch : UInt16}

/-- What relates each step to its instruction, whatever the pool, relates all of them. -/
theorem forall₂_of_lowerOnto_any {R : Step → Instruction → Prop}
    (hlower : ∀ s p q i, s.lower scratch p = (q, .ok i) → R s i) {steps : List Step} {p q : Pool}
    {acc is : List Instruction} (h : lowerOnto scratch p acc steps = (q, .ok is)) :
    ∃ js, is = acc.reverse ++ js ∧ List.Forall₂ R steps js := by
  induction steps generalizing p acc with
  | nil =>
      cases h
      exact ⟨[], (List.append_nil _).symm, .nil⟩
  | cons s steps ih =>
      rw [lowerOnto] at h
      split at h
      · rename_i p' i hs
        obtain ⟨js, rfl, hjs⟩ := ih h
        refine ⟨i :: js, ?_, .cons (hlower s p p' i hs) hjs⟩
        rw [List.reverse_cons, List.append_assoc, List.singleton_append]
      · cases h

theorem not_fails_push {value : Int32} {e : LoweringError} : ¬Fails scratch (.push value) e := by
  intro h
  cases h with
  | slot hs => cases hs

end Step

namespace Replacement

variable {r : Replacement} {p q : Pool} {scratch : UInt16} {is : List Instruction}

theorem forall₂_pushInt (h : r.lower p scratch = (q, .ok is)) :
    List.Forall₂ (fun s i => ∀ value, s = .push value → i = .pushInt value) r.steps is := by
  unfold lower at h
  split at h
  · cases h
  have hlower (s : Step) (p q : Pool) (i : Instruction) (hs : s.lower scratch p = (q, .ok i))
      (value : Int32) (hvalue : s = .push value) : i = .pushInt value := by
    subst hvalue
    cases hs
    rfl
  obtain ⟨js, rfl, hjs⟩ := Step.forall₂_of_lowerOnto_any hlower h
  exact hjs

/-- What is lowered is read back from its bytes. -/
theorem decode_encode_lower (h : r.lower p scratch = (q, .ok is)) :
    ∃ l, Code.decode (Code.encode is) = .ok l ∧ l.map Prod.snd = is := by
  have hform : ∀ i ∈ is, i.WellFormed := by
    unfold lower at h
    split at h
    · cases h
    · exact fun i hi => ((Step.straight_of_lowerOnto scratch h (by simp)).2 i hi).wellFormed
  refine ⟨_, Code.decode_encode hform, ?_⟩
  rw [Code.addresses_zip, Code.map_snd_placesFrom]

/-- The instruction for an int, read back from the code of the replacement, pushes the number that the
low 16 bits of the int stand for, and so the int itself exactly if it has 16 bits. A replacement that is
not lowered has another reason than an int. -/
theorem lower_pushes (r : Replacement) (p : Pool) (scratch : UInt16) :
    (∀ is, (r.lower p scratch).2 = .ok is →
      ∃ l, Code.decode (Code.encode is) = .ok l ∧ l.length = r.steps.length ∧
        ∀ (k : Nat) value, r.steps[k]? = some (Step.push value) →
          ∃ address i, l[k]? = some (address, i) ∧
            (∀ st, Machine.exec? i st = Machine.step (.push value.toInt16.toInt32) st) ∧
            ((∀ st, Machine.exec? i st = Machine.step (.push value) st) ↔
              -32768 ≤ value.toInt ∧ value.toInt ≤ 32767)) ∧
    ∀ e, (r.lower p scratch).2 = .error e →
      e = .poolFull ∨ ∃ s ∈ r.steps, (∀ value, s ≠ .push value) ∧ s.Fails scratch e := by
  constructor
  · intro is his
    have hlower : r.lower p scratch = ((r.lower p scratch).1, .ok is) := Prod.ext rfl his
    obtain ⟨l, hdecode, hl⟩ := decode_encode_lower hlower
    have hpush := forall₂_pushInt hlower
    refine ⟨l, hdecode, ?_, fun k value hk => ?_⟩
    · rw [hpush.length_eq, ← hl, List.length_map]
    · obtain ⟨hklt, hget⟩ := List.getElem?_eq_some_iff.mp hk
      have hklt' : k < is.length := hpush.length_eq ▸ hklt
      have hi : is[k] = .pushInt value := hpush.get hklt hklt' value hget
      have hkl : k < l.length := by
        rw [← hl, List.length_map] at hklt'
        exact hklt'
      have hsnd : l[k].2 = .pushInt value := by
        rw [← hi]
        simp [← hl]
      refine ⟨l[k].1, .pushInt value, ?_, Machine.exec?_pushInt value, Machine.exec?_pushInt_eq_iff⟩
      rw [List.getElem?_eq_getElem hkl, ← hsnd]
  · intro e he
    cases fails_of_lower he with
    | poolFull hroom => exact Or.inl rfl
    | step hs hfails =>
        refine Or.inr ⟨_, hs, ?_, hfails⟩
        rintro value rfl
        exact Step.not_fails_push hfails

/-- Ints with a short form, with 16 bits and with more. -/
def wide : Replacement where
  recipe := .fixedArity
  argCount := 0
  steps := [.push (-7), .push 300, .push 40000]

def wideLowered : List Instruction := [.bipush (-7), .sipush 300, .sipush (-25536)]

theorem lower_wide : (wide.lower mixedPool 0).2 = .ok wideLowered := by cbv

theorem lower_pushes_wide :
    (wide.lower mixedPool 0).2 = .ok wideLowered ∧
      Code.decode (Code.encode wideLowered) =
        .ok [(0, .bipush (-7)), (2, .sipush 300), (5, .sipush (-25536))] ∧
      (∀ st, Machine.exec? (.bipush (-7)) st = Machine.step (.push (-7)) st) ∧
      (∀ st, Machine.exec? (.sipush 300) st = Machine.step (.push 300) st) ∧
      ∀ st, Machine.exec? (.sipush (-25536)) st = Machine.step (.push (-25536)) st := by
  have hdecode : Code.decode (Code.encode wideLowered) =
      .ok [(0, .bipush (-7)), (2, .sipush 300), (5, .sipush (-25536))] := by cbv
  obtain ⟨l, hl, -, hpush⟩ := (lower_pushes wide mixedPool 0).1 wideLowered lower_wide
  obtain rfl := Except.ok.inj (hl.symm.trans hdecode)
  obtain ⟨_, _, h₀, -, hexec₀⟩ := hpush 0 (-7) rfl
  obtain ⟨_, _, h₁, -, hexec₁⟩ := hpush 1 300 rfl
  obtain ⟨_, _, h₂, hexec₂, -⟩ := hpush 2 40000 rfl
  cases h₀
  cases h₁
  cases h₂
  exact ⟨lower_wide, hdecode, hexec₀.mpr (by decide), hexec₁.mpr (by decide), hexec₂⟩

/-- A replacement that pushes 40000 is lowered, and the instruction pushes another int. -/
theorem lower_pushes_another :
    (wide.lower mixedPool 0).2 = .ok wideLowered ∧ wide.steps[2]? = some (Step.push 40000) ∧
      wideLowered[2]? = some (.sipush (-25536)) ∧
      ∀ st, Machine.exec? (.sipush (-25536)) st ≠ Machine.step (.push 40000) st := by
  refine ⟨lower_wide, rfl, rfl, fun st h => ?_⟩
  exact absurd (Machine.step_push_inj h) (by decide)

end Replacement

end Retrofit
