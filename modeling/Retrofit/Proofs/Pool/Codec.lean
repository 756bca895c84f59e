import Mathlib.Data.List.Induction
import Retrofit.Pool
import Retrofit.Proofs.Constant

/-!
# Pools and their bytes

A pool is read back from its bytes if every long and double is followed by its second slot, there is
no other slot without a constant, and the stated size is right. What was read is such a pool unless a
slot without a constant had a tag of its own.
-/

namespace Retrofit

/-- Slots as a pool can be written: each long or double with its second slot, and no other slot
without a constant. -/
inductive Slots : List Constant → Prop
  | nil : Slots []
  | narrow {c : Constant} {cs : List Constant} (hwide : c.isWide = false) (hne : c ≠ .unusable)
      (hfits : c.Fits) (rest : Slots cs) : Slots (c :: cs)
  | wide {c : Constant} {cs : List Constant} (hwide : c.isWide = true) (rest : Slots cs) :
      Slots (c :: .unusable :: cs)

theorem Slots.append {cs ds : List Constant} (h : Slots cs) (hd : Slots ds) : Slots (cs ++ ds) := by
  induction h with
  | nil => exact hd
  | narrow hwide hne hfits _ ih => exact .narrow hwide hne hfits ih
  | wide hwide _ ih => exact .wide hwide ih

theorem Constant.fits_of_isWide {c : Constant} (h : c.isWide = true) : c.Fits ∧ c ≠ .unusable := by
  cases c with
  | long => exact ⟨trivial, by simp⟩
  | double => exact ⟨trivial, by simp⟩
  | _ => cases h

/-- Every slot without a constant is the second one of a long or double. -/
def NoEmptySlot (cs : List Constant) : Prop :=
  ∀ k, cs[k]? = some .unusable → ∃ j c, k = j + 1 ∧ cs[j]? = some c ∧ c.isWide = true

theorem NoEmptySlot.tail {c : Constant} {cs : List Constant} (h : NoEmptySlot (c :: cs))
    (hc : c.isWide = false) : NoEmptySlot cs := by
  intro k hk
  obtain ⟨j, d, hj, hd, hwide⟩ := h (k + 1) hk
  cases j with
  | zero =>
      cases hd
      rw [hc] at hwide
      cases hwide
  | succ j => exact ⟨j, d, by omega, hd, hwide⟩

theorem NoEmptySlot.tail_wide {c : Constant} {cs : List Constant}
    (h : NoEmptySlot (c :: .unusable :: cs)) : NoEmptySlot cs := by
  intro k hk
  obtain ⟨j, d, hj, hd, hwide⟩ := h (k + 2) hk
  match j with
  | 0 => omega
  | 1 =>
      cases hd
      cases hwide
  | j + 2 => exact ⟨j, d, by omega, hd, hwide⟩

theorem noEmptySlot_nil : NoEmptySlot [] := by
  intro k hk
  simp at hk

/-- In front of other slots stands one with a constant. -/
theorem noEmptySlot_cons {c : Constant} {cs : List Constant} (hc : c.isWide = false) :
    NoEmptySlot (c :: cs) ↔ c ≠ .unusable ∧ NoEmptySlot cs := by
  refine ⟨fun h => ⟨?_, h.tail hc⟩, fun ⟨hne, h⟩ k hk => ?_⟩
  · rintro rfl
    obtain ⟨j, d, hj, -⟩ := h 0 rfl
    omega
  · cases k with
    | zero =>
        cases hk
        exact absurd rfl hne
    | succ k =>
        obtain ⟨j, d, rfl, hd, hwide⟩ := h k hk
        exact ⟨j + 1, d, rfl, hd, hwide⟩

/-- In front of other slots stands a long or double with its second slot. -/
theorem noEmptySlot_cons_wide {c : Constant} {cs : List Constant} (hc : c.isWide = true) :
    NoEmptySlot (c :: .unusable :: cs) ↔ NoEmptySlot cs := by
  refine ⟨NoEmptySlot.tail_wide, fun h k hk => ?_⟩
  match k with
  | 0 =>
      cases hk
      cases hc
  | 1 => exact ⟨0, c, rfl, rfl, hc⟩
  | k + 2 =>
      obtain ⟨j, d, rfl, hd, hwide⟩ := h k hk
      exact ⟨j + 2, d, rfl, hd, hwide⟩

/-- Every long and double is followed by a slot without a constant. -/
def WideFilled (cs : List Constant) : Prop :=
  ∀ k c, cs[k]? = some c → c.isWide = true → cs[k + 1]? = some .unusable

theorem wideFilled_nil : WideFilled [] := by
  intro k c hc
  simp at hc

theorem wideFilled_cons {c : Constant} {cs : List Constant} (hc : c.isWide = false) :
    WideFilled (c :: cs) ↔ WideFilled cs := by
  refine ⟨fun h k => h (k + 1), fun h k d hd hwide => ?_⟩
  cases k with
  | zero =>
      cases hd
      rw [hc] at hwide
      cases hwide
  | succ k => exact h k d hd hwide

theorem wideFilled_cons_wide {c : Constant} {cs : List Constant} (hc : c.isWide = true) :
    WideFilled (c :: cs) ↔ ∃ rest, cs = .unusable :: rest ∧ WideFilled rest := by
  constructor
  · intro h
    have hsecond := h 0 c rfl hc
    cases cs with
    | nil => cases hsecond
    | cons d cs =>
        cases hsecond
        exact ⟨cs, rfl, fun k => h (k + 2)⟩
  · rintro ⟨rest, rfl, h⟩ k d hd hwide
    match k with
    | 0 => rfl
    | 1 =>
        cases hd
        cases hwide
    | k + 2 => exact h k d hd hwide

/-- Slots can be written if exactly those behind longs and doubles have no constant, and texts fit
their lengths. -/
theorem slots_iff {cs : List Constant} :
    Slots cs ↔ WideFilled cs ∧ NoEmptySlot cs ∧ ∀ c ∈ cs, c.Fits := by
  constructor
  · intro h
    induction h with
    | nil => exact ⟨wideFilled_nil, noEmptySlot_nil, by simp⟩
    | narrow hwide hne hfits _ ih =>
        obtain ⟨hfilled, hempty, hrest⟩ := ih
        exact ⟨(wideFilled_cons hwide).mpr hfilled, (noEmptySlot_cons hwide).mpr ⟨hne, hempty⟩,
          List.forall_mem_cons.mpr ⟨hfits, hrest⟩⟩
    | wide hwide _ ih =>
        obtain ⟨hfilled, hempty, hrest⟩ := ih
        exact ⟨(wideFilled_cons_wide hwide).mpr ⟨_, rfl, hfilled⟩,
          (noEmptySlot_cons_wide hwide).mpr hempty, List.forall_mem_cons.mpr
            ⟨(Constant.fits_of_isWide hwide).1, List.forall_mem_cons.mpr ⟨trivial, hrest⟩⟩⟩
  · -- a long or double goes with its second slot, so two slots may be taken off at once
    rintro ⟨hfilled, hempty, hfits⟩
    induction cs using List.twoStepInduction with
    | nil => exact .nil
    | singleton c =>
        obtain ⟨hc, -⟩ := List.forall_mem_cons.mp hfits
        by_cases hwide : c.isWide = true
        · obtain ⟨rest, hrest, -⟩ := (wideFilled_cons_wide hwide).mp hfilled
          cases hrest
        · rw [Bool.not_eq_true] at hwide
          exact .narrow hwide ((noEmptySlot_cons hwide).mp hempty).1 hc .nil
    | cons_cons c d cs ih ih' =>
        obtain ⟨hc, hrest⟩ := List.forall_mem_cons.mp hfits
        by_cases hwide : c.isWide = true
        · obtain ⟨rest, heq, hfilled⟩ := (wideFilled_cons_wide hwide).mp hfilled
          cases heq
          exact .wide hwide (ih hfilled ((noEmptySlot_cons_wide hwide).mp hempty)
            (List.forall_mem_cons.mp hrest).2)
        · rw [Bool.not_eq_true] at hwide
          obtain ⟨hne, hempty⟩ := (noEmptySlot_cons hwide).mp hempty
          exact .narrow hwide hne hc (ih' d ((wideFilled_cons hwide).mp hfilled) hempty hrest)

namespace Pool

open Reader

/-- The bytes spell the slots one after the other. -/
inductive Spells : List UInt8 → List Constant → Prop
  | nil : Spells [] []
  | narrow {bs bs' : List UInt8} {c : Constant} {cs : List Constant} (head : c.Spells bs)
      (hwide : c.isWide = false) (tail : Spells bs' cs) : Spells (bs ++ bs') (c :: cs)
  | wide {bs bs' : List UInt8} {c : Constant} {cs : List Constant} (head : c.Spells bs)
      (hwide : c.isWide = true) (tail : Spells bs' cs) :
      Spells (bs ++ bs') (c :: .unusable :: cs)

theorem readEntries_succ (slots : Nat) (acc : Array Constant) :
    readEntries (slots + 1) acc = Constant.read >>= fun c =>
      if c.isWide then
        match slots with
        | 0 => pure ((acc.push c).push .unusable)
        | rest + 1 => readEntries rest ((acc.push c).push .unusable)
      else readEntries slots (acc.push c) := by
  funext s
  rw [bind_apply, readEntries]
  dsimp only
  cases Constant.read s with
  | error e => rfl
  | ok r =>
      obtain ⟨c, s'⟩ := r
      dsimp only
      by_cases hwide : c.isWide = true
      · rw [if_pos hwide, if_pos hwide]
        cases slots <;> rfl
      · rw [if_neg hwide, if_neg hwide]

theorem takes_readEntries {cs : List Constant} (h : Slots cs) (acc : Array Constant) :
    Takes (readEntries cs.length acc) (cs.flatMap Constant.bytes) (acc ++ cs.toArray) := by
  induction h generalizing acc with
  | nil =>
      have hacc : acc ++ ([] : List Constant).toArray = acc := Array.append_empty
      rw [hacc]
      exact Takes.pure acc
  | @narrow c cs hwide hne hfits _ ih =>
      have hacc : acc ++ (c :: cs).toArray = acc.push c ++ cs.toArray := by simp
      rw [List.length_cons, readEntries_succ, List.flatMap_cons, hacc]
      refine (Constant.takes hfits hne).bind ?_
      rw [hwide]
      exact ih (acc.push c)
  | @wide c cs hwide _ ih =>
      obtain ⟨hfits, hne⟩ := Constant.fits_of_isWide hwide
      have hacc : acc ++ (c :: .unusable :: cs).toArray =
          (acc.push c).push .unusable ++ cs.toArray := by simp
      rw [List.length_cons, readEntries_succ, List.flatMap_cons, hacc]
      refine (Constant.takes hfits hne).bind ?_
      rw [hwide]
      exact ih ((acc.push c).push .unusable)

theorem gives_readEntries (slots : Nat) (acc : Array Constant) :
    Gives (readEntries slots acc) fun bs entries =>
      ∃ cs, entries = acc ++ cs.toArray ∧ Spells bs cs := by
  induction slots using Nat.strongRecOn generalizing acc with
  | ind slots ih =>
      cases slots with
      | zero =>
          refine (Gives.pure acc).mono ?_
          rintro _ _ ⟨rfl, rfl⟩
          exact ⟨[], Array.append_empty.symm, .nil⟩
      | succ slots =>
          rw [readEntries_succ]
          refine (Constant.gives_read.bind fun c => (?_ : Gives _ fun bs entries =>
            ∃ cs, entries = acc ++ (c :: cs).toArray ∧
              ∀ bs', c.Spells bs' → Spells (bs' ++ bs) (c :: cs))).mono ?_
          · split
            · rename_i hwide
              split
              · refine (Gives.pure _).mono ?_
                rintro _ _ ⟨rfl, rfl⟩
                exact ⟨[.unusable], by simp [← Array.toList_inj], fun bs' hc => .wide hc hwide .nil⟩
              · rename_i rest
                refine (ih rest (by omega) _).mono ?_
                rintro bs _ ⟨cs, rfl, hcs⟩
                exact ⟨.unusable :: cs, by simp, fun bs' hc => .wide hc hwide hcs⟩
            · rename_i hwide
              refine (ih slots (by omega) _).mono ?_
              rintro bs _ ⟨cs, rfl, hcs⟩
              exact ⟨cs, by simp, fun bs' hc => .narrow hc (by simpa using hwide) hcs⟩
          · rintro _ _ ⟨bs', c, bs, rfl, hc, cs, rfl, hcs⟩
            exact ⟨c :: cs, rfl, hcs bs' hc⟩

/-- The slots can be written, and the stated size is one more than their number. -/
structure Fits (p : Pool) : Prop where
  slots : Slots p.entries.toList
  statedSize : p.statedSize.toNat = p.entries.size + 1

theorem takes {p : Pool} (h : p.Fits) : Takes read p.bytes p := by
  have hslots : p.statedSize.toNat - 1 = p.entries.toList.length := by
    rw [h.statedSize, Nat.add_sub_cancel, Array.length_toList]
  have hentries := takes_readEntries h.slots #[]
  rw [← hslots, Array.toArray_toList, Array.empty_append] at hentries
  exact (takes_u16 p.statedSize).bind (hentries.map (Pool.mk p.statedSize))

/-- Exactly the slots behind longs and doubles have no constant, texts fit their lengths, and the
stated size is one more than the number of slots. -/
structure WellFormed (p : Pool) : Prop where
  filled : WideFilled p.entries.toList
  noEmptySlot : NoEmptySlot p.entries.toList
  texts : ∀ c ∈ p.entries.toList, c.Fits
  statedSize : p.statedSize.toNat = p.entries.size + 1

theorem WellFormed.fits {p : Pool} (h : p.WellFormed) : p.Fits :=
  ⟨slots_iff.mpr ⟨h.filled, h.noEmptySlot, h.texts⟩, h.statedSize⟩

theorem gives_read : Gives read fun bs p =>
    ∃ bs', bs = Bytes.ofUInt16 p.statedSize ++ bs' ∧ Spells bs' p.entries.toList := by
  refine (givesBack_u16.bind fun size => (gives_readEntries (size.toNat - 1) #[]).map
    (Pool.mk size)).mono ?_
  rintro _ _ ⟨_, size, bs, rfl, ⟨rfl, -⟩, _, rfl, cs, rfl, hcs⟩
  exact ⟨bs, rfl, by simpa using hcs⟩

/-- The texts that were read fit their lengths. -/
theorem Spells.fits {bs : List UInt8} {cs : List Constant} (h : Spells bs cs) :
    ∀ c ∈ cs, c.Fits := by
  induction h with
  | nil => simp
  | narrow head _ _ ih => exact List.forall_mem_cons.mpr ⟨head.1, ih⟩
  | wide head _ _ ih =>
      exact List.forall_mem_cons.mpr ⟨head.1, List.forall_mem_cons.mpr ⟨trivial, ih⟩⟩

/-- A pool that was read can be written, unless it has a slot without a constant. -/
theorem slots_of_spells {bs : List UInt8} {cs : List Constant} (h : Spells bs cs)
    (hempty : NoEmptySlot cs) : Slots cs := by
  induction h with
  | nil => exact .nil
  | narrow head hwide _ ih =>
      obtain ⟨hne, hrest⟩ := (noEmptySlot_cons hwide).mp hempty
      exact .narrow hwide hne head.1 (ih hrest)
  | wide head hwide _ ih => exact .wide hwide (ih hempty.tail_wide)

/-- Of what was read as slots, the tag of each one without a constant is not written. -/
theorem Spells.length_add_countP {bs : List UInt8} {cs : List Constant} (h : Spells bs cs) :
    bs.length + cs.countP Constant.isWide =
      (cs.flatMap Constant.bytes).length + cs.count .unusable := by
  induction h with
  | nil => rfl
  | @narrow bs bs' c cs head hwide _ ih =>
      rw [List.countP_cons_of_neg (by simp [hwide]), List.flatMap_cons, List.length_append,
        List.length_append]
      rcases head.2 with ⟨rfl, hne⟩ | ⟨rfl, rfl⟩
      · rw [List.count_cons_of_ne hne]
        omega
      · rw [List.count_cons_self, Constant.bytes, List.length_singleton, List.length_nil]
        omega
  | @wide bs bs' c cs head hwide _ ih =>
      obtain ⟨-, hne⟩ := Constant.fits_of_isWide hwide
      obtain ⟨rfl, -⟩ := head.2.resolve_right fun h => hne h.2
      rw [List.countP_cons_of_pos hwide, List.countP_cons_of_neg (by simp [Constant.isWide]),
        List.count_cons_of_ne hne, List.count_cons_self, List.flatMap_cons, List.flatMap_cons,
        Constant.bytes.eq_def .unusable, List.nil_append, List.length_append, List.length_append]
      omega

theorem Spells.length_le {bs : List UInt8} {cs : List Constant} (h : Spells bs cs) :
    (cs.flatMap Constant.bytes).length ≤ bs.length := by
  induction h with
  | nil => exact Nat.le_refl _
  | narrow head _ _ ih =>
      rw [List.flatMap_cons, List.length_append, List.length_append]
      rcases head.2 with ⟨rfl, -⟩ | ⟨rfl, rfl⟩
      · omega
      · exact Nat.le_trans (by simp [Constant.bytes]) (Nat.add_le_add_left ih 1)
  | wide head hwide _ ih =>
      obtain ⟨rfl, -⟩ := head.2.resolve_right fun h => (Constant.fits_of_isWide hwide).2 h.2
      simpa [Constant.bytes] using ih

/-- Slots are written as they were read exactly if none without a constant stands by itself. -/
theorem Spells.bytes_eq_iff {bs : List UInt8} {cs : List Constant} (h : Spells bs cs) :
    cs.flatMap Constant.bytes = bs ↔ NoEmptySlot cs := by
  induction h with
  | nil => exact ⟨fun _ => noEmptySlot_nil, fun _ => rfl⟩
  | @narrow bs bs' c cs head hwide tail ih =>
      rw [noEmptySlot_cons hwide, List.flatMap_cons, ← ih]
      rcases head.2 with ⟨rfl, hne⟩ | ⟨rfl, rfl⟩
      · rw [List.append_cancel_left_eq]
        exact ⟨fun h => ⟨hne, h⟩, fun h => h.2⟩
      · refine ⟨fun heq => ?_, fun h => absurd rfl h.1⟩
        -- the tag was read, and what follows it is no shorter than what is written
        have hle := tail.length_le
        have hlen := congrArg List.length heq
        simp only [Constant.bytes, List.nil_append, List.length_append,
          List.length_singleton] at hlen
        omega
  | wide head hwide _ ih =>
      obtain ⟨rfl, -⟩ := head.2.resolve_right fun h => (Constant.fits_of_isWide hwide).2 h.2
      rw [noEmptySlot_cons_wide hwide, List.flatMap_cons, List.flatMap_cons, ← ih,
        List.append_cancel_left_eq]
      rfl

end Pool

end Retrofit
