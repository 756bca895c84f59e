import Retrofit.Proofs.Body.Frames

/-!
# Frames at another distance

A frame that is moved to another distance says the same of locals and stack, in the compact shape
exactly if its kind has one and the distance is small. This determines it, so how often it was moved
before does not matter. A frame that was read is read back from its bytes at every distance.
-/

namespace Retrofit.Frame

/-- The type byte of the frame holds its distance. -/
def IsCompact : Frame → Prop
  | same _ | sameItem _ _ => True
  | _ => False

/-- Frames of the kind have a compact shape. -/
def Kind.HasCompact : Kind → Prop
  | .same | .sameItem => True
  | _ => False

/-- The frame `g` says what `f` says, at the distance `d` and in the shape that is meant for it. -/
structure At (f : Frame) (d : UInt16) (g : Frame) : Prop where
  delta : g.delta = d
  kind : g.kind = f.kind
  locals : g.locals = f.locals
  stack : g.stack = f.stack
  compact_iff : g.IsCompact ↔ f.kind.HasCompact ∧ d.toNat ≤ 63

/-! ### The frame at a distance -/

theorem isCompact_withDelta (f : Frame) (d : UInt16) :
    (f.withDelta d).IsCompact ↔ f.kind.HasCompact ∧ d.toNat ≤ 63 := by
  cases f with
  | chop less _ => exact ⟨False.elim, fun h => h.1⟩
  | append _ _ => exact ⟨False.elim, fun h => h.1⟩
  | full _ _ _ => exact ⟨False.elim, fun h => h.1⟩
  | _ =>
      rw [withDelta]
      split
      · rename_i hlt
        exact iff_of_true trivial ⟨trivial, Nat.le_of_lt_succ hlt⟩
      · rename_i hge
        exact iff_of_false id fun h => hge (Nat.lt_succ_of_le h.2)

theorem at_withDelta (f : Frame) (d : UInt16) : f.At d (f.withDelta d) :=
  ⟨delta_withDelta f d, kind_withDelta f d, locals_withDelta f d, stack_withDelta f d,
    isCompact_withDelta f d⟩

theorem ofNat_fin_injective {d d' : Fin 64} (h : UInt16.ofNat d = UInt16.ofNat d') : d = d' := by
  have hsmall : ∀ n : Fin 64, (UInt16.ofNat n).toNat = n := fun n =>
    UInt16.toNat_ofNat_of_lt' (Nat.lt_trans n.isLt (by decide))
  apply Fin.ext
  rw [← hsmall d, h, hsmall d']

/-- Frames that say the same at the same distance and are both compact or both not are equal. -/
theorem eq_of_says {f g : Frame} (hdelta : f.delta = g.delta) (hkind : f.kind = g.kind)
    (hlocals : f.locals = g.locals) (hstack : f.stack = g.stack)
    (hcompact : f.IsCompact ↔ g.IsCompact) : f = g := by
  cases f with
  | same d =>
      cases g with
      | same d' => rw [ofNat_fin_injective hdelta]
      | sameExtended d' => exact absurd (hcompact.mp trivial) id
      | _ => cases hkind
  | sameItem d item =>
      cases g with
      | sameItem d' item' =>
          cases hstack
          rw [ofNat_fin_injective hdelta]
      | sameItemExtended d' item' => exact absurd (hcompact.mp trivial) id
      | _ => cases hkind
  | sameItemExtended d item =>
      cases g with
      | sameItem d' item' => exact absurd (hcompact.mpr trivial) id
      | sameItemExtended d' item' =>
          cases hstack
          cases hdelta
          rfl
      | _ => cases hkind
  | chop less d =>
      cases g with
      | chop less' d' =>
          cases hdelta
          have hless : (less : Nat) + 1 = less' + 1 := Kind.chop.inj hkind
          rw [Fin.ext (Nat.succ.inj hless)]
      | _ => cases hkind
  | sameExtended d =>
      cases g with
      | same d' => exact absurd (hcompact.mpr trivial) id
      | sameExtended d' =>
          cases hdelta
          rfl
      | _ => cases hkind
  | append d locals =>
      cases g with
      | append d' locals' =>
          cases hdelta
          cases hlocals
          rfl
      | _ => cases hkind
  | full d locals stack =>
      cases g with
      | full d' locals' stack' =>
          cases hdelta
          cases hlocals
          cases hstack
          rfl
      | _ => cases hkind

theorem at_iff {f g : Frame} {d : UInt16} : f.At d g ↔ g = f.withDelta d := by
  constructor
  · intro h
    have hto := at_withDelta f d
    exact eq_of_says (h.delta.trans hto.delta.symm) (h.kind.trans hto.kind.symm)
      (h.locals.trans hto.locals.symm) (h.stack.trans hto.stack.symm)
      (h.compact_iff.trans hto.compact_iff.symm)
  · rintro rfl
    exact at_withDelta f d

/-- Where a frame was before does not matter for what it is at a distance. -/
theorem At.trans {f g k : Frame} {d d' : UInt16} (h : f.At d g) (h' : g.At d' k) : f.At d' k where
  delta := h'.delta
  kind := h'.kind.trans h.kind
  locals := h'.locals.trans h.locals
  stack := h'.stack.trans h.stack
  compact_iff := by
    rw [← h.kind]
    exact h'.compact_iff

theorem withDelta_withDelta (f : Frame) (d d' : UInt16) :
    (f.withDelta d).withDelta d' = f.withDelta d' :=
  at_iff.mp ((at_withDelta f d).trans (at_withDelta _ d'))

/-- Without a compact shape, the type byte does not depend on the distance. -/
theorem typeByte_withDelta {f : Frame} (h : ¬f.kind.HasCompact) (d : UInt16) :
    (f.withDelta d).typeByte = f.typeByte := by
  cases f with
  | chop _ _ => rfl
  | append _ _ => rfl
  | full _ _ _ => rfl
  | _ => exact absurd trivial h

/-- A frame that was read keeps its meaning at every distance: it is the frame that says the same
there, in the compact shape where there is one. Its type byte matches, and stays as it was unless it
holds distances. The frame is read back from its bytes, and further moves start as if from the first
one. -/
theorem withDelta_of_read {offset : Nat} {bytes : List UInt8} {f : Frame} {rest : Input}
    (h : read ⟨offset, bytes⟩ = .ok (f, rest)) (d : UInt16) :
    (∀ g, f.At d g ↔ g = f.withDelta d) ∧
    (¬f.kind.HasCompact → (f.withDelta d).typeByte = f.typeByte) ∧
    (f.withDelta d).MarkedBy (f.withDelta d).typeByte ∧
    (∀ offset rest, read ⟨offset, (f.withDelta d).bytes ++ rest⟩ =
      .ok (f.withDelta d, ⟨offset + (f.withDelta d).bytes.length, rest⟩)) ∧
    ∀ d', (f.withDelta d).withDelta d' = f.withDelta d' := by
  obtain ⟨_, -, -, -, hfits⟩ := givesBack _ _ _ h
  have hmoved : (f.withDelta d).Fits := fits_withDelta hfits d
  exact ⟨fun g => at_iff, fun hkind => typeByte_withDelta hkind d, markedBy_typeByte hmoved,
    takes hmoved, withDelta_withDelta f d⟩

/-- A compact frame is moved far away, and back near. -/
theorem withDelta_of_read_item :
    read ⟨0, [69, 8, 0, 12, 1]⟩ = .ok (sameItem 5 (.uninitialized 12), ⟨4, [1]⟩) ∧
      (sameItem 5 (.uninitialized 12)).At 64 (sameItemExtended 64 (.uninitialized 12)) ∧
      read ⟨0, [247, 0, 64, 8, 0, 12]⟩ = .ok (sameItemExtended 64 (.uninitialized 12), ⟨6, []⟩) ∧
      (sameItemExtended 64 (.uninitialized 12)).withDelta 63 = sameItem 63 (.uninitialized 12) := by
  have hread : read ⟨0, [69, 8, 0, 12, 1]⟩ = .ok (sameItem 5 (.uninitialized 12), ⟨4, [1]⟩) := by
    cbv
  obtain ⟨hat, -, -, hback, hagain⟩ := withDelta_of_read hread 64
  exact ⟨hread, (hat _).mpr rfl, hback 0 [], hagain 63⟩

end Retrofit.Frame
