import Retrofit.Body.Layout
import Retrofit.Proofs.Attribute.Frame
import Retrofit.Proofs.Outcome
import Retrofit.Proofs.Pool.Naming

/-!
# Tables that were moved

A nested attribute that was taken apart, moved and put together again is taken apart under the same
name as before: moving changes offsets, and neither the kind of a table nor the number of its entries.
Only frames can grow, and none grows to more than three times its size.
-/

namespace Retrofit

open Reader

theorem length_countedBytes_le {α β : Type} {f : α → List UInt8} {g : β → List UInt8} {xs : List α}
    {ys : List β} (h : List.Forall₂ (fun x y => (g y).length ≤ 3 * (f x).length) xs ys) :
    (countedBytes g ys).length ≤ 3 * (countedBytes f xs).length := by
  have hitems := length_flatMap_le h
  simp only [countedBytes, List.length_append, Bytes.length_ofUInt16]
  omega

/-! ### Frames -/

namespace Frame

/-- A frame and what it became: as well formed, and not grown to more than three times its size. -/
structure Moved (f f' : Frame) : Prop where
  fits : f.Fits → f'.Fits
  length_le : f'.bytes.length ≤ 3 * f.bytes.length

theorem fits_withDelta {f : Frame} (h : f.Fits) (delta : UInt16) : (f.withDelta delta).Fits := by
  cases f with
  | append _ _ => exact h
  | full _ _ _ => exact h
  | chop _ _ => trivial
  | _ =>
      rw [withDelta]
      split <;> trivial

theorem length_withDelta_le (f : Frame) (delta : UInt16) :
    (f.withDelta delta).bytes.length ≤ 3 * f.bytes.length := by
  cases f with
  | chop _ _ => simp [withDelta, bytes]
  | append _ _ =>
      simp only [withDelta, bytes, List.length_cons, List.length_append, Bytes.length_ofUInt16]
      omega
  | full _ _ _ =>
      simp only [withDelta, bytes, List.length_cons, List.length_append, Bytes.length_ofUInt16]
      omega
  | _ =>
      rw [withDelta]
      split
      all_goals
        simp only [bytes, List.length_cons, List.length_append, List.length_nil,
          Bytes.length_ofUInt16]
        omega

section

variable {ε : Type} {move : VerificationType → Except ε VerificationType}

theorem fits_of_mapTypes {f f' : Frame} (h : f.mapTypes move = .ok f') (hfits : f.Fits) :
    f'.Fits := by
  cases f with
  | sameItem delta item =>
      obtain ⟨item', -, rfl⟩ := map_eq_ok.mp h
      trivial
  | sameItemExtended delta item =>
      obtain ⟨item', -, rfl⟩ := map_eq_ok.mp h
      trivial
  | append delta locals =>
      obtain ⟨locals', hlocals, rfl⟩ := map_eq_ok.mp h
      have hlen := (mapM_eq_ok.mp hlocals).length_eq
      show 1 ≤ locals'.length ∧ locals'.length ≤ 3
      rw [← hlen]
      exact hfits
  | full delta locals stack =>
      obtain ⟨locals', hlocals, h⟩ := bind_eq_ok.mp h
      obtain ⟨stack', hstack, rfl⟩ := map_eq_ok.mp h
      have hlen := (mapM_eq_ok.mp hlocals).length_eq
      have hlen' := (mapM_eq_ok.mp hstack).length_eq
      show locals'.length < 65536 ∧ stack'.length < 65536
      rw [← hlen, ← hlen']
      exact hfits
  | _ =>
      cases h
      exact hfits

variable (hmove : ∀ t t', move t = .ok t' → t'.bytes.length = t.bytes.length)

include hmove

theorem length_types_eq {ts ts' : List VerificationType} (h : ts.mapM move = .ok ts') :
    (ts'.flatMap VerificationType.bytes).length = (ts.flatMap VerificationType.bytes).length := by
  replace h := mapM_eq_ok.mp h
  induction h with
  | nil => rfl
  | cons ht _ ih =>
      have hlen := hmove _ _ ht
      rw [List.flatMap_cons, List.flatMap_cons, List.length_append, List.length_append, ih, hlen]

theorem length_of_mapTypes {f f' : Frame} (h : f.mapTypes move = .ok f') :
    f'.bytes.length = f.bytes.length := by
  cases f with
  | sameItem delta item =>
      obtain ⟨item', hitem, rfl⟩ := map_eq_ok.mp h
      have hlen := hmove _ _ hitem
      simp [bytes, hlen]
  | sameItemExtended delta item =>
      obtain ⟨item', hitem, rfl⟩ := map_eq_ok.mp h
      have hlen := hmove _ _ hitem
      simp [bytes, hlen]
  | append delta locals =>
      obtain ⟨locals', hlocals, rfl⟩ := map_eq_ok.mp h
      have hlen := length_types_eq hmove hlocals
      simpa [bytes] using hlen
  | full delta locals stack =>
      obtain ⟨locals', hlocals, h⟩ := bind_eq_ok.mp h
      obtain ⟨stack', hstack, rfl⟩ := map_eq_ok.mp h
      have hlen := length_types_eq hmove hlocals
      have hlen' := length_types_eq hmove hstack
      simp only [bytes, countedBytes, List.length_cons, List.length_append, Bytes.length_ofUInt16]
      omega
  | _ =>
      cases h
      rfl

end

theorem length_of_moveType {map : Nat → Option Nat} {t t' : VerificationType}
    (h : Body.moveType map t = .ok t') : t'.bytes.length = t.bytes.length := by
  cases t with
  | uninitialized offset =>
      obtain ⟨offset', -, rfl⟩ := map_eq_ok.mp h
      simp [VerificationType.bytes]
  | _ =>
      cases h
      rfl

theorem length_positions (frames : List Frame) : (positions frames).length = frames.length := by
  simp [positions]

theorem length_deltas (positions : List Nat) : (deltas positions).length = positions.length := by
  simp [deltas]

theorem moved_of_moveFrames {map : Nat → Option Nat} {frames frames' : List Frame}
    (h : Body.moveFrames map frames = .ok frames') : List.Forall₂ Moved frames frames' := by
  obtain ⟨moved, hmoved, h⟩ := bind_eq_ok.mp h
  cases h
  have hzip : (frames.zip (positions frames)).map Prod.fst = frames := by
    apply List.map_fst_zip
    exact Nat.le_of_eq (length_positions frames).symm
  have htypes : List.Forall₂ (fun f (m : Frame × Nat) => f.mapTypes (Body.moveType map) = .ok m.1)
      frames moved := by
    rw [← hzip, List.forall₂_map_left_iff]
    refine (mapM_eq_ok.mp hmoved).imp ?_
    rintro ⟨f, position⟩ m hm
    obtain ⟨new, -, hm⟩ := bind_eq_ok.mp hm
    obtain ⟨f', hf', rfl⟩ := map_eq_ok.mp hm
    exact hf'
  have hdeltas : List.Forall₂ (fun (m : Frame × Nat) f => ∃ delta, f = m.1.withDelta delta) moved
      ((moved.zip (deltas (moved.map Prod.snd))).map fun x => x.1.1.withDelta (UInt16.ofNat x.2)) := by
    apply forall₂_map_zip
    · intro m delta
      exact ⟨_, rfl⟩
    · apply Nat.le_of_eq
      rw [length_deltas, List.length_map]
  refine forall₂_trans ?_ htypes hdeltas
  rintro f ⟨f', new⟩ _ hf ⟨delta, rfl⟩
  have hlen := length_of_mapTypes (fun _ _ => length_of_moveType) hf
  refine ⟨fun hfits => fits_withDelta (fits_of_mapTypes hf hfits) delta, ?_⟩
  rw [← hlen]
  exact f'.length_withDelta_le delta

theorem fits_of_moved {frames frames' : List Frame} (h : List.Forall₂ Moved frames frames')
    (hfits : ∀ f ∈ frames, f.Fits) : ∀ f ∈ frames', f.Fits := by
  induction h with
  | nil => exact hfits
  | cons hf _ ih =>
      rw [List.forall_mem_cons] at hfits ⊢
      exact ⟨hf.fits hfits.1, ih hfits.2⟩

end Frame

/-! ### Tables -/

namespace CodeTable

/-- The name tells the kind of the table. -/
def GoesBy (name : Option String) : CodeTable → Prop
  | lines _ => name = some "LineNumberTable"
  | locals _ => name = some "LocalVariableTable"
  | localTypes _ => name = some "LocalVariableTypeTable"
  | frames _ => name = some "StackMapTable"
  | typeAnnotations _ =>
    name = some "RuntimeVisibleTypeAnnotations" ∨ name = some "RuntimeInvisibleTypeAnnotations"
  | other _ => ∀ t ∈ names, name ≠ some t

/-- Whether type annotations on code positions go by the name. -/
def namesAnnotations (name : Option String) : Bool :=
  name == some "RuntimeVisibleTypeAnnotations" || name == some "RuntimeInvisibleTypeAnnotations"

/-- Whether nothing that is taken apart goes by the name. -/
def namesOther (name : Option String) : Bool := names.all fun t => name != some t

theorem decode_of_namesAnnotations {name : Option String} (h : namesAnnotations name = true)
    (info : List UInt8) : decode name info = .ok (typeAnnotations info) := by
  rw [namesAnnotations, Bool.or_eq_true, beq_iff_eq, beq_iff_eq] at h
  obtain rfl | rfl := h <;> rfl

theorem decode_of_namesOther {name : Option String} (h : namesOther name = true)
    (info : List UInt8) : decode name info = .ok (other info) :=
  decode_other (fun t ht => bne_iff_ne.mp (List.all_eq_true.mp h t ht)) info

/-- The entries fit their count, and frames are well formed. -/
def Fits : CodeTable → Prop
  | lines entries => entries.length < 65536
  | locals entries => entries.length < 65536
  | localTypes entries => entries.length < 65536
  | frames entries => entries.length < 65536 ∧ ∀ f ∈ entries, f.Fits
  | _ => True

/-- A table is taken apart again under a name that tells its kind. -/
theorem decode_info {name : Option String} {t : CodeTable} (h : t.GoesBy name) (hfits : t.Fits) :
    decode name t.info = .ok t := by
  cases t with
  | lines entries =>
      cases h
      exact map_eq_ok.mpr ⟨_, (takes_counted (fun e _ => e.takes) hfits).run, rfl⟩
  | locals entries =>
      cases h
      exact map_eq_ok.mpr ⟨_, (takes_counted (fun e _ => e.takes) hfits).run, rfl⟩
  | localTypes entries =>
      cases h
      exact map_eq_ok.mpr ⟨_, (takes_counted (fun e _ => e.takes) hfits).run, rfl⟩
  | frames entries =>
      cases h
      exact map_eq_ok.mpr
        ⟨_, (takes_counted (fun f hf => Frame.takes (hfits.2 f hf)) hfits.1).run, rfl⟩
  | typeAnnotations info =>
      cases h with
      | inl h => rw [h]; rfl
      | inr h => rw [h]; rfl
  | other info => exact decode_other h info

/-- Reading entries from the front of a nested attribute. -/
theorem length_le_of_run {α : Type} {p : Reader α} {enc : α → List UInt8} {P : α → Prop}
    (hp : GivesBack p enc P) {info : List UInt8} {xs : List α}
    (h : (counted p).run info = .ok xs) :
    xs.length < 65536 ∧ (∀ x ∈ xs, P x) ∧ (countedBytes enc xs).length ≤ info.length := by
  obtain ⟨bs, rest, rfl, rfl, hlen, hxs⟩ := (givesBack_counted hp).run h
  refine ⟨hlen, hxs, ?_⟩
  rw [List.length_append]
  exact Nat.le_add_right _ _

/-- What a nested attribute was taken apart to. -/
theorem of_decode {name : Option String} {info : List UInt8} {t : CodeTable}
    (h : decode name info = .ok t) : t.GoesBy name ∧ t.Fits ∧ t.info.length ≤ info.length := by
  unfold decode at h
  split at h
  case h_1 =>
    obtain ⟨entries, hrun, rfl⟩ := map_eq_ok.mp h
    obtain ⟨hlen, -, hle⟩ := length_le_of_run LineEntry.givesBack hrun
    exact ⟨rfl, hlen, hle⟩
  case h_2 =>
    obtain ⟨entries, hrun, rfl⟩ := map_eq_ok.mp h
    obtain ⟨hlen, -, hle⟩ := length_le_of_run LocalEntry.givesBack hrun
    exact ⟨rfl, hlen, hle⟩
  case h_3 =>
    obtain ⟨entries, hrun, rfl⟩ := map_eq_ok.mp h
    obtain ⟨hlen, -, hle⟩ := length_le_of_run LocalEntry.givesBack hrun
    exact ⟨rfl, hlen, hle⟩
  case h_4 =>
    obtain ⟨entries, hrun, rfl⟩ := map_eq_ok.mp h
    obtain ⟨hlen, hfits, hle⟩ := length_le_of_run Frame.givesBack hrun
    exact ⟨rfl, ⟨hlen, hfits⟩, hle⟩
  case h_5 =>
    cases h
    exact ⟨Or.inl rfl, trivial, Nat.le_refl _⟩
  case h_6 =>
    cases h
    exact ⟨Or.inr rfl, trivial, Nat.le_refl _⟩
  case h_7 hlines hlocals htypes hframes hvisible hinvisible =>
    cases h
    refine ⟨?_, trivial, Nat.le_refl _⟩
    simp only [GoesBy, names, List.forall_mem_cons]
    exact ⟨hlines, hlocals, htypes, hframes, hvisible, hinvisible, by simp⟩

/-- A table and what it became: of the same kind and as well formed, and not grown to more than three
times its size. -/
structure Moved (t t' : CodeTable) : Prop where
  goesBy : ∀ name, t.GoesBy name → t'.GoesBy name
  fits : t.Fits → t'.Fits
  length_le : t'.info.length ≤ 3 * t.info.length

/-- Entries of one size, moved one by one. -/
theorem moved_of_mapM {α ε : Type} {enc : α → List UInt8} {n : Nat} (henc : ∀ x, (enc x).length = n)
    {move : α → Except ε α} {xs ys : List α} (h : xs.mapM move = .ok ys) :
    (xs.length < 65536 → ys.length < 65536) ∧
      (countedBytes enc ys).length ≤ 3 * (countedBytes enc xs).length := by
  have hmoved := mapM_eq_ok.mp h
  constructor
  · intro hfits
    rw [← hmoved.length_eq]
    exact hfits
  · apply length_countedBytes_le
    refine hmoved.imp fun x y _ => ?_
    rw [henc, henc]
    omega

theorem moved_of_moveTable {map : Nat → Option Nat} {moved : Bool} {t t' : CodeTable}
    (h : Body.moveTable map moved t = .ok (some t')) : t.Moved t' := by
  have hline (e : LineEntry) : e.bytes.length = 4 := by simp [LineEntry.bytes]
  have hlocal (e : LocalEntry) : e.bytes.length = 10 := by simp [LocalEntry.bytes]
  cases t with
  | lines entries =>
      obtain ⟨entries', hentries, h⟩ := map_eq_ok.mp h
      cases h
      obtain ⟨hfits, hle⟩ := moved_of_mapM hline hentries
      exact ⟨fun _ hname => hname, hfits, hle⟩
  | locals entries =>
      obtain ⟨entries', hentries, h⟩ := map_eq_ok.mp h
      cases h
      obtain ⟨hfits, hle⟩ := moved_of_mapM hlocal hentries
      exact ⟨fun _ hname => hname, hfits, hle⟩
  | localTypes entries =>
      obtain ⟨entries', hentries, h⟩ := map_eq_ok.mp h
      cases h
      obtain ⟨hfits, hle⟩ := moved_of_mapM hlocal hentries
      exact ⟨fun _ hname => hname, hfits, hle⟩
  | frames entries =>
      obtain ⟨entries', hentries, h⟩ := map_eq_ok.mp h
      cases h
      have hmoved := Frame.moved_of_moveFrames hentries
      refine ⟨fun _ hname => hname, fun hfits => ⟨?_, ?_⟩, ?_⟩
      · rw [← hmoved.length_eq]
        exact hfits.1
      · exact Frame.fits_of_moved hmoved hfits.2
      · exact length_countedBytes_le (hmoved.imp fun _ _ hf => hf.length_le)
  | typeAnnotations info =>
      rw [Body.moveTable] at h
      split at h
      · cases h
      · cases h
        exact ⟨fun _ hname => hname, fun hfits => hfits, Nat.le_mul_of_pos_left _ (by decide)⟩
  | other info =>
      cases h
      exact ⟨fun _ hname => hname, fun hfits => hfits, Nat.le_mul_of_pos_left _ (by decide)⟩

end CodeTable

end Retrofit
