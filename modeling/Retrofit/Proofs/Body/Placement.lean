import Retrofit.Proofs.Body.Frames
import Retrofit.Proofs.Body.Guards

/-!
# Tables in their new places

The offsets in the guards and tables of a laid out body are the places where the loaded ones have
landed, as numbers and not as their last 16 bits. The length of a range is the distance from the one
end to the other, which does not lie before it. All that is not an offset is kept, in order; only type
annotations are given up, and only once something has moved.
-/

namespace Retrofit.Body

/-- A loaded instruction that is left, or the end of the code, has moved. -/
def Shifted (b : Body) : Prop := ∃ o a, b.Lands o a ∧ a ≠ o

structure LinePlaced (b : Body) (e e' : LineEntry) : Prop where
  start : b.Lands e.start.toNat e'.start.toNat
  line_eq : e'.line = e.line

/-- The ends of a local variable's range are where the loaded ends have landed. -/
structure LocalPlaced (b : Body) (e e' : LocalEntry) : Prop where
  fits : e.start.toNat + e.length.toNat ≤ 65535
  start : b.Lands e.start.toNat e'.start.toNat
  stop : b.Lands (e.start.toNat + e.length.toNat) (e'.start.toNat + e'.length.toNat)
  name_eq : e'.name = e.name
  type_eq : e'.type = e.type
  slot_eq : e'.slot = e.slot

/-- What has become of a table in the laid out body. -/
inductive TablePlaced (b : Body) : CodeTable → Option CodeTable → Prop
  | lines {es es' : List LineEntry} (h : List.Forall₂ b.LinePlaced es es') :
      TablePlaced b (.lines es) (some (.lines es'))
  | locals {es es' : List LocalEntry} (h : List.Forall₂ b.LocalPlaced es es') :
      TablePlaced b (.locals es) (some (.locals es'))
  | localTypes {es es' : List LocalEntry} (h : List.Forall₂ b.LocalPlaced es es') :
      TablePlaced b (.localTypes es) (some (.localTypes es'))
  | frames {fs fs' : List Frame} (h : b.FramesFollow fs fs') :
      TablePlaced b (.frames fs) (some (.frames fs'))
  | annotationsKept {info : List UInt8} (h : ¬b.Shifted) :
      TablePlaced b (.typeAnnotations info) (some (.typeAnnotations info))
  | annotationsDropped {info : List UInt8} (h : b.Shifted) :
      TablePlaced b (.typeAnnotations info) none
  | other {info : List UInt8} : TablePlaced b (.other info) (some (.other info))

/-- What has become of a named table: it keeps its name. -/
def NamedPlaced (b : Body) (t : NamedTable) (o : Option NamedTable) : Prop :=
  ∃ table, b.TablePlaced t.table table ∧ o = table.map fun t' => ⟨t.name, t'⟩

/-- The `Code` attribute `c` holds the guards and tables of the body in their new places, and its
nested attributes are taken apart again to just these tables. -/
structure PlacedIn (b : Body) (pool : Pool) (c : CodeAttribute) : Prop where
  guards : List.Forall₂ b.GuardPlaced b.guards c.guards
  tables : ∃ os, List.Forall₂ b.NamedPlaced b.tables os ∧
    c.attributes = (os.filterMap id).map NamedTable.toAttribute ∧
    c.attributes.mapM (NamedTable.decode pool) = .ok (os.filterMap id)

variable {b : Body}

theorem any_offsetPairs_iff : (b.offsetPairs.any fun x => x.1 ≠ x.2) = true ↔ b.Shifted := by
  simp only [List.any_eq_true, decide_eq_true_eq, Prod.exists, mem_offsetPairs, Shifted, ne_comm]

theorem toNat_stop {e : LocalEntry} (h : e.start.toNat + e.length.toNat ≤ 65535) :
    (UInt16.ofNat (e.start.toNat + e.length.toNat)).toNat = e.start.toNat + e.length.toNat :=
  UInt16.toNat_ofNat_of_lt' (by show _ < 65536; omega)

theorem moveLocal_eq_ok_iff {map : Nat → Option Nat} {user : OffsetUser} {e e' : LocalEntry} :
    moveLocal map user e = .ok e' ↔ e.start.toNat + e.length.toNat ≤ 65535 ∧ ∃ start stop,
      moveOffset16 map user e.start = .ok start ∧
      moveOffset16 map user (UInt16.ofNat (e.start.toNat + e.length.toNat)) = .ok stop ∧
      e' = { e with start, length := stop - start } := by
  unfold moveLocal
  dsimp only
  split
  · rename_i hlt
    constructor
    · intro h
      cases h
    · rintro ⟨hle, -⟩
      omega
  · rename_i hle
    simp only [bind_eq_ok]
    constructor
    · rintro ⟨start, hstart, stop, hstop, h⟩
      cases h
      exact ⟨by omega, start, stop, hstart, hstop, rfl⟩
    · rintro ⟨-, start, stop, hstart, hstop, rfl⟩
      exact ⟨start, hstart, stop, hstop, rfl⟩

section

variable (hb : b.Ordered) (hlen : b.length ≤ 65535)

include hb hlen

theorem linePlaced_of_moveLine {e e' : LineEntry}
    (h : moveLine (OffsetMap.ofPairs b.offsetPairs).get? e = .ok e') : b.LinePlaced e e' := by
  obtain ⟨start, hstart, h⟩ := bind_eq_ok.mp h
  cases h
  exact ⟨lands_of_moveOffset16 hb.anchored hlen hstart, rfl⟩

theorem localPlaced_of_moveLocal {user : OffsetUser} {e e' : LocalEntry}
    (h : moveLocal (OffsetMap.ofPairs b.offsetPairs).get? user e = .ok e') : b.LocalPlaced e e' := by
  obtain ⟨hfits, start, stop, hstart, hstop, rfl⟩ := moveLocal_eq_ok_iff.mp h
  have hstart := lands_of_moveOffset16 hb.anchored hlen hstart
  have hstop := lands_of_moveOffset16 hb.anchored hlen hstop
  rw [toNat_stop hfits] at hstop
  -- the ends have landed in their order, so that the length does not wrap around
  have hle : start.toNat ≤ stop.toNat := by
    have hlt := hb.lands_lt_iff hstop hstart
    omega
  have hlength : start.toNat + (stop - start).toNat = stop.toNat := by
    rw [UInt16.toNat_sub_of_le _ _ hle]
    exact Nat.add_sub_cancel' hle
  refine ⟨hfits, hstart, ?_, rfl, rfl, rfl⟩
  show b.Lands _ (start.toNat + (stop - start).toNat)
  rw [hlength]
  exact hstop

theorem tablePlaced_of_moveTable {t : CodeTable} {o : Option CodeTable} (hfits : t.Fits)
    (h : moveTable (OffsetMap.ofPairs b.offsetPairs).get? (b.offsetPairs.any fun x => x.1 ≠ x.2) t =
      .ok o) : b.TablePlaced t o := by
  cases t with
  | lines es =>
      obtain ⟨es', hes, rfl⟩ := map_eq_ok.mp h
      exact .lines ((mapM_eq_ok.mp hes).imp fun _ _ => linePlaced_of_moveLine hb hlen)
  | locals es =>
      obtain ⟨es', hes, rfl⟩ := map_eq_ok.mp h
      exact .locals ((mapM_eq_ok.mp hes).imp fun _ _ => localPlaced_of_moveLocal hb hlen)
  | localTypes es =>
      obtain ⟨es', hes, rfl⟩ := map_eq_ok.mp h
      exact .localTypes ((mapM_eq_ok.mp hes).imp fun _ _ => localPlaced_of_moveLocal hb hlen)
  | frames fs =>
      obtain ⟨fs', hfs, rfl⟩ := map_eq_ok.mp h
      exact .frames (framesFollow_of_moveFrames hb.anchored hlen hb hfits.2 hfs)
  | typeAnnotations info =>
      have hshifted := any_offsetPairs_iff (b := b)
      cases h
      split
      · rename_i hmoved
        exact .annotationsDropped (hshifted.mp hmoved)
      · rename_i hmoved
        exact .annotationsKept fun hs => hmoved (hshifted.mpr hs)
  | other info =>
      cases h
      exact .other

theorem namedPlaced_of_move {t : NamedTable} {o : Option NamedTable} (hfits : t.table.Fits)
    (h : moveNamedTable (OffsetMap.ofPairs b.offsetPairs).get?
      (b.offsetPairs.any fun x => x.1 ≠ x.2) t = .ok o) : b.NamedPlaced t o := by
  obtain ⟨table, htable, rfl⟩ := map_eq_ok.mp h
  exact ⟨table, tablePlaced_of_moveTable hb hlen hfits htable, rfl⟩

end

/-- What a revised body is laid out to holds its guards and tables in their new places. -/
theorem placedIn_of_encode {p : Instruction → Prop} {pool : Pool} {code c : CodeAttribute}
    {loaded : Body} (hload : Body.decode pool code = .ok loaded) (hrevised : Revised p loaded b)
    (henc : b.encode = .ok c) : b.PlacedIn pool c := by
  have hb := hrevised.ordered (ordered_of_decode hload)
  obtain ⟨hlen, _, guards, os, -, hguards, hos, rfl⟩ := encode_eq_ok_iff.mp henc
  obtain ⟨js, tables, -, htables, rfl⟩ := decode_eq_ok_iff.mp hload
  have hsame : b.tables = tables := congrArg Body.tables hrevised.eq
  have hload := mapM_eq_ok.mp htables
  have hmove := mapM_eq_ok.mp hos
  have hfits : ∀ t ∈ b.tables, t.table.Fits := by
    intro t ht
    rw [hsame] at ht
    obtain ⟨a, -, ha⟩ := exists_of_forall₂ hload.flip ht
    obtain ⟨table, htable, rfl⟩ := map_eq_ok.mp ha
    exact (CodeTable.of_decode htable).2.1
  constructor
  · exact (mapM_eq_ok.mp hguards).imp fun _ _ => guardPlaced_of_moveGuard hb.anchored hlen
  · refine ⟨os, ?_, rfl, ?_⟩
    · have hboth := (List.forall₂_and_left _ _).mpr ⟨hfits, hmove⟩
      exact hboth.imp fun _ _ h => namedPlaced_of_move hb hlen h.1 h.2
    · rw [hsame] at hmove
      apply NamedTable.mapM_decode_of_replaces
      refine forall₂_trans ?_ hload hmove
      exact fun _ _ _ ha ho => NamedTable.replaces_of_move (fun _ _ _ => Iff.rfl) ha ho

end Retrofit.Body
