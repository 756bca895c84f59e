import Retrofit.Proofs.Body.ControlFlow
import Retrofit.Proofs.Body.Tables

/-!
# Bodies that were laid out are loaded again

However a loaded body was edited, the `Code` attribute it is laid out to can be loaded again, as long
as its guards and tables are the loaded ones and its nodes are instructions at distinct loaded
offsets or without one. The attribute is not much larger than the one that was loaded.
-/

namespace Retrofit

namespace CodeAttribute

theorem length_bytes (c : CodeAttribute) :
    c.bytes.length = 8 + c.code.length + (countedBytes Guard.bytes c.guards).length +
      (countedBytes Attribute.bytes c.attributes).length := by
  simp only [bytes, List.length_append, Bytes.length_ofUInt16, Bytes.length_ofUInt32]
  omega

/-- An attribute that is short enough as a whole holds no nested attribute that is too long. -/
theorem fits_of_length {c : CodeAttribute} (hlen : c.bytes.length < 2 ^ 32)
    (hguards : c.guards.length < 65536) (hattributes : c.attributes.length < 65536) : c.Fits := by
  rw [length_bytes] at hlen
  refine ⟨by omega, hguards, hattributes, fun a ha => ?_⟩
  have hle := length_le_flatMap Attribute.bytes ha
  rw [Attribute.length_bytes] at hle
  simp only [countedBytes, List.length_append] at hlen
  show a.info.length < 2 ^ 32
  omega

end CodeAttribute

namespace NamedTable

/-- A nested attribute and what is put in its place, if anything: it is taken apart again, and it has
not grown to more than three times its size. -/
def Replaces (q : Pool) (a : Attribute) (o : Option NamedTable) : Prop :=
  ∀ t ∈ o, decode q t.toAttribute = .ok t ∧ t.toAttribute.bytes.length ≤ 3 * a.bytes.length

theorem replaces_of_move {p q : Pool} (hnames : p.SameNames q) {map : Nat → Option Nat}
    {moved : Bool} {a : Attribute} {t : NamedTable} {o : Option NamedTable}
    (hload : decode p a = .ok t) (hmove : Body.moveNamedTable map moved t = .ok o) :
    Replaces q a o := by
  obtain ⟨table, htable, rfl⟩ := map_eq_ok.mp hload
  obtain ⟨o', ho', rfl⟩ := map_eq_ok.mp hmove
  rintro t' ht'
  obtain ⟨table', rfl, rfl⟩ := Option.map_eq_some_iff.mp ht'
  obtain ⟨hgoesBy, hfits, hle⟩ := CodeTable.of_decode htable
  have hmoved := CodeTable.moved_of_moveTable ho'
  have hle' : table'.info.length ≤ 3 * table.info.length := hmoved.length_le
  constructor
  · have hread := CodeTable.decode_info (hmoved.goesBy _ hgoesBy) (hmoved.fits hfits)
    rw [hnames.decodeTable_eq]
    exact map_eq_ok.mpr ⟨table', hread, rfl⟩
  · rw [Attribute.length_bytes, Attribute.length_bytes]
    show 6 + table'.info.length ≤ 3 * (6 + a.info.length)
    omega

section

variable {q : Pool} {as : List Attribute} {os : List (Option NamedTable)}
  (h : List.Forall₂ (Replaces q) as os)

include h

/-- All that was put in place is taken apart again. -/
theorem mapM_decode_of_replaces :
    ((os.filterMap id).map toAttribute).mapM (decode q) = .ok (os.filterMap id) := by
  rw [mapM_eq_ok, List.forall₂_map_left_iff, List.forall₂_same]
  induction h with
  | nil => simp
  | @cons a o as os ho _ ih =>
      cases o with
      | none => exact ih
      | some t =>
          have hcons : (some t :: os).filterMap id = t :: os.filterMap id := rfl
          rw [hcons, List.forall_mem_cons]
          exact ⟨(ho t rfl).1, ih⟩

theorem length_le_of_replaces : ((os.filterMap id).map toAttribute).length ≤ as.length := by
  rw [List.length_map, h.length_eq]
  exact List.length_filterMap_le id os

theorem length_countedBytes_le_of_replaces :
    (countedBytes Attribute.bytes ((os.filterMap id).map toAttribute)).length ≤
      3 * (countedBytes Attribute.bytes as).length := by
  have hitems : (((os.filterMap id).map toAttribute).flatMap Attribute.bytes).length ≤
      3 * (as.flatMap Attribute.bytes).length := by
    induction h with
    | nil => exact Nat.zero_le _
    | @cons a o as os ho _ ih =>
        rw [List.flatMap_cons, List.length_append]
        cases o with
        | none =>
            rw [List.filterMap_cons_none rfl]
            omega
        | some t =>
            have ht := (ho t rfl).2
            have hcons : (some t :: os).filterMap id = t :: os.filterMap id := rfl
            rw [hcons, List.map_cons, List.flatMap_cons, List.length_append]
            omega
  simp only [countedBytes, List.length_append, Bytes.length_ofUInt16]
  omega

end

end NamedTable

namespace Body

/-- The code of a sound body is read back from what it is laid out to. -/
theorem Sound.exists_decode {b : Body} {c : CodeAttribute} (h : b.Sound) (henc : b.encode = .ok c) :
    c.code.length ≤ 65535 ∧ ∃ l, Code.decode c.code = .ok l := by
  obtain ⟨is, hlaid, hcode⟩ := exists_laidOut h.anchored henc
  obtain ⟨hle, -⟩ := encode_eq_ok_iff.mp henc
  rw [hcode]
  refine ⟨?_, _, decode_of_laidOut hlaid h.wellFormed⟩
  rw [length_encode_of_laidOut hlaid]
  exact hle

/-- The loaded body `b₀` was edited to `b`, which is sound and has the same guards and tables. -/
structure EditedTo (b₀ b : Body) : Prop where
  sound : b.Sound
  guards_eq : b.guards = b₀.guards
  tables_eq : b.tables = b₀.tables

section

variable {p q : Pool} {code c : CodeAttribute} {b₀ b : Body} (hload : Body.decode p code = .ok b₀)
  (hedited : b₀.EditedTo b) (henc : b.encode = .ok c)

include hload hedited henc

theorem exists_replaces (hnames : p.SameNames q) :
    ∃ os, List.Forall₂ (NamedTable.Replaces q) code.attributes os ∧
      c.attributes = (os.filterMap id).map NamedTable.toAttribute := by
  obtain ⟨is, tables, -, htables, rfl⟩ := decode_eq_ok_iff.mp hload
  obtain ⟨-, is', guards, os, -, -, hos, rfl⟩ := encode_eq_ok_iff.mp henc
  rw [hedited.tables_eq] at hos
  refine ⟨os, forall₂_trans ?_ (mapM_eq_ok.mp htables) (mapM_eq_ok.mp hos), rfl⟩
  exact fun a t o ha ho => NamedTable.replaces_of_move hnames ha ho

theorem guards_of_encode : (code.guards.length < 65536 → c.guards.length < 65536) ∧
    (countedBytes Guard.bytes c.guards).length ≤ 3 * (countedBytes Guard.bytes code.guards).length := by
  obtain ⟨is, tables, -, -, rfl⟩ := decode_eq_ok_iff.mp hload
  obtain ⟨-, is', guards, os, -, hguards, -, rfl⟩ := encode_eq_ok_iff.mp henc
  rw [hedited.guards_eq] at hguards
  have hguard (g : Guard) : g.bytes.length = 8 := by simp [Guard.bytes]
  exact CodeTable.moved_of_mapM hguard hguards

/-- What an edited body is laid out to is loaded again, with any pool that names the same attributes. -/
theorem exists_decode_of_encode (hnames : p.SameNames q) : ∃ b', Body.decode q c = .ok b' := by
  obtain ⟨-, l, hl⟩ := hedited.sound.exists_decode henc
  obtain ⟨os, hos, hattributes⟩ := exists_replaces hload hedited henc hnames
  have htables := NamedTable.mapM_decode_of_replaces hos
  rw [← hattributes] at htables
  exact ⟨_, bind_eq_ok.mpr ⟨l, hl, bind_eq_ok.mpr ⟨_, htables, rfl⟩⟩⟩

/-- What an edited body is laid out to is at most three times as long as what was loaded, but for the
instructions. -/
theorem length_bytes_le_of_encode : c.bytes.length ≤ 65535 + 3 * code.bytes.length := by
  obtain ⟨hcode, -⟩ := hedited.sound.exists_decode henc
  obtain ⟨-, hguards⟩ := guards_of_encode hload hedited henc
  obtain ⟨os, hos, hattributes⟩ := exists_replaces (q := p) hload hedited henc fun _ _ _ => Iff.rfl
  have hle := NamedTable.length_countedBytes_le_of_replaces hos
  rw [← hattributes] at hle
  rw [CodeAttribute.length_bytes, CodeAttribute.length_bytes]
  omega

/-- What an edited body is laid out to fits its counts, and its lengths if it is short enough. -/
theorem fits_of_encode (hfits : code.Fits) (hlen : c.bytes.length < 2 ^ 32) : c.Fits := by
  obtain ⟨hguards, -⟩ := guards_of_encode hload hedited henc
  obtain ⟨os, hos, hattributes⟩ := exists_replaces (q := p) hload hedited henc fun _ _ _ => Iff.rfl
  have hle := NamedTable.length_le_of_replaces hos
  rw [← hattributes] at hle
  exact CodeAttribute.fits_of_length hlen (hguards hfits.guards)
    (Nat.lt_of_le_of_lt hle hfits.attributes)

end

end Body

end Retrofit
