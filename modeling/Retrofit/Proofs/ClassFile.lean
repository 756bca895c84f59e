import Mathlib
import Retrofit.ClassFile
import Retrofit.Proofs.Attribute
import Retrofit.Proofs.Pool.Codec

/-!
# Class files and their bytes

A class file is read back from its bytes if its pool can be written and every list and run of bytes
fits the count or length before it. What was read fits, except that its pool may have slots without a
constant.
-/

namespace Retrofit

open Reader

namespace Member

/-- The attributes fit their count, and each its length. -/
structure Fits (m : Member) : Prop where
  attributes : m.attributes.length < 65536
  fits : ∀ a ∈ m.attributes, a.Fits

theorem takes {m : Member} (h : m.Fits) : Takes read m.bytes m := by
  have hattributes := takes_counted (fun a ha => Attribute.takes (h.fits a ha)) h.attributes
  exact (takes_u16 m.access).bind ((takes_u16 m.name).bind ((takes_u16 m.descriptor).bind
    (hattributes.map (Member.mk m.access m.name m.descriptor))))

theorem givesBack : GivesBack read bytes Fits := by
  refine (givesBack_u16.bind fun access => givesBack_u16.bind fun name =>
    givesBack_u16.bind fun descriptor => (givesBack_counted Attribute.givesBack).map
      (Member.mk access name descriptor)).mono ?_
  rintro _ _ ⟨_, access, _, rfl, ⟨rfl, -⟩, _, name, _, rfl, ⟨rfl, -⟩, _, descriptor, _, rfl,
    ⟨rfl, -⟩, attributes, rfl, rfl, hattributes, hfits⟩
  exact ⟨rfl, hattributes, hfits⟩

/-- The content of an attribute is no longer than the members it is in. -/
theorem length_info_le {ms : List Member} {m : Member} (hm : m ∈ ms) {a : Attribute}
    (ha : a ∈ m.attributes) : a.info.length ≤ (ms.flatMap bytes).length := by
  have hmember := length_le_flatMap bytes hm
  have hattribute := length_le_flatMap Attribute.bytes ha
  rw [Attribute.length_bytes] at hattribute
  simp only [bytes, countedBytes, List.length_append] at hmember
  omega

end Member

namespace ClassFile

/-- The lists fit their counts, and what is in them fits as well. -/
structure Fits (c : ClassFile) : Prop where
  interfaces : c.interfaces.length < 65536
  fields : c.fields.length < 65536 ∧ ∀ m ∈ c.fields, m.Fits
  methods : c.methods.length < 65536 ∧ ∀ m ∈ c.methods, m.Fits
  attributes : c.attributes.length < 65536 ∧ ∀ a ∈ c.attributes, a.Fits

theorem takes {c : ClassFile} (hpool : c.pool.Fits) (h : c.Fits) : Takes read c.bytes c := by
  have hinterfaces := takes_counted (fun i _ => takes_u16 i) h.interfaces
  have hfields := takes_counted (fun m hm => Member.takes (h.fields.2 m hm)) h.fields.1
  have hmethods := takes_counted (fun m hm => Member.takes (h.methods.2 m hm)) h.methods.1
  have hattributes := takes_counted (fun a ha => Attribute.takes (h.attributes.2 a ha))
    h.attributes.1
  refine (takes_u32 magic).bind ?_
  rw [if_neg (by simp)]
  exact (takes_u16 c.minor).bind ((takes_u16 c.major).bind ((Pool.takes hpool).bind
    ((takes_u16 c.access).bind ((takes_u16 c.thisClass).bind ((takes_u16 c.superClass).bind
      (hinterfaces.bind (hfields.bind (hmethods.bind (hattributes.map
        (ClassFile.mk c.minor c.major c.pool c.access c.thisClass c.superClass c.interfaces c.fields
          c.methods))))))))))

/-- The bytes in front of the entries of the pool. -/
def front (c : ClassFile) : List UInt8 :=
  Bytes.ofUInt32 magic ++ (Bytes.ofUInt16 c.minor ++ (Bytes.ofUInt16 c.major ++
    Bytes.ofUInt16 c.pool.statedSize))

/-- The bytes behind the entries of the pool. -/
def back (c : ClassFile) : List UInt8 :=
  Bytes.ofUInt16 c.access ++ (Bytes.ofUInt16 c.thisClass ++ (Bytes.ofUInt16 c.superClass ++
    (countedBytes Bytes.ofUInt16 c.interfaces ++ (countedBytes Member.bytes c.fields ++
      (countedBytes Member.bytes c.methods ++ countedBytes Attribute.bytes c.attributes)))))

theorem bytes_eq (c : ClassFile) :
    c.bytes = c.front ++ (c.pool.entries.toList.flatMap Constant.bytes ++ c.back) := by
  simp only [bytes, Pool.bytes, front, back, List.append_assoc]

/-- What was read fits, and was taken from its bytes with some spelling of its pool. -/
theorem gives_spelled :
    Gives read fun bs c => c.Fits ∧ ∃ entries, Pool.Spells entries c.pool.entries.toList ∧
      bs = c.front ++ (entries ++ c.back) := by
  refine (givesBack_u32.bind fun mark => (?_ : Gives _ fun bs c => mark = magic ∧ c.Fits ∧
    ∃ entries, Pool.Spells entries c.pool.entries.toList ∧
      Bytes.ofUInt32 magic ++ bs = c.front ++ (entries ++ c.back))).mono ?_
  · split
    · intro s c s' h
      cases h
    · rename_i hmark
      refine (givesBack_u16.bind fun minor => givesBack_u16.bind fun major =>
        Pool.gives_read.bind fun pool => givesBack_u16.bind fun access =>
          givesBack_u16.bind fun thisClass => givesBack_u16.bind fun superClass =>
            (givesBack_counted givesBack_u16).bind fun interfaces =>
              (givesBack_counted Member.givesBack).bind fun fields =>
                (givesBack_counted Member.givesBack).bind fun methods =>
                  (givesBack_counted Attribute.givesBack).map (ClassFile.mk minor major pool access
                    thisClass superClass interfaces fields methods)).mono ?_
      rintro _ _ ⟨_, minor, _, rfl, ⟨rfl, -⟩, _, major, _, rfl, ⟨rfl, -⟩, _, pool, _, rfl,
        ⟨entries, rfl, hpool⟩, _, access, _, rfl, ⟨rfl, -⟩, _, thisClass, _, rfl, ⟨rfl, -⟩, _,
        superClass, _, rfl, ⟨rfl, -⟩, _, interfaces, _, rfl, ⟨rfl, hinterfaces, -⟩, _, fields, _,
        rfl, ⟨rfl, hfields⟩, _, methods, _, rfl, ⟨rfl, hmethods⟩, attributes, rfl, rfl, hattributes⟩
      refine ⟨not_not.mp hmark, ⟨hinterfaces, hfields, hmethods, hattributes⟩, entries, hpool, ?_⟩
      simp only [front, back, List.append_assoc]
  · rintro _ c ⟨_, mark, _, rfl, ⟨rfl, -⟩, rfl, h⟩
    exact h

/-- What was read fits, bytes spell its pool, and its methods are no longer than what was read. -/
theorem gives_read :
    Gives read fun bs c => c.Fits ∧ (∃ bs', Pool.Spells bs' c.pool.entries.toList) ∧
      (c.methods.flatMap Member.bytes).length ≤ bs.length := by
  refine gives_spelled.mono ?_
  rintro _ c ⟨hfits, entries, hpool, rfl⟩
  refine ⟨hfits, ⟨entries, hpool⟩, ?_⟩
  simp only [back, countedBytes, List.length_append]
  omega

/-! ### Writing what was read -/

/-- A class file is written as what it was read from, but for the tags of slots without a constant
that do not belong to a long or double. So the same bytes come back exactly if there is no such
slot. -/
theorem bytes_of_read {bytes : List UInt8} {c : ClassFile} {rest : Input}
    (h : read ⟨0, bytes⟩ = .ok (c, rest)) :
    bytes = bytes.take rest.offset ++ rest.rest ∧
      (∃ entries, Pool.Spells entries c.pool.entries.toList ∧
        bytes.take rest.offset = c.front ++ (entries ++ c.back) ∧
        c.bytes = c.front ++ (c.pool.entries.toList.flatMap Constant.bytes ++ c.back)) ∧
      (bytes.take rest.offset).length + c.pool.entries.toList.countP Constant.isWide =
        c.bytes.length + c.pool.entries.toList.count .unusable ∧
      (c.bytes = bytes.take rest.offset ↔ NoEmptySlot c.pool.entries.toList) := by
  obtain ⟨bs, hbytes, hoffset, -, entries, hpool, rfl⟩ := gives_spelled _ _ _ h
  dsimp only at hbytes hoffset
  rw [Nat.zero_add] at hoffset
  have htake : bytes.take rest.offset = c.front ++ (entries ++ c.back) := by
    rw [hbytes, hoffset, List.take_left]
  rw [htake]
  refine ⟨hbytes, ⟨entries, hpool, rfl, c.bytes_eq⟩, ?_, ?_⟩
  · have hcount := hpool.length_add_countP
    simp only [bytes_eq, List.length_append]
    omega
  · rw [bytes_eq, List.append_cancel_left_eq, List.append_cancel_right_eq, hpool.bytes_eq_iff]

/-- A class file with a double in the last slot that its stated size leaves. -/
def brimming : ClassFile where
  minor := 0
  major := 53
  pool := ⟨4, #[.utf8 [88], .classInfo 1, .double 0x3fe0000000000000, .unusable]⟩
  access := 1
  thisClass := 2
  superClass := 0
  interfaces := []
  fields := []
  methods := []
  attributes := []

/-- The second slot of the double is not written, and the byte behind the class file is not read. -/
theorem bytes_of_read_brimming : ∃ rest, read ⟨0, brimming.bytes ++ [0]⟩ = .ok (brimming, rest) ∧
    rest.rest = [0] ∧ brimming.bytes = (brimming.bytes ++ [0]).take rest.offset := by
  have hread : read ⟨0, brimming.bytes ++ [0]⟩ = .ok (brimming, ⟨40, [0]⟩) := by cbv
  refine ⟨_, hread, rfl, (bytes_of_read hread).2.2.2.mpr ?_⟩
  exact (noEmptySlot_cons rfl).mpr ⟨by simp, (noEmptySlot_cons rfl).mpr ⟨by simp,
    (noEmptySlot_cons_wide rfl).mpr noEmptySlot_nil⟩⟩

/-- A class file whose last slot has the tag of a slot without a constant. -/
def hollow : List UInt8 :=
  [0xca, 0xfe, 0xba, 0xbe, 0, 0, 0, 53, 0, 4, 1, 0, 1, 88, 7, 0, 1, 0, 0, 1, 0, 2, 0, 0, 0, 0, 0, 0,
    0, 0, 0, 0]

/-- The tag is read, and not written again. -/
theorem bytes_of_read_loses_tag : ∃ c rest, read ⟨0, hollow⟩ = .ok (c, rest) ∧
    rest.rest = [] ∧ c.pool.entries = #[.utf8 [88], .classInfo 1, .unusable] ∧
    c.bytes ≠ hollow.take rest.offset := by
  refine ⟨⟨0, 53, ⟨4, #[.utf8 [88], .classInfo 1, .unusable]⟩, 1, 2, 0, [], [], [], []⟩, ⟨32, []⟩,
    by cbv, rfl, rfl, by decide⟩

/-! ### Reading what was written -/

/-- A class file that fits is read back from its bytes as it was, each constant at its index.
Nothing of its bytes is left over, and nothing behind them is looked at. -/
theorem read_of_bytes {c : ClassFile} (hpool : c.pool.WellFormed) (h : c.Fits) :
    read ⟨0, c.bytes⟩ = .ok (c, ⟨c.bytes.length, []⟩) ∧
      ∀ offset rest, read ⟨offset, c.bytes ++ rest⟩ = .ok (c, ⟨offset + c.bytes.length, rest⟩) := by
  have htakes := takes hpool.fits h
  have hall := htakes 0 []
  rw [List.append_nil, Nat.zero_add] at hall
  exact ⟨hall, htakes⟩

/-- A class file with constants of two slots in the middle and at the end of its pool, and with
members and attributes. -/
def crowded : ClassFile where
  minor := 3
  major := 45
  pool :=
    { statedSize := 9
      entries := #[.utf8 [88], .long (-2), .unusable, .classInfo 1, .methodHandle 6 4, .utf8 [],
        .double 0x7ff0000000000001, .unusable] }
  access := 0x8421
  thisClass := 4
  superClass := 4
  interfaces := [4, 4]
  fields := [⟨25, 1, 6, [⟨6, [1, 2, 3]⟩]⟩]
  methods := [⟨1, 1, 6, []⟩, ⟨0xffff, 6, 1, [⟨1, []⟩, ⟨6, [0]⟩]⟩]
  attributes := [⟨1, [0xca, 0xfe]⟩]

theorem read_of_bytes_crowded : crowded.pool.WellFormed ∧ crowded.Fits ∧
    read ⟨0, crowded.bytes⟩ = .ok (crowded, ⟨crowded.bytes.length, []⟩) := by
  have hslots : Slots crowded.pool.entries.toList :=
    .narrow rfl (by simp) (by simp [Constant.Fits]) (.wide rfl (.narrow rfl (by simp) trivial
      (.narrow rfl (by simp) trivial (.narrow rfl (by simp) (by simp [Constant.Fits])
        (.wide rfl .nil)))))
  obtain ⟨hfilled, hempty, htexts⟩ := slots_iff.mp hslots
  have hpool : crowded.pool.WellFormed := ⟨hfilled, hempty, htexts, rfl⟩
  have hmember : ∀ m ∈ crowded.fields ++ crowded.methods, m.Fits := by
    intro m hm
    simp only [crowded, List.cons_append, List.nil_append, List.mem_cons, List.not_mem_nil,
      or_false] at hm
    rcases hm with rfl | rfl | rfl <;> exact ⟨by simp, by simp [Attribute.Fits]⟩
  have hfits : crowded.Fits :=
    ⟨by simp [crowded], ⟨by simp [crowded], fun m hm => hmember m (List.mem_append_left _ hm)⟩,
      ⟨by simp [crowded], fun m hm => hmember m (List.mem_append_right _ hm)⟩,
      ⟨by simp [crowded], by simp [crowded, Attribute.Fits]⟩⟩
  exact ⟨hpool, hfits, (read_of_bytes hpool hfits).1⟩

end ClassFile

end Retrofit
