import Retrofit.Body
import Retrofit.ClassFile
import Retrofit.Proofs.Pool.Growth

/-!
# Attribute names under growth

The loader tells attributes apart by name, through the pool. A pool that grows by other texts only
says the same about these names as before, so whatever was taken apart with the old pool is taken
apart in the same way with the new one.
-/

namespace Retrofit

theorem textOfBytes?_bytesOfText (t : String) : textOfBytes? (bytesOfText t) = some t := by
  have hbytes : (⟨(bytesOfText t).toArray⟩ : ByteArray) = t.toUTF8 := by
    rw [bytesOfText, Array.toArray_toList]
  rw [textOfBytes?, hbytes, String.fromUTF8?]
  exact dif_pos t.isValidUTF8

theorem bytesOfText_of_textOfBytes? {bs : List UInt8} {t : String} (h : textOfBytes? bs = some t) :
    bytesOfText t = bs := by
  unfold textOfBytes? String.fromUTF8? at h
  split at h
  · cases h
    rfl
  · cases h

theorem length_bytesOfText (t : String) : (bytesOfText t).length = t.utf8ByteSize := by
  simp [bytesOfText]

/-- The names of the nested attributes that are told apart. -/
def CodeTable.names : List String :=
  ["LineNumberTable", "LocalVariableTable", "LocalVariableTypeTable", "StackMapTable",
    "RuntimeVisibleTypeAnnotations", "RuntimeInvisibleTypeAnnotations"]

/-- The bytes of a text that can be written to a pool and does not name an attribute that is taken
apart. -/
structure PlainText (bs : List UInt8) : Prop where
  fits : bs.length < 65536
  not_name : ∀ t ∈ "Code" :: CodeTable.names, textOfBytes? bs ≠ some t

namespace Pool

/-- The pools name the same attributes. -/
def SameNames (p q : Pool) : Prop :=
  ∀ t ∈ "Code" :: CodeTable.names, ∀ i, q.text? i = some t ↔ p.text? i = some t

theorem Grows.sameNames {p q : Pool} (h : Grows (Constant.Interned PlainText) p q) :
    SameNames p q := by
  intro t ht i
  constructor
  · intro hi
    obtain hold | ⟨bs, hbs, htext⟩ := h.text?_or hi
    · exact hold
    · exact absurd htext (hbs.not_name t ht)
  · exact h.text?_eq

end Pool

/-- A nested attribute with any other name is not taken apart. -/
theorem CodeTable.decode_other {name : Option String} (h : ∀ t ∈ names, name ≠ some t)
    (info : List UInt8) : decode name info = .ok (other info) := by
  unfold decode
  split
  case h_7 => rfl
  all_goals
    apply absurd rfl
    apply h
    decide

theorem CodeTable.decode_congr {name name' : Option String}
    (h : ∀ t ∈ names, name' = some t ↔ name = some t) (info : List UInt8) :
    decode name' info = decode name info := by
  by_cases hname : ∃ t ∈ names, name = some t
  · obtain ⟨t, ht, hname⟩ := hname
    rw [(h t ht).mpr hname, hname]
  · have hnone : ∀ t ∈ names, name ≠ some t := fun t ht hname' => hname ⟨t, ht, hname'⟩
    rw [decode_other hnone, decode_other fun t ht hname' => hnone t ht ((h t ht).mp hname')]

namespace Pool.SameNames

variable {p q : Pool} (h : SameNames p q)

include h

theorem decodeTable_eq (a : Attribute) : NamedTable.decode q a = NamedTable.decode p a := by
  rw [NamedTable.decode, NamedTable.decode,
    CodeTable.decode_congr fun t ht => h t (List.mem_cons_of_mem _ ht) a.name]

theorem decodeBody_eq (c : CodeAttribute) : Body.decode q c = Body.decode p c := by
  have htables : NamedTable.decode q = NamedTable.decode p := funext h.decodeTable_eq
  rw [Body.decode, Body.decode, htables]

theorem attributePosition?_eq (m : Member) :
    m.attributePosition? q "Code" = m.attributePosition? p "Code" := by
  have htest : (fun a : Attribute => q.text? a.name == some "Code") =
      fun a => p.text? a.name == some "Code" := by
    funext a
    rw [Bool.eq_iff_iff, beq_iff_eq, beq_iff_eq]
    exact h "Code" List.mem_cons_self a.name
  rw [Member.attributePosition?, Member.attributePosition?, htest]

end Pool.SameNames

end Retrofit
