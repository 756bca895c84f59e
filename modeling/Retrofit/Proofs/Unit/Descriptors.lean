import Mathlib.Data.String.Basic
import Retrofit.Proofs.CallSite
import Retrofit.Proofs.ClassFile
import Retrofit.Proofs.Descriptor
import Retrofit.Proofs.Unit.Loading

/-!
# Descriptors of loaded classes

A text of a class file stands behind its length in 16 bits. So the descriptor of a call in a loaded
class has at most 65535 bytes, and as every parameter takes at least one character of it, and a
reference at least two, the number of parameters fits into 16 bits, and that of references into 15.
-/

namespace Retrofit

/-! ### Characters and bytes -/

theorem length_le_utf8Len (cs : List Char) : cs.length ≤ String.utf8Len cs := by
  induction cs with
  | nil => exact Nat.zero_le _
  | cons c cs ih =>
      have hpos := c.utf8Size_pos
      rw [List.length_cons, String.utf8Len_cons]
      omega

theorem length_toList_le (t : String) : t.toList.length ≤ t.utf8ByteSize := by
  rw [← String.utf8Len_toList]
  exact length_le_utf8Len _

/-! ### Parameters of a descriptor -/

namespace FieldType

theorem two_le_width {t : FieldType} (h : t.isReference = true) : 2 ≤ t.width := by
  cases t with
  | reference name => exact Nat.le_add_left _ _
  | array element => exact Nat.succ_le_succ element.width_pos
  | _ => cases h

/-- Types that are no narrower than the bound are no more than their descriptors have room for. -/
theorem mul_length_le {bound : Nat} {ts : List FieldType} (h : ∀ t ∈ ts, bound ≤ t.width) :
    bound * ts.length ≤ (renderAll ts).length := by
  induction ts with
  | nil => exact Nat.le_refl _
  | cons t ts ih =>
      obtain ⟨ht, hts⟩ := List.forall_mem_cons.mp h
      have hrest := ih hts
      rw [renderAll_cons, List.length_append, length_render, List.length_cons, Nat.mul_succ]
      omega

end FieldType

namespace MethodType

open FieldType (renderAll)

variable {text : String} {t : MethodType}

/-- The parameters are taken from behind the opening bracket. -/
theorem length_renderAll_lt (h : parse? text = some t) :
    (renderAll t.params).length < text.toList.length := by
  obtain ⟨-, front, -, htext, hends⟩ := parse?_eq_some_iff.mp h
  rw [htext]
  rcases hends with hends | hends <;> simp [hends]

/-- A descriptor has fewer parameters than bytes, and fewer than half as many references. -/
theorem mul_length_params_lt {bound : Nat} (h : parse? text = some t)
    (hbound : ∀ p ∈ t.params, bound ≤ p.width) : bound * t.params.length < text.utf8ByteSize :=
  calc bound * t.params.length ≤ (renderAll t.params).length := FieldType.mul_length_le hbound
    _ < text.toList.length := length_renderAll_lt h
    _ ≤ text.utf8ByteSize := length_toList_le text

end MethodType

/-! ### Texts of a pool -/

namespace Pool

variable {p : Pool} (hp : ∀ c ∈ p.entries, c.Fits)

include hp

theorem utf8ByteSize_text?_le {i : UInt16} {t : String} (h : p.text? i = some t) :
    t.utf8ByteSize ≤ 65535 := by
  unfold text? at h
  split at h
  · rename_i bs hbs
    unfold constant? at hbs
    split at hbs
    · cases hbs
    · have hfits : bs.length < 65536 := hp _ (Array.mem_of_getElem? hbs)
      rw [← length_bytesOfText, bytesOfText_of_textOfBytes? h]
      omega
  · cases h

theorem utf8ByteSize_descriptor_le {i : UInt16} {m : MemberRef} (h : p.member? i = some m) :
    m.descriptor.utf8ByteSize ≤ 65535 := by
  have hresolve {owner nt : UInt16} {interface : Bool}
      (h : member?.resolve p owner nt interface = some m) : m.descriptor.utf8ByteSize ≤ 65535 := by
    unfold member?.resolve nameAndType? at h
    simp only [Option.bind_eq_bind, Option.bind_eq_some_iff] at h
    obtain ⟨_, -, x, hx, h⟩ := h
    split at hx
    · simp only [Option.bind_eq_some_iff] at hx
      obtain ⟨n, -, d, hd, hx⟩ := hx
      cases hx
      cases h
      exact utf8ByteSize_text?_le hp hd
    · cases hx
  unfold member? at h
  split at h
  case h_4 => cases h
  all_goals exact hresolve h

end Pool

/-! ### Calls in a loaded class -/

namespace ClassUnit

variable {bytes : List UInt8} {u : ClassUnit}

theorem fits_of_ofBytes (h : ofBytes bytes = .ok u) : ∀ c ∈ u.pool.entries, c.Fits := by
  obtain ⟨_, _, -, -, ⟨_, hspells⟩, -⟩ := ClassFile.gives_read.run (loads_of_ofBytes h).file
  exact fun c hc => hspells.fits c (Array.mem_toList_iff.mpr hc)

variable {t : Target} {s : CallSite} (hload : ofBytes bytes = .ok u)
  (hs : s ∈ Target.sites (t.scan u))

include hload hs

theorem utf8ByteSize_descriptor_le : s.descriptor.utf8ByteSize ≤ 65535 := by
  obtain ⟨c, hdescribes⟩ := Target.describes_of_mem_sites hs
  obtain ⟨interface, hmember⟩ := hdescribes.member
  exact u.pool.utf8ByteSize_descriptor_le (fits_of_ofBytes hload) hmember

/-- The number of parameters fits into 16 bits. -/
theorem length_params_lt : s.type.params.length < 65535 := by
  obtain ⟨c, hdescribes⟩ := Target.describes_of_mem_sites hs
  have hlt := MethodType.mul_length_params_lt hdescribes.type fun p _ => p.width_pos
  have hle := utf8ByteSize_descriptor_le hload hs
  omega

/-- The number of references fits into 15 bits. -/
theorem length_params_le_of_references (h : ∀ p ∈ s.type.params, p.isReference = true) :
    s.type.params.length ≤ 32767 := by
  obtain ⟨c, hdescribes⟩ := Target.describes_of_mem_sites hs
  have hlt := MethodType.mul_length_params_lt hdescribes.type
    fun p hp => FieldType.two_le_width (h p hp)
  have hle := utf8ByteSize_descriptor_le hload hs
  omega

end ClassUnit

end Retrofit
