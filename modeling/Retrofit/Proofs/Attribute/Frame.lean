import Retrofit.Attribute.Frame
import Retrofit.Proofs.Attribute

/-!
# Frames and their bytes

A frame is read back from its bytes if it lists as many types as its shape can hold: one to three for
an appending frame, and for a full one as many as a count can say. Every frame that was read does,
and moving it or replacing its types leaves that so.
-/

namespace Retrofit

open Reader

namespace VerificationType

theorem takes (t : VerificationType) : Takes read t.bytes t := by
  cases t with
  | object type => exact (takes_u8 7).bind ((takes_u16 type).map object)
  | uninitialized offset => exact (takes_u8 8).bind ((takes_u16 offset).map uninitialized)
  | _ => exact (takes_u8 _).bind (Takes.pure _)

theorem givesBack : GivesBack read bytes fun _ => True := by
  refine (givesBack_u8.bind fun tag => (?_ : Gives _ fun bs t => tag :: bs = t.bytes)).mono ?_
  · unfold readPayload
    split
    case h_8 =>
      refine (givesBack_u16.map object).mono ?_
      rintro _ _ ⟨type, rfl, rfl, -⟩
      rfl
    case h_9 =>
      refine (givesBack_u16.map uninitialized).mono ?_
      rintro _ _ ⟨offset, rfl, rfl, -⟩
      rfl
    case h_10 => exact Gives.fail _ _
    all_goals
      refine (Gives.pure _).mono ?_
      rintro _ _ ⟨rfl, rfl⟩
      rfl
  · rintro _ t ⟨_, tag, _, rfl, ⟨rfl, -⟩, h⟩
    exact ⟨h, trivial⟩

end VerificationType

namespace Frame

/-- The frame lists as many types as its shape can hold. -/
def Fits : Frame → Prop
  | append _ locals => 1 ≤ locals.length ∧ locals.length ≤ 3
  | full _ locals stack => locals.length < 65536 ∧ stack.length < 65536
  | _ => True

theorem takes_types (ts : List VerificationType) :
    Takes (many ts.length VerificationType.read) (ts.flatMap VerificationType.bytes) ts :=
  Takes.many fun t _ => t.takes

theorem takes_counted_types {ts : List VerificationType} (h : ts.length < 65536) :
    Takes (counted VerificationType.read) (countedBytes VerificationType.bytes ts) ts :=
  takes_counted (fun t _ => t.takes) h

theorem toNat_typeByte {n : Nat} (h : n < 256) : (UInt8.ofNat n).toNat = n :=
  UInt8.toNat_ofNat_of_lt' h

theorem takes_readPayload_same (delta : Fin 64) :
    Takes (readPayload (same delta).typeByte) [] (same delta) := by
  have hbyte : (same delta).typeByte.toNat = delta := toNat_typeByte (by omega)
  have hlt : (same delta).typeByte.toNat < 64 := by omega
  have hsame : same ⟨_, hlt⟩ = same delta := congrArg same (Fin.ext hbyte)
  unfold readPayload
  rw [dif_pos hlt, hsame]
  exact Takes.pure _

theorem takes_readPayload_sameItem (delta : Fin 64) (item : VerificationType) :
    Takes (readPayload (sameItem delta item).typeByte) item.bytes (sameItem delta item) := by
  have hbyte : (sameItem delta item).typeByte.toNat = 64 + delta := toNat_typeByte (by omega)
  have hge : ¬(sameItem delta item).typeByte.toNat < 64 := by omega
  have hlt : (sameItem delta item).typeByte.toNat - 64 < 64 := by omega
  have hsame : sameItem ⟨_, hlt⟩ = sameItem delta := by
    congr 1
    apply Fin.ext
    show (sameItem delta item).typeByte.toNat - 64 = delta
    omega
  unfold readPayload
  rw [dif_neg hge, dif_pos hlt, hsame]
  exact item.takes.map (sameItem delta)

/-- A frame is read back from its bytes. -/
theorem takes {f : Frame} (h : f.Fits) : Takes read f.bytes f := by
  refine (takes_u8 f.typeByte).bind (Takes.blame _ ?_)
  cases f with
  | same delta => exact takes_readPayload_same delta
  | sameItem delta item => exact takes_readPayload_sameItem delta item
  | sameItemExtended delta item => exact (takes_u16 delta).bind (item.takes.map _)
  | chop less delta =>
      match less with
      | 0 => exact (takes_u16 delta).map (chop 0)
      | 1 => exact (takes_u16 delta).map (chop 1)
      | 2 => exact (takes_u16 delta).map (chop 2)
  | sameExtended delta => exact (takes_u16 delta).map sameExtended
  | append delta locals =>
      obtain ⟨hpos, hle⟩ := h
      have htypes := takes_types locals
      rw [typeByte]
      obtain hlen | hlen | hlen : locals.length = 1 ∨ locals.length = 2 ∨ locals.length = 3 := by
        omega
      all_goals
        rw [hlen] at htypes ⊢
        exact (takes_u16 delta).bind (htypes.map (append delta))
  | full delta locals stack =>
      exact (takes_u16 delta).bind ((takes_counted_types h.1).bind
        ((takes_counted_types h.2).map (full delta locals)))

/-- Above the type bytes of the shapes without a list. -/
theorem le_toNat_of_not_short {type : UInt8} (hlt : ¬type < 247) (hitem : ¬type = 247)
    (hchop : ¬(250 - type.toNat < 3 ∧ type ≤ 250)) (hsame : ¬type = 251) : 252 ≤ type.toNat := by
  have hlt : ¬type.toNat < 247 := hlt
  have hitem : ¬type.toNat = 247 := fun h => hitem (UInt8.toNat_inj.mp h)
  have hchop : ¬(250 - type.toNat < 3 ∧ type.toNat ≤ 250) := hchop
  have hsame : ¬type.toNat = 251 := fun h => hsame (UInt8.toNat_inj.mp h)
  omega

theorem gives_readPayload (type : UInt8) :
    Gives (readPayload type) fun bs f => type :: bs = f.bytes ∧ f.Fits := by
  have htype := type.toNat_lt
  unfold readPayload
  split
  · rename_i hlt
    refine (Gives.pure _).mono ?_
    rintro _ _ ⟨rfl, rfl⟩
    refine ⟨?_, trivial⟩
    rw [bytes, typeByte, UInt8.ofNat_toNat]
  split
  · rename_i hge hlt
    refine (VerificationType.givesBack.map _).mono ?_
    rintro _ _ ⟨item, rfl, rfl, -⟩
    have hbyte : 64 + (type.toNat - 64) = type.toNat := by omega
    refine ⟨?_, trivial⟩
    rw [bytes, typeByte, hbyte, UInt8.ofNat_toNat]
  split
  · exact Gives.fail _ _
  rename_i hlow
  split
  · rename_i h
    subst h
    refine (givesBack_u16.bind fun delta => VerificationType.givesBack.map _).mono ?_
    rintro _ _ ⟨_, delta, _, rfl, ⟨rfl, -⟩, item, rfl, rfl, -⟩
    exact ⟨rfl, trivial⟩
  rename_i hitem
  split
  · rename_i hchop
    refine (givesBack_u16.map _).mono ?_
    rintro _ _ ⟨delta, rfl, rfl, -⟩
    refine ⟨?_, trivial⟩
    have hle : type.toNat ≤ 250 := hchop.2
    have hbyte : 250 - (250 - type.toNat) = type.toNat := by omega
    rw [bytes, typeByte, hbyte, UInt8.ofNat_toNat]
  rename_i hchop
  split
  · rename_i h
    subst h
    refine (givesBack_u16.map _).mono ?_
    rintro _ _ ⟨delta, rfl, rfl, -⟩
    exact ⟨rfl, trivial⟩
  rename_i hsame
  have hlist := le_toNat_of_not_short hlow hitem hchop hsame
  split
  · rename_i h
    have hlast : type.toNat < 255 := h
    refine (givesBack_u16.bind fun delta =>
      (VerificationType.givesBack.many (type.toNat - 251)).map (append delta)).mono ?_
    rintro _ _ ⟨_, delta, _, rfl, ⟨rfl, -⟩, locals, rfl, rfl, hlen, -⟩
    have hbyte : 251 + locals.length = type.toNat := by omega
    refine ⟨?_, by omega, by omega⟩
    rw [bytes, typeByte, hbyte, UInt8.ofNat_toNat]
  · rename_i h
    have hlast : ¬type.toNat < 255 := h
    refine (givesBack_u16.bind fun delta => (givesBack_counted VerificationType.givesBack).bind
      fun locals => (givesBack_counted VerificationType.givesBack).map (full delta locals)).mono ?_
    rintro _ _ ⟨_, delta, _, rfl, ⟨rfl, -⟩, _, locals, _, rfl, ⟨rfl, hlocals, -⟩, stack, rfl, rfl,
      hstack, -⟩
    have hbyte : type = 255 := by
      apply UInt8.toNat_inj.mp
      show type.toNat = 255
      omega
    exact ⟨by rw [hbyte]; rfl, hlocals, hstack⟩

theorem givesBack : GivesBack read bytes Fits := by
  refine (givesBack_u8.bind fun type => (gives_readPayload type).blame _).mono ?_
  rintro _ f ⟨_, type, _, rfl, ⟨rfl, -⟩, h⟩
  exact h

end Frame

end Retrofit
