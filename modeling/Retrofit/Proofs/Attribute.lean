import Retrofit.Attribute.Code
import Retrofit.Proofs.Lists
import Retrofit.Proofs.Reading

/-!
# Attributes and their bytes

Attributes and the tables of code positions are read back from the bytes they are written as, as long
as every list fits its count and every run of bytes fits its length. Whatever was read fits, and is
written as the bytes that were taken.
-/

namespace Retrofit

namespace Reader

variable {α : Type} {p : Reader α} {enc : α → List UInt8}

theorem takes_counted {xs : List α} (hp : ∀ x ∈ xs, Takes p (enc x) x) (h : xs.length < 65536) :
    Takes (counted p) (countedBytes enc xs) xs := by
  have hcount : (UInt16.ofNat xs.length).toNat = xs.length := UInt16.toNat_ofNat_of_lt' h
  have hmany := Takes.many hp
  rw [← hcount] at hmany
  exact (takes_u16 _).bind hmany

theorem givesBack_counted {P : α → Prop} (hp : GivesBack p enc P) :
    GivesBack (counted p) (countedBytes enc) fun xs => xs.length < 65536 ∧ ∀ x ∈ xs, P x := by
  refine (givesBack_u16.bind fun n => hp.many n.toNat).mono ?_
  rintro _ xs ⟨_, n, _, rfl, ⟨rfl, -⟩, rfl, hlen, hxs⟩
  have hn : UInt16.ofNat xs.length = n := by rw [hlen, UInt16.ofNat_toNat]
  refine ⟨by rw [countedBytes, hn], ?_, hxs⟩
  rw [hlen]
  exact n.toNat_lt

end Reader

open Reader

namespace Attribute

theorem length_bytes (a : Attribute) : a.bytes.length = 6 + a.info.length := by
  simp only [bytes, List.length_append, Bytes.length_ofUInt16, Bytes.length_ofUInt32]
  omega

/-- The content fits its 32-bit length. -/
def Fits (a : Attribute) : Prop := a.info.length < 2 ^ 32

theorem takes {a : Attribute} (h : a.Fits) : Takes read a.bytes a := by
  have hlen : (UInt32.ofNat a.info.length).toNat = a.info.length := UInt32.toNat_ofNat_of_lt' h
  have hinfo := (takes_bytes a.info).map (Attribute.mk a.name)
  rw [← hlen] at hinfo
  exact (takes_u16 a.name).bind ((takes_u32 _).bind hinfo)

theorem givesBack : GivesBack read bytes Fits := by
  refine (givesBack_u16.bind fun name => givesBack_u32.bind fun length =>
    (gives_bytes length.toNat).map (Attribute.mk name)).mono ?_
  rintro _ _ ⟨_, name, _, rfl, ⟨rfl, -⟩, _, length, info, rfl, ⟨rfl, -⟩, _, rfl, rfl, hlen⟩
  have hlength : UInt32.ofNat info.length = length := by rw [hlen, UInt32.ofNat_toNat]
  refine ⟨by rw [bytes, hlength], ?_⟩
  show info.length < 2 ^ 32
  rw [hlen]
  exact length.toNat_lt

end Attribute

theorem LineEntry.takes (e : LineEntry) : Takes read e.bytes e :=
  (takes_u16 e.start).bind ((takes_u16 e.line).map (LineEntry.mk e.start))

theorem LineEntry.givesBack : GivesBack read bytes fun _ => True := by
  refine (givesBack_u16.bind fun start => givesBack_u16.map (LineEntry.mk start)).mono ?_
  rintro _ _ ⟨_, start, _, rfl, ⟨rfl, -⟩, line, rfl, rfl, -⟩
  exact ⟨rfl, trivial⟩

theorem LocalEntry.takes (e : LocalEntry) : Takes read e.bytes e :=
  (takes_u16 e.start).bind ((takes_u16 e.length).bind ((takes_u16 e.name).bind
    ((takes_u16 e.type).bind ((takes_u16 e.slot).map
      (LocalEntry.mk e.start e.length e.name e.type)))))

theorem LocalEntry.givesBack : GivesBack read bytes fun _ => True := by
  refine (givesBack_u16.bind fun start => givesBack_u16.bind fun length =>
    givesBack_u16.bind fun name => givesBack_u16.bind fun type =>
      givesBack_u16.map (LocalEntry.mk start length name type)).mono ?_
  rintro _ _ ⟨_, start, _, rfl, ⟨rfl, -⟩, _, length, _, rfl, ⟨rfl, -⟩, _, name, _, rfl, ⟨rfl, -⟩,
    _, type, _, rfl, ⟨rfl, -⟩, slot, rfl, rfl, -⟩
  exact ⟨rfl, trivial⟩

theorem Guard.takes (g : Guard) : Takes read g.bytes g :=
  (takes_u16 g.start).bind ((takes_u16 g.stop).bind ((takes_u16 g.handler).bind
    ((takes_u16 g.catchType).map (Guard.mk g.start g.stop g.handler))))

theorem Guard.givesBack : GivesBack read bytes fun _ => True := by
  refine (givesBack_u16.bind fun start => givesBack_u16.bind fun stop =>
    givesBack_u16.bind fun handler => givesBack_u16.map (Guard.mk start stop handler)).mono ?_
  rintro _ _ ⟨_, start, _, rfl, ⟨rfl, -⟩, _, stop, _, rfl, ⟨rfl, -⟩, _, handler, _, rfl,
    ⟨rfl, -⟩, catchType, rfl, rfl, -⟩
  exact ⟨rfl, trivial⟩

namespace CodeAttribute

/-- The code fits its length, and the guards and attributes fit their counts. -/
structure Fits (c : CodeAttribute) : Prop where
  code : c.code.length < 2 ^ 32
  guards : c.guards.length < 65536
  attributes : c.attributes.length < 65536
  fits : ∀ a ∈ c.attributes, a.Fits

theorem takes {c : CodeAttribute} (h : c.Fits) : Takes read c.bytes c := by
  have hlen : (UInt32.ofNat c.code.length).toNat = c.code.length :=
    UInt32.toNat_ofNat_of_lt' h.code
  have hguards := takes_counted (fun g _ => Guard.takes g) h.guards
  have hattributes := takes_counted (fun a ha => Attribute.takes (h.fits a ha)) h.attributes
  have hcode := takes_bytes c.code
  rw [← hlen] at hcode
  exact (takes_u16 c.maxStack).bind ((takes_u16 c.maxLocals).bind ((takes_u32 _).bind
    (hcode.bind (hguards.bind (hattributes.map
      (CodeAttribute.mk c.maxStack c.maxLocals c.code c.guards))))))

theorem givesBack : GivesBack read bytes Fits := by
  refine (givesBack_u16.bind fun maxStack => givesBack_u16.bind fun maxLocals =>
    givesBack_u32.bind fun length => (gives_bytes length.toNat).bind fun code =>
      (givesBack_counted Guard.givesBack).bind fun guards =>
        (givesBack_counted Attribute.givesBack).map
          (CodeAttribute.mk maxStack maxLocals code guards)).mono ?_
  rintro _ _ ⟨_, maxStack, _, rfl, ⟨rfl, -⟩, _, maxLocals, _, rfl, ⟨rfl, -⟩, _, length, _, rfl,
    ⟨rfl, -⟩, code, _, _, rfl, ⟨rfl, hlen⟩, _, guards, _, rfl, ⟨rfl, hguards, -⟩, attributes, rfl,
    rfl, hattributes, hfits⟩
  have hlength : UInt32.ofNat code.length = length := by rw [hlen, UInt32.ofNat_toNat]
  refine ⟨by rw [bytes, hlength], ?_, hguards, hattributes, hfits⟩
  show code.length < 2 ^ 32
  rw [hlen]
  exact length.toNat_lt

end CodeAttribute

end Retrofit
