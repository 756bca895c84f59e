import Retrofit.Constant
import Retrofit.Proofs.Reading

/-!
# Constants and their bytes

A constant is read back from the bytes it is written as, if its text fits the 16-bit length. What was
read is written as the bytes that were taken, except for a slot without a constant that has a tag of
its own: that one is not written at all.
-/

namespace Retrofit.Constant

open Reader

/-- Text fits its 16-bit length. -/
def Fits : Constant → Prop
  | utf8 bs => bs.length < 65536
  | _ => True

theorem takes_readPair (make : UInt16 → UInt16 → Constant) (x y : UInt16) :
    Takes (readPair make) (Bytes.ofUInt16 x ++ Bytes.ofUInt16 y) (make x y) :=
  (takes_u16 x).bind ((takes_u16 y).map (make x))

/-- A constant is read back from its bytes. -/
theorem takes {c : Constant} (h : c.Fits) (hc : c ≠ unusable) : Takes read c.bytes c := by
  refine Takes.blame _ ?_
  cases c with
  | utf8 bs =>
      have hlen : (UInt16.ofNat bs.length).toNat = bs.length := UInt16.toNat_ofNat_of_lt' h
      have hbytes := takes_bytes bs
      rw [← hlen] at hbytes
      exact (takes_u8 1).bind ((takes_u16 _).bind (hbytes.map utf8))
  | integer value => exact (takes_u8 3).bind ((takes_i32 value).map integer)
  | float bits => exact (takes_u8 4).bind ((takes_u32 bits).map float)
  | long value => exact (takes_u8 5).bind ((takes_i64 value).map long)
  | double bits => exact (takes_u8 6).bind ((takes_u64 bits).map double)
  | classInfo name => exact (takes_u8 7).bind ((takes_u16 name).map classInfo)
  | string text => exact (takes_u8 8).bind ((takes_u16 text).map string)
  | fieldRef owner nt => exact (takes_u8 9).bind (takes_readPair fieldRef owner nt)
  | methodRef owner nt => exact (takes_u8 10).bind (takes_readPair methodRef owner nt)
  | interfaceMethodRef owner nt =>
      exact (takes_u8 11).bind (takes_readPair interfaceMethodRef owner nt)
  | nameAndType name descriptor =>
      exact (takes_u8 12).bind (takes_readPair nameAndType name descriptor)
  | methodHandle kind reference =>
      exact (takes_u8 15).bind ((takes_u8 kind).bind ((takes_u16 reference).map (methodHandle kind)))
  | methodType descriptor => exact (takes_u8 16).bind ((takes_u16 descriptor).map methodType)
  | dynamic bootstrap nt => exact (takes_u8 17).bind (takes_readPair dynamic bootstrap nt)
  | invokeDynamic bootstrap nt =>
      exact (takes_u8 18).bind (takes_readPair invokeDynamic bootstrap nt)
  | moduleInfo name => exact (takes_u8 19).bind ((takes_u16 name).map moduleInfo)
  | packageInfo name => exact (takes_u8 20).bind ((takes_u16 name).map packageInfo)
  | unusable => exact absurd rfl hc

/-! ### What was read -/

/-- The bytes are those of the constant, or the tag of a slot without one. -/
def Spells (bs : List UInt8) (c : Constant) : Prop :=
  c.Fits ∧ ((bs = c.bytes ∧ c ≠ unusable) ∨ (bs = [0] ∧ c = unusable))

/-- A payload of one value, behind the tag. -/
theorem gives_value {α : Type} {p : Reader α} {enc : α → List UInt8} {tag : UInt8}
    {make : α → Constant} (hp : GivesBack p enc fun _ => True) (hfits : ∀ x, (make x).Fits)
    (hne : ∀ x, make x ≠ unusable) (hbytes : ∀ x, (make x).bytes = tag :: enc x) :
    Gives (make <$> p) fun bs c => Spells (tag :: bs) c := by
  refine (hp.map make).mono ?_
  rintro _ _ ⟨x, rfl, rfl, -⟩
  exact ⟨hfits x, Or.inl ⟨(hbytes x).symm, hne x⟩⟩

theorem gives_pair {tag : UInt8} {make : UInt16 → UInt16 → Constant}
    (hfits : ∀ x y, (make x y).Fits) (hne : ∀ x y, make x y ≠ unusable)
    (hbytes : ∀ x y, (make x y).bytes = tag :: (Bytes.ofUInt16 x ++ Bytes.ofUInt16 y)) :
    Gives (readPair make) fun bs c => Spells (tag :: bs) c := by
  refine (givesBack_u16.bind fun x => givesBack_u16.map (make x)).mono ?_
  rintro _ _ ⟨_, x, _, rfl, ⟨rfl, -⟩, y, rfl, rfl, -⟩
  exact ⟨hfits x y, Or.inl ⟨(hbytes x y).symm, hne x y⟩⟩

theorem gives_text :
    Gives (do
      let length ← u16
      utf8 <$> Reader.bytes length.toNat) fun bs c => Spells (1 :: bs) c := by
  refine (givesBack_u16.bind fun length => (gives_bytes length.toNat).map utf8).mono ?_
  rintro _ _ ⟨_, length, text, rfl, ⟨rfl, -⟩, _, rfl, rfl, hlen⟩
  have hlength : UInt16.ofNat text.length = length := by rw [hlen, UInt16.ofNat_toNat]
  refine ⟨?_, Or.inl ⟨by rw [bytes, hlength], by simp⟩⟩
  show text.length < 65536
  rw [hlen]
  exact length.toNat_lt

theorem gives_methodHandle :
    Gives (do
      let kind ← u8
      methodHandle kind <$> u16) fun bs c => Spells (15 :: bs) c := by
  refine (givesBack_u8.bind fun kind => givesBack_u16.map (methodHandle kind)).mono ?_
  rintro _ _ ⟨_, kind, _, rfl, ⟨rfl, -⟩, reference, rfl, rfl, -⟩
  exact ⟨trivial, Or.inl ⟨rfl, by simp⟩⟩

theorem gives_readPayload (tag : UInt8) :
    Gives (readPayload tag) fun bs c => Spells (tag :: bs) c := by
  unfold readPayload
  split
  · refine (Gives.pure unusable).mono ?_
    rintro _ _ ⟨rfl, rfl⟩
    exact ⟨trivial, Or.inr ⟨rfl, rfl⟩⟩
  · exact gives_text
  · exact gives_value givesBack_i32 (fun _ => trivial) (by simp) fun _ => rfl
  · exact gives_value givesBack_u32 (fun _ => trivial) (by simp) fun _ => rfl
  · exact gives_value givesBack_i64 (fun _ => trivial) (by simp) fun _ => rfl
  · exact gives_value givesBack_u64 (fun _ => trivial) (by simp) fun _ => rfl
  · exact gives_value givesBack_u16 (fun _ => trivial) (by simp) fun _ => rfl
  · exact gives_value givesBack_u16 (fun _ => trivial) (by simp) fun _ => rfl
  · exact gives_pair (fun _ _ => trivial) (by simp) fun _ _ => rfl
  · exact gives_pair (fun _ _ => trivial) (by simp) fun _ _ => rfl
  · exact gives_pair (fun _ _ => trivial) (by simp) fun _ _ => rfl
  · exact gives_pair (fun _ _ => trivial) (by simp) fun _ _ => rfl
  · exact gives_methodHandle
  · exact gives_value givesBack_u16 (fun _ => trivial) (by simp) fun _ => rfl
  · exact gives_pair (fun _ _ => trivial) (by simp) fun _ _ => rfl
  · exact gives_pair (fun _ _ => trivial) (by simp) fun _ _ => rfl
  · exact gives_value givesBack_u16 (fun _ => trivial) (by simp) fun _ => rfl
  · exact gives_value givesBack_u16 (fun _ => trivial) (by simp) fun _ => rfl
  · exact Gives.fail _ _

/-- Whatever is read as a constant spells it. -/
theorem gives_read : Gives read Spells := by
  refine Gives.blame _ ((givesBack_u8.bind fun tag => gives_readPayload tag).mono ?_)
  rintro _ c ⟨_, tag, bs, rfl, ⟨rfl, -⟩, h⟩
  exact h

end Retrofit.Constant
