import Retrofit.Proofs.Attribute.Frame

/-!
# What attributes hold

Five formats of attributes are taken apart: code, the tables of lines and of local variables, and
stack map frames. What was read from an attribute is written as the bytes that it was read from, and
what fits its counts is read back from the bytes it is written as.
-/

namespace Retrofit.Attribute

open Reader

/-- The formats of attributes that are taken apart. -/
inductive Format where
  | code | lines | locals | localTypes | frames
  deriving DecidableEq, Repr

namespace Format

/-- What an attribute of the format holds. -/
def Content : Format → Type
  | code => CodeAttribute
  | lines => List LineEntry
  | locals | localTypes => List LocalEntry
  | frames => List Frame

def read : (f : Format) → Reader f.Content
  | code => CodeAttribute.read
  | lines => Reader.counted LineEntry.read
  | locals | localTypes => Reader.counted LocalEntry.read
  | frames => Reader.counted Frame.read

def bytes : (f : Format) → f.Content → List UInt8
  | code => CodeAttribute.bytes
  | lines => countedBytes LineEntry.bytes
  | locals | localTypes => countedBytes LocalEntry.bytes
  | frames => countedBytes Frame.bytes

/-- Every list is as long as its count can say, and frames list what their type bytes can say. -/
def Fits : (f : Format) → f.Content → Prop
  | code => CodeAttribute.Fits
  | lines => fun (entries : List LineEntry) => entries.length < 65536
  | locals | localTypes => fun (entries : List LocalEntry) => entries.length < 65536
  | frames => fun (entries : List Frame) => entries.length < 65536 ∧ ∀ e ∈ entries, e.Fits

/-- What an attribute holds. Bytes behind it are left alone. -/
def parse (f : Format) (a : Attribute) : Except ReadError f.Content := f.read.run a.info

/-- The attribute with the given name that holds `c`. -/
def holding (f : Format) (name : UInt16) (c : f.Content) : Attribute := ⟨name, f.bytes c⟩

theorem takes {f : Format} {c : f.Content} (h : f.Fits c) : Takes f.read (f.bytes c) c := by
  cases f with
  | code => exact CodeAttribute.takes h
  | lines => exact takes_counted (fun e _ => LineEntry.takes e) h
  | locals => exact takes_counted (fun e _ => LocalEntry.takes e) h
  | localTypes => exact takes_counted (fun e _ => LocalEntry.takes e) h
  | frames => exact takes_counted (fun e he => Frame.takes (h.2 e he)) h.1

theorem givesBack_table {α : Type} {p : Reader α} {enc : α → List UInt8}
    (hp : GivesBack p enc fun _ => True) :
    GivesBack (counted p) (countedBytes enc) fun xs => xs.length < 65536 :=
  (givesBack_counted hp).mono fun _ _ h => ⟨h.1, h.2.1⟩

theorem givesBack (f : Format) : GivesBack f.read f.bytes f.Fits := by
  cases f with
  | code => exact CodeAttribute.givesBack
  | lines => exact givesBack_table LineEntry.givesBack
  | locals => exact givesBack_table LocalEntry.givesBack
  | localTypes => exact givesBack_table LocalEntry.givesBack
  | frames => exact givesBack_counted Frame.givesBack

/-- What an attribute holds is read from bytes at its front, which are the ones that it is written as. -/
theorem exists_rest {f : Format} {a : Attribute} {c : f.Content} (h : f.parse a = .ok c) :
    ∃ rest, a.info = f.bytes c ++ rest ∧ f.Fits c := by
  obtain ⟨_, rest, hinfo, rfl, hfits⟩ := (givesBack f).run h
  exact ⟨rest, hinfo, hfits⟩

/-- The length in front of the content says how long it is, if 32 bits can say that. -/
theorem exists_length {a : Attribute} (h : a.Fits) : ∃ length : UInt32,
    length.toNat = a.info.length ∧
      a.bytes = Bytes.ofUInt16 a.name ++ (Bytes.ofUInt32 length ++ a.info) :=
  ⟨_, UInt32.toNat_ofNat_of_lt' h, rfl⟩

/-- Taking an attribute apart and making one undo each other, in each of the five formats. An attribute
that is made from what was read from another holds the bytes at the front of that one that the reading
took, says how long they are, and is read the same. Whatever fits its counts is read back from the
attribute that is made of it. -/
theorem parse_holding (f : Format) (name : UInt16) :
    (∀ (a : Attribute) (c : f.Content), f.parse a = .ok c →
      ∃ rest, a.info = (f.holding name c).info ++ rest ∧
        f.read ⟨0, a.info⟩ = .ok (c, ⟨(f.holding name c).info.length, rest⟩) ∧
        f.parse (f.holding name c) = .ok c ∧
        (a.Fits → ∃ length : UInt32, length.toNat = (f.holding name c).info.length ∧
          (f.holding name c).bytes = Bytes.ofUInt16 name ++
            (Bytes.ofUInt32 length ++ (f.holding name c).info))) ∧
    ∀ c : f.Content, f.Fits c → f.parse (f.holding name c) = .ok c := by
  constructor
  · intro a c h
    obtain ⟨rest, hinfo, hfits⟩ := exists_rest h
    have htakes := takes hfits
    have hread := htakes 0 rest
    rw [← hinfo, Nat.zero_add] at hread
    refine ⟨rest, hinfo, hread, htakes.run, fun ha => exists_length ?_⟩
    have hle : (f.bytes c).length ≤ a.info.length := by
      rw [hinfo, List.length_append]
      exact Nat.le_add_right _ _
    exact Nat.lt_of_le_of_lt hle ha
  · intro c hc
    exact (takes hc).run

/-- The byte behind the only frame is left alone. -/
example : frames.parse ⟨1, [0, 1, 252, 0, 9, 5, 77]⟩ = .ok [.append 9 [.null]] := by cbv

end Format

end Retrofit.Attribute
