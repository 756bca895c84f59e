import Mathlib.Algebra.Group.Nat.Defs
import Retrofit.Bytes

/-!
# Words and their bytes

A number below `256 ^ width` and its `width` bytes determine each other. So every word is read back
from its bytes, and bytes that were read as a word are the bytes of that word.
-/

namespace Retrofit.Bytes

theorem toNat_append_singleton (bs : List UInt8) (b : UInt8) :
    toNat (bs ++ [b]) = toNat bs * 256 + b.toNat := by
  simp [toNat, List.foldl_append]

/-- The bytes of a number give it back, up to what does not fit into them. -/
theorem toNat_ofNat (width n : Nat) : toNat (ofNat width n) = n % 256 ^ width := by
  induction width generalizing n with
  | zero => simp [ofNat, toNat, Nat.mod_one]
  | succ width ih =>
      have hb : (UInt8.ofNat n).toNat = n % 256 := by simp
      rw [ofNat, toNat_append_singleton, ih, hb, Nat.pow_succ, Nat.mul_comm (256 ^ width) 256,
        Nat.mod_mul]
      omega

theorem toNat_ofNat_of_lt {width n : Nat} (h : n < 256 ^ width) : toNat (ofNat width n) = n := by
  rw [toNat_ofNat, Nat.mod_eq_of_lt h]

theorem toNat_lt {width : Nat} {bs : List UInt8} (h : bs.length = width) :
    toNat bs < 256 ^ width := by
  induction width generalizing bs with
  | zero =>
      rw [List.length_eq_zero_iff.mp h]
      decide
  | succ width ih =>
      obtain rfl | ⟨front, last, rfl⟩ := List.eq_nil_or_concat bs
      · simp at h
      have hlt := ih (by simpa using h)
      have hlast := last.toNat_lt
      rw [List.concat_eq_append, toNat_append_singleton, Nat.pow_succ]
      omega

/-- Bytes are the bytes of the number that they give. -/
theorem ofNat_toNat {width : Nat} {bs : List UInt8} (h : bs.length = width) :
    ofNat width (toNat bs) = bs := by
  induction width generalizing bs with
  | zero =>
      rw [List.length_eq_zero_iff.mp h]
      rfl
  | succ width ih =>
      obtain rfl | ⟨front, last, rfl⟩ := List.eq_nil_or_concat bs
      · simp at h
      have hlast := last.toNat_lt
      have hquot : (toNat front * 256 + last.toNat) / 256 = toNat front := by omega
      have hrest : UInt8.ofNat (toNat front * 256 + last.toNat) = last := by
        apply UInt8.toNat_inj.mp
        simp only [UInt8.toNat_ofNat']
        omega
      rw [List.concat_eq_append, toNat_append_singleton, ofNat, hquot, hrest, ih (by simpa using h)]

/-! ### The words of each width -/

theorem ofUInt16_toNat {bs : List UInt8} (h : bs.length = 2) :
    ofUInt16 (UInt16.ofNat (toNat bs)) = bs := by
  have hlt := toNat_lt h
  rw [ofUInt16, UInt16.toNat_ofNat_of_lt' hlt, ofNat_toNat h]

theorem ofUInt32_toNat {bs : List UInt8} (h : bs.length = 4) :
    ofUInt32 (UInt32.ofNat (toNat bs)) = bs := by
  have hlt := toNat_lt h
  rw [ofUInt32, UInt32.toNat_ofNat_of_lt' hlt, ofNat_toNat h]

theorem ofUInt64_toNat {bs : List UInt8} (h : bs.length = 8) :
    ofUInt64 (UInt64.ofNat (toNat bs)) = bs := by
  have hlt := toNat_lt h
  rw [ofUInt64, UInt64.toNat_ofNat_of_lt' hlt, ofNat_toNat h]

theorem toNat_ofUInt16 (x : UInt16) : toNat (ofUInt16 x) = x.toNat :=
  toNat_ofNat_of_lt x.toNat_lt

theorem toNat_ofUInt32 (x : UInt32) : toNat (ofUInt32 x) = x.toNat :=
  toNat_ofNat_of_lt x.toNat_lt

theorem toNat_ofUInt64 (x : UInt64) : toNat (ofUInt64 x) = x.toNat :=
  toNat_ofNat_of_lt x.toNat_lt

end Retrofit.Bytes
