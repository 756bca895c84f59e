import Mathlib.Data.List.Zip
import Retrofit.Code
import Retrofit.Proofs.Instruction.Codec

/-!
# Code arrays

A code array is decoded to instructions exactly if it spells them one after the other, each at the
address where the one before it ends. In particular the instructions that were encoded are decoded
again, at the addresses of their layout, and the addresses of decoded code are those of its layout.
-/

namespace Retrofit.Code

/-- The bytes spell the instructions, laid out from `address` on. -/
inductive Spells : Nat → List UInt8 → List Instruction → Prop
  | nil (address : Nat) : Spells address [] []
  | cons {address : Nat} {bs cs : List UInt8} {i : Instruction} {is : List Instruction}
      (head : i.Spells address bs) (tail : Spells (address + i.size address) cs is) :
      Spells address (bs ++ cs) (i :: is)

/-- Instructions with their addresses, laid out from `address` on. -/
def placesFrom (address : Nat) : List Instruction → List (Nat × Instruction)
  | [] => []
  | i :: is => (address, i) :: placesFrom (address + i.size address) is

/-- The address behind instructions that are laid out from `address` on. -/
def stopFrom (address : Nat) (is : List Instruction) : Nat :=
  is.foldl (fun a i => a + i.size a) address

@[simp] theorem stopFrom_cons (address : Nat) (i : Instruction) (is : List Instruction) :
    stopFrom address (i :: is) = stopFrom (address + i.size address) is := rfl

theorem length_eq (is : List Instruction) : length is = stopFrom 0 is := rfl

theorem scanl_zip (address : Nat) (is : List Instruction) :
    (is.scanl (fun a i => a + i.size a) address).zip is = placesFrom address is := by
  induction is generalizing address with
  | nil => rfl
  | cons i is ih => rw [List.scanl_cons, List.zip_cons_cons, ih, placesFrom]

theorem addresses_zip (is : List Instruction) : (addresses is).zip is = placesFrom 0 is :=
  scanl_zip 0 is

theorem encode_eq (is : List Instruction) :
    encode is = (placesFrom 0 is).flatMap fun p => p.2.bytes p.1 := by
  rw [encode, ← addresses_zip, ← List.zip_swap, List.flatMap_map]
  rfl

theorem map_snd_placesFrom (address : Nat) (is : List Instruction) :
    (placesFrom address is).map Prod.snd = is := by
  induction is generalizing address with
  | nil => rfl
  | cons i is ih => rw [placesFrom, List.map_cons, ih]

theorem length_flatMap_placesFrom (address : Nat) (is : List Instruction) :
    address + ((placesFrom address is).flatMap fun p => p.2.bytes p.1).length =
      stopFrom address is := by
  induction is generalizing address with
  | nil => rfl
  | cons i is ih =>
      rw [placesFrom, List.flatMap_cons, List.length_append, Instruction.length_bytes, stopFrom_cons,
        ← ih, Nat.add_assoc]

/-- Encoded instructions take as many bytes as their layout says. -/
theorem length_encode (is : List Instruction) : (encode is).length = length is := by
  rw [encode_eq, length_eq, ← length_flatMap_placesFrom, Nat.zero_add]

theorem le_stopFrom (address : Nat) (is : List Instruction) : address ≤ stopFrom address is := by
  induction is generalizing address with
  | nil => exact Nat.le_refl address
  | cons i is ih => exact Nat.le_trans (Nat.le_add_right address _) (ih _)

theorem mem_placesFrom {address a : Nat} {i : Instruction} {is : List Instruction}
    (h : (a, i) ∈ placesFrom address is) : address ≤ a ∧ a < stopFrom address is := by
  induction is generalizing address with
  | nil => cases h
  | cons j is ih =>
      have hpos := j.size_pos address
      rw [placesFrom, List.mem_cons, Prod.mk.injEq] at h
      rw [stopFrom_cons]
      obtain ⟨rfl, -⟩ | h := h
      · have hle := le_stopFrom (a + j.size a) is
        omega
      · obtain ⟨hle, hlt⟩ := ih h
        exact ⟨by omega, hlt⟩

/-- Instructions start one behind the other. -/
theorem placesFrom_increasing (address : Nat) (is : List Instruction) :
    ((placesFrom address is).map Prod.fst).Pairwise (· < ·) := by
  induction is generalizing address with
  | nil => exact .nil
  | cons i is ih =>
      refine .cons ?_ (ih _)
      intro a ha
      obtain ⟨⟨a, j⟩, hmem, rfl⟩ := List.mem_map.mp ha
      have hpos := i.size_pos address
      have hle := (mem_placesFrom hmem).1
      omega

/-! ### Decoding -/

theorem decodeOnto_of_spells {address : Nat} {bs : List UInt8} {is : List Instruction}
    (h : Spells address bs is) (acc : List (Nat × Instruction)) :
    decodeOnto acc ⟨address, bs⟩ = .ok (acc.reverse ++ placesFrom address is) := by
  induction h generalizing acc with
  | nil address => simp [decodeOnto, placesFrom]
  | @cons address bs cs i is head tail ih =>
      have hne : (bs ++ cs).isEmpty = false := by
        have hlen := head.length_eq
        have hpos := i.size_pos address
        cases bs with
        | nil => simp at hlen; omega
        | cons b bs => rfl
      obtain ⟨hform, pad, hpad, hbs⟩ := head
      have hread := Instruction.takes_bytesPadded hpad hform address cs
      have hsize := Instruction.length_bytesPadded hpad i
      rw [← hbs] at hread hsize
      rw [decodeOnto, hne]
      simp only [Bool.false_eq_true, if_false]
      split
      · rename_i e he
        rw [hread] at he
        cases he
      · rename_i j s' hj
        rw [hread] at hj
        cases hj
        rw [hsize, ih]
        simp [placesFrom]

theorem spells_of_decodeOnto {acc l : List (Nat × Instruction)} {s : Input}
    (h : decodeOnto acc s = .ok l) :
    ∃ is, Spells s.offset s.rest is ∧ l = acc.reverse ++ placesFrom s.offset is := by
  fun_induction decodeOnto acc s with
  | case1 acc s hempty =>
      cases h
      rw [List.isEmpty_iff.mp hempty]
      exact ⟨[], .nil _, by simp [placesFrom]⟩
  | case2 acc s hne e he => cases h
  | case3 acc s hne i s' hread ih =>
      obtain ⟨bs, hrest, hoffset, hi⟩ := Instruction.gives_read s.offset s i s' hread
      rw [hi.length_eq] at hoffset
      obtain ⟨is, his, rfl⟩ := ih h
      rw [hoffset] at his
      refine ⟨i :: is, ?_, ?_⟩
      · rw [hrest]
        exact .cons hi his
      · simp [placesFrom, hoffset]

/-- Bytes are decoded to the instructions that they spell, and to nothing else. -/
theorem decode_eq_ok_iff {bs : List UInt8} {l : List (Nat × Instruction)} :
    decode bs = .ok l ↔ ∃ is, Spells 0 bs is ∧ l = placesFrom 0 is := by
  constructor
  · exact spells_of_decodeOnto
  · rintro ⟨is, h, rfl⟩
    exact decodeOnto_of_spells h []

theorem Spells.wellFormed {address : Nat} {bs : List UInt8} {is : List Instruction}
    (h : Spells address bs is) : ∀ i ∈ is, i.WellFormed := by
  induction h with
  | nil => simp
  | cons head tail ih => simpa using ⟨head.1, ih⟩

theorem Spells.stopFrom_eq {address : Nat} {bs : List UInt8} {is : List Instruction}
    (h : Spells address bs is) : stopFrom address is = address + bs.length := by
  induction h with
  | nil => rfl
  | cons head tail ih =>
      rw [stopFrom_cons, ih, List.length_append, head.length_eq, Nat.add_assoc]

theorem spells_flatMap {address : Nat} {is : List Instruction} (h : ∀ i ∈ is, i.WellFormed) :
    Spells address ((placesFrom address is).flatMap fun p => p.2.bytes p.1) is := by
  induction is generalizing address with
  | nil => exact .nil address
  | cons i is ih =>
      exact .cons (Instruction.spells_bytes (h i List.mem_cons_self))
        (ih fun j hj => h j (List.mem_cons_of_mem i hj))

/-- Encoded instructions are decoded again, each at its address. -/
theorem decode_encode {is : List Instruction} (h : ∀ i ∈ is, i.WellFormed) :
    decode (encode is) = .ok ((addresses is).zip is) := by
  rw [decode_eq_ok_iff, encode_eq, addresses_zip]
  exact ⟨is, spells_flatMap h, rfl⟩

end Retrofit.Code
