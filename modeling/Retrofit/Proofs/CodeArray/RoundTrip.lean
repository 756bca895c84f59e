import Mathlib
import Retrofit.Instruction.Short
import Retrofit.Proofs.CodeArray
import Retrofit.Proofs.Outcome

/-!
# Code arrays there and back

Decoded code that is encoded again differs from what it was in the padding of its switches at most,
which becomes zero. That addresses are 32-bit words does not matter: only the padding of switches
depends on an address, and it depends on the address modulo four. Encoded instructions are decoded to just those instructions if their switches have
as many entries as they state, and decoding never gives any others.
-/

namespace Retrofit

/-! ### Padding -/

namespace Instruction

/-- Whether the instruction is a switch. Its tables start at a multiple of four, so bytes without a
meaning may follow its opcode. -/
def isSwitch : Instruction → Bool
  | tableswitch _ _ _ _ | lookupswitch _ _ _ => true
  | _ => false

/-- The byte at address `k` is padding of the instruction at `address`. -/
def PadsAt (address : Nat) (i : Instruction) (k : Nat) : Prop :=
  i.isSwitch = true ∧ address < k ∧ k ≤ address + padding address

theorem exists_bytesPadded {i : Instruction} (h : i.isSwitch = true) :
    ∃ op operands, ∀ pad, i.bytesPadded pad = op :: (pad ++ operands) := by
  cases i with
  | tableswitch default low high displacements => exact ⟨0xaa, _, fun _ => rfl⟩
  | lookupswitch default stated cases => exact ⟨0xab, _, fun _ => rfl⟩
  | _ => cases h

theorem bytesPadded_congr {i : Instruction} (h : i.isSwitch = false) (pad pad' : List UInt8) :
    i.bytesPadded pad = i.bytesPadded pad' := by
  cases i with
  | tableswitch => cases h
  | lookupswitch => cases h
  | _ => rfl

section

variable {address k : Nat} {i : Instruction}

theorem PadsAt.lt_size (h : i.PadsAt address (address + k)) : 0 < k ∧ k < i.size address := by
  obtain ⟨hswitch, hlo, hhi⟩ := h
  refine ⟨by omega, ?_⟩
  cases i with
  | tableswitch =>
      simp only [size]
      omega
  | lookupswitch =>
      simp only [size]
      omega
  | _ => cases hswitch

/-- Bytes that spell an instruction are the bytes it is written as, where they are not padding. -/
theorem Spells.getElem?_eq {bs : List UInt8} (h : Spells address bs i)
    (hk : ¬i.PadsAt address (address + k)) : (i.bytes address)[k]? = bs[k]? := by
  obtain ⟨-, pad, hpad, rfl⟩ := h
  rw [← bytesPadded_replicate]
  cases hswitch : i.isSwitch with
  | false => rw [bytesPadded_congr hswitch _ pad]
  | true =>
      obtain ⟨op, operands, hbytes⟩ := exists_bytesPadded hswitch
      rw [hbytes, hbytes]
      cases k with
      | zero => rfl
      | succ k =>
          -- behind the padding the operands stand at the same place on both sides
          have hle : padding address ≤ k := by
            by_contra hlt
            exact hk ⟨hswitch, by omega, by omega⟩
          rw [List.getElem?_cons_succ, List.getElem?_cons_succ,
            List.getElem?_append_right (by simpa using hle),
            List.getElem?_append_right (by rwa [hpad]), List.length_replicate, hpad]

theorem PadsAt.getElem?_bytes (h : i.PadsAt address (address + k)) :
    (i.bytes address)[k]? = some 0 := by
  obtain ⟨hswitch, hlo, hhi⟩ := h
  obtain ⟨op, operands, hbytes⟩ := exists_bytesPadded hswitch
  rw [← bytesPadded_replicate, hbytes]
  cases k with
  | zero => omega
  | succ k =>
      have hlt : k < padding address := by omega
      rw [List.getElem?_cons_succ, List.getElem?_append_left (by simpa using hlt),
        List.getElem?_replicate_of_lt hlt]

end

end Instruction

namespace Code

/-! ### Addresses -/

/-- The byte at address `k` is padding of one of the instructions. -/
def PaddingAt (l : List (Nat × Instruction)) (k : Nat) : Prop :=
  ∃ p ∈ l, p.2.PadsAt p.1 k

theorem placesFrom_next {address k : Nat} {is : List Instruction} {p q : Nat × Instruction}
    (hp : (placesFrom address is)[k]? = some p) (hq : (placesFrom address is)[k + 1]? = some q) :
    q.1 = p.1 + p.2.size p.1 := by
  induction is generalizing address k with
  | nil => cases hp
  | cons i is ih =>
      cases k with
      | succ k => exact ih hp hq
      | zero =>
          cases hp
          cases is with
          | nil => cases hq
          | cons j is =>
              cases hq
              rfl

theorem take_placesFrom (address k : Nat) (is : List Instruction) :
    (placesFrom address is).take k = placesFrom address (is.take k) := by
  induction is generalizing address k with
  | nil => simp [placesFrom]
  | cons i is ih =>
      cases k with
      | zero => rfl
      | succ k => rw [placesFrom, List.take_succ_cons, List.take_succ_cons, placesFrom, ih]

theorem stopFrom_eq_sum (address : Nat) (is : List Instruction) :
    stopFrom address is = address + ((placesFrom address is).map fun q => q.2.size q.1).sum := by
  induction is generalizing address with
  | nil => rfl
  | cons i is ih =>
      rw [stopFrom_cons, ih, placesFrom, List.map_cons, List.sum_cons, Nat.add_assoc]

/-- An instruction starts where those before it end. -/
theorem fst_eq_of_getElem? {address k : Nat} {is : List Instruction} {p : Nat × Instruction}
    (hp : (placesFrom address is)[k]? = some p) : p.1 = stopFrom address (is.take k) := by
  induction is generalizing address k with
  | nil => cases hp
  | cons i is ih =>
      cases k with
      | zero =>
          cases hp
          rfl
      | succ k => exact ih hp

/-! ### Decoding and encoding again -/

theorem flatMap_bytes_cons (address : Nat) (i : Instruction) (is : List Instruction) :
    ((placesFrom address (i :: is)).flatMap fun p => p.2.bytes p.1) = i.bytes address ++
      (placesFrom (address + i.size address) is).flatMap fun p => p.2.bytes p.1 := rfl

theorem not_paddingAt_cons {address k : Nat} {i : Instruction} {is : List Instruction}
    (hk : ¬PaddingAt (placesFrom address (i :: is)) k) :
    ¬i.PadsAt address k ∧ ¬PaddingAt (placesFrom (address + i.size address) is) k := by
  constructor
  · exact fun h => hk ⟨_, List.mem_cons_self, h⟩
  · rintro ⟨p, hp, h⟩
    exact hk ⟨p, List.mem_cons_of_mem _ hp, h⟩

/-- Bytes that spell instructions are the bytes they are written as, where they are not padding. -/
theorem Spells.getElem?_eq {address k : Nat} {bs : List UInt8} {is : List Instruction}
    (h : Spells address bs is) (hk : ¬PaddingAt (placesFrom address is) (address + k)) :
    ((placesFrom address is).flatMap fun p => p.2.bytes p.1)[k]? = bs[k]? := by
  induction h generalizing k with
  | nil => rfl
  | @cons address bs cs i is head tail ih =>
      obtain ⟨hhead, htail⟩ := not_paddingAt_cons hk
      have hlen := head.length_eq
      have hlen' := i.length_bytes address
      rw [flatMap_bytes_cons]
      by_cases hlt : k < i.size address
      · rw [List.getElem?_append_left (by rwa [hlen']), List.getElem?_append_left (by rwa [hlen])]
        exact head.getElem?_eq hhead
      · rw [List.getElem?_append_right (by omega), List.getElem?_append_right (by omega), hlen,
          hlen']
        apply ih
        rwa [show address + i.size address + (k - i.size address) = address + k by omega]

/-- Padding is written as zero. -/
theorem getElem?_of_paddingAt {address k : Nat} {is : List Instruction}
    (hk : PaddingAt (placesFrom address is) (address + k)) :
    ((placesFrom address is).flatMap fun p => p.2.bytes p.1)[k]? = some 0 := by
  induction is generalizing address k with
  | nil =>
      obtain ⟨p, hp, -⟩ := hk
      cases hp
  | cons i is ih =>
      obtain ⟨p, hp, hpads⟩ := hk
      have hlen := i.length_bytes address
      rw [flatMap_bytes_cons]
      rcases List.mem_cons.mp hp with rfl | hp
      · obtain ⟨-, hlt⟩ := Instruction.PadsAt.lt_size hpads
        rw [List.getElem?_append_left (by rwa [hlen])]
        exact Instruction.PadsAt.getElem?_bytes hpads
      · -- the padding belongs to a later instruction, which starts behind this one
        have hle := (mem_placesFrom hp).1
        have hlo := hpads.2.1
        rw [List.getElem?_append_right (by omega), hlen]
        apply ih
        rw [show address + i.size address + (k - i.size address) = address + k by omega]
        exact ⟨p, hp, hpads⟩

end Code

/-! ### Addresses as words -/

namespace Instruction

/-- Four divides 2^32, so the word of an address needs the same padding. -/
theorem padding_word (address : Nat) : padding (UInt32.ofNat address).toNat = padding address := by
  unfold padding
  rw [UInt32.toNat_ofNat']
  omega

theorem size_word (address : Nat) (i : Instruction) :
    i.size (UInt32.ofNat address).toNat = i.size address := by
  cases i <;> simp only [size, padding_word]

theorem read_word (address : Nat) : read (UInt32.ofNat address).toNat = read address := by
  unfold read readOperands readSingular readTableswitch readLookupswitch
  simp only [padding_word]

end Instruction

namespace Code

theorem decodeWordsOnto_eq (acc : List (Nat × Instruction)) (s : Input) :
    decodeWordsOnto (acc.map fun p => (UInt32.ofNat p.1, p.2)) s =
      (decodeOnto acc s).map (List.map fun p => (UInt32.ofNat p.1, p.2)) := by
  fun_induction decodeOnto acc s with
  | case1 acc s hempty =>
      rw [decodeWordsOnto, if_pos hempty, ← List.map_reverse]
      rfl
  | case2 acc s hne e he =>
      rw [decodeWordsOnto, if_neg hne, Instruction.read_word]
      split
      · rfl
      · rename_i hread
        rw [he] at hread
        cases hread
  | case3 acc s hne i s' hread ih =>
      rw [decodeWordsOnto, if_neg hne, Instruction.read_word]
      split
      · rename_i he
        rw [hread] at he
        cases he
      · rename_i hread'
        rw [hread] at hread'
        cases hread'
        exact ih

/-- Decoding with addresses that are words gives the same instructions, each at the word of its
address. -/
theorem decodeWords_eq (bs : List UInt8) : decodeWords bs =
    (decode bs).map (List.map fun p => (UInt32.ofNat p.1, p.2)) :=
  decodeWordsOnto_eq [] ⟨0, bs⟩

/-- Where the instruction at an index starts: behind all those before it. -/
def startOf (l : List (UInt32 × Instruction)) (k : Nat) : Nat :=
  ((l.take k).map fun q => q.2.size q.1.toNat).sum

/-- The instructions with their addresses fill `length` bytes. The first one is at address 0, each of the
others where the one before it ends, and the last one ends with the bytes. -/
structure Fills (l : List (UInt32 × Instruction)) (length : Nat) : Prop where
  first : ∀ p, l.head? = some p → p.1 = 0
  next : ∀ (k : Nat) p q, l[k]? = some p → l[k + 1]? = some q →
    q.1 = p.1 + UInt32.ofNat (p.2.size p.1.toNat)
  last : startOf l l.length = length
  /-- An address is the position of its instruction as a word. -/
  word : ∀ (k : Nat) p, l[k]? = some p → p.1 = UInt32.ofNat (startOf l k)
  /-- It is the position itself in all code that has room in 2^32 bytes. -/
  exact : length ≤ 2 ^ 32 → ∀ (k : Nat) p, l[k]? = some p → p.1.toNat = startOf l k

/-- The byte at a position is padding of one of the instructions. -/
def IsPadding (l : List (UInt32 × Instruction)) (n : Nat) : Prop :=
  ∃ (k : Nat) (p : UInt32 × Instruction), l[k]? = some p ∧ p.2.PadsAt (startOf l k) n

section

variable {is : List Instruction}

theorem startOf_placesFrom (is : List Instruction) (k : Nat) :
    startOf ((placesFrom 0 is).map fun p => (UInt32.ofNat p.1, p.2)) k = stopFrom 0 (is.take k) := by
  rw [stopFrom_eq_sum, Nat.zero_add, ← take_placesFrom, startOf, ← List.map_take, List.map_map]
  simp only [Function.comp_def, Instruction.size_word]

theorem isPadding_iff {n : Nat} :
    IsPadding ((placesFrom 0 is).map fun p => (UInt32.ofNat p.1, p.2)) n ↔
      PaddingAt (placesFrom 0 is) n := by
  unfold IsPadding PaddingAt
  simp only [startOf_placesFrom, List.getElem?_map, Option.map_eq_some_iff]
  constructor
  · rintro ⟨k, _, ⟨p, hp, rfl⟩, hpads⟩
    rw [← fst_eq_of_getElem? hp] at hpads
    exact ⟨p, List.mem_of_getElem? hp, hpads⟩
  · rintro ⟨p, hp, hpads⟩
    obtain ⟨k, hk⟩ := List.mem_iff_getElem?.mp hp
    rw [fst_eq_of_getElem? hk] at hpads
    exact ⟨k, _, ⟨p, hk, rfl⟩, hpads⟩

theorem fills_placesFrom (is : List Instruction) :
    Fills ((placesFrom 0 is).map fun p => (UInt32.ofNat p.1, p.2)) (stopFrom 0 is) := by
  have hplace {k : Nat} {p : UInt32 × Instruction}
      (hp : ((placesFrom 0 is).map fun p => (UInt32.ofNat p.1, p.2))[k]? = some p) :
      ∃ a, (placesFrom 0 is)[k]? = some (a, p.2) ∧ p.1 = UInt32.ofNat a ∧
        a = startOf ((placesFrom 0 is).map fun p => (UInt32.ofNat p.1, p.2)) k := by
    rw [List.getElem?_map, Option.map_eq_some_iff] at hp
    obtain ⟨q, hq, rfl⟩ := hp
    refine ⟨q.1, hq, rfl, ?_⟩
    rw [startOf_placesFrom, fst_eq_of_getElem? hq]
  constructor
  · intro p hp
    rw [List.head?_eq_getElem?] at hp
    obtain ⟨a, -, hword, rfl⟩ := hplace hp
    exact hword
  · intro k p q hp hq
    obtain ⟨a, ha, hpword, -⟩ := hplace hp
    obtain ⟨b, hb, hqword, -⟩ := hplace hq
    have hnext : b = a + p.2.size a := placesFrom_next ha hb
    rw [hpword, hqword, hnext, Instruction.size_word, UInt32.ofNat_add]
  · have hlength : (placesFrom 0 is).length = is.length := by
      rw [← List.length_map (f := Prod.snd), map_snd_placesFrom]
    rw [startOf_placesFrom, List.length_map, hlength, List.take_length]
  · intro k p hp
    obtain ⟨a, -, hword, rfl⟩ := hplace hp
    exact hword
  · intro hlength k p hp
    obtain ⟨a, ha, hword, rfl⟩ := hplace hp
    have hlt := (mem_placesFrom (List.mem_of_getElem? ha)).2
    rw [hword, UInt32.toNat_ofNat']
    exact Nat.mod_eq_of_lt (Nat.lt_of_lt_of_le hlt hlength)

end

/-- Decoding loses nothing. The decoded instructions fill the bytes one behind the other, each as
long as its size at its own address says. Encoded again they take as many bytes, the same ones but for
the padding of switches, which is zero. -/
theorem encode_of_decode {bs : List UInt8} {l : List (UInt32 × Instruction)}
    (h : decodeWords bs = .ok l) :
    Fills l bs.length ∧ (encode (l.map Prod.snd)).length = bs.length ∧
      (∀ n, ¬IsPadding l n → (encode (l.map Prod.snd))[n]? = bs[n]?) ∧
      ∀ n, IsPadding l n → (encode (l.map Prod.snd))[n]? = some 0 := by
  rw [decodeWords_eq] at h
  obtain ⟨l', hdecode, rfl⟩ := map_eq_ok.mp h
  obtain ⟨is, his, rfl⟩ := decode_eq_ok_iff.mp hdecode
  have hstop : stopFrom 0 is = bs.length := by rw [his.stopFrom_eq, Nat.zero_add]
  have hsnd : ((placesFrom 0 is).map fun p => (UInt32.ofNat p.1, p.2)).map Prod.snd = is := by
    rw [List.map_map]
    exact map_snd_placesFrom 0 is
  rw [hsnd]
  refine ⟨hstop ▸ fills_placesFrom is, ?_, fun n hn => ?_, fun n hn => ?_⟩
  · rw [length_encode, length_eq, hstop]
  · rw [isPadding_iff] at hn
    rw [encode_eq]
    exact his.getElem?_eq (by rwa [Nat.zero_add])
  · rw [isPadding_iff] at hn
    rw [encode_eq]
    exact getElem?_of_paddingAt (by rwa [Nat.zero_add])

/-- A switch whose two bytes of padding are not zero, between two plain instructions. -/
def padded : List UInt8 :=
  [0x59, 0xaa, 7, 9, 0, 0, 0, 19, 0, 0, 0, 0, 0, 0, 0, 0, 0, 0, 0, 19, 0x57]

def paddedCode : List (Nat × Instruction) :=
  [(0, .dup), (1, .tableswitch 19 0 0 [19]), (20, .pop)]

theorem decode_padded : decode padded = .ok paddedCode := by cbv

theorem encode_of_decode_padded :
    decodeWords padded = .ok [(0, .dup), (1, .tableswitch 19 0 0 [19]), (20, .pop)] ∧
      Fills [(0, .dup), (1, .tableswitch 19 0 0 [19]), (20, .pop)] padded.length ∧ padded[2]? = some 7 ∧
      (encode [.dup, .tableswitch 19 0 0 [19], .pop])[2]? = some 0 ∧
      (encode [.dup, .tableswitch 19 0 0 [19], .pop])[4]? = padded[4]? := by
  have hdecode : decodeWords padded = .ok [(0, .dup), (1, .tableswitch 19 0 0 [19]), (20, .pop)] := by
    rw [decodeWords_eq, decode_padded]
    rfl
  obtain ⟨hfills, -, hsame, hzero⟩ := encode_of_decode hdecode
  refine ⟨hdecode, hfills, rfl, hzero 2 ?_, hsame 4 ?_⟩
  · exact ⟨1, _, rfl, rfl, by decide, by decide⟩
  · rintro ⟨k, p, hp, hswitch, -, hle⟩
    rcases k with _ | _ | _ | k
    · cases hp
      cases hswitch
    · cases hp
      exact absurd hle (by decide)
    · cases hp
      cases hswitch
    · cases hp

/-! ### Encoding and decoding again -/

/-- Encoding can be undone. Instructions whose switches have as many entries as they state are decoded
from what they are encoded to, each at the sum of the sizes of those before it; and decoding gives
such instructions only. -/
theorem encode_invertible :
    (∀ is : List Instruction, (∀ i ∈ is, i.WellFormed) →
      ∃ l, decode (encode is) = .ok l ∧ l.map Prod.snd = is ∧
        ∀ k p, l[k]? = some p → p.1 = ((l.take k).map fun q => q.2.size q.1).sum) ∧
    ∀ bs l, decode bs = .ok l → ∀ p ∈ l, p.2.WellFormed := by
  constructor
  · intro is his
    have hdecode := decode_encode his
    rw [addresses_zip] at hdecode
    refine ⟨_, hdecode, map_snd_placesFrom 0 is, fun k p hp => ?_⟩
    rw [fst_eq_of_getElem? hp, stopFrom_eq_sum, Nat.zero_add, take_placesFrom]
  · intro bs l h p hp
    obtain ⟨is, his, rfl⟩ := decode_eq_ok_iff.mp h
    refine his.wellFormed p.2 ?_
    rw [← map_snd_placesFrom 0 is]
    exact List.mem_map_of_mem hp

/-- Both switches and an instruction with wide operands. -/
def branching : List Instruction :=
  [.wideIinc 300 (-1), .lookupswitch 30 2 [(-5, 30), (7, 6)], .tableswitch 1 0 1 [1, -7], .pop]

theorem encode_invertible_branching : (∀ i ∈ branching, i.WellFormed) ∧
    (∃ l, decode (encode branching) = .ok l ∧ l.map Prod.snd = branching) ∧
      decode padded = .ok paddedCode ∧ ∀ p ∈ paddedCode, p.2.WellFormed := by
  have hform : ∀ i ∈ branching, i.WellFormed := by
    simp only [branching, List.forall_mem_cons, List.not_mem_nil, false_imp_iff, implies_true,
      and_true]
    exact ⟨trivial, rfl, ⟨by decide, rfl⟩, trivial⟩
  obtain ⟨l, hl, his, -⟩ := encode_invertible.1 branching hform
  exact ⟨hform, ⟨l, hl, his⟩, decode_padded, encode_invertible.2 padded paddedCode decode_padded⟩

end Code

end Retrofit
