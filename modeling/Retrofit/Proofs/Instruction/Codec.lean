import Retrofit.Instruction
import Retrofit.Proofs.Reading

/-!
# Instructions and their bytes

An instruction is read back from the bytes it is written as, wherever it is placed. Bytes that are
read as an instruction are its bytes but for the padding of a switch, which may hold anything; so
an instruction takes as many bytes as its size says.
-/

namespace Retrofit.Instruction

/-- The entries of a switch are as many as its operands say. -/
def WellFormed : Instruction → Prop
  | tableswitch _ low high displacements =>
    low ≤ high ∧ displacements.length = (high.toInt - low.toInt + 1).toNat
  | lookupswitch _ stated cases => cases.length = stated.toNat
  | _ => True

/-- The bytes of an instruction, with the given bytes for padding. -/
def bytesPadded (pad : List UInt8) : Instruction → List UInt8
  | tableswitch default low high displacements =>
    0xaa :: (pad ++ (Bytes.ofInt32 default ++ (Bytes.ofInt32 low ++
      (Bytes.ofInt32 high ++ displacements.flatMap Bytes.ofInt32))))
  | lookupswitch default stated cases =>
    0xab :: (pad ++ (Bytes.ofInt32 default ++ (Bytes.ofUInt32 stated ++
      cases.flatMap fun c => Bytes.ofInt32 c.1 ++ Bytes.ofInt32 c.2)))
  | i => i.bytes 0

theorem bytesPadded_replicate (address : Nat) (i : Instruction) :
    i.bytesPadded (List.replicate (padding address) 0) = i.bytes address := by
  cases i <;> rfl

theorem length_bytesPadded {address : Nat} {pad : List UInt8} (h : pad.length = padding address)
    (i : Instruction) : (i.bytesPadded pad).length = i.size address := by
  cases i <;> simp [bytesPadded, bytes, size, List.length_flatMap, List.map_const',
    h] <;> omega

theorem length_bytes (address : Nat) (i : Instruction) :
    (i.bytes address).length = i.size address := by
  rw [← bytesPadded_replicate]
  exact length_bytesPadded List.length_replicate i

theorem size_pos (address : Nat) (i : Instruction) : 0 < i.size address := by
  cases i <;> simp only [size] <;> omega

/-! ### Writing and reading back -/

/-- The operands of an instruction whose opcode belongs to a family. -/
def readMember : (f : Family) → Opcode f → Reader Instruction
  | .plain, op => pure (plain op)
  | .small, op => small op <$> Reader.u8
  | .slot, op => slot op <$> Reader.u8
  | .pooled, op => pooled op <$> Reader.u16
  | .jump, op => jump op <$> Reader.i16
  | .longJump, op => longJump op <$> Reader.i32

theorem readOperands_member (address : Nat) {f : Family} (op : Opcode f) :
    readOperands address op.byte = readMember f op := by
  have h := op.family_eq
  unfold readOperands
  cases f <;> split <;> simp_all [readMember]

theorem readOperands_singular (address : Nat) {op : UInt8} (h : Opcode.family? op = none) :
    readOperands address op = readSingular address op := by
  unfold readOperands
  split <;> simp_all

open Reader

theorem takes_readMember {address : Nat} {f : Family} {op : Opcode f} {bs : List UInt8}
    {i : Instruction} (h : (readMember f op).Takes bs i) :
    (read address).Takes (op.byte :: bs) i :=
  (takes_u8 op.byte).bind (by rwa [readOperands_member])

theorem takes_readSingular {address : Nat} {op : UInt8} {bs : List UInt8} {i : Instruction}
    (hop : Opcode.family? op = none) (h : (readSingular address op).Takes bs i) :
    (read address).Takes (op :: bs) i :=
  (takes_u8 op).bind (by rwa [readOperands_singular address hop])

theorem takes_readTableswitch {address : Nat} {default low high : Int32} {ds : List Int32}
    {pad : List UInt8} (hpad : pad.length = padding address)
    (h : (tableswitch default low high ds).WellFormed) :
    (readTableswitch address).Takes (pad ++ (Bytes.ofInt32 default ++ (Bytes.ofInt32 low ++
      (Bytes.ofInt32 high ++ ds.flatMap Bytes.ofInt32)))) (tableswitch default low high ds) := by
  obtain ⟨hle, hcount⟩ := h
  have hds : (many (high.toInt - low.toInt + 1).toNat i32 >>= fun ds =>
      pure (tableswitch default low high ds)).Takes (ds.flatMap Bytes.ofInt32)
        (tableswitch default low high ds) := by
    rw [← hcount]
    exact (Takes.many fun d _ => takes_i32 d).map (tableswitch default low high)
  rw [readTableswitch, ← hpad]
  refine (takes_bytes pad).bind ((takes_i32 default).bind ((takes_i32 low).bind
    ((takes_i32 high).bind ?_)))
  rw [if_pos hle]
  exact hds

theorem takes_readLookupswitch {address : Nat} {default : Int32} {stated : UInt32}
    {cases : List (Int32 × Int32)} {pad : List UInt8} (hpad : pad.length = padding address)
    (h : (lookupswitch default stated cases).WellFormed) :
    (readLookupswitch address).Takes (pad ++ (Bytes.ofInt32 default ++ (Bytes.ofUInt32 stated ++
        cases.flatMap fun c => Bytes.ofInt32 c.1 ++ Bytes.ofInt32 c.2)))
      (lookupswitch default stated cases) := by
  have hcount : cases.length = stated.toNat := h
  have hcase : ∀ c ∈ cases, (do
      let value ← i32
      let displacement ← i32
      pure (value, displacement) : Reader (Int32 × Int32)).Takes
        (Bytes.ofInt32 c.1 ++ Bytes.ofInt32 c.2) c := fun c _ =>
    (takes_i32 c.1).bind ((takes_i32 c.2).map (Prod.mk c.1))
  have hcases := (Takes.many hcase).map (lookupswitch default stated)
  rw [hcount] at hcases
  rw [readLookupswitch, ← hpad]
  exact (takes_bytes pad).bind ((takes_i32 default).bind ((takes_u32 _).bind hcases))

theorem takes_readWide_slot (op : Opcode .slot) (index : UInt16) :
    readWide.Takes (op.byte :: Bytes.ofUInt16 index) (wideSlot op index) := by
  have h := op.family_eq
  refine Takes.bind (takes_u8 op.byte) ?_
  split
  · exact (takes_u16 index).map _
  · simp_all

/-- An instruction is read back from its bytes, whatever its padding holds. -/
theorem takes_bytesPadded {address : Nat} {pad : List UInt8} (hpad : pad.length = padding address)
    {i : Instruction} (h : i.WellFormed) : (read address).Takes (i.bytesPadded pad) i := by
  cases i with
  | plain op => exact takes_readMember (Takes.pure _)
  | bipush value => exact takes_readSingular rfl ((takes_i8 value).map _)
  | sipush value => exact takes_readSingular rfl ((takes_i16 value).map _)
  | small op operand => exact takes_readMember ((takes_u8 operand).map _)
  | pooled op index => exact takes_readMember ((takes_u16 index).map _)
  | slot op index => exact takes_readMember ((takes_u8 index).map _)
  | wideSlot op index => exact takes_readSingular rfl (takes_readWide_slot op index)
  | iinc index amount =>
      exact takes_readSingular rfl ((takes_u8 index).bind ((takes_i8 amount).map _))
  | wideIinc index amount =>
      exact takes_readSingular rfl ((takes_u8 0x84).bind
        ((takes_u16 index).bind ((takes_i16 amount).map _)))
  | jump op displacement => exact takes_readMember ((takes_i16 displacement).map _)
  | longJump op displacement => exact takes_readMember ((takes_i32 displacement).map _)
  | tableswitch default low high ds =>
      exact takes_readSingular rfl (takes_readTableswitch hpad h)
  | lookupswitch default stated cases =>
      exact takes_readSingular rfl (takes_readLookupswitch hpad h)
  | invokevirtual index => exact takes_readSingular rfl ((takes_u16 index).map _)
  | invokespecial index => exact takes_readSingular rfl ((takes_u16 index).map _)
  | invokestatic index => exact takes_readSingular rfl ((takes_u16 index).map _)
  | invokeinterface index count filler =>
      exact takes_readSingular rfl ((takes_u16 index).bind
        ((takes_u8 count).bind ((takes_u8 filler).map _)))
  | invokedynamic index filler =>
      exact takes_readSingular rfl ((takes_u16 index).bind ((takes_u16 filler).map _))
  | multianewarray index dimensions =>
      exact takes_readSingular rfl ((takes_u16 index).bind ((takes_u8 dimensions).map _))

theorem takes_bytes {address : Nat} {i : Instruction} (h : i.WellFormed) :
    (read address).Takes (i.bytes address) i := by
  rw [← bytesPadded_replicate]
  exact takes_bytesPadded List.length_replicate h

/-! ### Reading and writing again -/

/-- The bytes are those of a well-formed instruction at `address`, whatever its padding holds. -/
def Spells (address : Nat) (bs : List UInt8) (i : Instruction) : Prop :=
  i.WellFormed ∧ ∃ pad, pad.length = padding address ∧ bs = i.bytesPadded pad

theorem spells_bytes {address : Nat} {i : Instruction} (h : i.WellFormed) :
    Spells address (i.bytes address) i :=
  ⟨h, _, List.length_replicate, (bytesPadded_replicate address i).symm⟩

theorem Spells.length_eq {address : Nat} {bs : List UInt8} {i : Instruction}
    (h : Spells address bs i) : bs.length = i.size address := by
  obtain ⟨-, pad, hpad, rfl⟩ := h
  exact length_bytesPadded hpad i

theorem gives_readTableswitch (address : Nat) :
    Gives (readTableswitch address) fun bs i => Spells address (0xaa :: bs) i := by
  refine ((gives_bytes _).bind fun pad => givesBack_i32.bind fun default =>
    givesBack_i32.bind fun low => givesBack_i32.bind fun high =>
      (?_ : Gives _ fun bs i => low ≤ high ∧ ∃ ds : List Int32,
        ds.length = (high.toInt - low.toInt + 1).toNat ∧ bs = ds.flatMap Bytes.ofInt32 ∧
          i = tableswitch default low high ds)).mono ?_
  · split
    · rename_i hle
      refine ((givesBack_i32.many _).map (tableswitch default low high)).mono ?_
      rintro bs _ ⟨ds, rfl, rfl, hcount, -⟩
      exact ⟨hle, ds, hcount, rfl, rfl⟩
    · exact Gives.fail _ _
  · rintro _ _ ⟨_, pad, _, rfl, ⟨rfl, hpad⟩, _, default, _, rfl, ⟨rfl, -⟩, _, low, _, rfl,
      ⟨rfl, -⟩, _, high, _, rfl, ⟨rfl, -⟩, hle, ds, hcount, rfl, rfl⟩
    exact ⟨⟨hle, hcount⟩, _, hpad, rfl⟩

theorem gives_readLookupswitch (address : Nat) :
    Gives (readLookupswitch address) fun bs i => Spells address (0xab :: bs) i := by
  have hcase : GivesBack (do
      let value ← i32
      let displacement ← i32
      pure (value, displacement) : Reader (Int32 × Int32))
      (fun c => Bytes.ofInt32 c.1 ++ Bytes.ofInt32 c.2) fun _ => True := by
    refine (givesBack_i32.bind fun value => givesBack_i32.map (Prod.mk value)).mono ?_
    rintro _ _ ⟨_, value, _, rfl, ⟨rfl, -⟩, displacement, rfl, rfl, -⟩
    exact ⟨rfl, trivial⟩
  refine ((gives_bytes _).bind fun pad => givesBack_i32.bind fun default =>
    givesBack_u32.bind fun stated => (hcase.many stated.toNat).map
      (lookupswitch default stated)).mono ?_
  rintro _ _ ⟨_, pad, _, rfl, ⟨rfl, hpad⟩, _, default, _, rfl, ⟨rfl, -⟩, _, stated, _, rfl,
    ⟨rfl, -⟩, cases, rfl, rfl, hcount, -⟩
  exact ⟨hcount, _, hpad, rfl⟩

theorem gives_readWide (address : Nat) :
    Gives readWide fun bs i => Spells address (0xc4 :: bs) i := by
  refine (givesBack_u8.bind fun op =>
    (?_ : Gives _ fun bs i => Spells address (0xc4 :: op :: bs) i)).mono ?_
  · split
    · rename_i h
      refine (givesBack_u16.map (wideSlot ⟨op, h⟩)).mono ?_
      rintro _ _ ⟨index, rfl, rfl, -⟩
      exact (spells_bytes trivial : Spells address _ (wideSlot ⟨op, h⟩ index))
    · split
      · rename_i h
        subst h
        refine (givesBack_u16.bind fun index => givesBack_i16.map (wideIinc index)).mono ?_
        rintro _ _ ⟨_, index, _, rfl, ⟨rfl, -⟩, amount, rfl, rfl, -⟩
        exact (spells_bytes trivial : Spells address _ (wideIinc index amount))
      · exact Gives.fail _ _
  · rintro _ _ ⟨_, op, _, rfl, ⟨rfl, -⟩, h⟩
    exact h

/-- One operand makes the instruction `make x`, whose bytes are the opcode and that operand's. -/
theorem gives_operand {α : Type} {p : Reader α} {enc : α → List UInt8} {address : Nat} {op : UInt8}
    {make : α → Instruction} (hp : GivesBack p enc fun _ => True)
    (hform : ∀ x, (make x).WellFormed) (hbytes : ∀ x, (make x).bytes address = op :: enc x) :
    Gives (make <$> p) fun bs i => Spells address (op :: bs) i := by
  refine (hp.map make).mono ?_
  rintro _ _ ⟨x, rfl, rfl, -⟩
  rw [← hbytes]
  exact spells_bytes (hform x)

theorem gives_operands {α β : Type} {p : Reader α} {q : Reader β} {enc : α → List UInt8}
    {enc' : β → List UInt8} {address : Nat} {op : UInt8} {make : α → β → Instruction}
    (hp : GivesBack p enc fun _ => True) (hq : GivesBack q enc' fun _ => True)
    (hform : ∀ x y, (make x y).WellFormed)
    (hbytes : ∀ x y, (make x y).bytes address = op :: (enc x ++ enc' y)) :
    Gives (p >>= fun x => make x <$> q) fun bs i => Spells address (op :: bs) i := by
  refine (hp.bind fun x => hq.map (make x)).mono ?_
  rintro _ _ ⟨_, x, _, rfl, ⟨rfl, -⟩, y, rfl, rfl, -⟩
  rw [← hbytes]
  exact spells_bytes (hform x y)

theorem gives_readInterface (address : Nat) :
    Gives (do
      let index ← u16
      let count ← u8
      invokeinterface index count <$> u8) fun bs i => Spells address (0xb9 :: bs) i := by
  refine (givesBack_u16.bind fun index => givesBack_u8.bind fun count =>
    givesBack_u8.map (invokeinterface index count)).mono ?_
  rintro _ _ ⟨_, index, _, rfl, ⟨rfl, -⟩, _, count, _, rfl, ⟨rfl, -⟩, filler, rfl, rfl, -⟩
  exact (spells_bytes trivial : Spells address _ (invokeinterface index count filler))

theorem gives_readSingular (address : Nat) (op : UInt8) :
    Gives (readSingular address op) fun bs i => Spells address (op :: bs) i := by
  unfold readSingular
  split
  · exact gives_operand givesBack_i8 (fun _ => trivial) fun _ => rfl
  · exact gives_operand givesBack_i16 (fun _ => trivial) fun _ => rfl
  · exact gives_operands givesBack_u8 givesBack_i8 (fun _ _ => trivial) fun _ _ => rfl
  · exact gives_readTableswitch address
  · exact gives_readLookupswitch address
  · exact gives_operand givesBack_u16 (fun _ => trivial) fun _ => rfl
  · exact gives_operand givesBack_u16 (fun _ => trivial) fun _ => rfl
  · exact gives_operand givesBack_u16 (fun _ => trivial) fun _ => rfl
  · exact gives_readInterface address
  · exact gives_operands givesBack_u16 givesBack_u16 (fun _ _ => trivial) fun _ _ => rfl
  · exact gives_readWide address
  · exact gives_operands givesBack_u16 givesBack_u8 (fun _ _ => trivial) fun _ _ => rfl
  · exact Gives.fail _ _

theorem gives_readOperands (address : Nat) (op : UInt8) :
    Gives (readOperands address op) fun bs i => Spells address (op :: bs) i := by
  unfold readOperands
  split
  · rename_i h
    refine (Gives.pure (plain ⟨op, h⟩)).mono ?_
    rintro _ _ ⟨rfl, rfl⟩
    exact (spells_bytes trivial : Spells address _ (plain ⟨op, h⟩))
  · exact gives_operand givesBack_u8 (fun _ => trivial) fun _ => rfl
  · exact gives_operand givesBack_u8 (fun _ => trivial) fun _ => rfl
  · exact gives_operand givesBack_u16 (fun _ => trivial) fun _ => rfl
  · exact gives_operand givesBack_i16 (fun _ => trivial) fun _ => rfl
  · exact gives_operand givesBack_i32 (fun _ => trivial) fun _ => rfl
  · exact gives_readSingular address op

/-- Whatever is read as an instruction spells it. -/
theorem gives_read (address : Nat) : Gives (read address) (Spells address) := by
  refine (givesBack_u8.bind fun op => gives_readOperands address op).mono ?_
  rintro _ i ⟨_, op, bs, rfl, ⟨rfl, -⟩, h⟩
  exact h

end Retrofit.Instruction
