/-!
# Bytes and readers

Words are written big-endian, and a reader takes a value off the front of a byte list. A reader
counts what it consumed, so that a failure can say where it happened.
-/

namespace Retrofit

/-- Why bytes could not be read. The offsets count from the start of the bytes being read. -/
inductive ReadError where
  /-- The data ended inside a field. -/
  | endOfData
  /-- Four bytes were there, but not the mark of a class file. -/
  | badMagic
  /-- The tagged item whose tag or payload starts at `offset` is not one of the known ones. -/
  | badItem (offset : Nat)
  /-- The instruction starting at `offset` is unknown, malformed or cut short. -/
  | badInstruction (offset : Nat)
  deriving DecidableEq, Repr

namespace ReadError

/-- The wording of a reading failure. -/
def message : ReadError → String
  | endOfData => "unexpected end of data"
  | badMagic => "not a class file"
  | badItem offset => s!"unreadable item at offset {offset}"
  | badInstruction offset => s!"unreadable instruction at offset {offset}"

end ReadError

/-- Bytes still to be read, and how many were read before them. -/
structure Input where
  offset : Nat
  rest : List UInt8

/-- A reader takes a value off the front of its input, or says why it cannot. -/
abbrev Reader (α : Type) := StateT Input (Except ReadError) α

/-! ### Words as bytes -/

namespace Bytes

/-- The lowest `width` base-256 digits of a number, the most significant one first. -/
def ofNat : Nat → Nat → List UInt8
  | 0, _ => []
  | width + 1, n => ofNat width (n / 256) ++ [UInt8.ofNat n]

/-- The number whose base-256 digits are the given bytes, the most significant one first. -/
def toNat (bytes : List UInt8) : Nat :=
  bytes.foldl (fun n b => n * 256 + b.toNat) 0

def ofUInt16 (x : UInt16) : List UInt8 := ofNat 2 x.toNat

def ofUInt32 (x : UInt32) : List UInt8 := ofNat 4 x.toNat

def ofUInt64 (x : UInt64) : List UInt8 := ofNat 8 x.toNat

def ofInt16 (x : Int16) : List UInt8 := ofUInt16 x.toUInt16

def ofInt32 (x : Int32) : List UInt8 := ofUInt32 x.toUInt32

def ofInt64 (x : Int64) : List UInt8 := ofUInt64 x.toUInt64

@[simp] theorem length_ofNat (width n : Nat) : (ofNat width n).length = width := by
  induction width generalizing n with
  | zero => rfl
  | succ width ih => simp [ofNat, ih]

@[simp] theorem length_ofUInt16 (x : UInt16) : (ofUInt16 x).length = 2 := length_ofNat 2 _

@[simp] theorem length_ofUInt32 (x : UInt32) : (ofUInt32 x).length = 4 := length_ofNat 4 _

@[simp] theorem length_ofUInt64 (x : UInt64) : (ofUInt64 x).length = 8 := length_ofNat 8 _

@[simp] theorem length_ofInt16 (x : Int16) : (ofInt16 x).length = 2 := length_ofNat 2 _

@[simp] theorem length_ofInt32 (x : Int32) : (ofInt32 x).length = 4 := length_ofNat 4 _

@[simp] theorem length_ofInt64 (x : Int64) : (ofInt64 x).length = 8 := length_ofNat 8 _

end Bytes

/-! ### Readers -/

namespace Reader

/-- Stop with the given cause. -/
def fail {α : Type} (e : ReadError) : Reader α := fun _ => .error e

/-- Read `p`; whatever goes wrong is blamed on the place where the reading began. -/
def blame {α : Type} (cause : Nat → ReadError) (p : Reader α) : Reader α := fun s =>
  match p s with
  | .ok r => .ok r
  | .error _ => .error (cause s.offset)

/-- One byte. -/
def u8 : Reader UInt8 := fun s =>
  match s.rest with
  | [] => .error .endOfData
  | b :: rest => .ok (b, ⟨s.offset + 1, rest⟩)

/-- Read `p` the given number of times, onto the values read before, the last one first. -/
def collect {α : Type} (p : Reader α) : Nat → List α → Input → Except ReadError (List α × Input)
  | 0, acc, s => .ok (acc.reverse, s)
  | n + 1, acc, s =>
    match p s with
    | .error e => .error e
    | .ok (a, s') => collect p n (a :: acc) s'

/-- Read `p` exactly `n` times. -/
def many {α : Type} (n : Nat) (p : Reader α) : Reader (List α) := fun s => collect p n [] s

/-- The next `n` bytes. -/
def bytes (n : Nat) : Reader (List UInt8) := many n u8

/-- A big-endian number of `width` bytes. -/
def nat (width : Nat) : Reader Nat := do
  let bs ← bytes width
  pure (Bytes.toNat bs)

def u16 : Reader UInt16 := UInt16.ofNat <$> nat 2

def u32 : Reader UInt32 := UInt32.ofNat <$> nat 4

def u64 : Reader UInt64 := UInt64.ofNat <$> nat 8

def i8 : Reader Int8 := UInt8.toInt8 <$> u8

def i16 : Reader Int16 := UInt16.toInt16 <$> u16

def i32 : Reader Int32 := UInt32.toInt32 <$> u32

def i64 : Reader Int64 := UInt64.toInt64 <$> u64

/-- A 16-bit count and that many items. -/
def counted {α : Type} (p : Reader α) : Reader (List α) := do
  let n ← u16
  many n.toNat p

/-- Read from the start of a byte list; bytes after the value are left alone. -/
def run {α : Type} (p : Reader α) (bytes : List UInt8) : Except ReadError α :=
  match p ⟨0, bytes⟩ with
  | .ok (a, _) => .ok a
  | .error e => .error e

/-! ### No reader gives bytes back -/

/-- A reader that never leaves more bytes than it found. -/
def Shrinks {α : Type} (p : Reader α) : Prop :=
  ∀ s a s', p s = .ok (a, s') → s'.rest.length ≤ s.rest.length

theorem shrinks_pure {α : Type} (a : α) : Shrinks (pure a : Reader α) := by
  intro s b s' h
  cases h
  exact Nat.le_refl _

theorem shrinks_fail {α : Type} (e : ReadError) : Shrinks (fail e : Reader α) := by
  intro s a s' h
  cases h

/-- Reading `p` and then `f` hands the rest of the first input to the second. -/
theorem bind_apply {α β : Type} (p : Reader α) (f : α → Reader β) (s : Input) :
    (p >>= f) s =
      match p s with
      | .ok (a, t) => f a t
      | .error e => .error e := by
  show (p s >>= fun r => f r.1 r.2) = _
  cases p s <;> rfl

theorem Shrinks.bind {α β : Type} {p : Reader α} {f : α → Reader β} (hp : Shrinks p)
    (hf : ∀ a, Shrinks (f a)) : Shrinks (p >>= f) := by
  intro s b s' h
  rw [bind_apply] at h
  split at h
  · rename_i a t hs
    exact Nat.le_trans (hf a t b s' h) (hp s a t hs)
  · cases h

theorem Shrinks.map {α β : Type} {p : Reader α} (f : α → β) (hp : Shrinks p) :
    Shrinks (f <$> p) := by
  have h : (f <$> p) = (p >>= fun a => pure (f a)) := rfl
  rw [h]
  exact hp.bind fun a => shrinks_pure (f a)

theorem shrinks_u8 : Shrinks u8 := by
  intro s a s' h
  unfold u8 at h
  split at h
  · cases h
  · rename_i heq
    cases h
    simp [heq]

theorem Shrinks.collect {α : Type} {p : Reader α} (hp : Shrinks p) (n : Nat) :
    ∀ (acc : List α) (s : Input) (as : List α) (s' : Input),
      Reader.collect p n acc s = .ok (as, s') → s'.rest.length ≤ s.rest.length := by
  induction n with
  | zero =>
    intro acc s as s' h
    cases h
    exact Nat.le_refl _
  | succ n ih =>
    intro acc s as s' h
    unfold Reader.collect at h
    split at h
    · cases h
    · rename_i a t hs
      exact Nat.le_trans (ih _ t as s' h) (hp s a t hs)

theorem Shrinks.many {α : Type} {p : Reader α} (hp : Shrinks p) (n : Nat) : Shrinks (many n p) :=
  fun s as s' h => hp.collect n [] s as s' h

theorem shrinks_bytes (n : Nat) : Shrinks (bytes n) := shrinks_u8.many n

theorem shrinks_nat (width : Nat) : Shrinks (nat width) :=
  (shrinks_bytes width).bind fun _ => shrinks_pure _

theorem shrinks_u16 : Shrinks u16 := (shrinks_nat 2).map _

theorem shrinks_u32 : Shrinks u32 := (shrinks_nat 4).map _

theorem shrinks_i8 : Shrinks i8 := shrinks_u8.map _

theorem shrinks_i16 : Shrinks i16 := shrinks_u16.map _

theorem shrinks_i32 : Shrinks i32 := shrinks_u32.map _

end Reader

end Retrofit
