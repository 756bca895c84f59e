import Retrofit.Archive.Entry
import Retrofit.Checksum
import Retrofit.ClassName

/-!
# Extra fields

The description of an entry can be amended by fields, each with a kind and a length. A field whose
bytes run out ends the fields, and what was amended before stays; a field that contradicts itself
makes the whole description unusable.
-/

namespace Retrofit.Archive.Extra

/-- What comes of fields: an entry and the fields that follow, an entry for good, or a
contradiction. -/
inductive Outcome where
  | more (e : ArchiveEntry) (rest : List UInt8)
  | done (e : ArchiveEntry)
  | broken

/-- Take `n` bytes off the front, and go on with them; if they run out, the entry stays as it is. -/
def withBytes (e : ArchiveEntry) (n : Nat) (rest : List UInt8)
    (go : List UInt8 → List UInt8 → Outcome) : Outcome :=
  let front := rest.take n
  if front.length < n then .done e else go front (rest.drop n)

/-- The number that the bytes stand for, the lowest one first. -/
def number (bytes : List UInt8) : Nat := bytes.foldr (fun b n => b.toNat + 256 * n) 0

/-- Pass over `n` bytes. -/
def pass (e : ArchiveEntry) (n : Nat) (rest : List UInt8) : Outcome :=
  withBytes e n rest fun _ rest => .more e rest

/-! ### Large numbers -/

/-- A number of the description that can be too large for its four bytes. -/
inductive Wide where
  | size
  | storedSize
  | offset

namespace Wide

def get (e : ArchiveEntry) : Wide → Nat
  | size => e.size
  | storedSize => e.storedSize
  | offset => e.offset

def set (e : ArchiveEntry) (n : Nat) : Wide → ArchiveEntry
  | size => { e with size := n }
  | storedSize => { e with storedSize := n }
  | offset => { e with offset := n }

end Wide

/-- Numbers of eight bytes. All three of them are there if the field has room for them, and otherwise
those that are at their limit. -/
def wides (length : Nat) : List Wide → Nat → ArchiveEntry → List UInt8 → Outcome
  | [], used, e, rest => if length < used then .broken else pass e (length - used) rest
  | w :: ws, used, e, rest =>
    if 24 ≤ length ∨ w.get e = 0xffffffff then
      withBytes e 8 rest fun bytes rest => wides length ws (used + 8) (w.set e (number bytes)) rest
    else wides length ws used e rest

/-! ### Times -/

/-- Three times of eight bytes, in a part with a tag and a length of its own. -/
def fineTimes (e : ArchiveEntry) (length : Nat) (rest : List UInt8) : Outcome :=
  if length ≠ 32 then .broken
  else
    withBytes e 4 rest fun _ rest =>
    withBytes e 2 rest fun tag rest =>
    if number tag ≠ 1 then .broken
    else
      withBytes e 2 rest fun size rest =>
      if number size ≠ 24 then .broken else pass e 24 rest

/-- Times of four bytes. The lowest three flags say which of them there are; the length goes by the
flags, unless there is one time only. -/
def coarseTimes (e : ArchiveEntry) (length : Nat) (rest : List UInt8) : Outcome :=
  withBytes e 1 rest fun flags rest =>
  let flags := number flags
  let count := ((List.range 8).filter fun n => flags.testBit n).length
  if (length ≠ 5 ∧ length ≠ 1 + 4 * count) ∨ 8 ≤ flags then .broken else pass e (length - 1) rest

/-! ### Ciphers and text -/

/-- The cipher of an entry, and the method by which its content was packed before. -/
def cipher (e : ArchiveEntry) (length : Nat) (rest : List UInt8) : Outcome :=
  if length ≠ 7 then .broken
  else
    withBytes e 2 rest fun version rest =>
    withBytes e 2 rest fun vendor rest =>
    withBytes e 1 rest fun strength rest =>
    withBytes e 2 rest fun method rest =>
    if number vendor = 0x4541 ∧ (number version = 1 ∨ number version = 2) ∧
        1 ≤ number strength ∧ number strength ≤ 3 then
      .more { e with strength := some (number strength), method := number method } rest
    else .broken

/-- Text in UTF-8 that takes the place of other bytes, whose checksum it has. -/
def text (e : ArchiveEntry) (instead : List UInt8) (set : List UInt8 → String → ArchiveEntry)
    (length : Nat) (rest : List UInt8) : Outcome :=
  withBytes e 1 rest fun _ rest =>
  withBytes e 4 rest fun checksum rest =>
  if length < 5 then .broken
  else
    withBytes e (length - 5) rest fun bytes rest =>
    match textOfBytes? bytes with
    | some text =>
      if (Checksum.crc32 instead).toNat = number checksum then .more (set bytes text) rest
      else .broken
    | none => .broken

/-! ### Fields -/

/-- Amend an entry by a field of a kind. -/
def field (e : ArchiveEntry) (kind length : Nat) (rest : List UInt8) : Outcome :=
  match kind with
  | 0x0001 => wides length [.size, .storedSize, .offset] 0 e rest
  | 0x000a => fineTimes e length rest
  | 0x5455 => coarseTimes e length rest
  | 0x6375 =>
    text e (bytesOfText e.comment) (fun _ text => { e with comment := text }) length rest
  | 0x7075 =>
    text e e.rawName (fun bytes text => { e with rawName := bytes, name := text }) length rest
  | 0x9901 => cipher e length rest
  | _ => pass e length rest

/-- Amend an entry by fields one after the other. Each takes up four bytes at least, so the number
of bytes is enough fuel. -/
def amendAll? : Nat → ArchiveEntry → List UInt8 → Option ArchiveEntry
  | 0, e, _ => some e
  | fuel + 1, e, rest =>
    let outcome :=
      withBytes e 2 rest fun kind rest =>
      withBytes e 2 rest fun length rest => field e (number kind) (number length) rest
    match outcome with
    | .more e rest => amendAll? fuel e rest
    | .done e => some e
    | .broken => none

/-- Amend an entry by its extra fields. -/
def amend? (e : ArchiveEntry) (fields : List UInt8) : Option ArchiveEntry :=
  amendAll? fields.length e fields

end Retrofit.Archive.Extra
