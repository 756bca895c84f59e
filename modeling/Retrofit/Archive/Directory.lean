import Retrofit.Archive.Extra
import Retrofit.Archive.Text
import Retrofit.Packed

/-!
# Directories

The directory of an archive lists descriptions of its entries. It stands near the end and is found
by the record that closes it; a large directory is closed by a record of its own, which a locator in
front of the closing record leads to. Something else may stand in front of the archive, so where the
archive begins follows from where the directory is found.
-/

namespace Retrofit.Archive

/-- Where a directory starts, how many descriptions it has, and where the archive begins. -/
structure Directory where
  base : Nat
  start : Nat
  count : Nat

namespace Directory

/-! ### Closing records -/

/-- Whether the mark stands at `start`. -/
def hasMark (data : Array UInt8) (mark start : Nat) : Bool :=
  Packed.number? data start 4 == some mark

/-- The first place from `start` on, and in front of `stop`, at which the mark stands. -/
def findMark? (data : Array UInt8) (mark start stop : Nat) : Option Nat :=
  Packed.first? (fun n => if hasMark data mark n ∧ n + 4 ≤ stop then some n else none)
    (stop - start) start

/-- The directory that the record at `closing` closes. An empty directory can be anywhere; otherwise
its first description is looked for from the given offset on. -/
def small? (data : Array UInt8) (closing : Nat) : Option Directory := do
  let disk ← Packed.number? data (closing + 4) 2
  let home ← Packed.number? data (closing + 6) 2
  let count ← Packed.number? data (closing + 8) 2
  let total ← Packed.number? data (closing + 10) 2
  let offset ← Packed.number? data (closing + 16) 4
  let base ←
    if total = 0 then pure (closing - offset)
    else do
      let first ← findMark? data descriptionMark offset closing
      pure (first - offset)
  if disk = home then return ⟨base, base + offset, count⟩ else none

/-- The directory that the record at `closing` closes, if the record fills the space up to the
locator, which gives its offset and its disk. -/
def large? (data : Array UInt8) (offset disk locator closing : Nat) : Option Directory := do
  let size ← Packed.number? data (closing + 4) 8
  let home ← Packed.number? data (closing + 20) 4
  let total ← Packed.number? data (closing + 32) 8
  let start ← Packed.number? data (closing + 48) 8
  if hasMark data wideClosingMark closing ∧ 44 ≤ size ∧ size + 12 = locator - closing ∧
      home = disk ∧ 46 * total + start ≤ closing then
    return ⟨closing - offset, closing - offset + start, total⟩
  else none

/-- Whether the record that closes a large directory agrees with itself. -/
def isSound (data : Array UInt8) (closing : Nat) : Bool :=
  match Packed.number? data (closing + 12) 2, Packed.number? data (closing + 14) 2,
    Packed.number? data (closing + 16) 4, Packed.number? data (closing + 20) 4,
    Packed.number? data (closing + 24) 8, Packed.number? data (closing + 32) 8 with
  | some made, some needed, some disk, some home, some count, some total =>
    needed ≤ made && disk == home && count ≤ total
  | _, _, _, _, _, _ => false

/-- The large directory that the locator leads to. The record that closes it is looked for from the
given offset on. -/
def located? (data : Array UInt8) (locator : Nat) : Option Directory := do
  let disk ← Packed.number? data (locator + 4) 4
  let offset ← Packed.number? data (locator + 8) 8
  let disks ← Packed.number? data (locator + 16) 4
  if locator ≤ offset ∨ 1 < disks then none
  else
    let (closing, d) ← Packed.first?
      (fun n => (large? data offset disk locator n).map fun d => (n, d)) (locator - offset) offset
    if isSound data closing then return d else none

/-- The directory that belongs to the closing record at `closing`. A number at its limit says that
there may be a locator. -/
def closed? (data : Array UInt8) (closing : Nat) : Option Directory := do
  let total ← Packed.number? data (closing + 10) 2
  let offset ← Packed.number? data (closing + 16) 4
  let commentSize ← Packed.number? data (closing + 20) 2
  if ¬ hasMark data closingMark closing ∨ data.size < closing + 22 + commentSize then none
  else if (total = 0xffff ∨ offset = 0xffffffff) ∧ 20 ≤ closing ∧
      hasMark data locatorMark (closing - 20) then
    located? data (closing - 20)
  else small? data closing

/-! ### Descriptions -/

/-- The method of an entry whose fields give its cipher. -/
def cipherMethod : Nat := 99

/-- The description of an entry at `start`, and the place behind it. The entry has to start in front
of the directory. -/
def describe? (data : Array UInt8) (d : Directory) (start : Nat) : Option (ArchiveEntry × Nat) := do
  let flags ← Packed.number? data (start + 8) 2
  let method ← Packed.number? data (start + 10) 2
  let checksum ← Packed.number? data (start + 16) 4
  let storedSize ← Packed.number? data (start + 20) 4
  let size ← Packed.number? data (start + 24) 4
  let nameSize ← Packed.number? data (start + 28) 2
  let extraSize ← Packed.number? data (start + 30) 2
  let commentSize ← Packed.number? data (start + 32) 2
  let offset ← Packed.number? data (start + 42) 4
  let name ← Packed.stretch? data (start + 46) nameSize
  let extra ← Packed.stretch? data (start + 46 + nameSize) extraSize
  let comment ← Packed.stretch? data (start + 46 + nameSize + extraSize) commentSize
  let isUtf8 := flags.testBit 11
  let e : ArchiveEntry := {
    name := Text.ofBytes isUtf8 name.toList
    rawName := name.toList
    comment := Text.ofBytes isUtf8 comment.toList
    isEncrypted := flags.testBit 0
    strength := none
    method
    checksum := UInt32.ofNat checksum
    size
    storedSize
    offset }
  let e ← Extra.amend? e extra.toList
  let e := { e with offset := d.base + e.offset }
  if ¬ hasMark data descriptionMark start ∨ (e.method = cipherMethod ∧ e.strength = none) ∨
      d.start ≤ e.offset then none
  else return (e, start + 46 + nameSize + extraSize + commentSize)

/-- The descriptions of `count` entries one behind the other. -/
def describeAll? (data : Array UInt8) (d : Directory) : Nat → Nat → Option (List ArchiveEntry)
  | 0, _ => some []
  | count + 1, start => do
    let (entry, next) ← describe? data d start
    let rest ← describeAll? data d count next
    return entry :: rest

/-- The entries of the last directory that is closed in the first `n` bytes, and that can be
read. -/
def entries? (data : Array UInt8) : Nat → Option (List ArchiveEntry)
  | 0 => none
  | n + 1 =>
    match (closed? data n).bind fun d => describeAll? data d d.count d.start with
    | some entries => some entries
    | none => entries? data n

end Directory

end Retrofit.Archive
