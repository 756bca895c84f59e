/-!
# Text in archives

The names and comments of entries are bytes: UTF-8 if the entry says so, and otherwise a code page
of 256 characters.
-/

namespace Retrofit.Archive.Text

/-! ### The code page -/

/-- The characters of the bytes from 128 on. -/
def upperPage : Array Char :=
  ("ÇüéâäàåçêëèïîìÄÅÉæÆôöòûùÿÖÜ¢£¥₧ƒáíóúñÑªº¿⌐¬½¼¡«»░▒▓│┤╡╢╖╕╣║╗╝╜╛┐" ++
    "└┴┬├─┼╞╟╚╔╩╦╠═╬╧╨╤╥╙╘╒╓╫╪┘┌█▄▌▐▀αßΓπΣσµτΦΘΩδ∞φε∩≡±≥≤⌠⌡÷≈°∙·√ⁿ²■\u00a0").toList.toArray

/-- The character of a byte: the lower half of the page is ASCII. -/
def pageChar (b : UInt8) : Char :=
  if b < 128 then Char.ofNat b.toNat else upperPage[b.toNat - 128]?.getD ' '

/-- The text of bytes of the code page. -/
def ofPage (bytes : List UInt8) : String := String.ofList (bytes.map pageChar)

/-! ### UTF-8 -/

/-- Where a byte is: between two characters, or within one of which `left` bytes are to come, the
next one from `low` to `high`. -/
inductive Place where
  | between
  | within (left value low high : Nat)

/-- What stands for bytes that make up no character. -/
def replacement : Char := '\ufffd'

/-- A byte at which a character starts. -/
def lead (b : Nat) : List Char × Place :=
  if b < 0x80 then ([Char.ofNat b], .between)
  else if b < 0xc2 then ([replacement], .between)
  else if b < 0xe0 then ([], .within 1 (b % 32) 0x80 0xbf)
  else if b < 0xf0 then
    ([], .within 2 (b % 16) (if b = 0xe0 then 0xa0 else 0x80) (if b = 0xed then 0x9f else 0xbf))
  else if b < 0xf5 then
    ([], .within 3 (b % 8) (if b = 0xf0 then 0x90 else 0x80) (if b = 0xf4 then 0x8f else 0xbf))
  else ([replacement], .between)

/-- The characters that are complete, or broken, with one more byte. A byte that breaks a character
starts the next one. -/
def step (p : Place) (b : Nat) : List Char × Place :=
  match p with
  | .between => lead b
  | .within left value low high =>
    if low ≤ b ∧ b ≤ high then
      if left = 1 then ([Char.ofNat (64 * value + b % 64)], .between)
      else ([], .within (left - 1) (64 * value + b % 64) 0x80 0xbf)
    else
      let (chars, p) := lead b
      (replacement :: chars, p)

def chars : Place → List UInt8 → List Char
  | .between, [] => []
  | .within .., [] => [replacement]
  | p, b :: bytes =>
    let (front, p) := step p b.toNat
    front ++ chars p bytes

/-- The text of bytes in UTF-8. One replacement stands for as many bytes as could have begun a
character. -/
def ofUtf8 (bytes : List UInt8) : String := String.ofList (chars .between bytes)

/-- The text of bytes that say whether they are UTF-8. -/
def ofBytes (isUtf8 : Bool) (bytes : List UInt8) : String :=
  if isUtf8 then ofUtf8 bytes else ofPage bytes

end Retrofit.Archive.Text
