/-!
# Names

Class names have two spellings: internal ones separate packages by slashes, dotted ones by dots.
Inside a class file a name is a run of bytes, and counts as text only if the bytes are UTF-8.
-/

namespace Retrofit

/-- The text that the bytes spell, if they are UTF-8. -/
def textOfBytes? (bytes : List UInt8) : Option String := String.fromUTF8? ⟨bytes.toArray⟩

/-- The UTF-8 bytes of a text. -/
def bytesOfText (text : String) : List UInt8 := text.toUTF8.data.toList

namespace ClassName

/-- The dotted spelling of a name. -/
def dotted (name : String) : String := name.map fun c => if c = '/' then '.' else c

/-- The internal spelling of a name. -/
def internal (name : String) : String := name.map fun c => if c = '.' then '/' else c

/-- The part of an internal name after its last slash. -/
def simple (name : String) : String :=
  String.ofList (name.toList.reverse.takeWhile (· ≠ '/')).reverse

end ClassName

end Retrofit
