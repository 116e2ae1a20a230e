/-!
# Bytes and text
-/

namespace XsdCatalog.Text

/-- The UTF-8 bytes of a text. -/
def toBytes (s : String) : List UInt8 :=
  s.toUTF8.data.toList

/-- The text that bytes encode; none if they are not valid UTF-8. -/
def ofBytes? (bytes : List UInt8) : Option String :=
  String.fromUTF8? ⟨bytes.toArray⟩

/-- The byte order mark. -/
def byteOrderMark : Char := '\ufeff'

/-- A text without one leading byte order mark. -/
def dropByteOrderMark (s : String) : String :=
  match s.toList with
  | c :: cs => if c = byteOrderMark then String.ofList cs else s
  | [] => s

end XsdCatalog.Text
