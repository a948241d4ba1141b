import Tablescope.Text.Hex
import Tablescope.Text.Utf8

/-!
# Percent coding

A text that travels in a URL keeps its letters, digits, `-`, `_`, `.` and `~`; every other byte of
its UTF-8 form is written `%XX` with upper-case digits. Decoding is more liberal: digits of either
case are read, and a `%` that no two hexadecimal digits follow stands for itself.
-/

namespace Tablescope.Text.Percent

/-- Characters that travel as they are: ASCII letters, digits and `-_.~`. -/
def isUnreserved (c : Char) : Bool :=
  c.isAlphanum || c == '-' || c == '_' || c == '.' || c == '~'

/-- How one byte is written. -/
def encodeByte (b : UInt8) : List Char :=
  let c := Char.ofNat b.toNat
  if isUnreserved c then [c] else ['%', Hex.upper (b.toNat / 16), Hex.upper (b.toNat % 16)]

/-- How a list of characters is written. -/
def encodeChars (cs : List Char) : List Char := (Utf8.encodeChars cs).flatMap encodeByte

/-- How a text is written. -/
def encode (s : String) : String := String.ofList (encodeChars s.toList)

/-- The bytes that a list of characters stands for. -/
def decodeChars : List Char → List UInt8
  | [] => []
  | '%' :: h :: l :: rest =>
    match Hex.value? h, Hex.value? l with
    | some m, some n => UInt8.ofNat (16 * m + n) :: decodeChars rest
    | _, _ => 0x25 :: decodeChars (h :: l :: rest)
  | c :: rest => String.utf8EncodeChar c ++ decodeChars rest

/-- The text that a percent-coded text stands for, or the first fault in its bytes. -/
def decode (s : String) : Except Utf8.Fault String := Utf8.decode (decodeChars s.toList)

end Tablescope.Text.Percent
