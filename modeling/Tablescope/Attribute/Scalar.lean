import Tablescope.Numeral
import Tablescope.Text.Base64
import Tablescope.Text.Blank

/-!
# Scalars

The three kinds of value that a key attribute may have: text, a number, a byte string. A number is
kept as the text it was given in, so no digit is lost; byte strings are written in base64 wherever
a text is needed.

`ScalarType.coerce?` reads a raw text as a scalar of the type and `Scalar.render` gives the text
back: the raw text itself, or for a number the raw text without the blanks around it.
-/

namespace Tablescope

/-- The types of a scalar. -/
inductive ScalarType where
  | text
  | number
  | binary
  deriving DecidableEq, Repr

namespace ScalarType

/-- The letter by which a type is declared. -/
def descriptor : ScalarType → String
  | text => "S"
  | number => "N"
  | binary => "B"

/-- The type that a letter declares. -/
def ofDescriptor? : String → Option ScalarType
  | "S" => some text
  | "N" => some number
  | "B" => some binary
  | _ => none

end ScalarType

/-- A text, a number or a byte string. -/
inductive Scalar where
  | text (s : String)
  /-- A number, kept as the text it was given in. -/
  | number (numeral : String)
  | binary (bytes : List UInt8)
  deriving DecidableEq, Repr

namespace Scalar

/-- The type of a scalar. -/
def type : Scalar → ScalarType
  | text _ => .text
  | number _ => .number
  | binary _ => .binary

/-- A scalar as text. -/
def render : Scalar → String
  | text s => s
  | number numeral => numeral
  | binary bytes => Text.Base64.encode bytes

end Scalar

namespace ScalarType

/-- The scalar of this type that a raw text stands for. A number may have blanks around it. -/
def coerce? (type : ScalarType) (raw : String) : Option Scalar :=
  match type with
  | text => some (.text raw)
  | number =>
    let numeral := Text.trim raw
    if isNumber numeral then some (.number numeral) else none
  | binary => (Text.Base64.decode? raw).map .binary

/-- What a new item holds before anything is filled in: no text, zero, no bytes. -/
def blank : ScalarType → Scalar
  | text => .text ""
  | number => .number "0"
  | binary => .binary []

end ScalarType

end Tablescope
