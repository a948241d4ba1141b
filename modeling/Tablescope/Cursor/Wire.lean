import Tablescope.Attribute.Wire
import Tablescope.Cursor.Basic
import Tablescope.Text.Percent

/-!
# Cursors on the wire

A cursor is written as a JSON object in compact form, one member for each entry and in their order,
such as `"id"` with the value `"S"` and `"a"`; percent-coded, the text fits into a URL.

Reading is strict. The text must be one JSON object, its names all different, each value an object
with one member `S`, `N` or `B`, a number in range, strict base64. Members are judged one by one
from the left: a member that is well written is first tested for a name that occurred before and
then for its number or base64, before anything behind it is looked at.
-/

namespace Tablescope.Cursor

/-! ### Writing -/

/-- Puts a value under a name: where the name is, or else at the end. -/
def upsert (acc : List Entry) (e : Entry) : List Entry :=
  if acc.any (·.1 = e.1) then acc.map fun f => if f.1 = e.1 then e else f else acc ++ [e]

/-- The entries with each name once, at its first place and with its last value. -/
def members (c : Cursor) : List Entry := c.entries.foldl upsert []

/-- The JSON of a cursor. -/
def json (c : Cursor) : Json := .object (c.members.map fun e => (e.1, e.2.toJson))

/-- The JSON text of a cursor. -/
def toJson (c : Cursor) : String := c.json.compact

/-- The text of a cursor for a URL. -/
def encode (c : Cursor) : String := Text.Percent.encode c.toJson

/-! ### Reading -/

/-- The scalar of this type with this text. -/
def readScalar (name text : String) : ScalarType → Except CursorFault Scalar
  | .text => .ok (.text text)
  | .number => if isNumber text then .ok (.number text) else .error (.notANumber name text)
  | .binary =>
    match Text.Base64.decode? text with
    | some bytes => .ok (.binary bytes)
    | none => .error (.notBase64 name)

/-- The entry of a member, behind those already read. -/
def readEntry (seen : List Entry) (name tag text : String) : Except CursorFault Entry :=
  match ScalarType.ofDescriptor? tag with
  | none => .error .malformed
  | some type =>
    if seen.any (·.1 = name) then .error (.duplicate name)
    else (readScalar name text type).map (name, ·)

/-- The entries of all members, those already read first, up to the end of the text. -/
def readMembers (seen : List Entry) : List Json.Token → Except CursorFault (List Entry)
  | .text name :: .colon :: .openObject :: .text tag :: .colon :: .text text :: .closeObject ::
      rest => do
    let e ← readEntry seen name tag text
    match rest with
    | .comma :: rest => readMembers (seen ++ [e]) rest
    | [.closeObject] => return seen ++ [e]
    | _ => throw .malformed
  | _ => .error .malformed

/-- The cursor that the tokens of a text write. -/
def ofTokens : List Json.Token → Except CursorFault Cursor
  | [.openObject, .closeObject] => .ok ⟨[]⟩
  | .openObject :: rest => (readMembers [] rest).map Cursor.mk
  | _ => .error .malformed

/-- The cursor that a JSON text writes. -/
def parse (text : String) : Except InputError Cursor :=
  (ofTokens (Json.scan .strict text.toList)).mapError .invalidCursor

/-- The cursor that a percent-coded text writes. -/
def decode (text : String) : Except InputError Cursor :=
  match Text.Percent.decode text with
  | .ok json => parse json
  | .error fault => .error (.invalidCursor (.notUtf8 fault))

end Tablescope.Cursor
