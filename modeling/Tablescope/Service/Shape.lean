import Tablescope.Attribute.Wire
import Tablescope.Numeral.Double

/-!
# Shapes of documents

A service promises what its documents look like, member by member. `Shape.read` holds a document to
its promise, every part of it, also those that nobody asks for afterwards: one wrong member spoils
the whole document. Members that are not promised are passed over. A member may be `null`, an
element of a list or an entry of a map may not.

What is read is a `Content`, in which a member can be looked up. If a name occurs several times,
all occurrences are held to the shape and the last one counts.
-/

namespace Tablescope.Service

/-- What a part of a document has to look like. -/
inductive Shape where
  | text
  | bool
  /-- An integer of so many bits with a sign. -/
  | integer (bits : Nat)
  /-- A number of double precision; those that are not finite are written as texts. -/
  | double
  /-- A point in time, as a finite number of seconds. -/
  | time
  /-- Attributes with their values. -/
  | item
  | list (element : Shape)
  | map (element : Shape)
  | record (members : List (String × Shape))

/-- What a document says. -/
inductive Content where
  | null
  | text (s : String)
  /-- A truth value, a number or a time, of which only the form is of interest. -/
  | checked
  | item (i : Item)
  | list (elements : List Content)
  /-- The members of a record or the entries of a map, repetitions included. -/
  | record (members : List (String × Content))

namespace Content

/-- The text that this is. -/
def text? : Content → Option String
  | text s => some s
  | _ => none

/-- The item that this is. -/
def item? : Content → Option Item
  | item i => some i
  | _ => none

/-- The elements of a list; none for anything else, as where the list was left out. -/
def elements : Content → List Content
  | list es => es
  | _ => []

/-- The last member with this name; `null` where there is none. -/
def get (c : Content) (name : String) : Content :=
  match c with
  | record ms => ((ms.reverse.find? (·.1 = name)).map (·.2)).getD null
  | _ => null

end Content

namespace Shape

/-- The shape of the member with this name. -/
def member? (members : List (String × Shape)) (name : String) : Option Shape :=
  (members.find? (·.1 = name)).map (·.2)

mutual

/-- What a verbatim value of this shape says, where a bracket has this level in the document. -/
def read (level : Nat) (shape : Shape) : Json → Option Content
  | .string s =>
    match shape with
    | .text => (Json.unescape? s).map .text
    | .double =>
      match Json.unescape? s with
      | some t => if isNonFinite t then some .checked else none
      | none => none
    | _ => none
  | .bool _ =>
    match shape with
    | .bool => some .checked
    | _ => none
  | .number lexeme =>
    match shape with
    | .integer bits => if isInteger bits lexeme then some .checked else none
    | .double => some .checked
    | .time => if isNumber lexeme then some .checked else none
    | _ => none
  | .array es =>
    match shape with
    | .list element => (readElements (level + 1) element es).map .list
    | _ => none
  | .object ms =>
    match shape with
    | .item => (Item.ofVerbatim? level (.object ms)).map .item
    | .map element => (readEntries (level + 1) element ms).map .record
    | .record members => (readMembers (level + 1) members ms).map .record
    | _ => none
  | _ => none

/-- What the elements of a list say. -/
def readElements (level : Nat) (element : Shape) : List Json → Option (List Content)
  | [] => some []
  | e :: es => do
    let c ← read level element e
    let cs ← readElements level element es
    some (c :: cs)

/-- What the entries of a map say. -/
def readEntries (level : Nat) (element : Shape) :
    List (String × Json) → Option (List (String × Content))
  | [] => some []
  | (source, j) :: ms => do
    let name ← Json.unescape? source
    let c ← read level element j
    let cs ← readEntries level element ms
    some ((name, c) :: cs)

/-- What the members of a record say, without those that the record does not have. -/
def readMembers (level : Nat) (members : List (String × Shape)) :
    List (String × Json) → Option (List (String × Content))
  | [] => some []
  | (source, .null) :: ms => do
    let name ← Json.unescape? source
    let cs ← readMembers level members ms
    some ((name, .null) :: cs)
  | (source, j) :: ms => do
    let name ← Json.unescape? source
    match member? members name with
    | none => if Value.isPassable j then readMembers level members ms else none
    | some shape =>
      let c ← read level shape j
      let cs ← readMembers level members ms
      some ((name, c) :: cs)

end

/-- What a text says that is a document of this shape. -/
def parse? (shape : Shape) (text : String) : Option Content :=
  (Json.parseVerbatim? text).bind (read 1 shape)

end Shape

end Tablescope.Service
