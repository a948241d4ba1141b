import Tablescope.Key.Primary

/-!
# Cursors

A cursor says where a reading resumes: behind the item that has these key attributes. Its entries
have an order, which is kept wherever the cursor goes. A cursor without entries starts from the
beginning. Three ways lead to a cursor: from the key of an item, from the attributes of an item that
a continuation needs, and from the map in which a store reports how far it got. A map has no order
of its own, so the entries are then put in the order of their names.
-/

namespace Tablescope

/-- Where a reading resumes. -/
structure Cursor where
  entries : List Entry
  deriving DecidableEq, Repr

namespace Cursor

/-- Whether there are no entries. -/
def isEmpty (c : Cursor) : Bool := c.entries.isEmpty

/-- The value of an attribute; the first, if the name occurs twice. -/
def get? (c : Cursor) (name : String) : Option Scalar :=
  (c.entries.find? (·.1 = name)).map Prod.snd

/-- The attributes as an item; of entries with one name the last stays. -/
def toItem (c : Cursor) : Item := .ofEntries c.entries

/-- The cursor of a key. -/
def ofKey (k : PrimaryKey) : Cursor := ⟨k.entries⟩

/-- The cursor of these attributes of an item, in their order. -/
def ofItem (item : Item) (attributes : List Attribute) : Except InputError Cursor :=
  (attributes.mapM (Attribute.entryOf item)).map Cursor.mk

/-- The entry of an attribute in a reported map. -/
def scalarEntry (e : String × Value) : Except InputError Entry :=
  match e.2.scalar? with
  | some s => .ok (e.1, s)
  | none => .error (.invalidCursor (.notAScalar e.1))

/-- The cursor of the entries of a map, in whatever order they come. -/
def ofEntries (es : List (String × Value)) : Except InputError Cursor :=
  (es.mapM scalarEntry).map fun es => ⟨es.mergeSort fun a b => a.1 ≤ b.1⟩

/-- The cursor of a map of attributes. -/
def ofMap (m : Item) : Except InputError Cursor := ofEntries m.toList

end Cursor

end Tablescope
