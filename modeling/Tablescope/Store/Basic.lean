import Tablescope.Cursor.Basic
import Tablescope.Filter.Expression
import Tablescope.Schema.Table
import Tablescope.Store.Chain

/-!
# Stores

A store holds tables. It can be asked for six things: the schema of a table, one physical reading of
a table or index, one item by its key, to put or delete an item, and one page of table names. A
physical reading evaluates a limited number of items behind its start, gives those that match and
says how far it got, unless it got to the end.
-/

namespace Tablescope

/-- How a table or index is read. -/
inductive AccessMode where
  /-- Through all items; every criterion is a filter. -/
  | scan
  /-- Through the items of one hash value; criteria on the key become the key condition. -/
  | query
  deriving DecidableEq, Repr

namespace AccessMode

/-- The name of the operation that reads so. -/
def operation : AccessMode → String
  | scan => "Scan"
  | query => "Query"

/-- The mode that a text names. -/
def parse : String → Except InputError AccessMode
  | "scan" => .ok scan
  | "query" => .ok query
  | text => .error (.unknownAccessMode text)

end AccessMode

/-- One physical reading. -/
structure FetchRequest where
  table : String
  /-- The index to read; none reads the table itself. -/
  index : Option String
  mode : AccessMode
  expressions : ExpressionSet
  /-- The place to resume from; none starts at the beginning. -/
  start : Option Cursor
  /-- How many items are evaluated at most. -/
  limit : Nat
  deriving DecidableEq, Repr

/-- What one physical reading gives: the items that match, in the order of the store, and how far
the reading got. -/
abbrev Batch := Portion Item Cursor

/-- One page of table names, and the name that the next page is asked for by. -/
abbrev TablePage := Portion String String

/-- The operations of a store whose state is a `σ`. -/
structure Store (σ : Type) where
  describe : String → Action σ TableSchema
  fetch : FetchRequest → Action σ Batch
  get : String → Item → Action σ (Option Item)
  put : String → Item → Action σ Unit
  delete : String → Item → Action σ Unit
  listTableNames : Option String → Action σ TablePage

end Tablescope
