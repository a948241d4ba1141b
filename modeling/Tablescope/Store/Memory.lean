import Tablescope.Store.Basic

/-!
# Stores in memory

One table whose items are kept in a list. A reading evaluates items in the order of the list, from
behind the first item that has all attributes of the start cursor; where there is no start, or no
such item, it begins at the first. Expressions are not interpreted: a predicate on items tells which
of the evaluated items are given back. If items remain, the reading ends with the cursor attributes
of the last item that was evaluated, those that it has.

An item is put in the place of the item with the same key, or else at the end.
-/

namespace Tablescope

/-- What a store in memory is made with and does not change. -/
structure MemoryStore where
  schema : TableSchema
  /-- The evaluated items that a reading gives back. -/
  isMatch : Item → Bool
  /-- The readings that fail, counted from one. -/
  failingFetches : List Nat
  /-- The names that are listed. -/
  tableNames : List String
  /-- How many names one page has. -/
  namesPerPage : Nat

/-- What a store in memory remembers. -/
structure MemoryState where
  items : List Item
  /-- How many readings there were, failed ones included. -/
  fetches : Nat
  deriving DecidableEq

namespace MemoryStore

/-- Whether an item has all attributes of another with the same values. -/
def covers (item key : Item) : Bool := key.toList.all fun e => item.get? e.1 = some e.2

/-- The position of the first item that has these attributes. -/
def position? (items : List Item) (key : Item) : Option Nat := items.findIdx? (covers · key)

/-- Runs an action if the table is the one that is held. -/
def onTable {α : Type} (m : MemoryStore) (table : String) (x : Action MemoryState α) :
    Action MemoryState α :=
  if table = m.schema.name then x else .fail (.schema (.tableNotFound table))

/-- The cursor attributes that an item has, in the order of their names. -/
def lastKey (m : MemoryStore) (index : Option String) (item : Item) : Except Error Cursor := do
  let selection := index.elim .table .index
  let attributes ← (m.schema.cursorAttributes selection).mapError .schema
  let held := attributes.filterMap fun a => (item.get? a.name).map (a.name, ·)
  (Cursor.ofMap (.ofList held)).mapError .input

/-- The position at which a reading begins. -/
def startPosition (items : List Item) : Option Cursor → Nat
  | none => 0
  | some start => ((position? items start.toItem).map (· + 1)).getD 0

/-- One reading of the items. -/
def read (m : MemoryStore) (items : List Item) (request : FetchRequest) : Except Error Batch := do
  let rest := items.drop (startPosition items request.start)
  let evaluated := rest.take request.limit
  let last ←
    match evaluated.getLast? with
    | some item =>
      if evaluated.length < rest.length then some <$> m.lastKey request.index item else pure none
    | none => pure none
  return { items := evaluated.filter m.isMatch, last }

/-- The items after one was put. -/
def putItem (items : List Item) (key item : Item) : List Item :=
  match position? items key with
  | some i => items.set i item
  | none => items ++ [item]

/-- The items after one was deleted. -/
def deleteItem (items : List Item) (key : Item) : List Item :=
  match position? items key with
  | some i => items.eraseIdx i
  | none => items

/-- One page of the names behind a name, or from the first if there is no such name. -/
def namesAfter (m : MemoryStore) (start : Option String) : TablePage :=
  let first := (start.bind fun name => (m.tableNames.idxOf? name).map (· + 1)).getD 0
  let rest := m.tableNames.drop first
  let names := rest.take m.namesPerPage
  { items := names, last := if names.length < rest.length then names.getLast? else none }

/-- The operations of a store in memory. -/
def store (m : MemoryStore) : Store MemoryState where
  describe table := m.onTable table (pure m.schema)
  fetch request := fun s =>
    let t := { s with fetches := s.fetches + 1 }
    if t.fetches ∈ m.failingFetches then
      (.error (.transport request.mode.operation "injected failure"), t)
    else m.onTable request.table (fun t => (m.read t.items request, t)) t
  get table key := m.onTable table fun s => (.ok (s.items.find? (covers · key)), s)
  put table item := m.onTable table do
    let key ← .ofInput (PrimaryKey.ofItem m.schema.key item)
    fun s => (.ok (), { s with items := putItem s.items key.toItem item })
  delete table key := m.onTable table fun s =>
    (.ok (), { s with items := deleteItem s.items key })
  listTableNames start := pure (m.namesAfter start)

end MemoryStore

end Tablescope
