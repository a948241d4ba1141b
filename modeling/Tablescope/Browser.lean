import Tablescope.Key.Token
import Tablescope.Paging.Page

/-!
# The browser

Tables are browsed and edited one logical page and one item at a time. Every operation asks the
store for the schema of its table first, so it never works with a key of yesterday.

`browse` reads one page and gives each item with the token that names it; `get`, `delete` and `put`
work on single items; `template` makes a new item that only has to be filled in; `listTables` lists
all tables there are.
-/

namespace Tablescope

/-- A store and how its pages are put together. -/
structure Browser (σ : Type) where
  store : Store σ
  settings : PagingSettings

/-- What page is wanted. -/
structure BrowseRequest where
  table : String
  selection : Selection
  criteria : List Criterion
  mode : AccessMode
  start : Option Cursor
  pageSize : Option Nat

/-- An item with the token that names it. -/
structure BrowseItem where
  token : String
  item : Item
  deriving DecidableEq

/-- One page of a table. -/
structure BrowsePage where
  /-- The key attributes of the table, then the other attributes of the items by name. -/
  columns : List String
  items : List BrowseItem
  next : Option Cursor
  deriving DecidableEq

namespace BrowsePage

/-- The names of all attributes that some item has, ascending. -/
def attributeNames (items : List Item) : List String :=
  (NameMap.ofList (items.flatMap fun item => item.names.map (·, ()))).names

/-- The columns of a page of items. -/
def columnsOf (key : KeySchema) (items : List Item) : List String :=
  let keyNames := key.attributes.map Attribute.name
  keyNames ++ (attributeNames items).filter (· ∉ keyNames)

/-- An item with the token of its key. -/
def tokenize (key : KeySchema) (item : Item) : Except InputError BrowseItem :=
  (PrimaryKey.ofItem key item).map fun k => ⟨k.token, item⟩

end BrowsePage

/-- Checks that some criterion asks the hash attribute for one value. -/
def requireHashCondition (criteria : List Criterion) (key : KeySchema) : Except InputError Unit :=
  if criteria.any fun c => c.name = key.hash.name && c.operator = .equal then .ok ()
  else .error (.missingKeyCondition key.hash.name)

namespace BrowseRequest

/-- What the page is read from, once the schema of the table is known. -/
def query (r : BrowseRequest) (schema : TableSchema) : Except Error PageQuery := do
  let cursorAttributes ← (schema.cursorAttributes r.selection).mapError .schema
  let active ←
    match r.mode with
    | .scan => pure none
    | .query => some <$> (schema.keyOf r.selection).mapError .schema
  let expressions ← (compile r.criteria active).mapError .input
  active.forM fun key => (requireHashCondition r.criteria key).mapError .input
  return {
    table := r.table
    index := r.selection.index?
    mode := r.mode
    expressions
    cursorAttributes
    start := r.start
    pageSize := r.pageSize }

end BrowseRequest

namespace Browser

variable {σ : Type}

/-- The schema of a table. -/
def describe (b : Browser σ) (table : String) : Action σ TableSchema := b.store.describe table

/-- One page of a table or index. -/
def browse (b : Browser σ) (r : BrowseRequest) : Action σ BrowsePage := do
  let schema ← b.store.describe r.table
  let query ← .ofExcept (r.query schema)
  let page ← query.fetch b.store b.settings
  let items ← .ofInput (page.items.mapM (BrowsePage.tokenize schema.key))
  return { columns := BrowsePage.columnsOf schema.key page.items, items, next := page.next }

/-- The item that a token names, if there is one. -/
def get (b : Browser σ) (table token : String) : Action σ (Option Item) := do
  let schema ← b.store.describe table
  let key ← .ofInput (PrimaryKey.ofToken schema.key token)
  b.store.get table key.toItem

/-- Deletes the item that a token names, if there is one. -/
def delete (b : Browser σ) (table token : String) : Action σ Unit := do
  let schema ← b.store.describe table
  let key ← .ofInput (PrimaryKey.ofToken schema.key token)
  b.store.delete table key.toItem

/-- Puts an item, which must have a key, and gives the key. -/
def put (b : Browser σ) (table : String) (item : Item) : Action σ PrimaryKey := do
  let schema ← b.store.describe table
  let key ← .ofInput (PrimaryKey.ofItem schema.key item)
  b.store.put table item
  return key

/-- An item with nothing but blank key attributes. -/
def template (b : Browser σ) (table : String) : Action σ Item := do
  let schema ← b.store.describe table
  return .ofEntries (schema.key.attributes.map fun a => (a.name, a.type.blank))

/-- The names of all tables. -/
def listTables (b : Browser σ) : Action σ (List String) := do
  let trips := b.settings.roundTrips
  let (names, _) ← .gather b.store.listTableNames (fun _ => False) trips trips [] none
  return names

end Browser

end Tablescope
