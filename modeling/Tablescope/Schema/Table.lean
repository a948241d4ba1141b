import Tablescope.Error

/-!
# Table schemas

What has to be known of a table to read it: its attribute definitions, its own key and the keys of
its secondary indexes. A schema is built key by key, and each key is accepted only if every
attribute of it is declared with the type it is used with; of definitions with one name the first
counts.

`cursorAttributes` lists what a continuation key consists of when a table or an index is read: the
key of the table, then what the index key adds to it.
-/

namespace Tablescope

/-- Whether an index spans all items of a table or those of one hash value. -/
inductive IndexKind where
  | globalIndex
  | localIndex
  deriving DecidableEq, Repr

/-- A secondary index and its key. -/
structure IndexSchema where
  name : String
  kind : IndexKind
  key : KeySchema
  deriving DecidableEq, Repr

/-- What is read: the table itself or one of its indexes. -/
inductive Selection where
  | table
  | index (name : String)
  deriving DecidableEq, Repr

namespace Selection

/-- The selection that a text asks for; `table` and nothing at all select the table. -/
def parse (text : String) : Selection :=
  if text = "table" ∨ text = "" then table else index text

/-- The name of the index that is read, if one is. -/
def index? : Selection → Option String
  | table => none
  | index name => some name

end Selection

/-- A table, its attribute definitions and its keys. -/
structure TableSchema where
  name : String
  definitions : List Attribute
  key : KeySchema
  indexes : List IndexSchema
  deriving DecidableEq, Repr

namespace TableSchema

/-- The definition of the attribute of this name; the first, if there are several. -/
def definition? (definitions : List Attribute) (name : String) : Option Attribute :=
  definitions.find? (·.name = name)

/-- Checks that an attribute is declared with the type it is used with. -/
def checkAttribute (definitions : List Attribute) (context : SchemaContext) (used : Attribute) :
    Except SchemaError Unit :=
  match definition? definitions used.name with
  | none => .error (.undefinedAttribute used.name context)
  | some declared =>
    if declared.type = used.type then .ok ()
    else .error (.conflictingAttributeType used.name declared.type used.type context)

/-- Checks every attribute of a key, hash first. -/
def checkKey (definitions : List Attribute) (context : SchemaContext) (key : KeySchema) :
    Except SchemaError Unit :=
  key.attributes.forM (checkAttribute definitions context)

/-- The schema of a table without indexes. -/
def ofKey (name : String) (definitions : List Attribute) (key : KeySchema) :
    Except SchemaError TableSchema := do
  checkKey definitions (.table name) key
  return { name, definitions, key, indexes := [] }

/-- The schema with one more index, behind those that it has. -/
def addIndex (table : TableSchema) (index : IndexSchema) : Except SchemaError TableSchema := do
  checkKey table.definitions (.index index.name) index.key
  return { table with indexes := table.indexes ++ [index] }

/-- The schema of a table with indexes, added in order. -/
def ofParts (name : String) (definitions : List Attribute) (key : KeySchema)
    (indexes : List IndexSchema) : Except SchemaError TableSchema := do
  indexes.foldlM addIndex (← ofKey name definitions key)

/-- The key of what is selected; of indexes with one name the first is meant. -/
def keyOf (table : TableSchema) : Selection → Except SchemaError KeySchema
  | .table => .ok table.key
  | .index name =>
    match table.indexes.find? (·.name = name) with
    | some index => .ok index.key
    | none => .error (.unknownIndex table.name name)

/-- The attributes of a list and then those of another that it does not have. -/
def extend (attributes more : List Attribute) : List Attribute :=
  more.foldl (fun acc a => if a ∈ acc then acc else acc ++ [a]) attributes

/-- The attributes of a continuation key for a reading of the selection. -/
def cursorAttributes (table : TableSchema) (selection : Selection) :
    Except SchemaError (List Attribute) := do
  let key ← table.keyOf selection
  return extend table.key.attributes key.attributes

end TableSchema

end Tablescope
