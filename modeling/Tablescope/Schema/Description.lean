import Tablescope.Schema.Table

/-!
# Table descriptions

A service describes a table loosely: everything is optional, types are texts, and a key is a list of
elements that refer to attributes by name. `TableDescription.resolve` makes a schema of it. The
first element of a role is the one that counts, its type is that of the first definition with its
name, and an index without a name is passed over, because nobody could select it.
-/

namespace Tablescope

/-- An attribute definition whose type has not been read yet. -/
structure AttributeDefinition where
  name : String
  type : String
  deriving DecidableEq, Repr

/-- An element of a key; a role that is neither hash nor range is none. -/
structure KeyElement where
  name : String
  role : Option KeyRole
  deriving DecidableEq, Repr

/-- The role that a text names. -/
def KeyRole.ofText? : String → Option KeyRole
  | "HASH" => some hash
  | "RANGE" => some range
  | _ => none

/-- An index as it is described. -/
structure IndexDescription where
  name : Option String
  key : List KeyElement
  deriving DecidableEq, Repr

/-- A table as it is described. -/
structure TableDescription where
  name : Option String
  definitions : List AttributeDefinition
  key : List KeyElement
  globalIndexes : List IndexDescription
  localIndexes : List IndexDescription
  deriving DecidableEq, Repr

/-- The attribute of a definition, if its type is one of the three. -/
def AttributeDefinition.resolve (d : AttributeDefinition) : Except SchemaError Attribute :=
  match ScalarType.ofDescriptor? d.type with
  | some type => .ok ⟨d.name, type⟩
  | none => .error (.unsupportedAttributeType d.name d.type)

namespace KeySchema

/-- The declared attribute of the first element with this role, if there is such an element. -/
def attributeFor? (definitions : List Attribute) (context : SchemaContext)
    (elements : List KeyElement) (role : KeyRole) : Except SchemaError (Option Attribute) :=
  match elements.find? (·.role = some role) with
  | none => .ok none
  | some element =>
    match TableSchema.definition? definitions element.name with
    | some a => .ok (some a)
    | none => .error (.undefinedAttribute element.name context)

/-- The key that the elements describe. -/
def ofElements (definitions : List Attribute) (context : SchemaContext)
    (elements : List KeyElement) : Except SchemaError KeySchema := do
  match ← attributeFor? definitions context elements .hash with
  | none => throw (.missingHashKey context)
  | some hash => return { hash, range := ← attributeFor? definitions context elements .range }

end KeySchema

namespace TableDescription

/-- The named indexes with their kinds, the global ones first. -/
def namedIndexes (d : TableDescription) : List (String × IndexKind × List KeyElement) :=
  let named (kind : IndexKind) (i : IndexDescription) := i.name.map (·, kind, i.key)
  d.globalIndexes.filterMap (named .globalIndex) ++ d.localIndexes.filterMap (named .localIndex)

/-- Adds a described index to a schema. -/
def addIndex (table : TableSchema) (index : String × IndexKind × List KeyElement) :
    Except SchemaError TableSchema := do
  let (name, kind, elements) := index
  let key ← KeySchema.ofElements table.definitions (.index name) elements
  table.addIndex { name, kind, key }

/-- The schema of the table that is described. -/
def resolve (d : TableDescription) : Except SchemaError TableSchema := do
  match d.name with
  | none => throw .missingTableName
  | some name =>
    let definitions ← d.definitions.mapM AttributeDefinition.resolve
    let key ← KeySchema.ofElements definitions (.table name) d.key
    let table ← TableSchema.ofKey name definitions key
    d.namedIndexes.foldlM addIndex table

end TableDescription

end Tablescope
