import Tablescope.Schema.Description
import Tablescope.Service.Reply
import Tablescope.Store.Basic

/-!
# The store behind an endpoint

Each operation of a store becomes one request, which carries what is set and nothing else. An empty
key map is never sent, and one that is received counts as none; an absent list is an empty list. A
request that gets no reply and a reply that does not succeed both fail as the operation that was
asked for. So does an operation on a table whose name is blank, without a request.

A reading through all items sends no key condition, but it sends all names and values.
-/

namespace Tablescope.Service

/-! ### Bodies of requests -/

/-- The map of name placeholders, if it has entries. -/
def namesJson? (names : NameMap String) : Option Json :=
  if names.isEmpty then none
  else some (.object (names.toList.map fun e => (e.1, .string e.2)))

/-- The map of operand placeholders, if it has entries. -/
def valuesJson? (values : NameMap Scalar) : Option Json :=
  if values.isEmpty then none
  else some (.object (values.toList.map fun e => (e.1, e.2.toJson)))

/-- The start key of a reading; a cursor without entries is none. -/
def startKeyJson? (start : Option Cursor) : Option Json :=
  (start.filter (!·.isEmpty)).map fun c => c.toItem.toJson

/-- The members that are set. -/
def setMembers (members : List (String × Option Json)) : List (String × Json) :=
  members.filterMap fun m => m.2.map (m.1, ·)

/-- The request of one physical reading. -/
def fetchRequest (r : FetchRequest) : Request where
  operation :=
    match r.mode with
    | .scan => .scan
    | .query => .query
  members := setMembers [
    ("TableName", some (.string r.table)),
    ("IndexName", r.index.map .string),
    ("KeyConditionExpression",
      match r.mode with
      | .scan => none
      | .query => r.expressions.keyCondition?.map .string),
    ("FilterExpression", r.expressions.filter?.map .string),
    ("ExpressionAttributeNames", namesJson? r.expressions.names),
    ("ExpressionAttributeValues", valuesJson? r.expressions.values),
    ("ExclusiveStartKey", startKeyJson? r.start),
    ("Limit", some (.ofNat r.limit))]

/-! ### Replies -/

/-- The text that stands for a type that a reply does not give. -/
def unsetType : String := "no value was set"

/-- An attribute definition; a name that is not given is empty. -/
def definition (c : Content) : AttributeDefinition where
  name := (c.get "AttributeName").text?.getD ""
  type := (c.get "AttributeType").text?.getD unsetType

/-- A key element; a name that is not given is empty. -/
def keyElement (c : Content) : KeyElement where
  name := (c.get "AttributeName").text?.getD ""
  role := (c.get "KeyType").text?.bind KeyRole.ofText?

/-- An index. -/
def index (c : Content) : IndexDescription where
  name := (c.get "IndexName").text?
  key := (c.get "KeySchema").elements.map keyElement

/-- A table. -/
def table (c : Content) : TableDescription where
  name := (c.get "TableName").text?
  definitions := (c.get "AttributeDefinitions").elements.map definition
  key := (c.get "KeySchema").elements.map keyElement
  globalIndexes := (c.get "GlobalSecondaryIndexes").elements.map index
  localIndexes := (c.get "LocalSecondaryIndexes").elements.map index

/-- The table in a reply, if there is one. -/
def table? (c : Content) : Option TableDescription :=
  match c.get "Table" with
  | .null => none
  | t => some (table t)

/-- The items in a reply. -/
def items (c : Content) : List Item := (c.get "Items").elements.filterMap Content.item?

/-- The cursor of the last key in a reply; a key without attributes is none. -/
def lastCursor (c : Content) : Except InputError (Option Cursor) :=
  match (c.get "LastEvaluatedKey").item?.filter (!·.isEmpty) with
  | none => .ok none
  | some key => (Cursor.ofMap key).map some

/-- The page of table names in a reply. -/
def tablePage (c : Content) : TablePage where
  items := (c.get "TableNames").elements.filterMap Content.text?
  last := (c.get "LastEvaluatedTableName").text?

/-! ### Operations -/

variable {τ : Type}

/-- Sends a request and gives what the reply says. -/
def call (endpoint : Endpoint τ) (request : Request) : Action τ Content := fun t =>
  let (reply, t) := endpoint.send request t
  match reply with
  | none => (.error (.transport request.operation.name "no reply"), t)
  | some reply =>
    match reply.content? request.operation with
    | some c => (.ok c, t)
    | none => (.error (.transport request.operation.name "not the reply that was asked for"), t)

/-- Sends a request about a table, unless its name is blank. -/
def callTable (endpoint : Endpoint τ) (table : String) (request : Request) : Action τ Content :=
  if Text.trim table = "" then .fail (.transport request.operation.name "no table name")
  else call endpoint request

/-- The store behind an endpoint. -/
def store (endpoint : Endpoint τ) : Store τ where
  describe table := do
    let c ← callTable endpoint table ⟨.describeTable, [("TableName", .string table)]⟩
    match table? c with
    | none => .fail (.schema (.tableNotFound table))
    | some description => .ofSchema description.resolve
  fetch r := do
    let c ← callTable endpoint r.table (fetchRequest r)
    let last ← .ofInput (lastCursor c)
    return { items := items c, last }
  get table key := do
    let c ← callTable endpoint table
      ⟨.getItem, [("TableName", .string table), ("Key", key.toJson)]⟩
    return (c.get "Item").item?
  put table item := do
    let _ ← callTable endpoint table
      ⟨.putItem, [("TableName", .string table), ("Item", item.toJson)]⟩
  delete table key := do
    let _ ← callTable endpoint table
      ⟨.deleteItem, [("TableName", .string table), ("Key", key.toJson)]⟩
  listTableNames start := do
    let c ← call endpoint
      ⟨.listTables, setMembers [("ExclusiveStartTableName", start.map .string)]⟩
    return tablePage c

end Tablescope.Service
