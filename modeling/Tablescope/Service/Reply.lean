import Tablescope.Service.Endpoint
import Tablescope.Service.Shape

/-!
# Replies

The promised shapes of all documents in replies, and what is taken from a reply. A reply succeeds
if its status is between 200 and 299 and its body is a document of the shape of its operation. An
empty body is a document without members.
-/

namespace Tablescope.Service

namespace Shape

/-! ### Keys and indexes -/

/-- An integer of 64 bits. -/
def long : Shape := .integer 64

/-- An attribute definition. -/
def definition : Shape := .record [("AttributeName", .text), ("AttributeType", .text)]

/-- The elements of a key. -/
def keyElements : Shape := .list (.record [("AttributeName", .text), ("KeyType", .text)])

/-- Which attributes an index holds. -/
def projection : Shape :=
  .record [("ProjectionType", .text), ("NonKeyAttributes", .list .text)]

/-- Provisioned capacity and its changes. -/
def throughput : Shape := .record [
  ("LastIncreaseDateTime", .time),
  ("LastDecreaseDateTime", .time),
  ("NumberOfDecreasesToday", long),
  ("ReadCapacityUnits", long),
  ("WriteCapacityUnits", long)]

/-- Limits on capacity that is paid for by request. -/
def onDemandThroughput : Shape :=
  .record [("MaxReadRequestUnits", long), ("MaxWriteRequestUnits", long)]

/-- Capacity that is available at once. -/
def warmThroughput : Shape :=
  .record [("ReadUnitsPerSecond", long), ("WriteUnitsPerSecond", long), ("Status", .text)]

/-- A local index. -/
def localIndex : Shape := .record [
  ("IndexName", .text),
  ("KeySchema", keyElements),
  ("Projection", projection),
  ("IndexSizeBytes", long),
  ("ItemCount", long),
  ("IndexArn", .text)]

/-- A global index. -/
def globalIndex : Shape := .record [
  ("IndexName", .text),
  ("KeySchema", keyElements),
  ("Projection", projection),
  ("IndexStatus", .text),
  ("Backfilling", .bool),
  ("ProvisionedThroughput", throughput),
  ("IndexSizeBytes", long),
  ("ItemCount", long),
  ("IndexArn", .text),
  ("OnDemandThroughput", onDemandThroughput),
  ("WarmThroughput", warmThroughput)]

/-- An index of vectors, which are found by their distance. It has no key but a list of attributes
to search by. -/
def vectorIndex : Shape := .record [
  ("IndexName", .text),
  ("SearchSchema",
    .list (.record [("AttributeName", .text), ("SearchSchemaElementType", .text)])),
  ("Projection", projection),
  ("VectorAttribute", .record [("AttributeName", .text)]),
  ("Dimensions", .integer 32),
  ("DistanceFunction", .text),
  ("IndexStatus", .text),
  ("Backfilling", .bool),
  ("IndexSizeBytes", long),
  ("ItemCount", long),
  ("IndexArn", .text)]

/-! ### Tables -/

/-- Provisioned capacity of a replica. -/
def throughputOverride : Shape := .record [("ReadCapacityUnits", long)]

/-- Limits on capacity of a replica. -/
def onDemandOverride : Shape := .record [("MaxReadRequestUnits", long)]

/-- The class of a table. -/
def tableClass : Shape := .record [("TableClass", .text), ("LastUpdateDateTime", .time)]

/-- A global index of a replica. -/
def replicaIndex : Shape := .record [
  ("IndexName", .text),
  ("ProvisionedThroughputOverride", throughputOverride),
  ("OnDemandThroughputOverride", onDemandOverride),
  ("WarmThroughput", warmThroughput)]

/-- A replica of a table. -/
def replica : Shape := .record [
  ("RegionName", .text),
  ("ReplicaStatus", .text),
  ("ReplicaArn", .text),
  ("ReplicaStatusDescription", .text),
  ("ReplicaStatusPercentProgress", .text),
  ("KMSMasterKeyId", .text),
  ("ProvisionedThroughputOverride", throughputOverride),
  ("OnDemandThroughputOverride", onDemandOverride),
  ("WarmThroughput", warmThroughput),
  ("GlobalSecondaryIndexes", .list replicaIndex),
  ("ReplicaInaccessibleDateTime", .time),
  ("ReplicaTableClassSummary", tableClass),
  ("GlobalTableSettingsReplicationMode", .text)]

/-- A table. -/
def table : Shape := .record [
  ("AttributeDefinitions", .list definition),
  ("TableName", .text),
  ("KeySchema", keyElements),
  ("TableStatus", .text),
  ("CreationDateTime", .time),
  ("ProvisionedThroughput", throughput),
  ("TableSizeBytes", long),
  ("ItemCount", long),
  ("TableArn", .text),
  ("TableId", .text),
  ("BillingModeSummary",
    .record [("BillingMode", .text), ("LastUpdateToPayPerRequestDateTime", .time)]),
  ("LocalSecondaryIndexes", .list localIndex),
  ("GlobalSecondaryIndexes", .list globalIndex),
  ("VectorIndexes", .list vectorIndex),
  ("StreamSpecification", .record [("StreamEnabled", .bool), ("StreamViewType", .text)]),
  ("LatestStreamLabel", .text),
  ("LatestStreamArn", .text),
  ("GlobalTableVersion", .text),
  ("Replicas", .list replica),
  ("GlobalTableWitnesses",
    .list (.record [("RegionName", .text), ("WitnessStatus", .text)])),
  ("GlobalTableSettingsReplicationMode", .text),
  ("RestoreSummary", .record [
    ("SourceBackupArn", .text),
    ("SourceTableArn", .text),
    ("RestoreDateTime", .time),
    ("RestoreInProgress", .bool)]),
  ("SSEDescription", .record [
    ("Status", .text),
    ("SSEType", .text),
    ("KMSMasterKeyArn", .text),
    ("InaccessibleEncryptionDateTime", .time)]),
  ("ArchivalSummary", .record [
    ("ArchivalDateTime", .time),
    ("ArchivalReason", .text),
    ("ArchivalBackupArn", .text)]),
  ("TableClassSummary", tableClass),
  ("DeletionProtectionEnabled", .bool),
  ("DisassociationProtectionEnabled", .bool),
  ("OnDemandThroughput", onDemandThroughput),
  ("WarmThroughput", warmThroughput),
  ("MultiRegionConsistency", .text)]

/-! ### Consumption -/

/-- Capacity that was used. -/
def capacity : Shape := .record [
  ("ReadCapacityUnits", .double),
  ("WriteCapacityUnits", .double),
  ("CapacityUnits", .double)]

/-- Capacity that was used by an operation, in total and by table and index. -/
def consumedCapacity : Shape := .record [
  ("TableName", .text),
  ("CapacityUnits", .double),
  ("ReadCapacityUnits", .double),
  ("WriteCapacityUnits", .double),
  ("Table", capacity),
  ("LocalSecondaryIndexes", .map capacity),
  ("GlobalSecondaryIndexes", .map capacity)]

/-- The size of all items with one hash value. -/
def collectionMetrics : Shape :=
  .record [("ItemCollectionKey", .item), ("SizeEstimateRangeGB", .list .double)]

/-! ### Replies -/

/-- The reply to a reading of items. -/
def batch : Shape := .record [
  ("Items", .list .item),
  ("Count", .integer 32),
  ("ScannedCount", .integer 32),
  ("LastEvaluatedKey", .item),
  ("ConsumedCapacity", consumedCapacity)]

/-- The reply to a change of an item. -/
def change : Shape := .record [
  ("Attributes", .item),
  ("ConsumedCapacity", consumedCapacity),
  ("ItemCollectionMetrics", collectionMetrics)]

end Shape

/-- The shape of the reply to an operation. -/
def Operation.reply : Operation → Shape
  | describeTable => .record [("Table", .table)]
  | scan => .batch
  | query => .batch
  | getItem => .record [("Item", .item), ("ConsumedCapacity", .consumedCapacity)]
  | putItem => .change
  | deleteItem => .change
  | listTables => .record [("TableNames", .list .text), ("LastEvaluatedTableName", .text)]

/-- What a reply to an operation says; a reply that does not succeed says nothing. -/
def Reply.content? (r : Reply) (operation : Operation) : Option Content :=
  if 200 ≤ r.status ∧ r.status < 300 then
    operation.reply.parse? (if r.body.isEmpty then "\x7b\x7d" else r.body)
  else none

end Tablescope.Service
