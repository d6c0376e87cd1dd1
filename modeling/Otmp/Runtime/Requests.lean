import Otmp.Image.Schemas
import Otmp.Image.Mutations

/-!
# Metadata transactions: requests and their checks

A transaction states requirements on the database it expects and operations to apply.
Every operation has to be covered by requirements of its own, and all requirements
are evaluated against the parent database before anything is changed.
-/

namespace Otmp

open Foundation CanonicalValue

/-- A requirement on the parent of a transaction, checked on every parent it is tried on. -/
inductive Requirement where
  | propertyIs (key : String) (value : CanonicalValue)
  | refAbsent (name : String)
  | refExists (name : String) (refType : RefType)
  | refSnapshotIs (name : String) (snapshotId : Option Id)
  | snapshotExists (snapshotId : Id)
  | currentSchemaIs (schemaId : UInt32)
  | schemaIdAbsent (schemaId : UInt32)
  | fieldIdsAbsent (fieldIds : List UInt32)
  | defaultPartitionSpecIs (partitionSpecId : UInt32)
  | defaultSortOrderIs (sortOrderId : UInt32)
  deriving DecidableEq

/-- An operation of a transaction, under an identifier that the caller chose. -/
inductive OperationRequest where
  | setProperties (operationId : String) (updates : JsonMap) (removals : List String)
  | createRef (operationId name : String) (refType : RefType) (snapshotId : Option Id)
  | replaceRef (operationId name : String) (snapshotId : Id)
  | dropRef (operationId name : String)
  | addSchema (operationId : String) (schema : Schema)
  | setCurrentSchema (operationId : String) (schemaId : UInt32)

/-- The result of an operation, under the identifier of the operation. -/
inductive OperationResult where
  | properties (operationId : String) (keys : List String)
  | ref (operationId name : String) (refType : RefType) (snapshotId : Option Id)
  | schema (operationId : String) (schemaId : UInt32)
  deriving DecidableEq

/-- A metadata transaction: its requirements, its operations, and its key. -/
structure TransactionRequest where
  idempotencyKey : String
  requirements : List Requirement
  operations : List OperationRequest
  commitMetadata : JsonMap

namespace RefType

/-- The name of a type of references, as stored with a reference. -/
def asStr : RefType → String
  | .branch => "branch"
  | .tag => "tag"

end RefType

/-- An optional identifier as JSON, null when there is none. -/
def optionalIdValue : Option Id → CanonicalValue := orNull fun id : Id => .string id.format

namespace Requirement

/-- The document of a requirement, with its type among its members. -/
def toValue : Requirement → CanonicalValue
  | .propertyIs key value =>
    .object [("key", .string key), ("type", .string "property_is"), ("value", value)]
  | .refAbsent name => .object [("ref", .string name), ("type", .string "ref_absent")]
  | .refExists name refType => .object [("ref", .string name),
      ("ref_type", .string refType.asStr), ("type", .string "ref_exists")]
  | .refSnapshotIs name snapshotId => .object [("ref", .string name),
      ("snapshot_id", optionalIdValue snapshotId), ("type", .string "ref_snapshot_is")]
  | .snapshotExists snapshotId =>
    .object [("snapshot_id", .string snapshotId.format), ("type", .string "snapshot_exists")]
  | .currentSchemaIs schemaId =>
    .object [("schema_id", decimalString schemaId.toNat), ("type", .string "current_schema_is")]
  | .schemaIdAbsent schemaId =>
    .object [("schema_id", decimalString schemaId.toNat), ("type", .string "schema_id_absent")]
  | .fieldIdsAbsent fieldIds => .object
      [("field_ids", .array (fieldIds.map fun id => decimalString id.toNat)),
        ("type", .string "field_ids_absent")]
  | .defaultPartitionSpecIs partitionSpecId => .object
      [("partition_spec_id", decimalString partitionSpecId.toNat),
        ("type", .string "default_partition_spec_is")]
  | .defaultSortOrderIs sortOrderId => .object
      [("sort_order_id", decimalString sortOrderId.toNat),
        ("type", .string "default_sort_order_is")]

end Requirement

namespace OperationRequest

/-- The identifier that the caller gave an operation. -/
def id : OperationRequest → String
  | .setProperties operationId _ _ | .createRef operationId _ _ _ | .replaceRef operationId _ _
  | .dropRef operationId _ | .addSchema operationId _ | .setCurrentSchema operationId _ =>
    operationId

/-- The document of an operation, with its type among its members. -/
def toValue : OperationRequest → CanonicalValue
  | .setProperties operationId updates removals => .object
      [("operation_id", .string operationId), ("removals", .array (removals.map .string)),
        ("type", .string "set_properties"), ("updates", updates.toValue)]
  | .createRef operationId name refType snapshotId => .object
      [("operation_id", .string operationId), ("ref", .string name),
        ("ref_type", .string refType.asStr), ("snapshot_id", optionalIdValue snapshotId),
        ("type", .string "create_ref")]
  | .replaceRef operationId name snapshotId => .object
      [("operation_id", .string operationId), ("ref", .string name),
        ("snapshot_id", .string snapshotId.format), ("type", .string "replace_ref")]
  | .dropRef operationId name => .object
      [("operation_id", .string operationId), ("ref", .string name), ("type", .string "drop_ref")]
  | .addSchema operationId schema => .object
      [("operation_id", .string operationId), ("schema", schema.toValue),
        ("type", .string "add_schema")]
  | .setCurrentSchema operationId schemaId => .object
      [("operation_id", .string operationId), ("schema_id", decimalString schemaId.toNat),
        ("type", .string "set_current_schema")]

end OperationRequest

/-- The document of an operation's result, with its type among its members. -/
def OperationResult.toValue : OperationResult → CanonicalValue
  | .properties operationId keys => .object [("keys", .array (keys.map .string)),
      ("operation_id", .string operationId), ("type", .string "properties")]
  | .ref operationId name refType snapshotId => .object
      [("operation_id", .string operationId), ("ref", .string name),
        ("ref_type", .string refType.asStr), ("snapshot_id", optionalIdValue snapshotId),
        ("type", .string "ref")]
  | .schema operationId schemaId => .object [("operation_id", .string operationId),
      ("schema_id", decimalString schemaId.toNat), ("type", .string "schema")]

/-- An invalid transaction, with the text of the check that failed. -/
def invalid {α : Type} (message : String) : Except RuntimeError α :=
  .error (.invalidTransaction message)

namespace Database

/-- The check of a list of new field identifiers. -/
def fieldIdsAbsent (db : Database) (absent : List UInt32) : List UInt32 → Except RuntimeError Unit
  | [] => .ok ()
  | id :: ids =>
    if id = 0 ∨ id ∈ absent ∨ db.schemas.fieldIds.any (·.fieldId == (id.toNat : ℤ)) then
      .error (.semanticConflict "field ID already exists or is invalid")
    else db.fieldIdsAbsent (id :: absent) ids

/-- Whether a requirement holds of a database, which may have to be queried for it. -/
def holds (db : Database) : Requirement → Except RuntimeError Bool
  | .propertyIs key value =>
    match db.properties.find? (·.propertyKey == key) with
    | none => .ok (value == .null)
    | some row => .ok (row.value == value)
  | .refAbsent name => do return (← db.refRow name).isNone
  | .refExists name refType => do return (← db.refRow name).any (·.1 == refType)
  | .refSnapshotIs name snapshotId => do return (← db.refRow name).any (·.2 == snapshotId)
  | .snapshotExists snapshotId => .ok (db.snapshots.any (·.snapshotId == snapshotId))
  | .currentSchemaIs schemaId => .ok (db.tableMeta.currentSchemaId == schemaId.toNat)
  | .schemaIdAbsent schemaId =>
    .ok !(db.schemas.schemas.any (·.schemaId == (schemaId.toNat : ℤ)))
  | .fieldIdsAbsent fieldIds => do
    db.fieldIdsAbsent [] fieldIds
    return true
  | .defaultPartitionSpecIs partitionSpecId =>
    .ok (db.tableMeta.defaultPartitionSpecId == partitionSpecId.toNat)
  | .defaultSortOrderIs sortOrderId => .ok (db.tableMeta.defaultSortOrderId == sortOrderId.toNat)

/-- Evaluate all requirements. The source also prints the failed requirement. -/
def evaluate (db : Database) (requirements : List Requirement) : Except RuntimeError Unit :=
  checkAll (fun requirement => do
    if ← db.holds requirement then .ok ()
    else .error (.semanticConflict "requirement failed")) requirements

end Database

/-- An operation needs exactly one matching requirement, so that it is never applied blindly. -/
def required (request : TransactionRequest) (requirement : Requirement) :
    Except RuntimeError Unit :=
  if request.requirements.count requirement ≠ 1 then
    invalid "operation requires exactly one matching precondition"
  else .ok ()

/-- The new field identifiers found so far, none of which may occur twice. -/
abbrev NewIds := Std.ExtTreeSet UInt32 compare

mutual

/-- Collect the identifiers below a type, whose fields must all be optional. -/
def LogicalType.collectNew (ids : NewIds) : LogicalType → Except RuntimeError NewIds
  | .struct fields => Field.collectNewList ids fields
  | .list element => element.collectNew ids
  | .map key value => do
    let ids ← key.collectNew ids
    value.collectNew ids
  | _ => .ok ids
termination_by structural type => type

/-- Collect the identifiers of a new field, which has to be optional. -/
def Field.collectNew (ids : NewIds) : Field → Except RuntimeError NewIds
  | .mk fieldId _ required fieldType _ _ _ =>
    if required then invalid "new fields must be optional"
    else fieldType.collectNew (ids.insert fieldId)
termination_by structural field => field

/-- Collect the identifiers of new fields, each with what is nested in it. -/
def Field.collectNewList (ids : NewIds) : List Field → Except RuntimeError NewIds
  | [] => .ok ids
  | field :: fields => do
    let ids ← field.collectNew ids
    Field.collectNewList ids fields
termination_by structural fields => fields

end

mutual

/-- A type may only grow: structs by fields at their end, at any depth, while keys of maps and types
without fields stay as they are. -/
def LogicalType.additive (ids : NewIds) : LogicalType → LogicalType → Except RuntimeError NewIds
  | .struct old, .struct new => Field.additiveFields ids old new
  | .list old, .list new => old.additive ids new
  | .map oldKey oldValue, .map newKey newValue =>
    if oldKey.eq newKey then oldValue.additive ids newValue
    else if (LogicalType.map oldKey oldValue).eq (.map newKey newValue) then .ok ids
    else invalid "type change is not additive"
  | old, new => if old.eq new then .ok ids else invalid "type change is not additive"
termination_by structural old => old

/-- A field keeps everything but the fields nested in its type. -/
def Field.additive (ids : NewIds) : Field → Field → Except RuntimeError NewIds
  | .mk fieldId name required fieldType doc initialDefault writeDefault, new =>
    if !(Field.mk fieldId name required fieldType doc initialDefault writeDefault).eq
        (.mk new.fieldId new.name new.required fieldType new.doc new.initialDefault
          new.writeDefault) then
      invalid "existing field changed or reordered"
    else fieldType.additive ids new.fieldType
termination_by structural old => old

/-- Fields may only be extended and added to, in the order in which they stand. -/
def Field.additiveFields (ids : NewIds) : List Field → List Field → Except RuntimeError NewIds
  | [], new => Field.collectNewList ids new
  | _ :: _, [] => invalid "field removal"
  | old :: olds, new :: news =>
    if news.length < olds.length then invalid "field removal"
    else do
      let ids ← old.additive ids new
      Field.additiveFields ids olds news
termination_by structural olds => olds

end

/-- A new schema extends the current one; the identifiers it adds. -/
def additiveSchema (old new : Schema) : Except RuntimeError (List UInt32) := do
  liftProtocol new.validate
  if new.parentSchemaId ≠ some old.schemaId ∨ new.identifierFieldIds ≠ old.identifierFieldIds then
    invalid "schema parent or identifiers changed"
  else
    let ids ← Field.additiveFields ∅ old.fields new.fields
    return ids.toList

end Otmp
