import Otmp.Protocol.ScalarCbor
import Otmp.Runtime.Transactions

/-!
# Appends

An append request names a branch and the files to add to it. The files are staged
before the append is committed. The request is checked against the parent it is
committed on, and an append prepared on an older base is checked against everything
that was committed since.
-/

namespace Otmp

open Foundation CanonicalValue

/-- The statistics of one column of a file, each of them optional. -/
structure FileMetric where
  fieldId : UInt32
  columnSizeBytes : Option ℕ
  valueCount : Option ℕ
  nullCount : Option ℕ
  nanCount : Option ℕ
  distinctCount : Option ℕ
  lowerBound : Option TypedScalar
  upperBound : Option TypedScalar
  metadata : JsonMap

/-- The formats of data files, of which there is one. -/
inductive FileFormat where
  | parquet
  deriving DecidableEq

/-- The name of a file format, as stored with the file. -/
def FileFormat.asStr : FileFormat → String
  | .parquet => "parquet"

/-- Partition values by the identifiers of their fields, in ascending order. -/
abbrev PartitionValues := Std.ExtTreeMap UInt32 TypedScalar compare

/-- A file to append: where it comes from, what it holds, and what is known of its columns. -/
structure AppendFile where
  sourcePath : String
  sha256 : Sha256
  length : ℕ
  format : FileFormat
  recordCount : ℕ
  schemaId : UInt32
  partitionSpecId : UInt32
  sortOrderId : UInt32
  partitionValues : PartitionValues
  metrics : List FileMetric
  metadata : JsonMap

/-- A request to append files to a branch, under an idempotency key. -/
structure AppendRequest where
  idempotencyKey : String
  targetRef : String
  files : List AppendFile
  summary : JsonMap
  commitMetadata : JsonMap
  snapshotMetadata : JsonMap

/-- A staged file: the identifier and the location that it was stored at, verified by hash and
length. -/
structure VerifiedStagedFile where
  tableId : Id
  ordinal : ℕ
  fileId : Id
  uri : String
  sha256 : Sha256
  length : ℕ
  objectIdentity : Option String

/-- The result of an append: the commit, the snapshot it made, and the files under their
identifiers. -/
structure AppendResult where
  tableVersion : ℕ
  commitId : Id
  snapshotId : Id
  sequenceNumber : ℕ
  targetRef : String
  files : List (Id × String)
  deriving DecidableEq

/-- The document of an append's result, which is stored under the idempotency key. -/
def AppendResult.toValue (r : AppendResult) : CanonicalValue :=
  .object [("commit_id", .string r.commitId.format),
    ("files", .array (r.files.map fun file =>
      .object [("file_id", .string file.1.format), ("uri", .string file.2)])),
    ("ref", .string r.targetRef), ("sequence_number", decimalString r.sequenceNumber),
    ("snapshot_id", .string r.snapshotId.format), ("table_version", decimalString r.tableVersion)]

/-- The JSON form of a metric, with null for what is not known. -/
def FileMetric.toValue (m : FileMetric) : CanonicalValue :=
  .object [("column_size_bytes", orNull decimalString m.columnSizeBytes),
    ("distinct_count", orNull decimalString m.distinctCount),
    ("field_id", decimalString m.fieldId.toNat),
    ("lower_bound", orNull TypedScalar.toValue m.lowerBound), ("metadata", m.metadata.toValue),
    ("nan_count", orNull decimalString m.nanCount),
    ("null_count", orNull decimalString m.nullCount),
    ("upper_bound", orNull TypedScalar.toValue m.upperBound),
    ("value_count", orNull decimalString m.valueCount)]

namespace AppendFile

/-- The JSON form of partition values, by decimal keys. -/
def partitionValue (file : AppendFile) : CanonicalValue :=
  JsonMap.toValue (.ofList (file.partitionValues.toList.map fun entry =>
    (String.ofList (Nat.toDigits 10 entry.1.toNat), entry.2.toValue)) compare)

/-- What a file says about itself, without where it is stored. -/
def logicalValue (file : AppendFile) : CanonicalValue :=
  .object [("expected_length", decimalString file.length),
    ("expected_sha256", .string file.sha256.format), ("format", .string file.format.asStr),
    ("metadata", file.metadata.toValue), ("metrics", .array (file.metrics.map FileMetric.toValue)),
    ("partition_spec_id", decimalString file.partitionSpecId.toNat),
    ("partition_values", file.partitionValue), ("record_count", decimalString file.recordCount),
    ("schema_id", decimalString file.schemaId.toNat),
    ("sort_order_id", decimalString file.sortOrderId.toNat)]

/-- The descriptor of a staged file in a commit. -/
def operationValue (file : AppendFile) (staged : VerifiedStagedFile) : CanonicalValue :=
  .object [("content_sha256", .string file.sha256.format),
    ("file_format", .string file.format.asStr), ("file_id", .string staged.fileId.format),
    ("file_size_bytes", decimalString file.length),
    ("metadata", file.metadata.toValue), ("metrics", .array (file.metrics.map FileMetric.toValue)),
    ("object_identity", .null), ("partition_spec_id", decimalString file.partitionSpecId.toNat),
    ("partition_values", file.partitionValue), ("record_count", decimalString file.recordCount),
    ("schema_id", decimalString file.schemaId.toNat),
    ("sort_order_id", decimalString file.sortOrderId.toNat), ("uri", .string staged.uri)]

end AppendFile

/-- The intent of an append: all that the caller asked for, except where the files come from. -/
def AppendRequest.logicalIntent (request : AppendRequest) : CanonicalValue :=
  .object [("caller_summary", request.summary.toValue),
    ("commit_metadata", request.commitMetadata.toValue),
    ("files", .array (request.files.map AppendFile.logicalValue)), ("operation", .string "append"),
    ("snapshot_metadata", request.snapshotMetadata.toValue),
    ("target_ref", .string request.targetRef)]

/-- An invalid append, with the text of the check that failed. -/
def invalidAppend {α : Type} (message : String) : Except RuntimeError α :=
  .error (.invalidAppend message)

/-- A sum of 64-bit counts, which must fit 64 bits itself. -/
def checkedSum (message : String) (counts : List ℕ) : Except RuntimeError ℕ :=
  counts.foldlM (fun total n =>
    if Database.u64Max < total + n then invalidAppend message else .ok (total + n)) 0

/-- The summary of a snapshot: the caller's entries and the totals of the append. -/
def derivedSummary (request : AppendRequest) : Except RuntimeError JsonMap := do
  let recordCount ← checkedSum "record count overflow" (request.files.map AppendFile.recordCount)
  let fileSize ← checkedSum "file size overflow" (request.files.map AppendFile.length)
  if i64Max < recordCount ∨ i64Max < fileSize then invalidAppend "summary exceeds SQLite INTEGER"
  else
    return ((request.summary.insert "added-data-files" (decimalString request.files.length)).insert
      "added-records" (decimalString recordCount)).insert
      "added-files-size" (decimalString fileSize)

namespace Database

/-- The current schema and the last sequence number, read beside the main branch. -/
def currentSchemaAndSequence (db : Database) : Except RuntimeError (UInt32 × ℕ) :=
  match db.refs.find? (·.refName == "main") with
  | none => .error (.sqlite "Query returned no rows")
  | some main => do
    let schema ← u32TryFrom db.tableMeta.currentSchemaId "invalid schema ID"
    let _ ← optionalIdFromBlob main.snapshotId
    return (schema, db.tableMeta.lastSequenceNumber)

/-- The types of the fields of a schema, read from its rows. -/
def fieldTypes (db : Database) (schemaId : UInt32) :
    Except RuntimeError (List (UInt32 × LogicalType)) :=
  (db.schemas.fields.filter (·.schemaId == (schemaId.toNat : ℤ))).mapM fun row => do
    let fieldType ← liftProtocol (fromCanonical LogicalType.ofValue row.typeJson)
    let fieldId ← u32TryFrom row.fieldId "invalid field ID"
    return (fieldId, fieldType)

end Database

/-- The check of one bound of a metric: a valid scalar of the field's type. -/
def validateBound (fieldType : LogicalType) (bound : TypedScalar) : Except RuntimeError Unit := do
  liftProtocol bound.validate
  if !fieldType.accepts bound ∨ bound = .null ∨ bound.isNan then
    invalidAppend "invalid metric bound"
  else .ok ()

/-- The check of one metric against the field it is of, and of its counts against each other. -/
def validateMetric (fieldTypes : List (UInt32 × LogicalType)) (metric : FileMetric) :
    Except RuntimeError Unit :=
  match fieldTypes.find? (·.1 == metric.fieldId) with
  | none => invalidAppend "metric field ID does not exist"
  | some (_, fieldType) =>
    if !fieldType.isPrimitive then invalidAppend "metrics require primitive fields"
    else if (metric.nullCount.any fun nulls => metric.valueCount.any (· < nulls)) ∨
        (metric.nanCount.isSome ∧ !fieldType.isFloat) then
      invalidAppend "invalid metric counts"
    else if [metric.columnSizeBytes, metric.valueCount, metric.nullCount, metric.nanCount,
        metric.distinctCount].any (fun count => count.any fun n => decide (i64Max < n)) then
      invalidAppend "metric count exceeds SQLite INTEGER"
    else do
      checkAll (validateBound fieldType) (metric.lowerBound.toList ++ metric.upperBound.toList)
      if metric.lowerBound.any fun lower => metric.upperBound.any fun upper => lower.exceeds upper
      then invalidAppend "metric bounds are reversed"
      else .ok ()

/-- The checks of the metrics of a file, at most one for each field. -/
def validateMetrics (fieldTypes : List (UInt32 × LogicalType)) (ids : List UInt32) :
    List FileMetric → Except RuntimeError Unit
  | [] => .ok ()
  | metric :: metrics =>
    if metric.fieldId ∈ ids then invalidAppend "duplicate metric field ID"
    else do
      validateMetric fieldTypes metric
      validateMetrics fieldTypes (metric.fieldId :: ids) metrics

/-- The checks of the files of a request, one after the other up to the first failure. -/
def validateFiles (currentSchema : UInt32) (fieldTypes : List (UInt32 × LogicalType))
    (entries : List CanonicalValue) : List AppendFile → Except RuntimeError Unit
  | [] => .ok ()
  | file :: files =>
    if file.schemaId ≠ currentSchema ∨ file.partitionSpecId ≠ 0 ∨ file.sortOrderId ≠ 0 ∨
        file.partitionValues.isEmpty = false ∨ i64Max < file.length ∨ i64Max < file.recordCount then
      invalidAppend "file assertions do not match local/full-image profile table defaults"
    else do
      let entry ← liftProtocol (canonicalText file.logicalValue)
      if entry ∈ entries then invalidAppend "duplicate logical file entry"
      else
        validateMetrics fieldTypes [] file.metrics
        validateFiles currentSchema fieldTypes (entry :: entries) files

/-- The summary keys that the runtime reserves for what it counts itself. -/
def reservedSummaryKeys : List String := ["added-data-files", "added-records", "added-files-size"]

/-- `validate_request`: check an append request against a parent before anything is staged. -/
def validateRequest (db : Database) (request : AppendRequest) : Except RuntimeError Unit :=
  if request.idempotencyKey = "" ∨ request.idempotencyKey = "otmp.genesis" then
    invalidAppend "invalid idempotency key"
  else if request.files.isEmpty then
    invalidAppend "local/full-image profile requires one non-empty append batch to main"
  else do
    match ← db.refRow request.targetRef with
    | some (.branch, _) =>
      let (currentSchema, _) ← db.currentSchemaAndSequence
      let fieldTypes ← db.fieldTypes currentSchema
      if reservedSummaryKeys.any (fun key => request.summary.contains key) then
        invalidAppend "caller summary uses a runtime-reserved key"
      else
        validateFiles currentSchema fieldTypes [] request.files
        let _ ← derivedSummary request
        return ()
    | _ => invalidAppend "target must exist and be a branch"

/-- `validate_staged`: check staged files against the files of the request, position by position. -/
def validateStaged (request : AppendRequest) (staged : List VerifiedStagedFile) (tableId : Id) :
    Except RuntimeError Unit :=
  if request.files.length ≠ staged.length then
    .error (.stagingMismatch "entry count differs")
  else
    go 0 [] [] (request.files.zip staged)
where
  /-- The entries in order, with the identifiers and locations seen so far. -/
  go (ordinal : ℕ) (ids : List Id) (uris : List String) :
      List (AppendFile × VerifiedStagedFile) → Except RuntimeError Unit
    | [] => .ok ()
    | (logical, verified) :: rest =>
      if verified.tableId ≠ tableId ∨ verified.ordinal ≠ ordinal ∨
          verified.sha256 ≠ logical.sha256 ∨ verified.length ≠ logical.length ∨
          verified.objectIdentity.isSome ∨ verified.fileId ∈ ids ∨ verified.uri ∈ uris then
        .error (.stagingMismatch s!"entry {ordinal} does not match")
      else go (ordinal + 1) (verified.fileId :: ids) (verified.uri :: uris) rest

/-- Whether an operation, other than an append, is on a ref. -/
def touchesRef (name : String) (operation : CanonicalValue) : Bool :=
  match operation with
  | .object members => get? "ref" members == some (.string name) &&
      get? "type" members != some (.string "commit_snapshot")
  | _ => false

/-- Whether an operation changes the current schema, told by its type. -/
def changesSchema (operation : CanonicalValue) : Bool :=
  match operation with
  | .object members => get? "type" members == some (.string "set_current_schema")
  | _ => false

/-- The check of the operations of one commit: none of them touches the branch or changes the
schema. -/
def checkOperations (name : String) (operations : List CanonicalValue) :
    Except RuntimeError Unit :=
  checkAll (fun operation =>
    if touchesRef name operation then
      .error (.semanticConflict "target ref changed during append")
    else if changesSchema operation then
      .error (.semanticConflict "current schema changed during append")
    else .ok ()) operations

/-- Check that an append prepared at a version of a branch may be committed on a parent. -/
def validateAppendRebase (parent : Database) (name : String)
    (original : Option (RefType × Option Id)) (version : ℕ) : Except RuntimeError Unit :=
  match original with
  | some (.branch, old) => do
    match ← parent.refRow name with
    | some (.branch, current) =>
      let chain ← parent.ancestry current
      if old.any fun id => id ∉ chain then
        .error (.semanticConflict "target is not an append descendant")
      else if i64Max < version then .error (.corrupt "version overflow")
      else
        checkAll (fun row : CommitRow => match row.operationSummary with
          | .array operations => checkOperations name operations
          | _ => .error (.protocol (.invalidJson "invalid type: expected a sequence")))
          (parent.commits.filter fun row => version < row.tableVersion)
    | _ => .error (.semanticConflict "append target removed")
  | _ => .error (.semanticConflict "append target was not a branch")

/-- The image of a metric, with its bounds encoded. -/
def FileMetric.image (m : FileMetric) : Except RuntimeError ImageMetric := do
  let metadata ← liftProtocol (canonicalText m.metadata.toValue)
  return ⟨m.fieldId, m.columnSizeBytes, m.valueCount, m.nullCount, m.nanCount, m.distinctCount,
    m.lowerBound.map encodeTypedScalar, m.upperBound.map encodeTypedScalar, metadata⟩

/-- The image of a staged file, with its partition tuple encoded and hashed. -/
def AppendFile.image (digest : Digest) (file : AppendFile) (staged : VerifiedStagedFile) :
    Except RuntimeError ImageFile := do
  let metrics ← file.metrics.mapM FileMetric.image
  let metadata ← liftProtocol (canonicalText file.metadata.toValue)
  let partitionCbor := encodePartitionTuple file.partitionValues.toList
  return ⟨staged.fileId, staged.uri, staged.length, file.recordCount, file.schemaId,
    file.partitionSpecId, file.sortOrderId, partitionCbor,
    partitionHash digest file.partitionSpecId partitionCbor, staged.sha256, metrics, metadata⟩

/-- The operation that records an append among the operations of its commit. -/
def appendOperation (request : AppendRequest) (staged : List VerifiedStagedFile) (drawn : Drawn)
    (first : AppendFile) (parentSnapshot : Option Id) (sequenceNumber : ℕ) (summary : JsonMap) :
    CanonicalValue :=
  .object [
    ("added_files", .array ((request.files.zip staged).map fun p => p.1.operationValue p.2)),
    ("operation_id", .string "append-main"), ("rebase_mode", .string "append-safe"),
    ("removed_file_ids", .array []), ("scan_projection", .null),
    ("snapshot", .object [("metadata", request.snapshotMetadata.toValue),
      ("operation", .string "append"), ("parent_snapshot_id", optionalIdValue parentSnapshot),
      ("partition_spec_id", decimalString first.partitionSpecId.toNat),
      ("schema_id", decimalString first.schemaId.toNat),
      ("sequence_number", decimalString sequenceNumber),
      ("snapshot_id", .string drawn.snapshotId.format),
      ("sort_order_id", decimalString first.sortOrderId.toNat), ("summary", summary.toValue)]),
    ("target_ref", .string request.targetRef), ("type", .string "commit_snapshot")]

/-- The requirements that an append states: the schema, partition spec and sort order it was made
for. -/
def appendRequirements (first : AppendFile) : List CanonicalValue :=
  [(Requirement.currentSchemaIs first.schemaId).toValue,
    (Requirement.defaultPartitionSpecIs 0).toValue, (Requirement.defaultSortOrderIs 0).toValue]

/-- The commit of an append, before its own state hash is known. -/
def appendCommit (parent : PinnedTable) (request : AppendRequest) (staged : List VerifiedStagedFile)
    (logicalHash : Sha256) (drawn : Drawn) (first : AppendFile) (parentSnapshot : Option Id)
    (sequenceNumber : ℕ) (summary : JsonMap) (result : CanonicalValue) : SemanticCommit :=
  parent.commitOn drawn ⟨request.idempotencyKey, logicalHash, ["append-main"], result⟩
    (appendRequirements first)
    [appendOperation request staged drawn first parentSnapshot sequenceNumber summary]
    request.commitMetadata.toValue

/-- The input of the append that a commit describes. -/
def appendImage (digest : Digest) (parent : PinnedTable) (request : AppendRequest)
    (logicalHash : Sha256) (drawn : Drawn) (parentSnapshot : Option Id) (sequenceNumber : ℕ)
    (summary : JsonMap) (result : CanonicalValue) (commit : SemanticCommit) (commitBytes : Bytes)
    (files : List ImageFile) : AppendImage where
  tableVersion := parent.db.tableMeta.tableVersion + 1
  createdAtMs := drawn.createdAtMs
  semanticState := commit.semanticStateSha256
  commitId := drawn.commitId
  commitHash := objectHash digest commitBytes
  commitUri := commitUri (parent.db.tableMeta.tableVersion + 1) drawn.commitId
  operationJson := .array commit.operations
  resultJson := result
  commitMetadataJson := commit.metadata
  idempotencyKey := request.idempotencyKey
  intentHash := logicalHash
  snapshotId := drawn.snapshotId
  parentSnapshotId := parentSnapshot
  targetRef := request.targetRef
  sequenceNumber := sequenceNumber
  summary := summary
  snapshotMetadataJson := request.snapshotMetadata.toValue
  files := files

/-- Build the candidate of an append on a parent. A request has a first file once it is
validated. -/
def buildCandidate (digest : Digest) (request : AppendRequest) (staged : List VerifiedStagedFile)
    (logicalHash : Sha256) (drawn : Drawn) (parent : PinnedTable) :
    Except RuntimeError (Candidate AppendResult) := do
  if Database.u64Max ≤ parent.db.tableMeta.tableVersion then
    invalidAppend "table version exhausted"
  else
    let tableVersion := parent.db.tableMeta.tableVersion + 1
    let (_, lastSequence) ← parent.db.currentSchemaAndSequence
    match ← parent.db.refRow request.targetRef with
    | none => .error (.refNotFound request.targetRef)
    | some (_, parentSnapshot) =>
      if Database.u64Max ≤ lastSequence then invalidAppend "sequence number exhausted"
      else
        let sequenceNumber := lastSequence + 1
        let result : AppendResult := ⟨tableVersion, drawn.commitId, drawn.snapshotId,
          sequenceNumber, request.targetRef, staged.map fun file => (file.fileId, file.uri)⟩
        let summary ← derivedSummary request
        match request.files with
        | [] => invalidAppend "empty append"
        | first :: _ =>
          let resultValue ← liftProtocol (canonicalText result.toValue)
          let commit ← liftProtocol ((appendCommit parent request staged logicalHash drawn first
            parentSnapshot sequenceNumber summary resultValue).seal digest
              parent.db.tableMeta.semanticStateSha256)
          let commitBytes ← liftProtocol commit.toVec
          let _ ← liftProtocol (canonicalText (.array commit.operations))
          let _ ← liftProtocol (canonicalText commit.metadata)
          let _ ← liftProtocol (canonicalText (JsonMap.toValue request.snapshotMetadata))
          let files ← (request.files.zip staged).mapM fun p => p.1.image digest p.2
          let db ← parent.db.mutateAppend (appendImage digest parent request logicalHash drawn
            parentSnapshot sequenceNumber summary resultValue commit commitBytes files)
          let db ← db.commitTransaction
          return ⟨commit, { parent with
            db := db
            semanticCommit := commitReference digest (commitUri tableVersion drawn.commitId)
              commitBytes }, result⟩

end Otmp
