import Otmp.Image.Database

/-!
# Genesis and append

Genesis fills an empty database. An append inserts one snapshot with its files on top
of a branch, moves the branch to the snapshot and records the commit. The ancestry of
a snapshot is found by following parents; sequence numbers have to descend, which is
also why the walk ends.
-/

namespace Otmp

open Foundation CanonicalValue

/-- The input of a genesis transaction: the new table, its first schema, and the commit of genesis.
-/
structure GenesisImage where
  tableId : Id
  schema : Schema
  createdAtMs : ℤ
  semanticState : Sha256
  commitId : Id
  commitHash : Sha256
  commitUri : String
  operationJson : CanonicalValue
  resultJson : CanonicalValue
  intentHash : Sha256
  metadataJson : CanonicalValue
  readerFeaturesJson : CanonicalValue
  writerFeaturesJson : CanonicalValue

/-- The features that genesis enables, all of them required of readers and writers. -/
def genesisFeatures : List String :=
  ["otmp.core.v2", "otmp.refs.v1", "otmp.data.parquet.v1", "otmp.metadata.sqlite3-cow.v1"]

/-- The row of the main branch at genesis, which has no snapshot yet. -/
def mainRef : RefRow := ⟨"main", .branch, none, 0, 0⟩

/-- Fill an empty database. Its inserts meet no other rows, so only the schema can fail. -/
def mutateGenesis (input : GenesisImage) : Except RuntimeError Database := do
  let schemas ← SchemaTables.empty.insertSchema input.schema 0
  return {
    tableMeta :=
      { protocol := "otmp"
        protocolVersion := "0.0.2-alpha"
        tableId := input.tableId
        tableVersion := 0
        semanticStateSha256 := input.semanticState
        lastCommitId := input.commitId
        lastCommitSha256 := input.commitHash
        lastSequenceNumber := 0
        currentSchemaId := input.schema.schemaId.toNat
        defaultPartitionSpecId := 0
        defaultSortOrderId := 0
        createdAtMs := input.createdAtMs
        requiredReaderFeatures := input.readerFeaturesJson
        requiredWriterFeatures := input.writerFeaturesJson
        metadata := input.metadataJson }
    schemas := schemas
    partitionSpecs := [0]
    sortOrders := [0]
    features := genesisFeatures.map fun name => ⟨name, .both, 0⟩
    commits :=
      [{ tableVersion := 0
         commitId := input.commitId
         parentTableVersion := none
         createdAtMs := input.createdAtMs
         intentCount := 1
         semanticStateSha256 := input.semanticState
         commitObjectUri := input.commitUri
         commitObjectSha256 := input.commitHash
         operationSummary := input.operationJson
         result := input.resultJson
         metadata := input.metadataJson }]
    idempotency := [⟨"otmp.genesis", input.intentHash, input.commitId, 0, input.resultJson⟩]
    properties := []
    snapshots := []
    summaries := []
    refs := [mainRef]
    files := []
    metrics := []
    changes := []
    liveFiles := [] }

/-- The bounds and counts of one column of a file. -/
structure ImageMetric where
  fieldId : UInt32
  columnSizeBytes : Option ℕ
  valueCount : Option ℕ
  nullCount : Option ℕ
  nanCount : Option ℕ
  distinctCount : Option ℕ
  lowerBoundCbor : Option Bytes
  upperBoundCbor : Option Bytes
  metadataJson : CanonicalValue

/-- A file that an append adds. The only format is Parquet. -/
structure ImageFile where
  fileId : Id
  uri : String
  fileSizeBytes : ℕ
  recordCount : ℕ
  schemaId : UInt32
  partitionSpecId : UInt32
  sortOrderId : UInt32
  partitionValuesCbor : Bytes
  partitionHash : Sha256
  contentSha256 : Sha256
  metrics : List ImageMetric
  metadataJson : CanonicalValue

/-- The input of an append: the new version, snapshot and commit, the target branch and the files.
-/
structure AppendImage where
  tableVersion : ℕ
  createdAtMs : ℤ
  semanticState : Sha256
  commitId : Id
  commitHash : Sha256
  commitUri : String
  operationJson : CanonicalValue
  resultJson : CanonicalValue
  commitMetadataJson : CanonicalValue
  idempotencyKey : String
  intentHash : Sha256
  snapshotId : Id
  parentSnapshotId : Option Id
  targetRef : String
  sequenceNumber : ℕ
  summary : JsonMap
  snapshotMetadataJson : CanonicalValue
  files : List ImageFile

/-- An unsigned integer has to fit a table integer. -/
def checkI64 (value : ℕ) (name : String) : Except RuntimeError Unit :=
  (sqliteI64 value name).map fun _ => ()

/-- The optional counts of a metric have to fit table integers. -/
def ImageMetric.checkCounts (m : ImageMetric) : Except RuntimeError Unit :=
  checkAll (fun count : Option ℕ × String => match count.1 with
    | none => .ok ()
    | some value => checkI64 value count.2)
    [(m.columnSizeBytes, "column size"), (m.valueCount, "value count"),
      (m.nullCount, "null count"), (m.nanCount, "nan count"), (m.distinctCount, "distinct count")]

/-- The row of a metric, under the file it was measured on. -/
def ImageMetric.row (fileId : Id) (m : ImageMetric) : MetricRow where
  fileId := fileId
  fieldId := m.fieldId.toNat
  columnSizeBytes := m.columnSizeBytes
  valueCount := m.valueCount
  nullCount := m.nullCount
  nanCount := m.nanCount
  distinctCount := m.distinctCount
  lowerBoundCbor := m.lowerBoundCbor
  upperBoundCbor := m.upperBoundCbor
  metadata := m.metadataJson

namespace AppendImage

/-- The row of the new snapshot, on top of the target branch. -/
def snapshotRow (input : AppendImage) (currentSchema : ℕ) : SnapshotRow where
  snapshotId := input.snapshotId
  parentSnapshotId := input.parentSnapshotId
  sequenceNumber := input.sequenceNumber
  schemaId := currentSchema
  partitionSpecId := 0
  sortOrderId := 0
  operation := .append
  committedTableVersion := input.tableVersion
  committedAtMs := input.createdAtMs
  summary := JsonMap.toValue input.summary
  metadata := input.snapshotMetadataJson

/-- The row of an added file, a data file of the one partition. -/
def fileRow (input : AppendImage) (file : ImageFile) : FileRow where
  fileId := file.fileId
  fileKind := .data
  uri := file.uri
  objectIdentity := none
  fileFormat := "parquet"
  fileSizeBytes := file.fileSizeBytes
  recordCount := file.recordCount
  schemaId := file.schemaId.toNat
  partitionSpecId := file.partitionSpecId.toNat
  sortOrderId := file.sortOrderId.toNat
  partitionValuesCbor := file.partitionValuesCbor
  partitionHash := file.partitionHash
  contentSha256 := some file.contentSha256
  dataSequenceNumber := input.sequenceNumber
  fileSequenceNumber := input.sequenceNumber
  createdSnapshotId := input.snapshotId
  createdVersion := input.tableVersion
  metadata := file.metadataJson

/-- The row that records a file as added by the snapshot. -/
def changeRow (input : AppendImage) (file : ImageFile) : ChangeRow :=
  ⟨input.snapshotId, file.fileId, .add⟩

/-- The row that makes a file live on the target reference. -/
def liveRow (input : AppendImage) (file : ImageFile) : LiveFileRow :=
  ⟨input.targetRef, file.fileId, input.snapshotId, input.sequenceNumber, input.sequenceNumber⟩

/-- The row of the commit, one version after its parent. -/
def commitRow (input : AppendImage) : CommitRow where
  tableVersion := input.tableVersion
  commitId := input.commitId
  parentTableVersion := some (input.tableVersion - 1)
  createdAtMs := input.createdAtMs
  intentCount := 1
  semanticStateSha256 := input.semanticState
  commitObjectUri := input.commitUri
  commitObjectSha256 := input.commitHash
  operationSummary := input.operationJson
  result := input.resultJson
  metadata := input.commitMetadataJson

/-- The row that remembers the request and its result under the idempotency key. -/
def idempotencyRow (input : AppendImage) : IdempotencyRow :=
  ⟨input.idempotencyKey, input.intentHash, input.commitId, input.tableVersion, input.resultJson⟩

end AppendImage

namespace Database

/-- Insert one metric of a file, after checking that its counts agree with each other. -/
def appendMetric (fileId : Id) (db : Database) (m : ImageMetric) :
    Except RuntimeError Database := do
  m.checkCounts
  db.insertMetric (m.row fileId)

/-- Insert one entry of the summary, whose value must have a canonical text. -/
def appendSummary (snapshotId : Id) (db : Database) (entry : String × CanonicalValue) :
    Except RuntimeError Database := do
  let text ← liftProtocol (canonicalText entry.2)
  db.insertSummary ⟨snapshotId, entry.1, text⟩

/-- Insert one file with its metrics, its change row and its live row. -/
def appendFile (input : AppendImage) (db : Database) (file : ImageFile) :
    Except RuntimeError Database := do
  checkI64 file.fileSizeBytes "file size"
  checkI64 file.recordCount "record count"
  let db ← db.insertFile (input.fileRow file)
  let db ← runAll (appendMetric file.fileId) db file.metrics
  let db ← db.insertChange (input.changeRow file)
  db.insertLiveFile (input.liveRow file)

/-- `mutate_append`: append a snapshot with its files to a branch, as one transaction that either
succeeds in all steps or leaves the database as it was. -/
def mutateAppend (db : Database) (input : AppendImage) : Except RuntimeError Database := do
  if i64Max ≤ db.tableMeta.tableVersion ∨ db.tableMeta.tableVersion + 1 ≠ input.tableVersion then
    .error (.corrupt "candidate parent version mismatch")
  else
    checkI64 input.sequenceNumber "sequence number"
    let _ ← liftProtocol (canonicalText (JsonMap.toValue input.summary))
    let db ← db.insertSnapshot (input.snapshotRow db.tableMeta.currentSchemaId)
    let db ← runAll (appendSummary input.snapshotId) db input.summary.toList
    let db ← runAll (appendFile input) db input.files
    let selected := fun r : RefRow => r.refName == input.targetRef && r.refType == .branch
    if (db.refs.filter selected).length ≠ 1 then
      .error (.corrupt "candidate parent has no unique main branch")
    else
      let db ← db.updateRefs selected (some input.snapshotId) input.tableVersion
      let db ← db.insertCommit input.commitRow
      let db ← db.insertIdempotency input.idempotencyRow
      return { db with tableMeta :=
        { db.tableMeta with
          tableVersion := input.tableVersion
          semanticStateSha256 := input.semanticState
          lastCommitId := input.commitId
          lastCommitSha256 := input.commitHash
          lastSequenceNumber := input.sequenceNumber } }

/-- The row of a snapshot, if the database knows the identifier. -/
def findSnapshot (db : Database) (id : Id) : Option SnapshotRow :=
  db.snapshots.find? (·.snapshotId == id)

end Database

/-- An identifier read from a table has to be one of the runtime's own. -/
def idFromBlob (id : Id) : Except RuntimeError Id :=
  if id.isV7 then .ok id
  else .error (.protocol (.invalidId (String.ofList (Foundation.hexEncode id.val))))

/-- An optional identifier read from a table, which must be one that the runtime makes. -/
def optionalIdFromBlob : Option Id → Except RuntimeError (Option Id)
  | none => .ok none
  | some id => (idFromBlob id).map some

namespace Database

/-- Follow the parents of a snapshot. Both walks of the source end at a repeated snapshot or a
sequence number that does not descend; they differ in the rows they refuse and in the failure
for a missing row. -/
def ancestryFrom (db : Database) (refuse : SnapshotRow → Bool) (missing : RuntimeError)
    (seen : List Id) (lastSequence : ℕ) : Option Id → Except RuntimeError (List Id)
  | none => .ok []
  | some id =>
    if id ∈ seen then .error (.corrupt "snapshot ancestry cycle")
    else
      match db.findSnapshot id with
      | none => .error missing
      | some row =>
        if _ : lastSequence ≤ row.sequenceNumber ∨ refuse row = true then
          .error (.corrupt "nondecreasing snapshot ancestry")
        else do
          let parent ← optionalIdFromBlob row.parentSnapshotId
          let rest ← ancestryFrom db refuse missing (id :: seen) row.sequenceNumber parent
          return id :: rest
termination_by lastSequence

/-- The largest unsigned integer of 64 bits, above every sequence number. -/
def u64Max : ℕ := 2 ^ 64 - 1

/-- The ancestry that a writer reads while it mutates. -/
def writerAncestry (db : Database) (tip : Option Id) : Except RuntimeError (List Id) :=
  db.ancestryFrom (·.sequenceNumber == 0) (.sqlite "Query returned no rows") [] u64Max tip

/-- The ancestry that readers and the image check follow. -/
def ancestry (db : Database) (tip : Option Id) : Except RuntimeError (List Id) :=
  db.ancestryFrom (fun _ => false) (.corrupt "dangling snapshot ancestry") [] u64Max tip

/-- The live rows that a snapshot contributes to a branch. -/
def liveRowsOf (db : Database) (name : String) (id : Id) : List LiveFileRow :=
  match db.findSnapshot id with
  | none => []
  | some row => (db.changes.filter fun c => c.snapshotId == id && c.changeKind == .add).map
      fun c => ⟨name, c.fileId, id, row.sequenceNumber, row.sequenceNumber⟩

/-- The kind and the target of a ref, if there is one of the name. -/
def refRow (db : Database) (name : String) :
    Except RuntimeError (Option (RefType × Option Id)) :=
  match db.refs.find? (·.refName == name) with
  | none => .ok none
  | some row => do
    let target ← optionalIdFromBlob row.snapshotId
    return some (row.refType, target)

end Database

end Otmp
