import Otmp.Image.SchemaTables
import Otmp.Protocol.Objects

/-!
# The relational metadata of a table

A metadata image is a relational database. Its tables are lists of rows in insertion
order, and each insert checks the constraints of the normative schema that it can
violate: primary keys, unique columns, value checks and immediate foreign keys.
Columns that no statement of the runtime writes are left out.
-/

namespace Otmp

open Foundation

/-- The kind of a named reference: branches move with appends, tags stay. -/
inductive RefType where
  | branch
  | tag
  deriving DecidableEq, Repr

/-- The operation that made a snapshot, of which the runtime writes appends only. -/
inductive SnapshotOperation where
  | append | overwrite | rewrite | delete | update | merge | optimize | metadata
  deriving DecidableEq, Repr

/-- The kind of a file, of which the runtime writes data files only. -/
inductive FileKind where
  | data | positionDelete | equalityDelete
  deriving DecidableEq, Repr

/-- The direction of a file change: the snapshot adds the file or removes it. -/
inductive ChangeKind where
  | add | remove
  deriving DecidableEq, Repr

/-- Who must understand a feature to work on the table: readers, writers or both. -/
inductive FeatureRequirement where
  | reader | writer | both
  deriving DecidableEq, Repr

/-- The one row of `otmp_meta`, which describes the table at its current version. -/
structure MetaRow where
  protocol : String
  protocolVersion : String
  tableId : Id
  tableVersion : ℕ
  semanticStateSha256 : Sha256
  lastCommitId : Id
  lastCommitSha256 : Sha256
  lastSequenceNumber : ℕ
  currentSchemaId : ℕ
  defaultPartitionSpecId : ℕ
  defaultSortOrderId : ℕ
  createdAtMs : ℤ
  requiredReaderFeatures : CanonicalValue
  requiredWriterFeatures : CanonicalValue
  metadata : CanonicalValue
  deriving DecidableEq

/-- A row of `otmp_commits`: one semantic commit, under its table version. -/
structure CommitRow where
  tableVersion : ℕ
  commitId : Id
  parentTableVersion : Option ℕ
  createdAtMs : ℤ
  intentCount : ℕ
  semanticStateSha256 : Sha256
  commitObjectUri : String
  commitObjectSha256 : Sha256
  operationSummary : CanonicalValue
  result : CanonicalValue
  metadata : CanonicalValue
  deriving DecidableEq

/-- A row of `otmp_idempotency`: the intent and the result that are stored under a key. -/
structure IdempotencyRow where
  idempotencyKey : String
  intentSha256 : Sha256
  commitId : Id
  tableVersion : ℕ
  result : CanonicalValue
  deriving DecidableEq

/-- A row of `otmp_properties`: a property of the table and the version that last set it. -/
structure PropertyRow where
  propertyKey : String
  value : CanonicalValue
  updatedVersion : ℕ
  deriving DecidableEq

/-- A row of `otmp_features`: an enabled feature and who must understand it. -/
structure FeatureRow where
  featureName : String
  requirement : FeatureRequirement
  enabledVersion : ℕ
  deriving DecidableEq

/-- A row of `otmp_snapshots`: a snapshot with its parent and its place in the sequence. -/
structure SnapshotRow where
  snapshotId : Id
  parentSnapshotId : Option Id
  sequenceNumber : ℕ
  schemaId : ℕ
  partitionSpecId : ℕ
  sortOrderId : ℕ
  operation : SnapshotOperation
  committedTableVersion : ℕ
  committedAtMs : ℤ
  summary : CanonicalValue
  metadata : CanonicalValue
  deriving DecidableEq

/-- A row of `otmp_snapshot_summary`: one entry of a snapshot's summary. -/
structure SummaryRow where
  snapshotId : Id
  summaryKey : String
  value : CanonicalValue
  deriving DecidableEq

/-- A row of `otmp_refs`: a branch or tag with its target, and the versions it was touched at. -/
structure RefRow where
  refName : String
  refType : RefType
  snapshotId : Option Id
  createdVersion : ℕ
  updatedVersion : ℕ
  deriving DecidableEq

/-- A row of `otmp_files`: a file under its identifier, with the snapshot that added it. -/
structure FileRow where
  fileId : Id
  fileKind : FileKind
  uri : String
  objectIdentity : Option String
  fileFormat : String
  fileSizeBytes : ℕ
  recordCount : ℕ
  schemaId : ℕ
  partitionSpecId : ℕ
  sortOrderId : ℕ
  partitionValuesCbor : Bytes
  partitionHash : Sha256
  contentSha256 : Option Sha256
  dataSequenceNumber : ℕ
  fileSequenceNumber : ℕ
  createdSnapshotId : Id
  createdVersion : ℕ
  metadata : CanonicalValue
  deriving DecidableEq

/-- A row of `otmp_file_metrics`: what is known of one field in one file. -/
structure MetricRow where
  fileId : Id
  fieldId : ℕ
  columnSizeBytes : Option ℕ
  valueCount : Option ℕ
  nullCount : Option ℕ
  nanCount : Option ℕ
  distinctCount : Option ℕ
  lowerBoundCbor : Option Bytes
  upperBoundCbor : Option Bytes
  metadata : CanonicalValue
  deriving DecidableEq

/-- A row of `otmp_snapshot_file_changes`: a file that a snapshot adds or removes. -/
structure ChangeRow where
  snapshotId : Id
  fileId : Id
  changeKind : ChangeKind
  deriving DecidableEq

/-- A row of `otmp_ref_live_files`: a file that readers of a branch see, as appends materialize it.
-/
structure LiveFileRow where
  refName : String
  fileId : Id
  addedSnapshotId : Id
  dataSequenceNumber : ℕ
  fileSequenceNumber : ℕ
  deriving DecidableEq

/-- A metadata database after genesis: the row of the table itself and all other tables, each with
its rows in the order of their insertion. -/
structure Database where
  tableMeta : MetaRow
  schemas : SchemaTables
  partitionSpecs : List ℕ
  sortOrders : List ℕ
  features : List FeatureRow
  commits : List CommitRow
  idempotency : List IdempotencyRow
  properties : List PropertyRow
  snapshots : List SnapshotRow
  summaries : List SummaryRow
  refs : List RefRow
  files : List FileRow
  metrics : List MetricRow
  changes : List ChangeRow
  liveFiles : List LiveFileRow

namespace Database

/-- Insert into `otmp_commits`, where versions and commit identifiers are unique. -/
def insertCommit (db : Database) (row : CommitRow) : Except RuntimeError Database :=
  if db.commits.any (fun c => c.tableVersion == row.tableVersion || c.commitId == row.commitId ||
      c.semanticStateSha256 == row.semanticStateSha256) then
    constraintFailed "UNIQUE constraint failed: otmp_commits"
  else if row.intentCount = 0 ∨ ¬(row.tableVersion = 0 ∧ row.parentTableVersion = none ∨
      0 < row.tableVersion ∧ row.parentTableVersion = some (row.tableVersion - 1)) then
    constraintFailed "CHECK constraint failed: otmp_commits"
  else .ok { db with commits := db.commits ++ [row] }

/-- Insert into `otmp_idempotency`, where each key occurs once and a commit must be there. -/
def insertIdempotency (db : Database) (row : IdempotencyRow) : Except RuntimeError Database :=
  if db.idempotency.any (·.idempotencyKey == row.idempotencyKey) then
    constraintFailed "UNIQUE constraint failed: otmp_idempotency.idempotency_key"
  else if !db.commits.any (·.tableVersion == row.tableVersion) ∨
      !db.commits.any (·.commitId == row.commitId) then
    constraintFailed "FOREIGN KEY constraint failed"
  else .ok { db with idempotency := db.idempotency ++ [row] }

/-- Insert into `otmp_snapshots`; the parent is a deferred foreign key. -/
def insertSnapshot (db : Database) (row : SnapshotRow) : Except RuntimeError Database :=
  if db.snapshots.any (fun s => s.snapshotId == row.snapshotId ||
      s.sequenceNumber == row.sequenceNumber) then
    constraintFailed "UNIQUE constraint failed: otmp_snapshots"
  else if row.sequenceNumber = 0 ∨ row.committedTableVersion = 0 then
    constraintFailed "CHECK constraint failed: otmp_snapshots"
  else if !db.schemas.schemas.any (·.schemaId == (row.schemaId : ℤ)) ∨
      row.partitionSpecId ∉ db.partitionSpecs ∨ row.sortOrderId ∉ db.sortOrders then
    constraintFailed "FOREIGN KEY constraint failed"
  else .ok { db with snapshots := db.snapshots ++ [row] }

/-- Insert into `otmp_snapshot_summary`, where each key of a snapshot occurs once. -/
def insertSummary (db : Database) (row : SummaryRow) : Except RuntimeError Database :=
  if db.summaries.any (fun s => s.snapshotId == row.snapshotId &&
      s.summaryKey == row.summaryKey) then
    constraintFailed "UNIQUE constraint failed: otmp_snapshot_summary"
  else if !db.snapshots.any (·.snapshotId == row.snapshotId) then
    constraintFailed "FOREIGN KEY constraint failed"
  else .ok { db with summaries := db.summaries ++ [row] }

/-- Insert into `otmp_files`, where file identifiers and object identities are unique. -/
def insertFile (db : Database) (row : FileRow) : Except RuntimeError Database :=
  if db.files.any (fun f => f.fileId == row.fileId ||
      f.objectIdentity == row.objectIdentity && f.uri == row.uri) then
    constraintFailed "UNIQUE constraint failed: otmp_files"
  else if row.fileSequenceNumber = 0 ∨ row.createdVersion = 0 then
    constraintFailed "CHECK constraint failed: otmp_files"
  else if !db.schemas.schemas.any (·.schemaId == (row.schemaId : ℤ)) ∨
      row.partitionSpecId ∉ db.partitionSpecs ∨ row.sortOrderId ∉ db.sortOrders ∨
      !db.snapshots.any (·.snapshotId == row.createdSnapshotId) then
    constraintFailed "FOREIGN KEY constraint failed"
  else .ok { db with files := db.files ++ [row] }

/-- Insert into `otmp_file_metrics`, where each field of a file occurs once. -/
def insertMetric (db : Database) (row : MetricRow) : Except RuntimeError Database :=
  if db.metrics.any (fun m => m.fileId == row.fileId && m.fieldId == row.fieldId) then
    constraintFailed "UNIQUE constraint failed: otmp_file_metrics"
  else if !db.files.any (·.fileId == row.fileId) ∨
      !db.schemas.fieldIds.any (·.fieldId == (row.fieldId : ℤ)) then
    constraintFailed "FOREIGN KEY constraint failed"
  else .ok { db with metrics := db.metrics ++ [row] }

/-- Insert into `otmp_snapshot_file_changes`, where each change occurs once. -/
def insertChange (db : Database) (row : ChangeRow) : Except RuntimeError Database :=
  if db.changes.contains row then
    constraintFailed "UNIQUE constraint failed: otmp_snapshot_file_changes"
  else if !db.snapshots.any (·.snapshotId == row.snapshotId) ∨
      !db.files.any (·.fileId == row.fileId) then
    constraintFailed "FOREIGN KEY constraint failed"
  else .ok { db with changes := db.changes ++ [row] }

/-- Insert into `otmp_ref_live_files`, where each file of a ref occurs once. -/
def insertLiveFile (db : Database) (row : LiveFileRow) : Except RuntimeError Database :=
  if db.liveFiles.any (fun l => l.refName == row.refName && l.fileId == row.fileId) then
    constraintFailed "UNIQUE constraint failed: otmp_ref_live_files"
  else if row.fileSequenceNumber = 0 then
    constraintFailed "CHECK constraint failed: otmp_ref_live_files"
  else if !db.refs.any (·.refName == row.refName) ∨ !db.files.any (·.fileId == row.fileId) ∨
      !db.snapshots.any (·.snapshotId == row.addedSnapshotId) then
    constraintFailed "FOREIGN KEY constraint failed"
  else .ok { db with liveFiles := db.liveFiles ++ [row] }

/-- Insert into `otmp_refs`; the snapshot is a deferred foreign key. -/
def insertRef (db : Database) (row : RefRow) : Except RuntimeError Database :=
  if db.refs.any (·.refName == row.refName) then
    constraintFailed "UNIQUE constraint failed: otmp_refs.ref_name"
  else if row.updatedVersion < row.createdVersion ∨
      row.refType = .tag ∧ row.snapshotId = none then
    constraintFailed "CHECK constraint failed: otmp_refs"
  else .ok { db with refs := db.refs ++ [row] }

/-- Insert a property, or replace the value of the one with its key. -/
def upsertProperty (db : Database) (row : PropertyRow) : Database :=
  if db.properties.any (·.propertyKey == row.propertyKey) then
    { db with properties := db.properties.map fun p =>
        if p.propertyKey == row.propertyKey then row else p }
  else { db with properties := db.properties ++ [row] }

/-- Delete a property; there may be none with the key. -/
def deleteProperty (db : Database) (key : String) : Database :=
  { db with properties := db.properties.filter (·.propertyKey != key) }

/-- Delete the live rows of a ref, before they are materialized again. -/
def deleteLiveFiles (db : Database) (name : String) : Database :=
  { db with liveFiles := db.liveFiles.filter (·.refName != name) }

/-- Delete a ref, which fails while live rows refer to it. -/
def deleteRef (db : Database) (name : String) : Except RuntimeError Database :=
  if db.liveFiles.any (·.refName == name) then constraintFailed "FOREIGN KEY constraint failed"
  else .ok { db with refs := db.refs.filter (·.refName != name) }

/-- Set the target of a ref if a condition selects it. -/
def retarget (selected : RefRow → Bool) (snapshotId : Option Id) (version : ℕ) (r : RefRow) :
    RefRow :=
  if selected r then { r with snapshotId := snapshotId, updatedVersion := version } else r

/-- Set the target of the refs that a condition selects. -/
def updateRefs (db : Database) (selected : RefRow → Bool) (snapshotId : Option Id)
    (version : ℕ) : Except RuntimeError Database :=
  if db.refs.any (fun r => selected r && (decide (version < r.createdVersion) ||
      r.refType == .tag && snapshotId == none)) then
    constraintFailed "CHECK constraint failed: otmp_refs"
  else .ok { db with refs := db.refs.map (retarget selected snapshotId version) }

/-- The deferred foreign keys, which the commit of a transaction checks. -/
def deferredKeysHold (db : Database) : Bool :=
  db.schemas.schemas.all (fun s => s.parentSchemaId.all fun parent =>
    db.schemas.schemas.any (·.schemaId == parent)) &&
  db.schemas.fields.all (fun f => db.schemas.schemas.any (·.schemaId == f.schemaId) &&
    f.parentFieldId.all fun parent =>
      db.schemas.fields.any fun g => g.schemaId == f.schemaId && g.fieldId == parent) &&
  db.snapshots.all (fun s => s.parentSnapshotId.all fun parent =>
    db.snapshots.any (·.snapshotId == parent)) &&
  db.refs.all (fun r => r.snapshotId.all fun target => db.snapshots.any (·.snapshotId == target))

/-- Commit a transaction, which fails when a deferred foreign key is violated. -/
def commitTransaction (db : Database) : Except RuntimeError Database :=
  if db.deferredKeysHold = true then .ok db else constraintFailed "FOREIGN KEY constraint failed"

end Database

end Otmp
