import Otmp.Runtime.Requests

/-!
# Metadata transactions: preparation and application

Preparation checks a request against its parent and computes the results. Application
runs the operations in order and records the commit. A branch that is created or
replaced gets its live files from the ancestry of its new tip.
-/

namespace Otmp

open Foundation CanonicalValue

/-- What earlier operations of a transaction have used up. -/
structure Prepared where
  ids : List String
  keys : List String
  refs : List String
  addSchema : Bool
  setSchema : Bool

/-- Nothing is used up: no operation has been looked at yet. -/
def Prepared.init : Prepared := ⟨[], [], [], false, false⟩

/-- A control character, which names of refs must not have. -/
def isControl (c : Char) : Bool := c.toNat < 32 || (127 ≤ c.toNat && c.toNat ≤ 159)

/-- The check of a ref name, which a transaction may touch once. -/
def validateRefName (name : String) (refs : List String) : Except RuntimeError (List String) :=
  if name = "" ∨ name.toList.any isControl = true ∨ name ∈ refs then
    invalid "invalid or repeated ref name"
  else .ok (name :: refs)

/-- Whether a requirement is on a property of the given key. -/
def Requirement.isPropertyOf (key : String) : Requirement → Bool
  | .propertyIs k _ => k == key
  | _ => false

/-- The check of the property keys of an operation. -/
def validateKeys (request : TransactionRequest) (keys : List String) :
    List String → Except RuntimeError (List String)
  | [] => .ok keys
  | key :: rest =>
    if key = "" ∨ "otmp.".toList.isPrefixOf key.toList = true ∨ key ∈ keys then
      invalid "reserved, empty, overlapping, or repeated property key"
    else if request.requirements.countP (Requirement.isPropertyOf key) ≠ 1 then
      invalid "each property key requires exactly one property_is"
    else validateKeys request (key :: keys) rest

/-- The identifier of the current schema, which has to fit 32 bits. -/
def Database.currentSchema (db : Database) : Except RuntimeError UInt32 :=
  u32TryFrom db.tableMeta.currentSchemaId "Integer out of range"

/-- The lists of absent field identifiers that a request states. -/
def TransactionRequest.fieldIdsAbsent (request : TransactionRequest) : List (List UInt32) :=
  request.requirements.filterMap fun
    | .fieldIdsAbsent fieldIds => some fieldIds
    | _ => none

/-- The check of one operation, its result and what it uses up. -/
def prepareOperation (db : Database) (request : TransactionRequest) (st : Prepared) :
    OperationRequest → Except RuntimeError (OperationResult × Prepared)
  | .setProperties operationId updates removals =>
    if updates.toList.any (fun entry => entry.2 == .null) = true then
      invalid "top-level null property value"
    else do
      let touched := updates.toList.map Prod.fst ++ removals
      let keys ← validateKeys request st.keys touched
      return (.properties operationId (touched.mergeSort fun a b => decide (a ≤ b)),
        { st with keys := keys })
  | .createRef operationId name refType snapshotId => do
    required request (.refAbsent name)
    if refType = .tag ∧ snapshotId = none then invalid "tags require a snapshot"
    else
      match snapshotId with
      | none => pure ()
      | some id => required request (.snapshotExists id)
      let refs ← validateRefName name st.refs
      return (.ref operationId name refType snapshotId, { st with refs := refs })
  | .replaceRef operationId name snapshotId => do
    match ← db.refRow name with
    | none => .error (.refNotFound name)
    | some (_, old) =>
      required request (.refExists name .branch)
      required request (.refSnapshotIs name old)
      required request (.snapshotExists snapshotId)
      let refs ← validateRefName name st.refs
      return (.ref operationId name .branch (some snapshotId), { st with refs := refs })
  | .dropRef operationId name =>
    if name = "main" then invalid "main cannot be dropped"
    else do
      match ← db.refRow name with
      | none => .error (.refNotFound name)
      | some (kind, old) =>
        required request (.refExists name kind)
        required request (.refSnapshotIs name old)
        let refs ← validateRefName name st.refs
        return (.ref operationId name kind old, { st with refs := refs })
  | .addSchema operationId schema =>
    if st.addSchema then invalid "only one add_schema is supported"
    else do
      let current ← db.currentSchema
      required request (.currentSchemaIs current)
      required request (.schemaIdAbsent schema.schemaId)
      let old ← readSchema db.schemas current
      let newIds ← additiveSchema old schema
      match request.fieldIdsAbsent with
      | [] => invalid "field_ids_absent required"
      | actual :: others =>
        if others ≠ [] ∨ actual.mergeSort (fun a b => decide (a ≤ b)) ≠ newIds then
          invalid "field_ids_absent must cover exactly all new IDs"
        else return (.schema operationId schema.schemaId, { st with addSchema := true })
  | .setCurrentSchema operationId schemaId =>
    if st.setSchema then invalid "only one set_current_schema is supported"
    else do
      let current ← db.currentSchema
      required request (.currentSchemaIs current)
      return (.schema operationId schemaId, { st with setSchema := true })

/-- The checks of all operations in order, each of them with what those before it have used up. -/
def prepareAll (db : Database) (request : TransactionRequest) (st : Prepared) :
    List OperationRequest → Except RuntimeError (List OperationResult)
  | [] => .ok []
  | operation :: operations =>
    if operation.id = "" ∨ operation.id ∈ st.ids then
      invalid "operation IDs must be nonempty and unique"
    else do
      let (result, st) ← prepareOperation db request { st with ids := operation.id :: st.ids }
        operation
      let results ← prepareAll db request st operations
      return result :: results

/-- Check a request against its parent and compute the results. -/
def prepareOperations (db : Database) (request : TransactionRequest) :
    Except RuntimeError (List OperationResult) :=
  if request.idempotencyKey = "" ∨ request.idempotencyKey = "otmp.genesis" ∨
      request.operations.isEmpty = true then
    invalid "nonempty key and operations required"
  else do
    db.evaluate request.requirements
    prepareAll db request .init request.operations

namespace Database

/-- Rebuild the live files of a branch from the ancestry of a snapshot. -/
def materializeBranch (db : Database) (name : String) (snapshot : Option Id) :
    Except RuntimeError Database := do
  let db := db.deleteLiveFiles name
  let ancestors ← db.writerAncestry snapshot
  runAll (fun db id => runAll insertLiveFile db (db.liveRowsOf name id)) db ancestors

/-- Apply one operation to a database at the new version. -/
def applyOperation (version : ℕ) (db : Database) :
    OperationRequest → Except RuntimeError Database
  | .setProperties _ updates removals => do
    let db ← runAll (fun db entry => do
      let text ← liftProtocol (canonicalText entry.2)
      return db.upsertProperty ⟨entry.1, text, version⟩) db updates.toList
    return removals.foldl deleteProperty db
  | .createRef _ name refType snapshotId => do
    let db ← db.insertRef ⟨name, refType, snapshotId, version, version⟩
    if refType = .branch then db.materializeBranch name snapshotId else return db
  | .replaceRef _ name snapshotId => do
    let db ← db.updateRefs (·.refName == name) (some snapshotId) version
    db.materializeBranch name (some snapshotId)
  | .dropRef _ name => (db.deleteLiveFiles name).deleteRef name
  | .addSchema _ schema => do
    let schemas ← db.schemas.insertSchema schema version
    return { db with schemas := schemas }
  | .setCurrentSchema _ schemaId =>
    if !db.schemas.schemas.any (·.schemaId == (schemaId.toNat : ℤ)) then
      invalid "selected schema must already exist in operation order"
    else if schemaId = 0 then constraintFailed "CHECK constraint failed: otmp_meta"
    else return { db with tableMeta := { db.tableMeta with currentSchemaId := schemaId.toNat } }

/-- Apply operations in order, up to the first failure. -/
def applyOperations (db : Database) (operations : List OperationRequest) (version : ℕ) :
    Except RuntimeError Database :=
  if i64Max < version then invalid "version exhausted"
  else runAll (applyOperation version) db operations

/-- The rows that record the commit of a transaction. -/
def metadataCommitRow (commit : SemanticCommit) (uri : String) (hash : Sha256)
    (intent : IntentRecord) : CommitRow where
  tableVersion := commit.tableVersion
  commitId := commit.commitId
  parentTableVersion := some (commit.tableVersion - 1)
  createdAtMs := commit.createdAtMs
  intentCount := 1
  semanticStateSha256 := commit.semanticStateSha256
  commitObjectUri := uri
  commitObjectSha256 := hash
  operationSummary := .array commit.operations
  result := intent.result
  metadata := commit.metadata

/-- Apply a transaction and record its commit. The source takes the first intent, which every
commit it builds has. -/
def mutateMetadata (digest : Digest) (db : Database) (commit : SemanticCommit) (uri : String)
    (operations : List OperationRequest) : Except RuntimeError Database := do
  let db ← db.applyOperations operations commit.tableVersion
  let commitBytes ← liftProtocol commit.toVec
  let hash := objectHash digest commitBytes
  checkI64 commit.tableVersion "version"
  match commit.intents with
  | [] => .error (.corrupt "commit without intents")
  | intent :: _ =>
    let result ← liftProtocol (canonicalText intent.result)
    let _ ← liftProtocol (canonicalText (.array commit.operations))
    let _ ← liftProtocol (canonicalText commit.metadata)
    let db ← db.insertCommit (metadataCommitRow commit uri hash intent)
    let db ← db.insertIdempotency
      ⟨intent.key, intent.intentSha256, commit.commitId, commit.tableVersion, result⟩
    return { db with tableMeta :=
      { db.tableMeta with
        tableVersion := commit.tableVersion
        semanticStateSha256 := commit.semanticStateSha256
        lastCommitId := commit.commitId
        lastCommitSha256 := hash } }

end Database

/-- The pinned parent of a candidate: its database and what its head says beyond the database. -/
structure PinnedTable where
  db : Database
  semanticCommit : ObjectReference
  requiredReaderFeatures : List String
  requiredWriterFeatures : List String

/-- What the runtime draws for a candidate: its identifiers and the time. -/
structure Drawn where
  commitId : Id
  snapshotId : Id
  createdAtMs : ℤ
  commitId_v7 : commitId.isV7 = true
  snapshotId_v7 : snapshotId.isV7 = true

/-- The candidate of a publication: the commit, the database and the commit's reference. -/
structure Candidate (R : Type) where
  commit : SemanticCommit
  next : PinnedTable
  result : R

/-- The durable result of a transaction, as it is stored under its key. -/
structure DurableResult where
  tableVersion : ℕ
  commitId : Id
  operationResults : List OperationResult
  deriving DecidableEq

/-- The document of a transaction's result, which is stored under the idempotency key. -/
def DurableResult.toValue (r : DurableResult) : CanonicalValue :=
  .object [("commit_id", .string r.commitId.format),
    ("operation_results", .array (r.operationResults.map OperationResult.toValue)),
    ("table_version", .integer r.tableVersion)]

/-- The location of a commit object, under its table version and its identifier. -/
def commitUri (tableVersion : ℕ) (commitId : Id) : String :=
  "_otmp/commits/" ++ String.ofList (Nat.toDigits 10 tableVersion) ++ "/" ++ commitId.format ++
    ".json"

/-- The reference to a commit object, with its hash, its length and its media type. -/
def commitReference (digest : Digest) (uri : String) (bytes : Bytes) : ObjectReference :=
  ⟨uri, objectHash digest bytes, some bytes.length, some commitMediaType⟩

/-- A commit on top of a parent, before its own state hash is known. -/
def PinnedTable.commitOn (parent : PinnedTable) (drawn : Drawn) (intent : IntentRecord)
    (requirements operations : List CanonicalValue) (metadata : CanonicalValue) :
    SemanticCommit where
  kind := "otmp.semantic-commit"
  formatVersion := 1
  tableId := parent.db.tableMeta.tableId
  tableVersion := parent.db.tableMeta.tableVersion + 1
  parentTableVersion := some parent.db.tableMeta.tableVersion
  commitId := drawn.commitId
  parentCommit := some parent.semanticCommit
  createdAtMs := drawn.createdAtMs
  intents := [intent]
  requirements := requirements
  operations := operations
  requiredReaderFeaturesAfterCommit := parent.requiredReaderFeatures
  requiredWriterFeaturesAfterCommit := parent.requiredWriterFeatures
  previousSemanticStateSha256 := some parent.db.tableMeta.semanticStateSha256
  semanticStateSha256 := ⟨List.replicate 32 0, Sha256.length_zeros⟩
  metadata := metadata

/-- Seal a commit with its state hash, which covers its body and the state before it. -/
def SemanticCommit.seal (digest : Digest) (previous : Sha256) (commit : SemanticCommit) :
    Except ProtocolError SemanticCommit := do
  let body ← commit.body
  return { commit with semanticStateSha256 := nextStateHash digest previous body }

/-- Build the candidate of a metadata transaction on a parent. -/
def buildTransaction (digest : Digest) (request : TransactionRequest) (logicalHash : Sha256)
    (drawn : Drawn) (parent : PinnedTable) : Except RuntimeError (Candidate DurableResult) := do
  let results ← prepareOperations parent.db request
  if Database.u64Max ≤ parent.db.tableMeta.tableVersion then invalid "version exhausted"
  else
    let tableVersion := parent.db.tableMeta.tableVersion + 1
    let result : DurableResult := ⟨tableVersion, drawn.commitId, results⟩
    let resultValue ← liftProtocol (canonicalText result.toValue)
    let requirements ← request.requirements.mapM
      (fun requirement => liftProtocol (canonicalText requirement.toValue))
    let operations ← request.operations.mapM
      (fun operation => liftProtocol (canonicalText operation.toValue))
    let metadata ← liftProtocol (canonicalText (JsonMap.toValue request.commitMetadata))
    let commit ← liftProtocol ((parent.commitOn drawn
      ⟨request.idempotencyKey, logicalHash, request.operations.map OperationRequest.id,
        resultValue⟩ requirements operations metadata).seal digest
        parent.db.tableMeta.semanticStateSha256)
    let commitBytes ← liftProtocol commit.toVec
    let uri := commitUri tableVersion drawn.commitId
    let db ← parent.db.mutateMetadata digest commit uri request.operations
    let db ← db.commitTransaction
    return ⟨commit, { parent with
      db := db, semanticCommit := commitReference digest uri commitBytes }, result⟩

end Otmp
