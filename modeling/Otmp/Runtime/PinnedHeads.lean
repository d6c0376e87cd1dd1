import Otmp.Runtime.Initialization
import Otmp.Runtime.PublicationSafety
import Otmp.Runtime.Retries

/-!
# Candidates and their heads

Publication writes a head that names a commit and a generation. Both name those of the parent, so
that the heads form a chain. A candidate is recorded in its image under the key of the call, which
is how a later look at the head finds it.
-/

namespace Otmp

open Foundation CanonicalValue

/-- A pin: a head with the commit, the generation and the image that it leads to. -/
structure PinnedHead where
  head : Head
  commit : SemanticCommit
  generation : Generation
  db : Database

namespace PinnedHead

/-- What candidates are built on: the database of the pinned image, and the commit and generation of
the head. -/
def table (p : PinnedHead) : PinnedTable where
  db := p.db
  semanticCommit := p.head.semanticCommit
  requiredReaderFeatures := p.head.requiredReaderFeatures
  requiredWriterFeatures := p.head.requiredWriterFeatures

end PinnedHead

/-- The image of a candidate: the identifier of its generation, and what came of checking the
commit and the image, of laying the image out in objects and of comparing it with the commit. -/
structure ImageWork where
  generationId : Id
  checked : Except RuntimeError Unit
  stored : Except RuntimeError MetadataImage
  projected : Except RuntimeError Unit

/-- The location of a generation, under its table version and its own identifier. -/
def generationUri (tableVersion : ℕ) (generationId : Id) : String :=
  "_otmp/generations/" ++ String.ofList (Nat.toDigits 10 tableVersion) ++ "/" ++
    generationId.format ++ ".json"

/-- The reference to a generation, with its hash and its length. -/
def generationReference (digest : Digest) (uri : String) (bytes : Bytes) : ObjectReference :=
  ⟨uri, objectHash digest bytes, some bytes.length, some generationMediaType⟩

/-- The generation of a commit: its image, the commit it shows, and the generation it follows. -/
def generationOf (commit : SemanticCommit) (semanticCommit : ObjectReference)
    (physicalParent : Option ObjectReference) (generationId : Id) (image : MetadataImage) :
    Generation where
  kind := "otmp.metadata-generation"
  formatVersion := 1
  tableId := commit.tableId
  tableVersion := commit.tableVersion
  generationId := generationId
  createdAtMs := commit.createdAtMs
  semanticStateSha256 := commit.semanticStateSha256
  semanticCommit := semanticCommit
  physicalParent := physicalParent
  metadataImage := image
  scanProjection := none
  metadata := []

/-- The head of a candidate, one version and one revision after the parent's. -/
def nextHead (digest : Digest) (parent : Head) (generation : Generation) (bytes : Bytes) :
    Head where
  protocol := "otmp"
  protocolVersion := "0.0.2-alpha"
  tableId := parent.tableId
  tableVersion := generation.tableVersion
  rootRevision := parent.rootRevision + 1
  semanticStateSha256 := generation.semanticStateSha256
  semanticCommit := generation.semanticCommit
  metadataGeneration := generationReference digest
    (generationUri generation.tableVersion generation.generationId) bytes
  requiredReaderFeatures := parent.requiredReaderFeatures
  requiredWriterFeatures := parent.requiredWriterFeatures

/-- Turn a candidate into a head. The state hash that is returned is that of the commit's row. -/
def finishCandidate {R : Type} (digest : Digest) (work : ImageWork) (parent : PinnedHead)
    (candidate : Candidate R) : Except RuntimeError (PinnedHead × (R × Sha256)) := do
  work.checked
  let image ← work.stored
  let generation := generationOf candidate.commit candidate.next.semanticCommit
    (some parent.head.metadataGeneration) work.generationId image
  let generationBytes ← liftProtocol (toVec generation.toValue)
  if Database.u64Max ≤ parent.head.rootRevision then invalidAppend "root revision exhausted"
  else
    work.projected
    match candidate.next.db.commits.find? (·.commitId == candidate.commit.commitId) with
    | none => .error (.sqlite "Query returned no rows")
    | some row =>
      let head := nextHead digest parent.head generation generationBytes
      let _ ← liftProtocol (toVec head.toValue)
      return (⟨head, candidate.commit, generation, candidate.next.db⟩, candidate.result,
        row.semanticStateSha256)

/-- A call that publishes: an append with its staged files and the tip and the version of its base,
or a transaction. What is checked before publication is part of the call. -/
inductive Call where
  | append (request : AppendRequest) (staged : List VerifiedStagedFile) (tableId : Id)
      (baseTip : Option (RefType × Option Id)) (baseVersion : ℕ) (hgood : StagedGood staged)
      (hstaged : validateStaged request staged tableId = .ok ())
  | transact (request : TransactionRequest)
      (hgood : ∀ operation ∈ request.operations, operation.Good)

/-- What a call returns: the result of an append or of a transaction. -/
inductive CallResult where
  | append (result : AppendResult)
  | transact (result : DurableResult)
  deriving DecidableEq

/-- The stored form of a result, which retries are answered from. -/
def CallResult.toValue : CallResult → CanonicalValue
  | .append result => result.toValue
  | .transact result => result.toValue

/-- Look up a key in the image of a pin. The image is opened and queried for the key, and once more
for the state hash; `reads` says what comes of that. -/
def replayAs {R : Type} (parse : Bytes → Except ProtocolError CanonicalValue)
    (read : CanonicalValue → Except ProtocolError R) (reads : Publication.KeyReads) (db : Database)
    (key : String) (intent : Sha256) : Except RuntimeError (Option (R × Sha256)) := do
  reads.key.mapError .sqlite
  match db.idempotencyOf key with
  | none => .ok none
  | some (storedHash, result) =>
    if storedHash ≠ intent then .error .idempotencyConflict
    else do
      reads.state.mapError .sqlite
      let state ← db.stateOfKey key
      let result ← liftProtocol (fromSliceCanonical parse read result.bytes)
      return some (result, state)

/-- The look at a key of a transaction when the image can be read. -/
theorem replayAs_fine (parse : Bytes → Except ProtocolError CanonicalValue) (db : Database)
    (key : String) (intent : Sha256) :
    replayAs parse DurableResult.read .fine db key intent = replay parse db key intent := rfl

namespace Call

/-- The idempotency key that the caller chose. -/
def key : Call → String
  | .append request .. => request.idempotencyKey
  | .transact request _ => request.idempotencyKey

/-- The hash of the intent, which retries under one key have to share. -/
def logicalHash (digest : Digest) : Call → Sha256
  | .append request .. => intentHash digest request.logicalIntent.bytes
  | .transact request _ => intentHash digest request.toValue.bytes

/-- Read a stored result as one of the kind that the call returns. -/
def read : Call → CanonicalValue → Except ProtocolError CallResult
  | .append .., value => (AppendResult.read value).map .append
  | .transact .., value => (DurableResult.read value).map .transact

/-- Build a candidate on a pin, from what is drawn and from the work on the image. -/
def build (digest : Digest) (drawn : Drawn) (work : ImageWork) (parent : PinnedHead)
    (call : Call) : Except RuntimeError (PinnedHead × (CallResult × Sha256)) :=
  match call with
  | .append request staged tableId baseTip baseVersion _ _ =>
    if parent.head.tableId ≠ tableId then .error (.semanticConflict "table identity changed")
    else do
      validateAppendRebase parent.db request.targetRef baseTip baseVersion
      validateRequest parent.db request
      let candidate ← buildCandidate digest request staged (call.logicalHash digest) drawn
        parent.table
      finishCandidate digest work parent { candidate with result := .append candidate.result }
  | .transact request _ => do
    let candidate ← buildTransaction digest request (call.logicalHash digest) drawn parent.table
    finishCandidate digest work parent { candidate with result := .transact candidate.result }

end Call

/-- How often a call starts again, and how often it asks after a lost answer. -/
structure TransactionRetryPolicy where
  maximumRebases : ℕ
  maximumIndeterminateReconciliations : ℕ

/-- What the publication loop is called with: how to answer from a pinned table, which candidates
can be built on it, and how often to try. -/
def Call.publisher (parse : Bytes → Except ProtocolError CanonicalValue) (digest : Digest)
    (policy : TransactionRetryPolicy) (call : Call) :
    Publication.Publisher PinnedHead (CallResult × Sha256) where
  replay reads p := replayAs parse call.read reads p.db call.key (call.logicalHash digest)
  Builds p outcome := ∃ drawn work, outcome = call.build digest drawn work p
  maximumRebases := policy.maximumRebases
  maximumReconciliations := policy.maximumIndeterminateReconciliations

/-- What a table is initialized with: its first schema and its metadata. -/
structure InitializeRequest where
  schema : Schema
  metadata : JsonMap

/-- The commit of genesis, before its own state hash is known. -/
def genesisCommit (request : InitializeRequest) (tableId commitId : Id) (createdAtMs : ℤ)
    (intent : Sha256) (result : CanonicalValue) : SemanticCommit where
  kind := "otmp.semantic-commit"
  formatVersion := 1
  tableId := tableId
  tableVersion := 0
  parentTableVersion := none
  commitId := commitId
  parentCommit := none
  createdAtMs := createdAtMs
  intents := [⟨"otmp.genesis", intent, ["initialize"], result⟩]
  requirements := []
  operations := [initializeOperation tableId request.schema]
  requiredReaderFeaturesAfterCommit := supportedFeatures
  requiredWriterFeaturesAfterCommit := supportedFeatures
  previousSemanticStateSha256 := none
  semanticStateSha256 := ⟨List.replicate 32 0, Sha256.length_zeros⟩
  metadata := request.metadata.toValue

/-- The result that genesis stores, under the key that is reserved for it. -/
def genesisResult : CanonicalValue :=
  .object [("ref", .string "main"), ("table_version", .string "0")]

/-- Build the head of a new table, with the commit, the image and the generation of genesis. -/
def initializeHead (digest : Digest) (request : InitializeRequest) (tableId commitId : Id)
    (createdAtMs : ℤ) (work : ImageWork) (maximumReconciliations : ℕ) :
    Except RuntimeError PinnedHead := do
  liftProtocol request.schema.validate
  if request.schema.schemaId ≠ 1 ∨ request.schema.parentSchemaId.isSome then
    .error (.invalidInitialize
      "local/full-image profile genesis requires schema_id 1 with no parent schema")
  else
    let operation := initializeOperation tableId request.schema
    let logical ← liftProtocol (toVec operation)
    let intent := intentHash digest logical
    let unsealed := genesisCommit request tableId commitId createdAtMs intent genesisResult
    let body ← liftProtocol unsealed.body
    let commit := { unsealed with semanticStateSha256 := genesisStateHash digest body }
    let commitBytes ← liftProtocol commit.toVec
    let uri := commitUri 0 commitId
    let reference := commitReference digest uri commitBytes
    let features := CanonicalValue.array (supportedFeatures.map .string)
    let db ← mutateGenesis {
      tableId, schema := request.schema, createdAtMs, commitId
      semanticState := commit.semanticStateSha256
      commitHash := objectHash digest commitBytes
      commitUri := uri
      operationJson := .array [operation]
      resultJson := genesisResult
      intentHash := intent
      metadataJson := request.metadata.toValue
      readerFeaturesJson := features
      writerFeaturesJson := features }
    let image ← work.stored
    let generation := generationOf commit reference none work.generationId image
    let generationBytes ← liftProtocol (toVec generation.toValue)
    let call : InitializeCall := ⟨tableId, commit.semanticStateSha256, reference,
      generationReference digest (generationUri 0 work.generationId) generationBytes,
      maximumReconciliations⟩
    let _ ← liftProtocol (toVec call.head.toValue)
    return ⟨call.head, commit, generation, db⟩

end Otmp
