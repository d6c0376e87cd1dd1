import Otmp.Runtime.Append
import Otmp.Runtime.TransactionInvariant

/-!
# Histories of a table

A history starts at genesis and grows by candidates that were built on the latest
table, after the checks that the runtime makes first. The relational invariant holds
along every history, so a reader's checks accept every table of it.
-/

namespace Otmp

open Foundation CanonicalValue

namespace Database

variable {db db₀ db' : Database} {version : ℕ}

/-- The state between two operations of a transaction on a parent. -/
structure Midway (db₀ : Database) (touched : List String) (version : ℕ) (db : Database) :
    Prop where
  untouched : db₀.Untouched db
  refs : db.RefsConsistent version
  /-- A ref without an operation is as in the parent. -/
  kept : ∀ r : RefRow, r.refName ∉ touched → (r ∈ db.refs ↔ r ∈ db₀.refs)

/-- One prepared operation keeps what holds midway through a transaction. -/
theorem Midway.step {request : TransactionRequest} {st st' : Prepared}
    {operation : OperationRequest} {result : OperationResult}
    (hmid : Midway db₀ st.refs version db) (hreq : db₀.evaluate request.requirements = .ok ())
    (hprepare : prepareOperation db₀ request st operation = .ok (result, st'))
    (h : db.applyOperation version operation = .ok db') : Midway db₀ st'.refs version db' := by
  obtain ⟨htouched, hnew, hprepared⟩ := prepareOperation_ref hreq hprepare
  obtain ⟨huntouched, hkept⟩ := applyOperation_spec h
  refine ⟨hmid.untouched.trans huntouched, hmid.refs.applyOperation ?_ h, fun r hr => ?_⟩
  · cases operation with
    | replaceRef operationId name snapshotId =>
      obtain ⟨r, hr, hname, hkind⟩ := hprepared
      have hr' := (hmid.kept r (by rw [hname]; exact hnew name rfl)).mpr hr
      exact ⟨r, hr', hname, hkind⟩
    | dropRef operationId name => exact hprepared
    | _ => trivial
  · rw [htouched, List.mem_append, not_or, Option.mem_toList] at hr
    exact (hkept.refs r hr.1).trans (hmid.kept r hr.2)

/-- All prepared operations keep what holds midway through a transaction. -/
theorem Midway.run {request : TransactionRequest} {st : Prepared}
    {operations : List OperationRequest} {results : List OperationResult}
    (hmid : Midway db₀ st.refs version db) (hreq : db₀.evaluate request.requirements = .ok ())
    (hprepare : prepareAll db₀ request st operations = .ok results)
    (h : runAll (applyOperation version) db operations = .ok db') :
    ∃ touched, (∀ name ∈ touched, name ∈ st.refs ∨ name ∈ operations.filterMap (·.ref?)) ∧
      Midway db₀ touched version db' := by
  induction operations generalizing st db results with
  | nil =>
    cases h
    exact ⟨st.refs, fun _ hname => .inl hname, hmid⟩
  | cons operation operations ih =>
    rw [prepareAll, invalid] at hprepare
    obtain ⟨-, hprepare⟩ := ite_error_eq_ok.mp hprepare
    obtain ⟨⟨result, st'⟩, hfirst, hprepare⟩ := bind_eq_ok.mp hprepare
    obtain ⟨rest, hrest, -⟩ := bind_eq_ok.mp hprepare
    obtain ⟨db₁, h₁, h⟩ := runAll_cons_ok.mp h
    have htouched := (prepareOperation_ref hreq hfirst).1
    have hmid' : Midway db₀ { st with ids := operation.id :: st.ids : Prepared }.refs version db :=
      hmid
    obtain ⟨touched, hmem, hend⟩ := ih (hmid'.step hreq hfirst h₁) hrest h
    refine ⟨touched, fun name hname => ?_, hend⟩
    rw [List.filterMap_cons]
    rcases hmem name hname with hst | hlater
    · rw [htouched, List.mem_append, Option.mem_toList] at hst
      rcases hst with href | hst
      · rw [href]
        exact .inr List.mem_cons_self
      · exact .inl hst
    · cases hfirst' : operation.ref? with
      | none => exact .inr hlater
      | some other => exact .inr (List.mem_cons_of_mem _ hlater)

/-- The effect of recording a commit: the two rows, and the table's own row at the new version. -/
def recorded (db : Database) (commit : CommitRow) (idempotency : IdempotencyRow) : Database :=
  { db with
    commits := db.commits ++ [commit]
    idempotency := db.idempotency ++ [idempotency]
    tableMeta :=
      { db.tableMeta with
        tableVersion := commit.tableVersion
        semanticStateSha256 := commit.semanticStateSha256
        lastCommitId := commit.commitId
        lastCommitSha256 := commit.commitObjectSha256 } }

/-- What a transaction does: its operations in order, then the two rows that record it. -/
theorem mutateMetadata_spec {digest : Digest} {commit : SemanticCommit} {uri : String}
    {operations : List OperationRequest}
    (h : db.mutateMetadata digest commit uri operations = .ok db') :
    ∃ db₁ bytes intent intents,
      runAll (applyOperation commit.tableVersion) db operations = .ok db₁ ∧
      commit.tableVersion ≤ i64Max ∧ commit.toVec = .ok bytes ∧ commit.intents = intent :: intents ∧
      (∀ i ∈ db₁.idempotency, i.idempotencyKey ≠ intent.key) ∧
      db' = db₁.recorded (metadataCommitRow commit uri (objectHash digest bytes) intent)
        ⟨intent.key, intent.intentSha256, commit.commitId, commit.tableVersion, intent.result⟩ := by
  rw [mutateMetadata] at h
  obtain ⟨db₁, h₁, h⟩ := bind_eq_ok.mp h
  obtain ⟨bytes, hbytes, h⟩ := bind_eq_ok.mp h
  obtain ⟨hversion, h⟩ := check_eq_ok.mp h
  rw [applyOperations, invalid] at h₁
  obtain ⟨-, h₁⟩ := ite_error_eq_ok.mp h₁
  cases hintents : commit.intents with
  | nil =>
    rw [hintents] at h
    cases h
  | cons intent intents =>
    rw [hintents] at h
    obtain ⟨result, hresult, h⟩ := bind_eq_ok.mp h
    obtain ⟨-, -, h⟩ := bind_eq_ok.mp h
    obtain ⟨-, -, h⟩ := bind_eq_ok.mp h
    obtain ⟨db₂, h₂, h⟩ := bind_eq_ok.mp h
    obtain ⟨db₃, h₃, h⟩ := bind_eq_ok.mp h
    cases h
    have hresult := canonicalText_eq (liftProtocol_eq_ok.mp hresult)
    subst hresult
    obtain rfl := insertCommit_spec h₂
    obtain ⟨rfl, hkey⟩ := insertIdempotency_spec h₃
    exact ⟨db₁, bytes, intent, intents, h₁, checkI64_eq_ok.mp hversion,
      liftProtocol_eq_ok.mp hbytes, rfl, hkey, rfl⟩

/-- The commits after one is recorded count up to its version, each of them with its key. -/
theorem CommitsConsistent.recorded {row : CommitRow} {idempotency : IdempotencyRow}
    (hdb : db₀.CommitsConsistent) (huntouched : db₀.Untouched db)
    (hversion : row.tableVersion = db₀.tableMeta.tableVersion + 1)
    (hle : row.tableVersion ≤ i64Max) (hcount : row.intentCount = 1)
    (hpaired : (idempotency.commitId, idempotency.tableVersion) = (row.commitId, row.tableVersion))
    (hkey : ∀ i ∈ db.idempotency, i.idempotencyKey ≠ idempotency.idempotencyKey) :
    (db.recorded row idempotency).CommitsConsistent where
  versions := by
    change (db.commits ++ [row]).map _ = List.range (row.tableVersion + 1)
    rw [List.map_append, huntouched.commits, hdb.versions, List.range_succ (n := row.tableVersion),
      List.map_singleton, hversion]
  paired := by
    change (db.idempotency ++ [idempotency]).map _ = (db.commits ++ [row]).map _
    rw [List.map_append, huntouched.idempotency, hdb.paired, List.map_append, huntouched.commits,
      List.map_singleton, List.map_singleton, hpaired]
  intentCount := by
    intro c hc
    rcases List.mem_append.mp hc with hc | hc
    · exact hdb.intentCount c (huntouched.commits ▸ hc)
    · cases List.mem_singleton.mp hc
      exact hcount
  keys := by
    change ((db.idempotency ++ [idempotency]).map _).Nodup
    rw [List.map_append, List.map_singleton]
    refine List.Nodup.append (huntouched.idempotency ▸ hdb.keys) (List.nodup_singleton _)
      (List.disjoint_singleton.mpr fun hmem => ?_)
    obtain ⟨i, hi, he⟩ := List.mem_map.mp hmem
    exact hkey i hi he
  version_le := hle

/-- The snapshots do not depend on the rest of the database. -/
theorem SnapshotsConsistent.of_eq (hdb : db₀.SnapshotsConsistent)
    (hsnapshots : db.snapshots = db₀.snapshots) (hchanges : db.changes = db₀.changes)
    (hfiles : db.files = db₀.files)
    (hsequence : db.tableMeta.lastSequenceNumber = db₀.tableMeta.lastSequenceNumber)
    (hversion : db₀.tableMeta.tableVersion ≤ db.tableMeta.tableVersion) :
    db.SnapshotsConsistent where
  sequences := by rw [hsnapshots, hsequence, hdb.sequences]
  sequence_le := hsequence ▸ hdb.sequence_le
  ids := hsnapshots ▸ hdb.ids
  v7 := hsnapshots ▸ hdb.v7
  versions := hsnapshots ▸ hdb.versions
  version_pos := hsnapshots ▸ hdb.version_pos
  version_le := by
    rw [hsnapshots]
    exact fun s hs => (hdb.version_le s hs).trans hversion
  parents := hsnapshots ▸ hdb.parents
  operations := hsnapshots ▸ hdb.operations
  changes := by
    rw [hchanges, hsnapshots, hfiles]
    exact hdb.changes
  files := hfiles ▸ hdb.files

/-- The targets of refs are among the deferred keys. -/
theorem targets_of_deferredKeysHold (h : db.deferredKeysHold = true) :
    ∀ r ∈ db.refs, ∀ id ∈ r.snapshotId, ∃ s ∈ db.snapshots, s.snapshotId = id := by
  intro r hr id hid
  rw [deferredKeysHold, Bool.and_eq_true] at h
  have hall := List.all_eq_true.mp h.2 r hr
  rw [hid, Option.all_some, List.any_eq_true] at hall
  obtain ⟨s, hs, he⟩ := hall
  exact ⟨s, hs, beq_iff_eq.mp he⟩

/-- The state after the operations of a prepared transaction. -/
theorem Consistent.midway {request : TransactionRequest} {results : List OperationResult}
    (hdb : db₀.Consistent) (hversion : db₀.tableMeta.tableVersion ≤ version)
    (hprepare : prepareOperations db₀ request = .ok results)
    (h : runAll (applyOperation version) db₀ request.operations = .ok db) :
    ∃ touched, (∀ name ∈ touched, name ∈ request.operations.filterMap (·.ref?)) ∧
      Midway db₀ touched version db := by
  rw [prepareOperations, invalid] at hprepare
  obtain ⟨-, hprepare⟩ := ite_error_eq_ok.mp hprepare
  obtain ⟨hreq, hprepare⟩ := check_eq_ok.mp hprepare
  have hstart : Midway db₀ Prepared.init.refs version db₀ := by
    refine ⟨.refl db₀, ?_, fun _ _ => Iff.rfl⟩
    have hrefs := hdb.refs
    exact { hrefs with
      updated_le := fun r hr => (hrefs.updated_le r hr).trans hversion }
  obtain ⟨touched, hmem, hend⟩ := hstart.run hreq hprepare h
  exact ⟨touched, fun name hname => (hmem name hname).resolve_left List.not_mem_nil, hend⟩

/-- **A transaction keeps the invariant.** Its operations keep snapshots, refs and live files in
agreement, and its rows extend the commits. -/
theorem Consistent.recorded {touched : List String} {row : CommitRow}
    {idempotency : IdempotencyRow} (hdb : db₀.Consistent)
    (hmid : Midway db₀ touched row.tableVersion db)
    (hversion : row.tableVersion = db₀.tableMeta.tableVersion + 1)
    (hle : row.tableVersion ≤ i64Max) (hcount : row.intentCount = 1)
    (hpaired : (idempotency.commitId, idempotency.tableVersion) = (row.commitId, row.tableVersion))
    (hkey : ∀ i ∈ db.idempotency, i.idempotencyKey ≠ idempotency.idempotencyKey)
    (hkeys : (db.recorded row idempotency).deferredKeysHold = true) :
    (db.recorded row idempotency).Consistent := by
  obtain ⟨schemaId, hmeta⟩ := hmid.untouched.tableMeta
  refine ⟨hdb.commits.recorded hmid.untouched hversion hle hcount hpaired hkey,
    hdb.snapshots.of_eq hmid.untouched.snapshots hmid.untouched.changes hmid.untouched.files ?_ ?_,
    hmid.refs.of_eq (.of_eq rfl rfl) rfl rfl, targets_of_deferredKeysHold hkeys⟩
  · change db.tableMeta.lastSequenceNumber = _
    rw [hmeta]
  · change _ ≤ row.tableVersion
    omega

end Database

/-- What the check of a request has found out about its branch and its files. -/
theorem validateRequest_eq_ok {db : Database} {request : AppendRequest}
    (h : validateRequest db request = .ok ()) :
    ∃ target currentSchema lastSequence types,
      db.refRow request.targetRef = .ok (some (.branch, target)) ∧
      db.currentSchemaAndSequence = .ok (currentSchema, lastSequence) ∧
      validateFiles currentSchema types [] request.files = .ok () := by
  rw [validateRequest, invalidAppend, invalidAppend] at h
  obtain ⟨-, h⟩ := ite_error_eq_ok.mp h
  obtain ⟨-, h⟩ := ite_error_eq_ok.mp h
  obtain ⟨row, hrow, h⟩ := bind_eq_ok.mp h
  match row with
  | none => cases h
  | some (.tag, target) => cases h
  | some (.branch, target) =>
    obtain ⟨⟨currentSchema, lastSequence⟩, hcurrent, h⟩ := bind_eq_ok.mp h
    obtain ⟨types, -, h⟩ := bind_eq_ok.mp h
    obtain ⟨-, h⟩ := ite_error_eq_ok.mp h
    obtain ⟨hfiles, -⟩ := check_eq_ok.mp h
    exact ⟨target, currentSchema, lastSequence, types, hrow, hcurrent, hfiles⟩

/-- Checked files have the current schema and the default partition spec and sort order. -/
theorem validateFiles_eq_ok {currentSchema : UInt32} {types : List (UInt32 × LogicalType)}
    {entries : List CanonicalValue} {files : List AppendFile}
    (h : validateFiles currentSchema types entries files = .ok ()) :
    ∀ file ∈ files, file.schemaId = currentSchema ∧ file.partitionSpecId = 0 ∧
      file.sortOrderId = 0 := by
  induction files generalizing entries with
  | nil => exact nofun
  | cons file files ih =>
    rw [validateFiles, invalidAppend] at h
    obtain ⟨hguard, h⟩ := ite_error_eq_ok.mp h
    obtain ⟨entry, -, h⟩ := bind_eq_ok.mp h
    obtain ⟨-, h⟩ := ite_error_eq_ok.mp h
    obtain ⟨-, hrest⟩ := check_eq_ok.mp h
    simp only [not_or, ne_eq, not_not] at hguard
    rw [List.forall_mem_cons]
    exact ⟨⟨hguard.1, hguard.2.1, hguard.2.2.1⟩, ih hrest⟩

/-- The current schema and sequence number that an append reads. -/
theorem currentSchemaAndSequence_eq_ok {db : Database} {currentSchema : UInt32} {lastSequence : ℕ}
    (h : db.currentSchemaAndSequence = .ok (currentSchema, lastSequence)) :
    u32TryFrom db.tableMeta.currentSchemaId "invalid schema ID" = .ok currentSchema ∧
      lastSequence = db.tableMeta.lastSequenceNumber := by
  rw [Database.currentSchemaAndSequence] at h
  cases hmain : db.refs.find? (·.refName == "main") with
  | none =>
    rw [hmain] at h
    cases h
  | some main =>
    rw [hmain] at h
    obtain ⟨schema, hschema, h⟩ := bind_eq_ok.mp h
    obtain ⟨-, -, h⟩ := bind_eq_ok.mp h
    cases h
    exact ⟨hschema, rfl⟩

/-- The image of a file has the partition spec and the sort order of the file. -/
theorem AppendFile.image_eq_ok {digest : Digest} {file : AppendFile} {staged : VerifiedStagedFile}
    {image : ImageFile} (h : file.image digest staged = .ok image) :
    image.partitionSpecId = file.partitionSpecId ∧ image.sortOrderId = file.sortOrderId := by
  rw [AppendFile.image] at h
  obtain ⟨metrics, -, h⟩ := bind_eq_ok.mp h
  obtain ⟨metadata, -, h⟩ := bind_eq_ok.mp h
  cases h
  exact ⟨rfl, rfl⟩

/-- What the candidate of a checked append is, with the images of its files. -/
theorem buildCandidate_images {digest : Digest} {request : AppendRequest}
    {staged : List VerifiedStagedFile} {logicalHash : Sha256} {drawn : Drawn} {parent : PinnedTable}
    {candidate : Candidate AppendResult} (hrequest : validateRequest parent.db request = .ok ())
    (h : buildCandidate digest request staged logicalHash drawn parent = .ok candidate) :
    ∃ first summary target commitBytes files,
      (request.files.zip staged).mapM (fun p => p.1.image digest p.2) = .ok files ∧
      (∃ rest, request.files = first :: rest) ∧
      parent.db.refRow request.targetRef = .ok (some (.branch, target)) ∧
      let sequenceNumber := parent.db.tableMeta.lastSequenceNumber + 1
      let result := candidate.result.toValue
      let input := appendImage digest parent request logicalHash drawn target sequenceNumber summary
        result candidate.commit commitBytes files
      (appendCommit parent request staged logicalHash drawn first target sequenceNumber summary
        result).seal digest parent.db.tableMeta.semanticStateSha256 = .ok candidate.commit ∧
      candidate.commit.toVec = .ok commitBytes ∧
      parent.db.Appendable input ∧ parent.db.Continues input ∧
      candidate.next =
        { parent with
          db := parent.db.appended input
          semanticCommit := commitReference digest input.commitUri commitBytes } := by
  obtain ⟨target, currentSchema, lastSequence, types, href, hcurrent, hfiles⟩ :=
    validateRequest_eq_ok hrequest
  obtain ⟨-, rfl⟩ := currentSchemaAndSequence_eq_ok hcurrent
  rw [buildCandidate, invalidAppend, invalidAppend, invalidAppend] at h
  obtain ⟨-, h⟩ := ite_error_eq_ok.mp h
  rw [ok_bind hcurrent] at h
  dsimp only at h
  rw [ok_bind href] at h
  obtain ⟨-, h⟩ := ite_error_eq_ok.mp h
  obtain ⟨summary, -, h⟩ := bind_eq_ok.mp h
  cases hrequestFiles : request.files with
  | nil =>
    rw [hrequestFiles] at h
    cases h
  | cons first rest =>
    rw [hrequestFiles] at h
    obtain ⟨resultValue, hresult, h⟩ := bind_eq_ok.mp h
    obtain ⟨commit, hcommit, h⟩ := bind_eq_ok.mp h
    obtain ⟨commitBytes, hbytes, h⟩ := bind_eq_ok.mp h
    obtain ⟨-, -, h⟩ := bind_eq_ok.mp h
    obtain ⟨-, -, h⟩ := bind_eq_ok.mp h
    obtain ⟨-, -, h⟩ := bind_eq_ok.mp h
    obtain ⟨images, himages, h⟩ := bind_eq_ok.mp h
    obtain ⟨db, hmutate, h⟩ := bind_eq_ok.mp h
    obtain ⟨db', hdb', h⟩ := bind_eq_ok.mp h
    cases h
    obtain ⟨rfl, -⟩ := Database.commitTransaction_spec hdb'
    obtain ⟨rfl, happendable⟩ := Database.mutateAppend_spec hmutate
    have hresult := canonicalText_eq (liftProtocol_eq_ok.mp hresult)
    subst hresult
    refine ⟨first, summary, target, commitBytes, images, himages, ⟨rest, rfl⟩, href,
      liftProtocol_eq_ok.mp hcommit, liftProtocol_eq_ok.mp hbytes, happendable, ?_, rfl⟩
    obtain ⟨r, hr, hname, hkind, htarget⟩ := Database.refRow_eq_some href
    refine ⟨rfl, drawn.snapshotId_v7, ⟨r, hr, hname, hkind, htarget⟩, fun image himage => ?_⟩
    obtain ⟨⟨file, verified⟩, hpair, himage⟩ := exists_of_mem_mapM himages himage
    obtain ⟨hspec, hsort⟩ := AppendFile.image_eq_ok himage
    have hfile := List.of_mem_zip hpair
    rw [← hrequestFiles] at hfile
    obtain ⟨-, hspec', hsort'⟩ := validateFiles_eq_ok hfiles file hfile.1
    exact ⟨hspec.trans hspec', hsort.trans hsort'⟩

/-- What the candidate of a checked append is. -/
theorem buildCandidate_eq_ok {digest : Digest} {request : AppendRequest}
    {staged : List VerifiedStagedFile} {logicalHash : Sha256} {drawn : Drawn} {parent : PinnedTable}
    {candidate : Candidate AppendResult} (hrequest : validateRequest parent.db request = .ok ())
    (h : buildCandidate digest request staged logicalHash drawn parent = .ok candidate) :
    ∃ first summary target commitBytes files,
      (∃ rest, request.files = first :: rest) ∧
      parent.db.refRow request.targetRef = .ok (some (.branch, target)) ∧
      let sequenceNumber := parent.db.tableMeta.lastSequenceNumber + 1
      let result := candidate.result.toValue
      let input := appendImage digest parent request logicalHash drawn target sequenceNumber summary
        result candidate.commit commitBytes files
      (appendCommit parent request staged logicalHash drawn first target sequenceNumber summary
        result).seal digest parent.db.tableMeta.semanticStateSha256 = .ok candidate.commit ∧
      candidate.commit.toVec = .ok commitBytes ∧
      parent.db.Appendable input ∧ parent.db.Continues input ∧
      candidate.next =
        { parent with
          db := parent.db.appended input
          semanticCommit := commitReference digest input.commitUri commitBytes } := by
  obtain ⟨first, summary, target, commitBytes, files, -, h⟩ := buildCandidate_images hrequest h
  exact ⟨first, summary, target, commitBytes, files, h⟩

/-- What the candidate of a transaction is. -/
theorem buildTransaction_eq_ok {digest : Digest} {request : TransactionRequest}
    {logicalHash : Sha256} {drawn : Drawn} {parent : PinnedTable}
    {candidate : Candidate DurableResult}
    (h : buildTransaction digest request logicalHash drawn parent = .ok candidate) :
    ∃ results commitBytes,
      prepareOperations parent.db request = .ok results ∧
      candidate.result = ⟨parent.db.tableMeta.tableVersion + 1, drawn.commitId, results⟩ ∧
      (parent.commitOn drawn
        ⟨request.idempotencyKey, logicalHash, request.operations.map OperationRequest.id,
          candidate.result.toValue⟩
        (request.requirements.map Requirement.toValue)
        (request.operations.map OperationRequest.toValue)
        (JsonMap.toValue request.commitMetadata)).seal digest
          parent.db.tableMeta.semanticStateSha256 = .ok candidate.commit ∧
      candidate.commit.toVec = .ok commitBytes ∧
      parent.db.mutateMetadata digest candidate.commit
        (commitUri (parent.db.tableMeta.tableVersion + 1) drawn.commitId) request.operations =
          .ok candidate.next.db ∧
      candidate.next.db.deferredKeysHold = true ∧
      candidate.next =
        { parent with
          db := candidate.next.db
          semanticCommit := commitReference digest
            (commitUri (parent.db.tableMeta.tableVersion + 1) drawn.commitId) commitBytes } := by
  rw [buildTransaction, invalid] at h
  obtain ⟨results, hprepare, h⟩ := bind_eq_ok.mp h
  obtain ⟨-, h⟩ := ite_error_eq_ok.mp h
  obtain ⟨resultValue, hresult, h⟩ := bind_eq_ok.mp h
  obtain ⟨requirements, hrequirements, h⟩ := bind_eq_ok.mp h
  obtain ⟨operations, hoperations, h⟩ := bind_eq_ok.mp h
  obtain ⟨metadata, hmetadata, h⟩ := bind_eq_ok.mp h
  obtain ⟨commit, hcommit, h⟩ := bind_eq_ok.mp h
  obtain ⟨commitBytes, hbytes, h⟩ := bind_eq_ok.mp h
  obtain ⟨db, hmutate, h⟩ := bind_eq_ok.mp h
  obtain ⟨db', hdb', h⟩ := bind_eq_ok.mp h
  cases h
  obtain ⟨rfl, hkeys⟩ := Database.commitTransaction_spec hdb'
  have hresult := canonicalText_eq (liftProtocol_eq_ok.mp hresult)
  have hmetadata := canonicalText_eq (liftProtocol_eq_ok.mp hmetadata)
  have hrequirements := mapM_eq_map hrequirements
    fun _ _ hv => canonicalText_eq (liftProtocol_eq_ok.mp hv)
  have hoperations := mapM_eq_map hoperations
    fun _ _ hv => canonicalText_eq (liftProtocol_eq_ok.mp hv)
  subst hresult hmetadata hrequirements hoperations
  exact ⟨results, commitBytes, hprepare, rfl, liftProtocol_eq_ok.mp hcommit,
    liftProtocol_eq_ok.mp hbytes, hmutate, hkeys, rfl⟩

/-- A sealed commit differs from the open one in its state hash. -/
theorem SemanticCommit.seal_eq_ok {digest : Digest} {previous : Sha256}
    {commit commit' : SemanticCommit} (h : commit.seal digest previous = .ok commit') :
    ∃ hash, commit' = { commit with semanticStateSha256 := hash } := by
  rw [SemanticCommit.seal] at h
  obtain ⟨body, -, h⟩ := bind_eq_ok.mp h
  cases h
  exact ⟨_, rfl⟩

/-- The commit row of a transaction, one version after its parent. -/
def transactionRow (digest : Digest) (parent : PinnedTable) (request : TransactionRequest)
    (drawn : Drawn) (result : DurableResult) (state : Sha256) (commitBytes : Bytes) :
    CommitRow where
  tableVersion := parent.db.tableMeta.tableVersion + 1
  commitId := drawn.commitId
  parentTableVersion := some parent.db.tableMeta.tableVersion
  createdAtMs := drawn.createdAtMs
  intentCount := 1
  semanticStateSha256 := state
  commitObjectUri := commitUri (parent.db.tableMeta.tableVersion + 1) drawn.commitId
  commitObjectSha256 := objectHash digest commitBytes
  operationSummary := .array (request.operations.map OperationRequest.toValue)
  result := result.toValue
  metadata := request.commitMetadata.toValue

/-- The idempotency row of a transaction, with the result that retries are answered with. -/
def transactionKeyRow (parent : PinnedTable) (request : TransactionRequest) (logicalHash : Sha256)
    (drawn : Drawn) (result : DurableResult) : IdempotencyRow :=
  ⟨request.idempotencyKey, logicalHash, drawn.commitId, parent.db.tableMeta.tableVersion + 1,
    result.toValue⟩

/-- What the candidate of a transaction does to the database: its operations are run on the parent
and the commit is recorded. -/
theorem buildTransaction_recorded {digest : Digest} {request : TransactionRequest}
    {logicalHash : Sha256} {drawn : Drawn} {parent : PinnedTable}
    {candidate : Candidate DurableResult}
    (h : buildTransaction digest request logicalHash drawn parent = .ok candidate) :
    ∃ db₁ results commitBytes, prepareOperations parent.db request = .ok results ∧
      runAll (Database.applyOperation (parent.db.tableMeta.tableVersion + 1)) parent.db
        request.operations = .ok db₁ ∧
      parent.db.tableMeta.tableVersion + 1 ≤ i64Max ∧
      (∀ i ∈ db₁.idempotency, i.idempotencyKey ≠ request.idempotencyKey) ∧
      candidate.commit.toVec = .ok commitBytes ∧
      candidate.next.db = db₁.recorded
        (transactionRow digest parent request drawn candidate.result
          candidate.commit.semanticStateSha256 commitBytes)
        (transactionKeyRow parent request logicalHash drawn candidate.result) ∧
      candidate.next.db.deferredKeysHold = true := by
  obtain ⟨results, commitBytes, hprepare, -, hcommit, hbytes, hmutate, hkeys, -⟩ :=
    buildTransaction_eq_ok h
  obtain ⟨hash, hseal⟩ := SemanticCommit.seal_eq_ok hcommit
  obtain ⟨db₁, bytes, intent, intents, hrun, hle, hbytes', hintents, hkey, hdb⟩ :=
    Database.mutateMetadata_spec hmutate
  rw [hbytes] at hbytes'
  cases hbytes'
  have hversion : candidate.commit.tableVersion = parent.db.tableMeta.tableVersion + 1 := by
    rw [hseal]
    rfl
  rw [hversion] at hrun hle
  rw [hseal] at hintents
  cases hintents
  refine ⟨db₁, results, commitBytes, hprepare, hrun, hle, hkey, hbytes, ?_, hkeys⟩
  rw [hdb, hseal]
  rfl

/-- What a client does to a table: an append or a transaction, with what the runtime draws for it.
-/
inductive Action where
  | append (request : AppendRequest) (drawn : Drawn)
  | transact (request : TransactionRequest)

/-- One step of a history: a candidate that was built on the table after the checks that the
runtime makes first. The base of an append is any earlier reading of its branch. -/
inductive Step (digest : Digest) : PinnedTable → Action → PinnedTable → Prop
  | append {parent : PinnedTable} {request : AppendRequest} {staged : List VerifiedStagedFile}
      {logicalHash : Sha256} {drawn : Drawn} {original : Option (RefType × Option Id)}
      {version : ℕ} {candidate : Candidate AppendResult} :
      validateStaged request staged parent.db.tableMeta.tableId = .ok () →
      validateAppendRebase parent.db request.targetRef original version = .ok () →
      validateRequest parent.db request = .ok () →
      buildCandidate digest request staged logicalHash drawn parent = .ok candidate →
      Step digest parent (.append request drawn) candidate.next
  | transact {parent : PinnedTable} {request : TransactionRequest} {logicalHash : Sha256}
      {drawn : Drawn} {candidate : Candidate DurableResult} :
      buildTransaction digest request logicalHash drawn parent = .ok candidate →
      Step digest parent (.transact request) candidate.next

/-- The tables of the histories that start at genesis. -/
inductive Reachable (digest : Digest) : PinnedTable → Prop
  | genesis {input : GenesisImage} {table : PinnedTable} :
      mutateGenesis input = .ok table.db → Reachable digest table
  | step {table table' : PinnedTable} {action : Action} :
      Reachable digest table → Step digest table action table' → Reachable digest table'

/-- One step keeps the invariant, be it an append or a transaction. -/
theorem Step.consistent {digest : Digest} {table table' : PinnedTable} {action : Action}
    (h : Step digest table action table') (hdb : table.db.Consistent) : table'.db.Consistent := by
  cases h with
  | append _ _ hrequest hbuild =>
    obtain ⟨first, summary, target, commitBytes, files, -, -, -, -, happendable, hcontinues,
      hnext⟩ := buildCandidate_eq_ok hrequest hbuild
    rw [hnext]
    exact hdb.appended happendable hcontinues
  | transact hbuild =>
    obtain ⟨db₁, results, commitBytes, hprepare, hrun, hle, hkey, -, hdb₁, hkeys⟩ :=
      buildTransaction_recorded hbuild
    obtain ⟨touched, -, hmid⟩ := hdb.midway (Nat.le_succ _) hprepare hrun
    rw [hdb₁] at hkeys ⊢
    exact hdb.recorded hmid rfl hle rfl rfl hkey hkeys

/-- **The invariant holds along every history.** Every table that genesis, appends and transactions
lead to is consistent. -/
theorem Reachable.consistent {digest : Digest} {table : PinnedTable}
    (h : Reachable digest table) : table.db.Consistent := by
  induction h with
  | genesis hgenesis => exact Database.mutateGenesis_consistent hgenesis
  | step _ hstep ih => exact hstep.consistent ih

/-- Every table of every history satisfies the relational invariant and passes the relational
checks of a reader. The check of commits counts them as a table integer, so it is stated for the
versions below the largest one. -/
theorem reachable_valid {digest : Digest} {table : PinnedTable} (h : Reachable digest table) :
    table.db.Consistent ∧
      table.db.validateRelations table.db.tableMeta.tableVersion = .ok () ∧
      (table.db.tableMeta.tableVersion < i64Max →
        table.db.validateCommits table.db.tableMeta.tableVersion = .ok ()) :=
  ⟨h.consistent, h.consistent.validateRelations_eq_ok,
    fun hfits => h.consistent.commits.validateCommits_eq_ok hfits⟩

section Samples

/-- A stand-in for the hash function, which shows the first bytes of its input. -/
def sampleDigest : Digest := fun bytes => ⟨(bytes ++ List.replicate 32 0).take 32, by simp⟩

/-- Identifiers of the runtime that differ in their first byte. -/
def sampleId (n : UInt8) : Id := ⟨[n, 0, 0, 0, 0, 0, 0x70, 0, 0x80, 0, 0, 0, 0, 0, 0, 0], rfl⟩

/-- The sample identifiers carry the version and the variant of the runtime's own. -/
theorem sampleId_v7 (n : UInt8) : (sampleId n).isV7 = true := by
  change (((0x70 : UInt8) >>> 4 == 7) && ((0x80 : UInt8) >>> 6 == 2)) = true
  decide

/-- A table with one integer column, at its genesis. -/
def sampleGenesis : GenesisImage where
  tableId := sampleId 1
  schema := ⟨1, none, [.mk 1 "id" true .int64 none none none], [], none⟩
  createdAtMs := 0
  semanticState := sampleDigest [1]
  commitId := sampleId 2
  commitHash := sampleDigest [2]
  commitUri := "_otmp/commits/0/genesis.json"
  operationJson := .array []
  resultJson := .null
  intentHash := sampleDigest [3]
  metadataJson := .object []
  readerFeaturesJson := .array []
  writerFeaturesJson := .array []

/-- A request to append one file to the main branch. -/
def sampleAppend : AppendRequest where
  idempotencyKey := "first"
  targetRef := "main"
  files := [⟨"a.parquet", sampleDigest [4], 10, .parquet, 1, 1, 0, 0, ∅, [], ∅⟩]
  summary := ∅
  commitMetadata := ∅
  snapshotMetadata := ∅

/-- The staged file of the append, stored under its own identifier. -/
def sampleStaged : List VerifiedStagedFile :=
  [⟨sampleId 1, 0, sampleId 3, "data/a.parquet", sampleDigest [4], 10, none⟩]

/-- A transaction that branches off the appended snapshot, and requires that it can. -/
def sampleTransaction : TransactionRequest where
  idempotencyKey := "second"
  requirements := [.refAbsent "dev", .snapshotExists (sampleId 5)]
  operations := [.createRef "branch" "dev" .branch (some (sampleId 5))]
  commitMetadata := ∅

/-- The identifiers and the time that a sample step draws. -/
def sampleDrawn (commit snapshot : UInt8) (createdAtMs : ℤ) : Drawn :=
  ⟨sampleId commit, sampleId snapshot, createdAtMs, sampleId_v7 commit, sampleId_v7 snapshot⟩

/-- Genesis, the append and the transaction in turn, each on the table of the one before. -/
def sampleRun : Except RuntimeError PinnedTable := do
  let db ← mutateGenesis sampleGenesis
  validateStaged sampleAppend sampleStaged db.tableMeta.tableId
  validateAppendRebase db "main" (some (.branch, none)) 0
  validateRequest db sampleAppend
  let appended ← buildCandidate sampleDigest sampleAppend sampleStaged (sampleDigest [5])
    (sampleDrawn 4 5 1) ⟨db, ⟨"genesis", sampleDigest [2], none, none⟩, [], []⟩
  let branched ← buildTransaction sampleDigest sampleTransaction (sampleDigest [6])
    (sampleDrawn 6 7 2) appended.next
  return branched.next

/-- The table after the sample run is reachable, by an append and a transaction. -/
theorem sampleRun_reachable {table : PinnedTable} (h : sampleRun = .ok table) :
    Reachable sampleDigest table := by
  rw [sampleRun] at h
  obtain ⟨db, hgenesis, h⟩ := bind_eq_ok.mp h
  obtain ⟨hstaged, h⟩ := check_eq_ok.mp h
  obtain ⟨hrebase, h⟩ := check_eq_ok.mp h
  obtain ⟨hrequest, h⟩ := check_eq_ok.mp h
  obtain ⟨appended, happend, h⟩ := bind_eq_ok.mp h
  obtain ⟨branched, htransact, h⟩ := bind_eq_ok.mp h
  cases h
  exact .step (.step (.genesis hgenesis) (.append hstaged hrebase hrequest happend))
    (.transact htransact)

/-- The tables of the sample history are valid. -/
theorem reachable_valid_branch : ∃ table, sampleRun = .ok table ∧
    table.db.tableMeta.tableVersion = 2 ∧ table.db.Consistent ∧
      table.db.validateRelations 2 = .ok () ∧ table.db.validateCommits 2 = .ok () := by
  have hversion : sampleRun.toOption.map (·.db.tableMeta.tableVersion) = some 2 := by
    decide +kernel
  cases hrun : sampleRun with
  | error e =>
    rw [hrun] at hversion
    cases hversion
  | ok table =>
    rw [hrun] at hversion
    have htwo : table.db.tableMeta.tableVersion = 2 := Option.some.inj hversion
    obtain ⟨hconsistent, hrelations, hcommits⟩ := reachable_valid (sampleRun_reachable hrun)
    rw [htwo] at hrelations hcommits
    exact ⟨table, rfl, htwo, hconsistent, hrelations, hcommits (by decide)⟩

end Samples

end Otmp
