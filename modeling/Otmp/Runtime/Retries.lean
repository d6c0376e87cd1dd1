import Otmp.Runtime.History
import Otmp.Runtime.Intents
import Otmp.Runtime.Results

/-!
# Idempotency keys and retries

A request is recorded under its key with the hash of its intent and its result. When the
key is found in the head that a call pins first, the call ends there: with the stored
result if the intents agree and with a conflict if they do not.
-/

namespace Otmp

open Foundation CanonicalValue

/-- The result of a transaction, with the semantic state it led to. -/
structure TransactionResult where
  tableVersion : ℕ
  commitId : Id
  semanticStateSha256 : Sha256
  operationResults : List OperationResult
  deriving DecidableEq

namespace Database

/-- The intent and the result that are stored under a key. -/
def idempotencyOf (db : Database) (key : String) : Option (Sha256 × CanonicalValue) :=
  (db.idempotency.find? (·.idempotencyKey == key)).map fun row => (row.intentSha256, row.result)

/-- The state of the commit that used a key. -/
def stateOfKey (db : Database) (key : String) : Except RuntimeError Sha256 :=
  match db.idempotency.find? (·.idempotencyKey == key) with
  | none => .error (.sqlite "Query returned no rows")
  | some row =>
    match db.commits.find? fun c =>
        c.commitId == row.commitId && c.tableVersion == row.tableVersion with
    | none => .error (.sqlite "Query returned no rows")
    | some commit => .ok commit.semanticStateSha256

end Database

section Calls

variable (parse : Bytes → Except ProtocolError CanonicalValue)

/-- `check_idempotency`: the stored result of an append under the key, if the stored intent is the
same. -/
def checkIdempotency (db : Database) (key : String) (intent : Sha256) :
    Except RuntimeError (Option AppendResult) :=
  match db.idempotencyOf key with
  | none => .ok none
  | some (storedHash, result) =>
    if storedHash ≠ intent then .error .idempotencyConflict
    else do
      let result ← liftProtocol (fromSliceCanonical parse AppendResult.read result.bytes)
      return some result

/-- `replay`: the stored result of a transaction under the key, with the semantic state of its
commit. -/
def replay (db : Database) (key : String) (intent : Sha256) :
    Except RuntimeError (Option (DurableResult × Sha256)) :=
  match db.idempotencyOf key with
  | none => .ok none
  | some (storedHash, result) =>
    if storedHash ≠ intent then .error .idempotencyConflict
    else do
      let state ← db.stateOfKey key
      let result ← liftProtocol (fromSliceCanonical parse DurableResult.read result.bytes)
      return some (result, state)

variable (digest : Digest) {W : Type} (pin : W → Except RuntimeError PinnedTable)

/-- A call to append files, up to its first look at the head. The rest of the call stages the
files and publishes them; it acts on the world. -/
def appendFiles (publish : AppendRequest → Sha256 → PinnedTable → W →
    Except RuntimeError AppendResult × W) (request : AppendRequest) (world : W) :
    Except RuntimeError AppendResult × W :=
  match liftProtocol (toVec request.logicalIntent) with
  | .error e => (.error e, world)
  | .ok logical =>
    match pin world with
    | .error e => (.error e, world)
    | .ok firstPin =>
      match checkIdempotency parse firstPin.db request.idempotencyKey (intentHash digest logical)
      with
      | .error e => (.error e, world)
      | .ok (some result) => (.ok result, world)
      | .ok none => publish request (intentHash digest logical) firstPin world

/-- A call to transact, up to its first look at the head. -/
def transact (publish : TransactionRequest → Sha256 → PinnedTable → W →
    Except RuntimeError TransactionResult × W) (request : TransactionRequest) (world : W) :
    Except RuntimeError TransactionResult × W :=
  match liftProtocol (toVec request.toValue) with
  | .error e => (.error e, world)
  | .ok logical =>
    match pin world with
    | .error e => (.error e, world)
    | .ok parent =>
      match replay parse parent.db request.idempotencyKey (intentHash digest logical) with
      | .error e => (.error e, world)
      | .ok (some (result, state)) =>
        (.ok ⟨result.tableVersion, result.commitId, state, result.operationResults⟩, world)
      | .ok none => publish request (intentHash digest logical) parent world

end Calls

/-- The operation that initializes a table; its text is the intent of genesis. -/
def initializeOperation (tableId : Id) (schema : Schema) : CanonicalValue :=
  .object [("operation_id", .string "initialize"), ("partition_spec_id", .string "0"),
    ("schema", schema.toValue), ("sort_order_id", .string "0"),
    ("table_id", .string tableId.format), ("target_ref", .string "main"),
    ("type", .string "initialize_table")]

/-- A publication: what was asked for and what was returned. -/
inductive Publication where
  | genesis (tableId : Id) (schema : Schema) (result : CanonicalValue)
  | append (request : AppendRequest) (result : AppendResult)
  | transact (request : TransactionRequest) (result : TransactionResult)

namespace Publication

/-- The idempotency key that a publication is stored under. -/
def key : Publication → String
  | .genesis _ _ _ => "otmp.genesis"
  | .append request _ => request.idempotencyKey
  | .transact request _ => request.idempotencyKey

/-- The document whose hash is the publication's intent. -/
def intent : Publication → CanonicalValue
  | .genesis tableId schema _ => initializeOperation tableId schema
  | .append request _ => request.logicalIntent
  | .transact request _ => request.toValue

/-- The result that is stored under the key of the publication. -/
def stored : Publication → CanonicalValue
  | .genesis _ _ result => result
  | .append _ result => result.toValue
  | .transact _ result =>
    DurableResult.toValue ⟨result.tableVersion, result.commitId, result.operationResults⟩

end Publication

/-- The identifiers and locations of staged files are those of the source's types. -/
def StagedGood (staged : List VerifiedStagedFile) : Prop :=
  ∀ file ∈ staged, Id.isV7 file.fileId = true ∧ safeRelativeUri file.uri = true

/-- The identifiers of an operation are those of the source's type. -/
def OperationRequest.Good : OperationRequest → Prop
  | .createRef _ _ _ snapshotId => ∀ id ∈ snapshotId, Id.isV7 id = true
  | .replaceRef _ _ snapshotId => Id.isV7 snapshotId = true
  | _ => True

/-- The histories with their publications, the latest last. A candidate is built under the hash
of its own intent. -/
inductive Published (digest : Digest) : List Publication → PinnedTable → Prop
  | genesis {input : GenesisImage} {table : PinnedTable} :
      mutateGenesis input = .ok table.db →
      input.intentHash =
        intentHash digest (initializeOperation input.tableId input.schema).bytes →
      Published digest
        [.genesis input.tableId input.schema input.resultJson] table
  | append {log : List Publication} {parent : PinnedTable} {request : AppendRequest}
      {staged : List VerifiedStagedFile} {logical : Bytes} {drawn : Drawn}
      {original : Option (RefType × Option Id)} {version : ℕ}
      {candidate : Candidate AppendResult} :
      Published digest log parent → toVec request.logicalIntent = .ok logical →
      StagedGood staged → validateStaged request staged parent.db.tableMeta.tableId = .ok () →
      validateAppendRebase parent.db request.targetRef original version = .ok () →
      validateRequest parent.db request = .ok () →
      buildCandidate digest request staged (intentHash digest logical) drawn parent =
        .ok candidate →
      Published digest (log ++ [.append request candidate.result]) candidate.next
  | transact {log : List Publication} {parent : PinnedTable} {request : TransactionRequest}
      {logical : Bytes} {drawn : Drawn} {candidate : Candidate DurableResult} :
      Published digest log parent → toVec request.toValue = .ok logical →
      (∀ operation ∈ request.operations, operation.Good) →
      buildTransaction digest request (intentHash digest logical) drawn parent = .ok candidate →
      Published digest (log ++ [.transact request ⟨candidate.result.tableVersion,
        candidate.result.commitId, candidate.commit.semanticStateSha256,
        candidate.result.operationResults⟩]) candidate.next

variable {digest : Digest}

/-- A history with its publications is a history. -/
theorem Published.reachable {log : List Publication} {table : PinnedTable}
    (h : Published digest log table) : Reachable digest table := by
  induction h with
  | genesis hgenesis => exact .genesis hgenesis
  | append _ _ _ hstaged hrebase hrequest hbuild ih =>
    exact .step ih (.append hstaged hrebase hrequest hbuild)
  | transact _ _ _ hbuild ih => exact .step ih (.transact hbuild)

/-- A ref that is read back has an identifier of the runtime. -/
theorem refRow_good {db : Database} {name : String} {refType : RefType} {target : Option Id}
    (h : db.refRow name = .ok (some (refType, target))) : ∀ id ∈ target, Id.isV7 id = true := by
  rw [Database.refRow] at h
  split at h
  · cases h
  · obtain ⟨stored, hstored, h⟩ := bind_eq_ok.mp h
    cases h
    exact optionalIdFromBlob_good hstored

/-- The result of an accepted operation has identifiers of the source's types. -/
theorem prepareOperation_good {db : Database} {request : TransactionRequest} {st st' : Prepared}
    {operation : OperationRequest} {result : OperationResult} (hgood : operation.Good)
    (h : prepareOperation db request st operation = .ok (result, st')) : result.Good := by
  have hprepares := prepareOperation_eq_ok h
  cases operation with
  | setProperties operationId updates removals =>
    obtain ⟨-, keys, -, -, rfl⟩ := hprepares
    trivial
  | createRef operationId name refType snapshotId =>
    obtain ⟨-, -, -, refs, -, -, rfl⟩ := hprepares
    exact hgood
  | replaceRef operationId name snapshotId =>
    obtain ⟨kind, old, -, -, -, -, refs, -, -, rfl⟩ := hprepares
    exact fun id hid => Option.some.inj hid ▸ hgood
  | dropRef operationId name =>
    obtain ⟨-, kind, old, hrow, -, -, refs, -, -, rfl⟩ := hprepares
    exact refRow_good hrow
  | addSchema operationId schema =>
    obtain ⟨-, current, old, newIds, actual, -, -, -, -, -, -, -, -, rfl⟩ := hprepares
    trivial
  | setCurrentSchema operationId schemaId =>
    obtain ⟨-, current, -, -, -, rfl⟩ := hprepares
    trivial

/-- The results of accepted operations have identifiers of the source's types. -/
theorem prepareAll_good {db : Database} {request : TransactionRequest} {st : Prepared}
    {operations : List OperationRequest} {results : List OperationResult}
    (hgood : ∀ operation ∈ operations, operation.Good)
    (h : prepareAll db request st operations = .ok results) : ∀ result ∈ results, result.Good := by
  induction operations generalizing st results with
  | nil =>
    cases h
    exact fun result hresult => nomatch hresult
  | cons operation operations ih =>
    obtain ⟨-, h⟩ := ite_error_eq_ok.mp h
    obtain ⟨⟨result, st'⟩, hfirst, h⟩ := bind_eq_ok.mp h
    obtain ⟨rest, hrest, h⟩ := bind_eq_ok.mp h
    cases h
    rw [List.forall_mem_cons] at hgood ⊢
    exact ⟨prepareOperation_good hgood.1 hfirst, ih hgood.2 hrest⟩

/-- A stored result that is read back: sorted, and with a canonical text. -/
structure Readable (stored : CanonicalValue) : Prop where
  sorted : stored.sorted = true
  fits : stored.integersFit = true
  depth : stored.depth ≤ maxDepth

/-- What is stored for a publication: its key, its intent and its result, and that the result can be
read back. -/
structure Stores (digest : Digest) (db : Database) (p : Publication) (row : IdempotencyRow) :
    Prop where
  key : row.idempotencyKey = p.key
  intent : row.intentSha256 = intentHash digest p.intent.bytes
  result : row.result = p.stored
  appended : ∀ request result, p = .append request result →
    result.Good ∧ Readable p.stored
  transacted : ∀ request result, p = .transact request result →
    DurableResult.Good ⟨result.tableVersion, result.commitId, result.operationResults⟩ ∧
      Readable p.stored ∧ ∃ c ∈ db.commits, c.commitId = row.commitId ∧
        c.tableVersion = row.tableVersion ∧
        c.semanticStateSha256 = result.semanticStateSha256

/-- What is stored for a publication stays stored when more commits follow. -/
theorem Stores.mono {db db' : Database} {p : Publication} {row : IdempotencyRow}
    (h : Stores digest db p row) (hcommits : db.commits ⊆ db'.commits) :
    Stores digest db' p row where
  key := h.key
  intent := h.intent
  result := h.result
  appended := h.appended
  transacted request result hp := by
    obtain ⟨hgood, hreadable, c, hc, hmatch⟩ := h.transacted request result hp
    exact ⟨hgood, hreadable, c, hcommits hc, hmatch⟩

/-- The text of an intent is hashed as it is. -/
theorem toVec_eq_ok {value : CanonicalValue} {bytes : Bytes} (h : toVec value = .ok bytes) :
    bytes = value.bytes := by
  obtain ⟨text, htext, rfl⟩ := map_eq_ok.mp h
  obtain ⟨-, -, rfl⟩ := canonicalText_eq_ok.mp htext
  rfl

/-- The result of an append is stored readably. -/
theorem buildCandidate_result {request : AppendRequest} {staged : List VerifiedStagedFile}
    {logicalHash : Sha256} {drawn : Drawn} {parent : PinnedTable}
    {candidate : Candidate AppendResult} (hstaged : StagedGood staged)
    (h : buildCandidate digest request staged logicalHash drawn parent = .ok candidate) :
    candidate.result.Good ∧ Readable candidate.result.toValue := by
  rw [buildCandidate, invalidAppend, invalidAppend, invalidAppend] at h
  obtain ⟨hversion, h⟩ := ite_error_eq_ok.mp h
  obtain ⟨⟨schemaId, lastSequence⟩, -, h⟩ := bind_eq_ok.mp h
  obtain ⟨target, -, h⟩ := bind_eq_ok.mp h
  rcases target with _ | ⟨kind, tip⟩
  · cases h
  · obtain ⟨hsequence, h⟩ := ite_error_eq_ok.mp h
    obtain ⟨summary, -, h⟩ := bind_eq_ok.mp h
    cases hfiles : request.files with
    | nil =>
      rw [hfiles] at h
      cases h
    | cons first rest =>
      rw [hfiles] at h
      obtain ⟨resultValue, hresult, h⟩ := bind_eq_ok.mp h
      obtain ⟨commit, -, h⟩ := bind_eq_ok.mp h
      obtain ⟨commitBytes, -, h⟩ := bind_eq_ok.mp h
      obtain ⟨-, -, h⟩ := bind_eq_ok.mp h
      obtain ⟨-, -, h⟩ := bind_eq_ok.mp h
      obtain ⟨-, -, h⟩ := bind_eq_ok.mp h
      obtain ⟨files, -, h⟩ := bind_eq_ok.mp h
      obtain ⟨db, -, h⟩ := bind_eq_ok.mp h
      obtain ⟨db', -, h⟩ := bind_eq_ok.mp h
      cases h
      obtain ⟨hfits, hdepth, -⟩ := canonicalText_eq_ok.mp (liftProtocol_eq_ok.mp hresult)
      simp only [Database.u64Max, not_le] at hversion hsequence
      refine ⟨⟨?_, drawn.commitId_v7, drawn.snapshotId_v7, ?_, ?_⟩,
        AppendResult.sorted_toValue _, hfits, hdepth⟩
      · change parent.db.tableMeta.tableVersion + 1 < 18446744073709551616
        omega
      · change lastSequence + 1 < 18446744073709551616
        omega
      · exact List.forall_mem_map.mpr hstaged

/-- The result of a transaction is stored readably. -/
theorem buildTransaction_result {request : TransactionRequest} {logicalHash : Sha256}
    {drawn : Drawn} {parent : PinnedTable} {candidate : Candidate DurableResult}
    (hgood : ∀ operation ∈ request.operations, operation.Good)
    (h : buildTransaction digest request logicalHash drawn parent = .ok candidate) :
    candidate.result.Good ∧ Readable candidate.result.toValue := by
  rw [buildTransaction, invalid] at h
  obtain ⟨results, hprepare, h⟩ := bind_eq_ok.mp h
  obtain ⟨hversion, h⟩ := ite_error_eq_ok.mp h
  obtain ⟨resultValue, hresult, h⟩ := bind_eq_ok.mp h
  obtain ⟨requirements, -, h⟩ := bind_eq_ok.mp h
  obtain ⟨operations, -, h⟩ := bind_eq_ok.mp h
  obtain ⟨metadata, -, h⟩ := bind_eq_ok.mp h
  obtain ⟨commit, -, h⟩ := bind_eq_ok.mp h
  obtain ⟨commitBytes, -, h⟩ := bind_eq_ok.mp h
  obtain ⟨db, -, h⟩ := bind_eq_ok.mp h
  obtain ⟨db', -, h⟩ := bind_eq_ok.mp h
  cases h
  rw [prepareOperations, invalid] at hprepare
  obtain ⟨-, hprepare⟩ := ite_error_eq_ok.mp hprepare
  obtain ⟨-, hprepare⟩ := check_eq_ok.mp hprepare
  obtain ⟨hfits, hdepth, -⟩ := canonicalText_eq_ok.mp (liftProtocol_eq_ok.mp hresult)
  simp only [Database.u64Max, not_le] at hversion
  refine ⟨⟨?_, drawn.commitId_v7, prepareAll_good hgood hprepare⟩,
    DurableResult.sorted_toValue _, hfits, hdepth⟩
  change parent.db.tableMeta.tableVersion + 1 < 18446744073709551616
  omega

/-- Every publication is stored, in the order in which they were published. -/
theorem Published.stores {log : List Publication} {table : PinnedTable}
    (h : Published digest log table) :
    List.Forall₂ (Stores digest table.db) log table.db.idempotency := by
  induction h with
  | @genesis input table hgenesis hhash =>
    obtain ⟨schemas, -, hgenesis⟩ := bind_eq_ok.mp hgenesis
    have hrows : table.db.idempotency =
        [⟨"otmp.genesis", input.intentHash, input.commitId, 0, input.resultJson⟩] :=
      (congrArg Database.idempotency (Except.ok.inj hgenesis)).symm
    rw [hrows]
    refine .cons ⟨rfl, hhash, rfl, fun _ _ h => ?_, fun _ _ h => ?_⟩ .nil
    · cases h
    · cases h
  | @append log parent request staged logical drawn original version candidate _ hvec hstaged _ _
      hrequest hbuild ih =>
    obtain ⟨hgood, hreadable⟩ := buildCandidate_result hstaged hbuild
    obtain ⟨first, summary, target, commitBytes, files, -, -, -, -, -, -, hnext⟩ :=
      buildCandidate_eq_ok hrequest hbuild
    have hsub : parent.db.commits ⊆ candidate.next.db.commits := by
      rw [hnext]
      exact List.subset_append_left _ _
    rw [hnext] at hsub ⊢
    refine List.rel_append (ih.imp fun p row hstores => hstores.mono hsub) (.cons ⟨rfl, ?_, rfl,
      fun _ _ h => ?_, fun _ _ h => ?_⟩ .nil)
    · exact congrArg (intentHash digest) (toVec_eq_ok hvec)
    · cases h
      exact ⟨hgood, hreadable⟩
    · cases h
  | @transact log parent request logical drawn candidate _ hvec hgood hbuild ih =>
    obtain ⟨hresult, hreadable⟩ := buildTransaction_result hgood hbuild
    obtain ⟨db₁, results, commitBytes, -, hrun, -, -, -, hnext, -⟩ :=
      buildTransaction_recorded hbuild
    obtain ⟨hcommits, hkeys⟩ : db₁.commits = parent.db.commits ∧
        db₁.idempotency = parent.db.idempotency := by
      refine runAll_invariant (P := fun d : Database => d.commits = parent.db.commits ∧
        d.idempotency = parent.db.idempotency) (fun _ hinv hstep => ?_) ⟨rfl, rfl⟩ hrun
      have hspec := (Database.applyOperation_spec hstep).1
      exact ⟨hspec.commits.trans hinv.1, hspec.idempotency.trans hinv.2⟩
    have hsub : parent.db.commits ⊆ candidate.next.db.commits := by
      rw [hnext, ← hcommits]
      exact List.subset_append_left _ _
    have hrows : candidate.next.db.idempotency = parent.db.idempotency ++
        [transactionKeyRow parent request (intentHash digest logical) drawn candidate.result] := by
      rw [hnext, ← hkeys]
      rfl
    rw [hrows]
    refine List.rel_append (ih.imp fun p row hstores => hstores.mono hsub) (.cons ⟨rfl, ?_, rfl,
      fun _ _ h => ?_, fun _ _ h => ?_⟩ .nil)
    · exact congrArg (intentHash digest) (toVec_eq_ok hvec)
    · cases h
    · cases h
      refine ⟨hresult, hreadable, transactionRow digest parent request drawn candidate.result
        candidate.commit.semanticStateSha256 commitBytes, ?_, rfl, rfl, rfl⟩
      rw [hnext]
      exact List.mem_append_right _ List.mem_cons_self

/-- A key in the table is found with the publication that used it. -/
theorem Published.find_row {log : List Publication} {table : PinnedTable}
    (h : Published digest log table) {p : Publication} (hp : p ∈ log) :
    ∃ row, table.db.idempotency.find? (·.idempotencyKey == p.key) = some row ∧
      Stores digest table.db p row := by
  have hnodup := h.reachable.consistent.commits.keys
  obtain ⟨row, hrow, hstores⟩ := exists_of_forall₂ h.stores hp
  refine ⟨row, ?_, hstores⟩
  cases hfound : table.db.idempotency.find? (·.idempotencyKey == p.key) with
  | none =>
    have hnone := List.find?_eq_none.mp hfound row hrow
    exact absurd (beq_iff_eq.mpr hstores.key) hnone
  | some other =>
    have hother := List.mem_of_find?_eq_some hfound
    have hkey : other.idempotencyKey = p.key := by simpa using List.find?_some hfound
    rw [List.inj_on_of_nodup_map hnodup hother hrow (hkey.trans hstores.key.symm)]

/-- The intents of the three kinds of publications differ. -/
theorem logicalIntent_ne_toValue (r : AppendRequest) (t : TransactionRequest) :
    r.logicalIntent ≠ t.toValue := by
  simp [AppendRequest.logicalIntent, TransactionRequest.toValue]

/-- An append's intent is not the operation of genesis. -/
theorem logicalIntent_ne_initializeOperation (r : AppendRequest) (tableId : Id) (schema : Schema) :
    r.logicalIntent ≠ initializeOperation tableId schema := by
  simp [AppendRequest.logicalIntent, initializeOperation]

/-- A transaction's request is not the operation of genesis. -/
theorem toValue_ne_initializeOperation (t : TransactionRequest) (tableId : Id) (schema : Schema) :
    t.toValue ≠ initializeOperation tableId schema := by
  simp [TransactionRequest.toValue, initializeOperation]

/-- Hashes of intents agree exactly when the intents do. -/
theorem intentHash_eq_iff {inputs : Set Bytes} (hinj : Set.InjOn digest inputs)
    {a b : CanonicalValue} (ha : intentInput a.bytes ∈ inputs) (hb : intentInput b.bytes ∈ inputs) :
    intentHash digest a.bytes = intentHash digest b.bytes ↔ a = b := by
  constructor
  · intro h
    exact bytes_injective (List.append_cancel_left (hinj ha hb h))
  · intro h
    rw [h]

section Retry

variable {parse : Bytes → Except ProtocolError CanonicalValue} {log : List Publication}
  {table : PinnedTable} {inputs : Set Bytes} {p : Publication}

/-- A readable result is read back from its text. -/
theorem fromSliceCanonical_stored {α : Type} {read : CanonicalValue → Except ProtocolError α}
    {stored : CanonicalValue} {a : α} (hparse : JsonParser parse) (hreadable : Readable stored)
    (hread : read stored = .ok a) : fromSliceCanonical parse read stored.bytes = .ok a := by
  have hparsed := hparse.reads hreadable.sorted hreadable.fits hreadable.depth
  rw [fromSliceCanonical, ok_bind (parseCanonical_eq_ok.mpr ⟨hparsed, rfl⟩), hread]

/-- The look at a key that is taken. -/
theorem Published.idempotencyOf (h : Published digest log table) (hp : p ∈ log) :
    table.db.idempotencyOf p.key = some (intentHash digest p.intent.bytes, p.stored) := by
  obtain ⟨row, hfind, hstores⟩ := h.find_row hp
  rw [Database.idempotencyOf, hfind, Option.map_some, hstores.intent, hstores.result]

/-- A retry of a committed append finds its result, and another append a conflict. -/
theorem Published.checkIdempotency (hparse : JsonParser parse) (h : Published digest log table)
    (hinj : Set.InjOn digest inputs) (hinputs : ∀ p ∈ log, intentInput p.intent.bytes ∈ inputs)
    {request : AppendRequest} (hrequest : intentInput request.logicalIntent.bytes ∈ inputs)
    (hp : p ∈ log) :
    (∀ committed result, p = .append committed result → request.SameIntent committed →
      Otmp.checkIdempotency parse table.db p.key
        (intentHash digest request.logicalIntent.bytes) = .ok (some result)) ∧
    ((∀ committed result, p = .append committed result → ¬request.SameIntent committed) →
      Otmp.checkIdempotency parse table.db p.key
        (intentHash digest request.logicalIntent.bytes) = .error .idempotencyConflict) := by
  obtain ⟨row, hfind, hstores⟩ := h.find_row hp
  have hhash := intentHash_eq_iff hinj (hinputs p hp) hrequest
  simp only [Otmp.checkIdempotency, h.idempotencyOf hp]
  constructor
  · rintro committed result rfl hsame
    have hintent := AppendRequest.logicalIntent_eq.mpr hsame
    rw [if_neg (not_not.mpr (hhash.mpr hintent.symm))]
    obtain ⟨hgood, hreadable⟩ := hstores.appended committed result rfl
    rw [fromSliceCanonical_stored hparse hreadable (AppendResult.read_toValue hgood)]
    rfl
  · intro hdifferent
    refine if_pos fun heq => ?_
    have hintent := hhash.mp heq
    cases p with
    | genesis tableId schema result =>
      exact logicalIntent_ne_initializeOperation request tableId schema hintent.symm
    | append committed result =>
      exact hdifferent committed result rfl (AppendRequest.logicalIntent_eq.mp hintent.symm)
    | transact committed result => exact logicalIntent_ne_toValue request committed hintent.symm

/-- The state of the commit of a committed transaction. -/
theorem Published.stateOfKey (h : Published digest log table) {request : TransactionRequest}
    {result : TransactionResult} (hp : .transact request result ∈ log) :
    table.db.stateOfKey request.idempotencyKey = .ok result.semanticStateSha256 := by
  obtain ⟨row, hfind, hstores⟩ := h.find_row hp
  obtain ⟨-, -, c, hc, hid, hversion, hstate⟩ := hstores.transacted request result rfl
  have hversions := h.reachable.consistent.commits.versions
  have hnodup : (table.db.commits.map CommitRow.tableVersion).Nodup := by
    rw [hversions]
    exact List.nodup_range
  have hcommit : table.db.commits.find? (fun c =>
      c.commitId == row.commitId && c.tableVersion == row.tableVersion) = some c := by
    cases hfound : table.db.commits.find? (fun c =>
        c.commitId == row.commitId && c.tableVersion == row.tableVersion) with
    | none =>
      have hnone := List.find?_eq_none.mp hfound c hc
      simp [hid, hversion] at hnone
    | some other =>
      have hother := List.mem_of_find?_eq_some hfound
      have hmatch := List.find?_some hfound
      simp only [Bool.and_eq_true, beq_iff_eq] at hmatch
      rw [List.inj_on_of_nodup_map hnodup hother hc (hmatch.2.trans hversion.symm)]
  have hfind' : table.db.idempotency.find? (·.idempotencyKey == request.idempotencyKey) =
      some row := hfind
  simp only [Database.stateOfKey, hfind', hcommit, hstate]

/-- A retry of a committed transaction finds its result, and another transaction a conflict. -/
theorem Published.replay (hparse : JsonParser parse) (h : Published digest log table)
    (hinj : Set.InjOn digest inputs) (hinputs : ∀ p ∈ log, intentInput p.intent.bytes ∈ inputs)
    {request : TransactionRequest} (hrequest : intentInput request.toValue.bytes ∈ inputs)
    (hp : p ∈ log) :
    (∀ committed result, p = .transact committed result → request.SameIntent committed →
      Otmp.replay parse table.db p.key (intentHash digest request.toValue.bytes) = .ok (some
        (⟨result.tableVersion, result.commitId, result.operationResults⟩,
          result.semanticStateSha256))) ∧
    ((∀ committed result, p = .transact committed result → ¬request.SameIntent committed) →
      Otmp.replay parse table.db p.key (intentHash digest request.toValue.bytes) =
        .error .idempotencyConflict) := by
  obtain ⟨row, hfind, hstores⟩ := h.find_row hp
  have hhash := intentHash_eq_iff hinj (hinputs p hp) hrequest
  simp only [Otmp.replay, h.idempotencyOf hp]
  constructor
  · rintro committed result rfl hsame
    have hintent := TransactionRequest.toValue_eq.mpr hsame
    rw [if_neg (not_not.mpr (hhash.mpr hintent.symm))]
    obtain ⟨hgood, hreadable, -⟩ := hstores.transacted committed result rfl
    have hstate : table.db.stateOfKey (Publication.transact committed result).key =
        .ok result.semanticStateSha256 := h.stateOfKey hp
    rw [ok_bind hstate,
      fromSliceCanonical_stored hparse hreadable (DurableResult.read_toValue hgood)]
    rfl
  · intro hdifferent
    refine if_pos fun heq => ?_
    have hintent := hhash.mp heq
    cases p with
    | genesis tableId schema result =>
      exact toValue_ne_initializeOperation request tableId schema hintent.symm
    | append committed result => exact logicalIntent_ne_toValue committed request hintent
    | transact committed result =>
      exact hdifferent committed result rfl (TransactionRequest.toValue_eq.mp hintent.symm)

/-- A retry of an append ends with the stored result or with a conflict. -/
theorem Published.appendFiles (hparse : JsonParser parse) (h : Published digest log table)
    (hinj : Set.InjOn digest inputs) (hinputs : ∀ p ∈ log, intentInput p.intent.bytes ∈ inputs)
    {W : Type} {pin : W → Except RuntimeError PinnedTable} {world : W}
    (hpin : pin world = .ok table) {request : AppendRequest} {logical : Bytes}
    (hlogical : toVec request.logicalIntent = .ok logical) (hrequest : intentInput logical ∈ inputs)
    (hp : p ∈ log) (hkey : p.key = request.idempotencyKey)
    (publish : AppendRequest → Sha256 → PinnedTable → W → Except RuntimeError AppendResult × W) :
    (∀ committed result, p = .append committed result → request.SameIntent committed →
      Otmp.appendFiles parse digest pin publish request world = (.ok result, world)) ∧
    ((∀ committed result, p = .append committed result → ¬request.SameIntent committed) →
      Otmp.appendFiles parse digest pin publish request world =
        (.error .idempotencyConflict, world)) := by
  have hbytes := toVec_eq_ok hlogical
  subst hbytes
  obtain ⟨hsame, hconflict⟩ := h.checkIdempotency hparse hinj hinputs hrequest hp
  simp only [Otmp.appendFiles, liftProtocol_eq_ok.mpr hlogical, hpin, ← hkey]
  constructor
  · intro committed result hcommitted hintent
    rw [hsame committed result hcommitted hintent]
  · intro hdifferent
    rw [hconflict hdifferent]

/-- A retry of a transaction ends with the stored result or with a conflict. -/
theorem Published.transact_retry (hparse : JsonParser parse) (h : Published digest log table)
    (hinj : Set.InjOn digest inputs) (hinputs : ∀ p ∈ log, intentInput p.intent.bytes ∈ inputs)
    {W : Type} {pin : W → Except RuntimeError PinnedTable} {world : W}
    (hpin : pin world = .ok table) {request : TransactionRequest} {logical : Bytes}
    (hlogical : toVec request.toValue = .ok logical) (hrequest : intentInput logical ∈ inputs)
    (hp : p ∈ log) (hkey : p.key = request.idempotencyKey)
    (publish : TransactionRequest → Sha256 → PinnedTable → W →
      Except RuntimeError TransactionResult × W) :
    (∀ committed result, p = .transact committed result → request.SameIntent committed →
      Otmp.transact parse digest pin publish request world = (.ok result, world)) ∧
    ((∀ committed result, p = .transact committed result → ¬request.SameIntent committed) →
      Otmp.transact parse digest pin publish request world =
        (.error .idempotencyConflict, world)) := by
  have hbytes := toVec_eq_ok hlogical
  subst hbytes
  obtain ⟨hsame, hconflict⟩ := h.replay hparse hinj hinputs hrequest hp
  simp only [Otmp.transact, liftProtocol_eq_ok.mpr hlogical, hpin, ← hkey]
  constructor
  · intro committed result hcommitted hintent
    rw [hsame committed result hcommitted hintent]
  · intro hdifferent
    rw [hconflict hdifferent]

end Retry

/-- Intents identify what is asked for. The text of an append's intent is that of another
exactly when both ask for the same, and it is no text of a transaction. A call under a key
that is taken in the head it pins first leaves the world as it is; it returns the stored
result if its request is the committed one and a conflict if it is not. -/
theorem intent_identity {parse : Bytes → Except ProtocolError CanonicalValue}
    (hparse : JsonParser parse) :
    (∀ (r s : AppendRequest) (b c : Bytes), toVec r.logicalIntent = .ok b →
      toVec s.logicalIntent = .ok c → (b = c ↔ r.SameIntent s)) ∧
    (∀ (r : AppendRequest) (t : TransactionRequest) (b c : Bytes),
      toVec r.logicalIntent = .ok b → toVec t.toValue = .ok c → b ≠ c) ∧
    ∀ {log : List Publication} {table : PinnedTable}, Published digest log table →
      ∀ {inputs : Set Bytes}, Set.InjOn digest inputs →
      (∀ p ∈ log, intentInput p.intent.bytes ∈ inputs) →
      ∀ {W : Type} {pin : W → Except RuntimeError PinnedTable} {world : W},
      pin world = .ok table → ∀ p ∈ log,
      (∀ (request : AppendRequest) (logical : Bytes), toVec request.logicalIntent = .ok logical →
        intentInput logical ∈ inputs → p.key = request.idempotencyKey → ∀ publish,
        (∀ committed result, p = .append committed result → request.SameIntent committed →
          appendFiles parse digest pin publish request world = (.ok result, world)) ∧
        ((∀ committed result, p = .append committed result → ¬request.SameIntent committed) →
          appendFiles parse digest pin publish request world =
            (.error .idempotencyConflict, world))) ∧
      ∀ (request : TransactionRequest) (logical : Bytes), toVec request.toValue = .ok logical →
        intentInput logical ∈ inputs → p.key = request.idempotencyKey → ∀ publish,
        (∀ committed result, p = .transact committed result → request.SameIntent committed →
          transact parse digest pin publish request world = (.ok result, world)) ∧
        ((∀ committed result, p = .transact committed result → ¬request.SameIntent committed) →
          transact parse digest pin publish request world =
            (.error .idempotencyConflict, world)) := by
  refine ⟨fun r s b c hr hs => ?_, fun r t b c hr ht hbytes => ?_, fun h _ hinj hinputs _ _ _ hpin p
    hp => ⟨fun request logical hlogical hrequest hkey publish => ?_,
      fun request logical hlogical hrequest hkey publish => ?_⟩⟩
  · rw [toVec_eq_ok hr, toVec_eq_ok hs, ← AppendRequest.logicalIntent_eq]
    exact ⟨bytes_injective, fun h => by rw [h]⟩
  · rw [toVec_eq_ok hr, toVec_eq_ok ht] at hbytes
    exact logicalIntent_ne_toValue r t (bytes_injective hbytes)
  · exact h.appendFiles hparse hinj hinputs hpin hlogical hrequest hp hkey publish
  · exact h.transact_retry hparse hinj hinputs hpin hlogical hrequest hp hkey publish

section Samples

/-- The genesis of the sample history under the hash of its own intent. -/
def retryGenesis : GenesisImage :=
  { sampleGenesis with
    intentHash := intentHash sampleDigest
      (initializeOperation sampleGenesis.tableId sampleGenesis.schema).bytes }

/-- Genesis and the append of one file, each under the hash of its own intent. -/
def retryRun : Except RuntimeError (Candidate AppendResult) := do
  let db ← mutateGenesis retryGenesis
  validateStaged sampleAppend sampleStaged db.tableMeta.tableId
  validateAppendRebase db "main" (some (.branch, none)) 0
  validateRequest db sampleAppend
  buildCandidate sampleDigest sampleAppend sampleStaged
    (intentHash sampleDigest sampleAppend.logicalIntent.bytes) (sampleDrawn 4 5 1)
    ⟨db, ⟨"genesis", sampleDigest [2], none, none⟩, [], []⟩

/-- The same append from another place, which is a retry. -/
def movedAppend : AppendRequest :=
  { sampleAppend with
    files := sampleAppend.files.map fun file => { file with sourcePath := "b.parquet" } }

/-- Another append under the same key, which is a conflict. -/
def otherAppend : AppendRequest :=
  { sampleAppend with summary := (∅ : JsonMap).insert "note" (.string "again") }

/-- A value whose integers fit and which is not too deep has its bytes. -/
theorem toVec_of_fits {value : CanonicalValue} (hfits : value.integersFit = true)
    (hdepth : value.depth ≤ maxDepth) : toVec value = .ok value.bytes :=
  map_eq_ok.mpr ⟨value, canonicalText_eq_ok.mpr ⟨hfits, hdepth, rfl⟩, rfl⟩

/-- The sample history is published: genesis under its own intent, and the append. -/
theorem retryRun_published {candidate : Candidate AppendResult} (h : retryRun = .ok candidate) :
    Published sampleDigest [.genesis retryGenesis.tableId retryGenesis.schema
      retryGenesis.resultJson, .append sampleAppend candidate.result] candidate.next := by
  rw [retryRun] at h
  obtain ⟨db, hgenesis, h⟩ := bind_eq_ok.mp h
  obtain ⟨hstaged, h⟩ := check_eq_ok.mp h
  obtain ⟨hrebase, h⟩ := check_eq_ok.mp h
  obtain ⟨hrequest, h⟩ := check_eq_ok.mp h
  have hgood : StagedGood sampleStaged := by
    simp only [StagedGood, sampleStaged, List.forall_mem_cons]
    exact ⟨⟨sampleId_v7 3, by decide +kernel⟩, nofun⟩
  exact .append (@Published.genesis _ retryGenesis _ hgenesis rfl)
    (toVec_of_fits (by decide +kernel) (by decide +kernel)) hgood hstaged hrebase hrequest h

/-- A world with one head, which every pin returns. -/
def pinOf (table : PinnedTable) : Unit → Except RuntimeError PinnedTable := fun _ => .ok table

/-- The append from another place is answered with the result of the first, and the other append
with a conflict. -/
theorem intent_identity_retry : ∃ candidate, retryRun = .ok candidate ∧
    appendFiles textParser sampleDigest (pinOf candidate.next) (fun _ _ _ world =>
      (.error .rebaseExhausted, world)) movedAppend () = (.ok candidate.result, ()) ∧
    appendFiles textParser sampleDigest (pinOf candidate.next) (fun _ _ _ world =>
      (.error .rebaseExhausted, world)) otherAppend () = (.error .idempotencyConflict, ()) := by
  have hok : retryRun.isOk = true := by decide +kernel
  cases hrun : retryRun with
  | error e =>
    rw [hrun] at hok
    cases hok
  | ok candidate =>
    let genesis := intentInput (initializeOperation retryGenesis.tableId retryGenesis.schema).bytes
    let first := intentInput sampleAppend.logicalIntent.bytes
    let other := intentInput otherAppend.logicalIntent.bytes
    have hne : sampleDigest genesis ≠ sampleDigest first ∧
        sampleDigest genesis ≠ sampleDigest other ∧ sampleDigest first ≠ sampleDigest other := by
      decide +kernel
    have hinj : Set.InjOn sampleDigest {genesis, first, other} := by
      rintro x (rfl | rfl | rfl) y (rfl | rfl | rfl) hxy
      · rfl
      · exact absurd hxy hne.1
      · exact absurd hxy hne.2.1
      · exact absurd hxy.symm hne.1
      · rfl
      · exact absurd hxy hne.2.2
      · exact absurd hxy.symm hne.2.1
      · exact absurd hxy.symm hne.2.2
      · rfl
    have hinputs : ∀ p ∈ [Publication.genesis retryGenesis.tableId retryGenesis.schema
        retryGenesis.resultJson, .append sampleAppend candidate.result],
        intentInput p.intent.bytes ∈ ({genesis, first, other} : Set Bytes) := by
      rintro p (_ | ⟨_, _ | ⟨_, ⟨⟩⟩⟩)
      · exact Or.inl rfl
      · exact Or.inr (Or.inl rfl)
    have hsame : movedAppend.SameIntent sampleAppend := ⟨rfl, rfl, rfl, rfl, rfl⟩
    have hmoved : movedAppend.logicalIntent = sampleAppend.logicalIntent :=
      AppendRequest.logicalIntent_eq.mpr hsame
    have hretry := (intent_identity textParser_jsonParser).2.2 (retryRun_published hrun) hinj
      hinputs (rfl : pinOf candidate.next () = .ok candidate.next)
      (.append sampleAppend candidate.result) (by simp)
    refine ⟨candidate, rfl, (hretry.1 movedAppend _ (toVec_of_fits ?_ ?_) ?_ rfl _).1 _ _ rfl hsame,
      (hretry.1 otherAppend _ (toVec_of_fits ?_ ?_) ?_ rfl _).2
        fun committed result heq hother => ?_⟩
    · decide +kernel
    · decide +kernel
    · exact Or.inr (Or.inl (by rw [hmoved]))
    · decide +kernel
    · decide +kernel
    · exact Or.inr (Or.inr rfl)
    · cases heq
      have hempty := congrArg Std.ExtTreeMap.isEmpty hother.summary
      exact absurd hempty (by decide +kernel)

end Samples

end Otmp
