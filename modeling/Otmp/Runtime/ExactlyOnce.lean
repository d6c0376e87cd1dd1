import Mathlib.Data.List.Chain
import Mathlib.Data.List.Nodup
import Mathlib.Data.List.Pairwise
import Otmp.Runtime.PinnedHeads
import Otmp.Runtime.PublicationRuns

/-!
# Publication happens exactly once

A candidate adds one commit row and one key row to the image of its parent, and its head names the
parent's commit and generation. So the published heads are one chain in which every key occurs
once, and what a call returns is stored with the commit that carries its key.
-/

namespace Otmp

open Foundation CanonicalValue

namespace Database

variable {db db' : Database}

/-- A commit row is only inserted under a new identifier. -/
theorem insertCommit_fresh {row : CommitRow} (h : db.insertCommit row = .ok db') :
    ∀ c ∈ db.commits, c.commitId ≠ row.commitId := by
  intro c hc hid
  rw [insertCommit] at h
  obtain ⟨hunique, -⟩ := ite_error_eq_ok.mp h
  apply hunique
  rw [List.any_eq_true]
  exact ⟨c, hc, by simp [hid]⟩

/-- The identifier of an appended commit is new. -/
theorem mutateAppend_fresh {input : AppendImage} (h : db.mutateAppend input = .ok db') :
    ∀ c ∈ db.commits, c.commitId ≠ input.commitId := by
  rw [mutateAppend] at h
  obtain ⟨-, h⟩ := ite_error_eq_ok.mp h
  obtain ⟨_, -, h⟩ := bind_eq_ok.mp h
  obtain ⟨-, -, h⟩ := bind_eq_ok.mp h
  obtain ⟨db₁, h₁, h⟩ := bind_eq_ok.mp h
  obtain ⟨db₂, h₂, h⟩ := bind_eq_ok.mp h
  obtain ⟨db₃, h₃, h⟩ := bind_eq_ok.mp h
  obtain ⟨-, h⟩ := ite_error_eq_ok.mp h
  obtain ⟨db₄, h₄, h⟩ := bind_eq_ok.mp h
  obtain ⟨db₅, h₅, -⟩ := bind_eq_ok.mp h
  have e₂ := runAll_invariant (P := fun d : Database => d.commits = db₁.commits)
    (fun _ hinv hstep => by rw [appendSummary_spec hstep]; exact hinv) rfl h₂
  have e₃ := runAll_invariant (P := fun d : Database => d.commits = db₁.commits)
    (fun _ hinv hstep => by rw [appendFile_spec hstep, withFiles]; exact hinv) e₂ h₃
  have hcommits : db₄.commits = db.commits := by
    rw [(updateRefs_spec h₄).1, e₃, (insertSnapshot_spec h₁).1]
  exact hcommits ▸ insertCommit_fresh h₅

/-- The identifier of the commit of a transaction is new. -/
theorem mutateMetadata_fresh {digest : Digest} {commit : SemanticCommit} {uri : String}
    {operations : List OperationRequest}
    (h : db.mutateMetadata digest commit uri operations = .ok db') :
    ∀ c ∈ db.commits, c.commitId ≠ commit.commitId := by
  rw [mutateMetadata] at h
  obtain ⟨db₁, h₁, h⟩ := bind_eq_ok.mp h
  obtain ⟨bytes, -, h⟩ := bind_eq_ok.mp h
  obtain ⟨-, h⟩ := check_eq_ok.mp h
  rw [applyOperations, invalid] at h₁
  obtain ⟨-, h₁⟩ := ite_error_eq_ok.mp h₁
  have hcommits := runAll_invariant (P := fun d : Database => d.commits = db.commits)
    (fun _ hinv hstep => (applyOperation_spec hstep).1.commits.trans hinv) rfl h₁
  cases hintents : commit.intents with
  | nil =>
    rw [hintents] at h
    cases h
  | cons intent intents =>
    rw [hintents] at h
    obtain ⟨result, -, h⟩ := bind_eq_ok.mp h
    obtain ⟨-, -, h⟩ := bind_eq_ok.mp h
    obtain ⟨-, -, h⟩ := bind_eq_ok.mp h
    obtain ⟨db₂, h₂, -⟩ := bind_eq_ok.mp h
    exact hcommits ▸ insertCommit_fresh h₂

end Database

/-- What a candidate records on its parent: one more version, and the key with its intent and
result. -/
structure Records {R : Type} (digest : Digest) (parent : PinnedTable) (key : String)
    (intent : Sha256) (result : CanonicalValue) (candidate : Candidate R) : Prop where
  key_fresh : ∀ row ∈ parent.db.idempotency, row.idempotencyKey ≠ key
  id_fresh : ∀ row ∈ parent.db.commits, row.commitId ≠ candidate.commit.commitId
  commits : ∃ row, candidate.next.db.commits = parent.db.commits ++ [row] ∧
    row.tableVersion = parent.db.tableMeta.tableVersion + 1 ∧
    row.commitId = candidate.commit.commitId ∧
    row.semanticStateSha256 = candidate.commit.semanticStateSha256
  idempotency : candidate.next.db.idempotency = parent.db.idempotency ++
    [⟨key, intent, candidate.commit.commitId, parent.db.tableMeta.tableVersion + 1, result⟩]
  tableId : candidate.next.db.tableMeta.tableId = parent.db.tableMeta.tableId
  tableVersion : candidate.next.db.tableMeta.tableVersion = parent.db.tableMeta.tableVersion + 1
  semanticState : candidate.next.db.tableMeta.semanticStateSha256 =
    candidate.commit.semanticStateSha256
  commit : ∃ ids requirements operations metadata drawn,
    candidate.commit = { parent.commitOn drawn ⟨key, intent, ids, result⟩ requirements operations
      metadata with semanticStateSha256 := candidate.commit.semanticStateSha256 }
  next : ∃ bytes, candidate.commit.toVec = .ok bytes ∧ candidate.next.semanticCommit =
    commitReference digest (commitUri candidate.commit.tableVersion candidate.commit.commitId) bytes

/-- The commit of an append has a new identifier. -/
theorem buildCandidate_fresh {digest : Digest} {request : AppendRequest}
    {staged : List VerifiedStagedFile} {logicalHash : Sha256} {drawn : Drawn} {parent : PinnedTable}
    {candidate : Candidate AppendResult}
    (h : buildCandidate digest request staged logicalHash drawn parent = .ok candidate) :
    ∀ c ∈ parent.db.commits, c.commitId ≠ drawn.commitId := by
  rw [buildCandidate, invalidAppend, invalidAppend, invalidAppend] at h
  obtain ⟨-, h⟩ := ite_error_eq_ok.mp h
  obtain ⟨⟨schemaId, lastSequence⟩, -, h⟩ := bind_eq_ok.mp h
  obtain ⟨target, -, h⟩ := bind_eq_ok.mp h
  rcases target with _ | ⟨kind, tip⟩
  · cases h
  · obtain ⟨-, h⟩ := ite_error_eq_ok.mp h
    obtain ⟨summary, -, h⟩ := bind_eq_ok.mp h
    cases hfiles : request.files with
    | nil =>
      rw [hfiles] at h
      cases h
    | cons first rest =>
      rw [hfiles] at h
      obtain ⟨result, -, h⟩ := bind_eq_ok.mp h
      obtain ⟨commit, -, h⟩ := bind_eq_ok.mp h
      obtain ⟨commitBytes, -, h⟩ := bind_eq_ok.mp h
      obtain ⟨-, -, h⟩ := bind_eq_ok.mp h
      obtain ⟨-, -, h⟩ := bind_eq_ok.mp h
      obtain ⟨-, -, h⟩ := bind_eq_ok.mp h
      obtain ⟨files, -, h⟩ := bind_eq_ok.mp h
      obtain ⟨db, hmutate, -⟩ := bind_eq_ok.mp h
      exact Database.mutateAppend_fresh hmutate

/-- What the candidate of an append records. -/
theorem buildCandidate_records {digest : Digest} {request : AppendRequest}
    {staged : List VerifiedStagedFile} {logicalHash : Sha256} {drawn : Drawn} {parent : PinnedTable}
    {candidate : Candidate AppendResult} (hrequest : validateRequest parent.db request = .ok ())
    (h : buildCandidate digest request staged logicalHash drawn parent = .ok candidate) :
    Records digest parent request.idempotencyKey logicalHash candidate.result.toValue
      candidate := by
  obtain ⟨first, summary, target, commitBytes, files, -, -, hcommit, hbytes, happendable, -,
    hnext⟩ := buildCandidate_eq_ok hrequest h
  obtain ⟨hash, hseal⟩ := SemanticCommit.seal_eq_ok hcommit
  have hid : candidate.commit.commitId = drawn.commitId := by rw [hseal]; rfl
  have hversion : candidate.commit.tableVersion = parent.db.tableMeta.tableVersion + 1 := by
    rw [hseal]
    rfl
  refine ⟨happendable.key_fresh, ?_, ⟨(appendImage digest parent request logicalHash drawn target
    (parent.db.tableMeta.lastSequenceNumber + 1) summary candidate.result.toValue candidate.commit
    commitBytes files).commitRow, ?_, rfl, hid.symm, rfl⟩, ?_, ?_, ?_, ?_,
    ⟨["append-main"], appendRequirements first, [appendOperation request staged drawn first target
      (parent.db.tableMeta.lastSequenceNumber + 1) summary], request.commitMetadata.toValue,
      drawn, ?_⟩, commitBytes, hbytes, ?_⟩
  · rw [hid]
    exact buildCandidate_fresh h
  · rw [hnext]
    rfl
  · rw [hnext, hid]
    rfl
  · rw [hnext]
    rfl
  · rw [hnext]
    rfl
  · rw [hnext]
    rfl
  · rw [hseal]
    rfl
  · rw [hnext, hid, hversion]
    rfl

/-- What the candidate of a transaction records. -/
theorem buildTransaction_records {digest : Digest} {request : TransactionRequest}
    {logicalHash : Sha256} {drawn : Drawn} {parent : PinnedTable}
    {candidate : Candidate DurableResult}
    (h : buildTransaction digest request logicalHash drawn parent = .ok candidate) :
    Records digest parent request.idempotencyKey logicalHash candidate.result.toValue
      candidate := by
  obtain ⟨results, commitBytes, -, -, hcommit, hbytes, hmutate, -, hnext⟩ :=
    buildTransaction_eq_ok h
  obtain ⟨db₁, results', commitBytes', -, hrun, -, hkey, hbytes', hdb, -⟩ :=
    buildTransaction_recorded h
  rw [hbytes] at hbytes'
  cases hbytes'
  obtain ⟨hash, hseal⟩ := SemanticCommit.seal_eq_ok hcommit
  have huntouched : parent.db.Untouched db₁ :=
    runAll_invariant (P := fun db => parent.db.Untouched db)
      (fun _ hdb hstep => hdb.trans (Database.applyOperation_spec hstep).1) (.refl _) hrun
  obtain ⟨schemaId, hmeta⟩ := huntouched.tableMeta
  have hid : candidate.commit.commitId = drawn.commitId := by rw [hseal]; rfl
  have hversion : candidate.commit.tableVersion = parent.db.tableMeta.tableVersion + 1 := by
    rw [hseal]
    rfl
  refine ⟨huntouched.idempotency ▸ hkey, Database.mutateMetadata_fresh hmutate,
    ⟨transactionRow digest parent request drawn candidate.result
      candidate.commit.semanticStateSha256 commitBytes, ?_, rfl, hid.symm, rfl⟩, ?_, ?_, ?_, ?_,
    ⟨request.operations.map OperationRequest.id, request.requirements.map Requirement.toValue,
      request.operations.map OperationRequest.toValue, request.commitMetadata.toValue, drawn, ?_⟩,
    commitBytes, hbytes, ?_⟩
  · rw [hdb, ← huntouched.commits]
    rfl
  · rw [hdb, hid, ← huntouched.idempotency]
    rfl
  · rw [hdb]
    change db₁.tableMeta.tableId = _
    rw [hmeta]
  · rw [hdb]
    rfl
  · rw [hdb]
    rfl
  · rw [hseal]
  · rw [hnext, hid, hversion]

/-- Another form of the result makes no difference to what is recorded. -/
theorem Records.map {R S : Type} {digest : Digest} {parent : PinnedTable} {key : String}
    {intent : Sha256} {result : CanonicalValue} {candidate : Candidate R} (f : R → S)
    (h : Records digest parent key intent result candidate) :
    Records digest parent key intent result { candidate with result := f candidate.result } :=
  ⟨h.key_fresh, h.id_fresh, h.commits, h.idempotency, h.tableId, h.tableVersion, h.semanticState,
    h.commit, h.next⟩

namespace PinnedHead

/-- The head continues that of a parent and names its commit and generation. -/
structure Continues (digest : Digest) (parent next : PinnedHead) : Prop where
  tableId : next.head.tableId = parent.head.tableId
  tableVersion : next.head.tableVersion = parent.head.tableVersion + 1
  rootRevision : next.head.rootRevision = parent.head.rootRevision + 1
  parentCommit : next.commit.parentCommit = some parent.head.semanticCommit
  physicalParent : next.generation.physicalParent = some parent.head.metadataGeneration
  previousState : next.commit.previousSemanticStateSha256 = some parent.head.semanticStateSha256
  semanticCommit : ∃ bytes, next.commit.toVec = .ok bytes ∧ next.head.semanticCommit =
    commitReference digest (commitUri next.commit.tableVersion next.commit.commitId) bytes
  metadataGeneration : ∃ bytes, toVec next.generation.toValue = .ok bytes ∧
    next.head.metadataGeneration = generationReference digest
      (generationUri next.generation.tableVersion next.generation.generationId) bytes

/-- A head agrees with its image: the same table, version, commit and state, over a consistent
database. -/
structure Sound (p : PinnedHead) : Prop where
  consistent : p.db.Consistent
  tableId : p.head.tableId = p.db.tableMeta.tableId
  tableVersion : p.head.tableVersion = p.db.tableMeta.tableVersion
  semanticState : p.head.semanticStateSha256 = p.db.tableMeta.semanticStateSha256

end PinnedHead

/-- What the head of a candidate is. -/
theorem finishCandidate_eq_ok {R : Type} {digest : Digest} {work : ImageWork}
    {parent next : PinnedHead} {candidate : Candidate R} {result : R} {state : Sha256}
    {key : String} {intent : Sha256} {stored : CanonicalValue} (hparent : parent.Sound)
    (hrecords : Records digest parent.table key intent stored candidate)
    (h : finishCandidate digest work parent candidate = .ok (next, result, state)) :
    next.db = candidate.next.db ∧ next.commit = candidate.commit ∧ result = candidate.result ∧
      state = candidate.commit.semanticStateSha256 ∧
      next.head.semanticStateSha256 = candidate.commit.semanticStateSha256 ∧
      parent.Continues digest next := by
  rw [finishCandidate, invalidAppend] at h
  obtain ⟨-, h⟩ := check_eq_ok.mp h
  obtain ⟨image, -, h⟩ := bind_eq_ok.mp h
  obtain ⟨bytes, hbytes, h⟩ := bind_eq_ok.mp h
  obtain ⟨-, h⟩ := ite_error_eq_ok.mp h
  obtain ⟨-, h⟩ := check_eq_ok.mp h
  obtain ⟨row, hcommits, -, hid, hstate⟩ := hrecords.commits
  have hfind : candidate.next.db.commits.find? (·.commitId == candidate.commit.commitId) =
      some row := by
    rw [hcommits, List.find?_append, List.find?_eq_none.mpr fun c hc => ?_, Option.none_or,
      List.find?_singleton, hid, beq_self_eq_true, if_pos rfl]
    exact fun heq => hrecords.id_fresh c hc (beq_iff_eq.mp heq)
  rw [hfind] at h
  obtain ⟨headBytes, -, h⟩ := bind_eq_ok.mp h
  cases h
  obtain ⟨ids, requirements, operations, metadata, drawn, hcommit⟩ := hrecords.commit
  refine ⟨rfl, rfl, rfl, hstate, rfl, rfl, ?_, rfl, ?_, rfl, ?_, ?_, bytes,
    liftProtocol_eq_ok.mp hbytes, rfl⟩
  · change candidate.commit.tableVersion = _
    rw [hcommit, hparent.tableVersion]
    rfl
  · change candidate.commit.parentCommit = _
    rw [hcommit]
    rfl
  · change candidate.commit.previousSemanticStateSha256 = _
    rw [hcommit, hparent.semanticState]
    rfl
  · exact hrecords.next

/-- An object with an undeclared key is no record. -/
theorem ofValue_unknown {keys : List String} {ms : List (String × CanonicalValue)} {key : String}
    (hkey : key ∈ ms.map Prod.fst) (hunknown : key ∉ keys) (fields : Fields) :
    Fields.ofValue keys (.object ms) ≠ .ok fields := by
  intro h
  obtain ⟨member, hmember, rfl⟩ := List.mem_map.mp hkey
  obtain ⟨hknown, -⟩ := ite_ok_eq_ok.mp h
  rw [knownKeys, List.all_eq_true] at hknown
  exact hunknown (of_decide_eq_true (hknown member hmember))

/-- The results of the three kinds of publications are not read as one another. -/
theorem AppendResult.read_durable (r : DurableResult) (result : AppendResult) :
    AppendResult.read r.toValue ≠ .ok result := by
  intro h
  obtain ⟨fields, hfields, -⟩ := bind_eq_ok.mp h
  exact @ofValue_unknown _ _ "operation_results" (by simp) (by decide) _ hfields

/-- The result of genesis is not that of an append. -/
theorem AppendResult.read_genesis (result : AppendResult) :
    AppendResult.read genesisResult ≠ .ok result := by
  intro h
  have hread : AppendResult.read genesisResult = deError "missing field commit_id" := rfl
  rw [hread] at h
  cases h

/-- The result of an append is not that of a transaction. -/
theorem DurableResult.read_append (r : AppendResult) (result : DurableResult) :
    DurableResult.read r.toValue ≠ .ok result := by
  intro h
  obtain ⟨fields, hfields, -⟩ := bind_eq_ok.mp h
  exact @ofValue_unknown _ _ "files" (by simp) (by decide) _ hfields

/-- The result of genesis is not that of a transaction. -/
theorem DurableResult.read_genesis (result : DurableResult) :
    DurableResult.read genesisResult ≠ .ok result := by
  intro h
  obtain ⟨fields, hfields, -⟩ := bind_eq_ok.mp h
  exact @ofValue_unknown _ _ "ref" (by simp) (by decide) _ hfields

/-- What a stored result is: that of genesis, of an append or of a transaction. -/
inductive StoredResult : CanonicalValue → Prop
  | genesis : StoredResult genesisResult
  | append {r : AppendResult} : r.Good → StoredResult r.toValue
  | transact {r : DurableResult} : r.Good → StoredResult r.toValue

/-- A stored result that is read is stored in the form of the result. -/
theorem Call.read_stored {call : Call} {stored : CanonicalValue} {result : CallResult}
    (hstored : StoredResult stored) (h : call.read stored = .ok result) :
    result.toValue = stored := by
  cases call with
  | append =>
    obtain ⟨r, hr, rfl⟩ := map_eq_ok.mp h
    cases hstored with
    | genesis => exact absurd hr (AppendResult.read_genesis r)
    | append hgood =>
      rw [AppendResult.read_toValue hgood] at hr
      cases hr
      rfl
    | transact => exact absurd hr (AppendResult.read_durable _ r)
  | transact =>
    obtain ⟨r, hr, rfl⟩ := map_eq_ok.mp h
    cases hstored with
    | genesis => exact absurd hr (DurableResult.read_genesis r)
    | append => exact absurd hr (DurableResult.read_append _ r)
    | transact hgood =>
      rw [DurableResult.read_toValue hgood] at hr
      cases hr
      rfl

/-- What a call builds on a pin. -/
theorem Call.build_eq_ok {digest : Digest} {drawn : Drawn} {work : ImageWork} {call : Call}
    {p next : PinnedHead} {result : CallResult} {state : Sha256} (hp : p.Sound)
    (h : call.build digest drawn work p = .ok (next, result, state)) :
    ∃ candidate : Candidate CallResult,
      Records digest p.table call.key (call.logicalHash digest) candidate.result.toValue
        candidate ∧
      StoredResult candidate.result.toValue ∧ Readable candidate.result.toValue ∧
      call.read candidate.result.toValue = .ok candidate.result ∧
      candidate.next.db.Consistent ∧
      finishCandidate digest work p candidate = .ok (next, result, state) := by
  cases call with
  | append request staged tableId baseTip baseVersion hgood hstaged =>
    rw [Call.build] at h
    obtain ⟨hid, h⟩ := ite_error_eq_ok.mp h
    obtain ⟨hrebase, h⟩ := check_eq_ok.mp h
    obtain ⟨hrequest, h⟩ := check_eq_ok.mp h
    obtain ⟨candidate, hbuild, h⟩ := bind_eq_ok.mp h
    obtain ⟨hresult, hreadable⟩ := buildCandidate_result hgood hbuild
    have htable : tableId = p.table.db.tableMeta.tableId :=
      (not_not.mp hid).symm.trans hp.tableId
    refine ⟨{ candidate with result := .append candidate.result },
      (buildCandidate_records hrequest hbuild).map _, .append hresult, hreadable, ?_,
      (Step.append (htable ▸ hstaged) hrebase hrequest hbuild).consistent hp.consistent, h⟩
    exact map_eq_ok.mpr ⟨_, AppendResult.read_toValue hresult, rfl⟩
  | transact request hgood =>
    rw [Call.build] at h
    obtain ⟨candidate, hbuild, h⟩ := bind_eq_ok.mp h
    obtain ⟨hresult, hreadable⟩ := buildTransaction_result hgood hbuild
    have hstep : Step digest p.table (.transact request) candidate.next := .transact hbuild
    refine ⟨{ candidate with result := .transact candidate.result },
      (buildTransaction_records hbuild).map _, .transact hresult, hreadable, ?_,
      hstep.consistent hp.consistent, h⟩
    change (DurableResult.read candidate.result.toValue).map CallResult.transact = _
    rw [DurableResult.read_toValue hresult]
    rfl

/-- **A candidate is sound.** A head that is finished from a candidate on a sound head agrees with
its own image again. -/
theorem Records.sound {digest : Digest} {p next : PinnedHead} {key : String} {intent : Sha256}
    {stored : CanonicalValue} {work : ImageWork} {candidate : Candidate CallResult}
    {result : CallResult} {state : Sha256} (hp : p.Sound)
    (h : Records digest p.table key intent stored candidate)
    (hconsistent : candidate.next.db.Consistent)
    (hfinish : finishCandidate digest work p candidate = .ok (next, result, state)) :
    next.Sound := by
  obtain ⟨hdb, -, -, -, hstate, hcontinues⟩ := finishCandidate_eq_ok hp h hfinish
  refine ⟨hdb ▸ hconsistent, ?_, ?_, ?_⟩
  · rw [hcontinues.tableId, hp.tableId, hdb, h.tableId]
    rfl
  · rw [hcontinues.tableVersion, hp.tableVersion, hdb, h.tableVersion]
    rfl
  · rw [hstate, hdb, h.semanticState]

section Lookup

variable {R : Type} {parse : Bytes → Except ProtocolError CanonicalValue}
  {read : CanonicalValue → Except ProtocolError R} {db : Database} {key : String} {intent : Sha256}

/-- What a successful look at a key has found. -/
theorem replayAs_eq_some {result : R} {state : Sha256} :
    replayAs parse read .fine db key intent = .ok (some (result, state)) ↔
      ∃ row commit, db.idempotency.find? (·.idempotencyKey == key) = some row ∧
        row.intentSha256 = intent ∧
        db.commits.find? (fun c => c.commitId == row.commitId &&
          c.tableVersion == row.tableVersion) = some commit ∧
        commit.semanticStateSha256 = state ∧
        fromSliceCanonical parse read row.result.bytes = .ok result := by
  unfold replayAs Database.idempotencyOf
  constructor
  · intro h
    obtain ⟨-, -, h⟩ := bind_eq_ok.mp h
    cases hrow : db.idempotency.find? (·.idempotencyKey == key) with
    | none =>
      rw [hrow] at h
      cases h
    | some row =>
      rw [hrow] at h
      obtain ⟨hintent, h⟩ := ite_error_eq_ok.mp h
      obtain ⟨-, -, h⟩ := bind_eq_ok.mp h
      obtain ⟨found, hfound, h⟩ := bind_eq_ok.mp h
      obtain ⟨r, hr, h⟩ := bind_eq_ok.mp h
      cases h
      rw [Database.stateOfKey, hrow] at hfound
      dsimp only at hfound
      split at hfound
      · cases hfound
      · rename_i commit hcommit
        cases hfound
        exact ⟨row, commit, rfl, not_not.mp hintent, hcommit, rfl, liftProtocol_eq_ok.mp hr⟩
  · rintro ⟨row, commit, hrow, hintent, hcommit, hstate, hr⟩
    have hfound : db.stateOfKey key = .ok state := by
      rw [Database.stateOfKey, hrow]
      dsimp only
      rw [hcommit, ← hstate]
    refine bind_eq_ok.mpr ⟨(), rfl, ?_⟩
    rw [hrow, Option.map_some]
    dsimp only
    rw [if_neg (not_not.mpr hintent)]
    refine bind_eq_ok.mpr ⟨(), rfl, ?_⟩
    rw [ok_bind hfound, ok_bind (liftProtocol_eq_ok.mpr hr)]
    rfl

/-- A look that finds nothing, with reads that succeed, means that the key is free. -/
theorem replayAs_eq_none :
    replayAs parse read .fine db key intent = .ok none ↔
      ∀ row ∈ db.idempotency, row.idempotencyKey ≠ key := by
  unfold replayAs Database.idempotencyOf
  cases hrow : db.idempotency.find? (·.idempotencyKey == key) with
  | none =>
    refine iff_of_true rfl fun row hmem heq => ?_
    exact List.find?_eq_none.mp hrow row hmem (beq_iff_eq.mpr heq)
  | some row =>
    refine iff_of_false (fun h => ?_) fun h => ?_
    · obtain ⟨-, -, h⟩ := bind_eq_ok.mp h
      obtain ⟨-, h⟩ := ite_error_eq_ok.mp h
      obtain ⟨-, -, h⟩ := bind_eq_ok.mp h
      obtain ⟨found, -, h⟩ := bind_eq_ok.mp h
      obtain ⟨r, -, h⟩ := bind_eq_ok.mp h
      cases h
    · have hkey := List.find?_some hrow
      exact h row (List.mem_of_find?_eq_some hrow) (beq_iff_eq.mp hkey)

/-- A read that fails is reported as the database's own error. -/
theorem mapError_ne_ok {outcome : Except String Unit} (h : outcome ≠ .ok ()) :
    ∃ message, outcome.mapError RuntimeError.sqlite = .error (.sqlite message) := by
  cases outcome with
  | error message => exact ⟨message, rfl⟩
  | ok _ => exact absurd rfl h

/-- A look that succeeds would have succeeded if every image could be read. -/
theorem replayAs_found {reads : Publication.KeyReads} {answer : Option (R × Sha256)}
    (h : replayAs parse read reads db key intent = .ok answer) :
    replayAs parse read .fine db key intent = .ok answer := by
  unfold replayAs at h ⊢
  obtain ⟨-, -, h⟩ := bind_eq_ok.mp h
  refine bind_eq_ok.mpr ⟨(), rfl, ?_⟩
  cases hrow : db.idempotencyOf key with
  | none =>
    rw [hrow] at h
    exact h
  | some row =>
    rw [hrow] at h
    obtain ⟨hintent, h⟩ := ite_error_eq_ok.mp h
    obtain ⟨-, -, h⟩ := bind_eq_ok.mp h
    exact ite_error_eq_ok.mpr ⟨hintent, bind_eq_ok.mpr ⟨(), rfl, h⟩⟩

/-- A look whose reads succeed returns what the image has. -/
theorem replayAs_read {reads : Publication.KeyReads} {answer : Option (R × Sha256)}
    (hkey : reads.key = .ok ()) (hstate : answer.isSome = true → reads.state = .ok ())
    (h : replayAs parse read .fine db key intent = .ok answer) :
    replayAs parse read reads db key intent = .ok answer := by
  unfold replayAs at h ⊢
  obtain ⟨-, -, h⟩ := bind_eq_ok.mp h
  refine bind_eq_ok.mpr ⟨(), by rw [hkey]; rfl, ?_⟩
  cases hrow : db.idempotencyOf key with
  | none =>
    rw [hrow] at h
    exact h
  | some row =>
    rw [hrow] at h
    obtain ⟨hintent, h⟩ := ite_error_eq_ok.mp h
    obtain ⟨-, -, h⟩ := bind_eq_ok.mp h
    have hsome : answer.isSome = true := by
      obtain ⟨state, -, hrest⟩ := bind_eq_ok.mp h
      obtain ⟨result, -, hrest⟩ := bind_eq_ok.mp hrest
      cases hrest
      rfl
    exact ite_error_eq_ok.mpr ⟨hintent, bind_eq_ok.mpr ⟨(), by rw [hstate hsome]; rfl, h⟩⟩

/-- A look returns the failure of its first read. -/
theorem replayAs_unread_key {reads : Publication.KeyReads} (hkey : reads.key ≠ .ok ()) :
    ∃ message, replayAs parse read reads db key intent = .error (.sqlite message) := by
  obtain ⟨message, hmessage⟩ := mapError_ne_ok hkey
  refine ⟨message, ?_⟩
  unfold replayAs
  rw [hmessage]
  rfl

/-- A look that finds its key returns the failure of its second read. -/
theorem replayAs_unread_state {reads : Publication.KeyReads} {found : R × Sha256}
    (hkey : reads.key = .ok ()) (hstate : reads.state ≠ .ok ())
    (h : replayAs parse read .fine db key intent = .ok (some found)) :
    ∃ message, replayAs parse read reads db key intent = .error (.sqlite message) := by
  obtain ⟨message, hmessage⟩ := mapError_ne_ok hstate
  refine ⟨message, ?_⟩
  obtain ⟨row, commit, hrow, hintent, -⟩ := replayAs_eq_some.mp h
  unfold replayAs Database.idempotencyOf
  rw [hkey, hrow, hmessage, Option.map_some]
  change (if row.intentSha256 ≠ intent then _ else _) = _
  rw [if_neg (not_not.mpr hintent)]
  rfl

end Lookup

namespace Call

variable {parse : Bytes → Except ProtocolError CanonicalValue} {digest : Digest}
  {policy : TransactionRetryPolicy} {ι : Type} {calls : ι → Call}

/-- What the loop of a call has built on a pin. -/
theorem publisher_builds {call : Call} {p next : PinnedHead} {result : CallResult}
    {state : Sha256} (hp : p.Sound)
    (h : (call.publisher parse digest policy).Builds p (.ok (next, result, state))) :
    ∃ candidate : Candidate CallResult,
      Records digest p.table call.key (call.logicalHash digest) result.toValue candidate ∧
      StoredResult result.toValue ∧ Readable result.toValue ∧
      call.read result.toValue = .ok result ∧ next.db = candidate.next.db ∧
      next.commit = candidate.commit ∧ state = candidate.commit.semanticStateSha256 ∧
      p.Continues digest next ∧ next.Sound := by
  obtain ⟨drawn, work, h⟩ := h
  obtain ⟨candidate, hrecords, hstored, hreadable, hread, hconsistent, hfinish⟩ :=
    build_eq_ok hp h.symm
  obtain ⟨hdb, hcommit, rfl, hstate, -, hcontinues⟩ := finishCandidate_eq_ok hp hrecords hfinish
  exact ⟨candidate, hrecords, hstored, hreadable, hread, hdb, hcommit, hstate, hcontinues,
    hrecords.sound hp hconsistent hfinish⟩

/-- Publication may rely on what calls build. -/
theorem lawful (hparse : JsonParser parse) :
    Publication.Lawful PinnedHead.head (fun i => (calls i).publisher parse digest policy)
      PinnedHead.Sound where
  found hreplay := replayAs_found hreplay
  read hread hfound := by
    obtain ⟨hkey, hstate⟩ := not_or.mp hread
    refine replayAs_read (not_not.mp hkey) (fun hsome => ?_) hfound
    obtain ⟨result, rfl⟩ := Option.isSome_iff_exists.mp hsome
    exact not_not.mp fun hne => hstate ⟨⟨result, hfound⟩, hne⟩
  unread {i reads v} hunread := by
    by_cases hkey : reads.key = .ok ()
    · obtain ⟨⟨result, hfound⟩, hstate⟩ := hunread.resolve_left (not_not.mpr hkey)
      exact replayAs_unread_state hkey hstate hfound
    · exact replayAs_unread_key hkey
  valid hp _ hbuilds := by
    obtain ⟨candidate, -, -, -, -, -, -, -, -, hsound⟩ := publisher_builds hp hbuilds
    exact hsound
  tableId hp hbuilds := by
    obtain ⟨candidate, -, -, -, -, -, -, -, hcontinues, -⟩ := publisher_builds hp hbuilds
    exact hcontinues.tableId
  revision hp hbuilds := by
    obtain ⟨candidate, -, -, -, -, -, -, -, hcontinues, -⟩ := publisher_builds hp hbuilds
    exact hcontinues.rootRevision
  records := by
    rintro i p next ⟨result, state⟩ hp - hbuilds
    obtain ⟨candidate, hrecords, -, hreadable, hread, hdb, -, hstate, -, -⟩ :=
      publisher_builds hp hbuilds
    obtain ⟨row, hcommits, hversion, hid, hrow⟩ := hrecords.commits
    refine replayAs_eq_some.mpr ⟨⟨(calls i).key, (calls i).logicalHash digest,
      candidate.commit.commitId, p.db.tableMeta.tableVersion + 1, result.toValue⟩, row, ?_, rfl, ?_,
      hrow.trans hstate.symm, fromSliceCanonical_stored hparse hreadable hread⟩
    · have hnone : p.table.db.idempotency.find? (·.idempotencyKey == (calls i).key) = none :=
        List.find?_eq_none.mpr fun row hmem heq =>
          hrecords.key_fresh row hmem (beq_iff_eq.mp heq)
      rw [hdb, hrecords.idempotency, List.find?_append, hnone, Option.none_or,
        List.find?_singleton, beq_self_eq_true, if_pos rfl]
      rfl
    · have hnone : p.table.db.commits.find? (fun c => c.commitId == candidate.commit.commitId &&
          c.tableVersion == p.db.tableMeta.tableVersion + 1) = none :=
        List.find?_eq_none.mpr fun c hmem heq =>
          hrecords.id_fresh c hmem (beq_iff_eq.mp (Bool.and_eq_true _ _ ▸ heq).1)
      rw [hdb, hcommits, List.find?_append, hnone, Option.none_or, List.find?_singleton, hid,
        hversion]
      change (if (candidate.commit.commitId == candidate.commit.commitId &&
        p.db.tableMeta.tableVersion + 1 == p.db.tableMeta.tableVersion + 1) then _ else _) = _
      rw [beq_self_eq_true, beq_self_eq_true, Bool.and_self, if_pos rfl]
  keeps := by
    rintro i j p next ⟨result, state⟩ ⟨found, foundState⟩ hp - hbuilds hreplay
    obtain ⟨candidate, hrecords, -, -, -, hdb, -, -, -, -⟩ := publisher_builds hp hbuilds
    obtain ⟨row, commit, hrow, hintent, hcommit, hstate, hr⟩ := replayAs_eq_some.mp hreplay
    obtain ⟨newest, hcommits, -⟩ := hrecords.commits
    refine replayAs_eq_some.mpr ⟨row, commit, ?_, hintent, ?_, hstate, hr⟩
    · rw [hdb, hrecords.idempotency, List.find?_append]
      change (p.db.idempotency.find? _).or _ = _
      rw [hrow, Option.some_or]
    · rw [hdb, hcommits, List.find?_append]
      change (p.db.commits.find? _).or _ = _
      rw [hcommit, Option.some_or]

end Call

namespace PinnedHead

/-- The key row of a commit: the intent and the result that the commit itself lists. -/
structure KeyRow (p : PinnedHead) (row : IdempotencyRow) : Prop where
  intent : ∃ ids, p.commit.intents =
    [⟨row.idempotencyKey, row.intentSha256, ids, row.result⟩]
  stored : StoredResult row.result
  commitId : row.commitId = p.commit.commitId
  tableVersion : row.tableVersion = p.commit.tableVersion

/-- The row of a commit, which agrees with the commit object. -/
structure OwnRow (p : PinnedHead) (row : CommitRow) : Prop where
  commitId : row.commitId = p.commit.commitId
  tableVersion : row.tableVersion = p.commit.tableVersion
  semanticState : row.semanticStateSha256 = p.commit.semanticStateSha256

/-- The head of a new table, at version zero with nothing but genesis in its image. -/
structure Initial (p : PinnedHead) : Prop where
  sound : p.Sound
  tableVersion : p.head.tableVersion = 0
  rootRevision : p.head.rootRevision = 0
  idempotency : ∃ row, p.db.idempotency = [row] ∧ p.KeyRow row
  commits : ∃ row, p.db.commits = [row] ∧ p.OwnRow row

end PinnedHead

/-- Initialization builds the head of a new table. -/
theorem initializeHead_initial {digest : Digest} {request : InitializeRequest}
    {tableId commitId : Id} {createdAtMs : ℤ} {work : ImageWork} {maximumReconciliations : ℕ}
    {p : PinnedHead} (h : initializeHead digest request tableId commitId createdAtMs work
      maximumReconciliations = .ok p) : p.Initial := by
  rw [initializeHead] at h
  obtain ⟨-, h⟩ := check_eq_ok.mp h
  obtain ⟨-, h⟩ := ite_error_eq_ok.mp h
  obtain ⟨logical, -, h⟩ := bind_eq_ok.mp h
  obtain ⟨body, -, h⟩ := bind_eq_ok.mp h
  obtain ⟨commitBytes, -, h⟩ := bind_eq_ok.mp h
  obtain ⟨db, hdb, h⟩ := bind_eq_ok.mp h
  obtain ⟨image, -, h⟩ := bind_eq_ok.mp h
  obtain ⟨generationBytes, -, h⟩ := bind_eq_ok.mp h
  obtain ⟨headBytes, -, h⟩ := bind_eq_ok.mp h
  cases h
  have hconsistent := Database.mutateGenesis_consistent hdb
  rw [mutateGenesis] at hdb
  obtain ⟨schemas, -, hdb⟩ := bind_eq_ok.mp hdb
  obtain rfl := Except.ok.inj hdb
  exact ⟨⟨hconsistent, rfl, rfl, rfl⟩, rfl, rfl, ⟨_, rfl, ⟨_, rfl⟩, .genesis, rfl, rfl⟩,
    ⟨_, rfl, rfl, rfl, rfl⟩⟩

namespace Publication

variable {parse : Bytes → Except ProtocolError CanonicalValue} {digest : Digest}
  {policy : TransactionRetryPolicy} {ι : Type} {calls : ι → Call} {genesis : PinnedHead}
  {values : List (Entry ι PinnedHead)}

/-- The rows of an image are those of the commits of a chain, the latest first. -/
structure Ledger (values : List (Entry ι PinnedHead)) (db : Database) : Prop where
  idempotency : List.Forall₂ (fun e row => e.table.KeyRow row) values db.idempotency.reverse
  commits : List.Forall₂ (fun e row => e.table.OwnRow row) values db.commits.reverse

/-- The image of the latest head has the rows of the whole chain. -/
theorem Chain.ledger (hparse : JsonParser parse) (hgenesis : genesis.Initial)
    (h : Chain (fun i => (calls i).publisher parse digest policy) genesis values)
    {current : Entry ι PinnedHead} (hcurrent : values.head? = some current) :
    Ledger values current.table.db := by
  induction h generalizing current with
  | genesis =>
    obtain rfl := Option.some.inj hcurrent
    obtain ⟨row, hrows, hrow⟩ := hgenesis.idempotency
    obtain ⟨commit, hcommits, hcommit⟩ := hgenesis.commits
    refine ⟨?_, ?_⟩
    · rw [hrows]
      exact .cons hrow .nil
    · rw [hcommits]
      exact .cons hcommit .nil
  | @publish e rest i v r hchain hreplay hbuilds ih =>
    obtain rfl := Option.some.inj hcurrent
    obtain ⟨hkeys, hcommits⟩ := ih rfl
    have he := hchain.valid (Call.lawful hparse) hgenesis.sound e List.mem_cons_self
    obtain ⟨result, state⟩ := r
    obtain ⟨candidate, hrecords, hstored, -, -, hdb, hcommit, -, -, -⟩ :=
      Call.publisher_builds he hbuilds
    obtain ⟨ids, requirements, operations, metadata, drawn, hbuilt⟩ := hrecords.commit
    have hversion : v.commit.tableVersion = e.table.db.tableMeta.tableVersion + 1 := by
      rw [hcommit, hbuilt]
      rfl
    refine ⟨?_, ?_⟩
    · rw [hdb, hrecords.idempotency, List.reverse_append]
      refine .cons ⟨⟨ids, ?_⟩, hstored, ?_, hversion.symm⟩ hkeys
      · rw [hcommit, hbuilt]
        rfl
      · rw [hcommit]
    · obtain ⟨row, hrows, hrowVersion, hrowId, hrowState⟩ := hrecords.commits
      rw [hdb, hrows, List.reverse_append]
      refine .cons ⟨?_, ?_, ?_⟩ hcommits
      · rw [hcommit, hrowId]
      · rw [hversion, hrowVersion]
        rfl
      · rw [hcommit, hrowState]

/-- The heads of a chain continue each other. -/
theorem Chain.continues (hparse : JsonParser parse) (hgenesis : genesis.Initial)
    (h : Chain (fun i => (calls i).publisher parse digest policy) genesis values) :
    values.IsChain fun e e' => e'.table.Continues digest e.table := by
  induction h with
  | genesis => exact .singleton _
  | @publish e rest i v r hchain hreplay hbuilds ih =>
    have he := hchain.valid (Call.lawful hparse) hgenesis.sound e List.mem_cons_self
    obtain ⟨result, state⟩ := r
    obtain ⟨candidate, -, -, -, -, -, -, -, hcontinues, -⟩ := Call.publisher_builds he hbuilds
    exact .cons_cons hcontinues ih

/-- A chain ends at genesis, however many tables were written on top of it. -/
theorem Chain.getLast? {V R : Type} {publishers : ι → Publisher V R} {root : V}
    {values : List (Entry ι V)} (h : Chain publishers root values) :
    values.getLast? = some ⟨root, none⟩ := by
  induction h with
  | genesis => rfl
  | publish _ _ _ ih => rw [List.getLast?_cons_cons, ih]

/-- The keys of an image are those of the commits of a chain. -/
theorem Ledger.keys {db : Database} (h : Ledger values db) :
    (values.flatMap fun e => e.table.commit.intents.map IntentRecord.key) =
      db.idempotency.reverse.map IdempotencyRow.idempotencyKey := by
  obtain ⟨hrows, -⟩ := h
  generalize db.idempotency.reverse = rows at hrows
  induction hrows with
  | nil => rfl
  | @cons e row values rows hrow _ ih =>
    obtain ⟨ids, hids⟩ := hrow.intent
    rw [List.flatMap_cons, hids, ih, List.map_cons]
    rfl

/-- No key occurs twice in a chain. -/
theorem Ledger.nodup {db : Database} (h : Ledger values db) (hdb : db.Consistent) :
    (values.flatMap fun e => e.table.commit.intents.map IntentRecord.key).Nodup := by
  rw [h.keys, List.map_reverse, List.nodup_reverse]
  exact hdb.commits.keys

/-- A commit of a chain carries a key, an intent and a result. -/
def Carries (e : Entry ι PinnedHead) (key : String) (intent : Sha256) (result : CanonicalValue) :
    Prop :=
  ∃ ids, e.table.commit.intents = [⟨key, intent, ids, result⟩]

/-- Two commits of a chain do not carry the same key. -/
theorem eq_of_key {e e' : Entry ι PinnedHead}
    (hnodup : (values.flatMap fun e => e.table.commit.intents.map IntentRecord.key).Nodup)
    (he : e ∈ values) (he' : e' ∈ values) {key : String}
    (hkey : key ∈ e.table.commit.intents.map IntentRecord.key)
    (hkey' : key ∈ e'.table.commit.intents.map IntentRecord.key) : e = e' := by
  by_contra hne
  have hdisjoint := (List.nodup_flatMap.mp hnodup).2
  have : Std.Symm (Function.onFun List.Disjoint fun e : Entry ι PinnedHead =>
      e.table.commit.intents.map IntentRecord.key) := ⟨fun _ _ h => h.symm⟩
  exact hdisjoint.forall he he' hne hkey hkey'

/-- What a look at the latest head finds is stored with a commit of the chain. -/
theorem Ledger.carries {db : Database} (h : Ledger values db) (hdb : db.Consistent) {call : Call}
    {result : CallResult} {state : Sha256}
    (hreplay : replayAs parse call.read .fine db call.key (call.logicalHash digest) =
      .ok (some (result, state))) :
    ∃ e ∈ values, Carries e call.key (call.logicalHash digest) result.toValue ∧
      state = e.table.commit.semanticStateSha256 := by
  obtain ⟨row, commit, hrow, hintent, hcommit, hstate, hread⟩ := replayAs_eq_some.mp hreplay
  have hkey := beq_iff_eq.mp (List.find?_some hrow :)
  obtain ⟨e, he, hkeyRow⟩ := exists_of_forall₂ h.idempotency.flip
    (List.mem_reverse.mpr (List.mem_of_find?_eq_some hrow))
  obtain ⟨own, hown, hownRow⟩ := exists_of_forall₂ h.commits he
  obtain ⟨ids, hids⟩ := hkeyRow.intent
  refine ⟨e, he, ⟨ids, ?_⟩, ?_⟩
  · obtain ⟨value, hvalue, hread⟩ := bind_eq_ok.mp hread
    obtain ⟨-, hbytes⟩ := parseCanonical_eq_ok.mp hvalue
    obtain rfl := CanonicalValue.bytes_injective hbytes
    rw [hids, hkey, hintent, Call.read_stored hkeyRow.stored hread]
  · have hversions := hdb.commits.versions
    have hnodup : (db.commits.map CommitRow.tableVersion).Nodup := by
      rw [hversions]
      exact List.nodup_range
    have hmatch := List.find?_some hcommit
    rw [Bool.and_eq_true, beq_iff_eq, beq_iff_eq] at hmatch
    have hversion : commit.tableVersion = own.tableVersion := by
      rw [hmatch.2, hkeyRow.tableVersion, hownRow.tableVersion]
    have heq := List.inj_on_of_nodup_map hnodup (List.mem_of_find?_eq_some hcommit)
      (List.mem_reverse.mp hown) hversion
    rw [← hstate, heq, hownRow.semanticState]

/-- The publishers of calls, all of them with one policy. -/
abbrev publishersOf (parse : Bytes → Except ProtocolError CanonicalValue) (digest : Digest)
    (policy : TransactionRetryPolicy) (calls : ι → Call) :
    ι → Publisher PinnedHead (CallResult × Sha256) :=
  fun i => (calls i).publisher parse digest policy

/-- **Publication is linear and happens exactly once.** In every run of calls on a new table the
published heads are one chain from genesis in which each continues the one before and no key is
carried twice. A call that returns a result finds it stored, with its state hash, in the one commit
that carries the call's key, and that commit carries the hash of the call's intent. When all steps
were clear for a call, no head of the call is published after any other failure than an
indeterminate one, then or later; a step that is not clear for a call can be followed by clear ones
to a world in which this fails. -/
theorem exactly_once {T : Type} [DecidableEq ι] (hparse : JsonParser parse)
    (policy : TransactionRetryPolicy) (calls : ι → Call) {token : Bytes → T}
    {request : InitializeRequest} {tableId commitId : Id} {createdAtMs : ℤ} {work : ImageWork}
    {maximumReconciliations : ℕ} {genesis : PinnedHead}
    (hgenesis : initializeHead digest request tableId commitId createdAtMs work
      maximumReconciliations = .ok genesis)
    {w : World ι T PinnedHead (CallResult × Sha256)}
    (hrun : Run PinnedHead.head token (publishersOf parse digest policy calls) Anything genesis w)
    (hinj : Set.InjOn token (headBytes PinnedHead.head w.register.values)) :
    (w.register.values.IsChain fun e e' => e'.table.Continues digest e.table) ∧
    w.register.values.getLast? = some ⟨genesis, none⟩ ∧
    (w.register.values.flatMap fun e => e.table.commit.intents.map IntentRecord.key).Nodup ∧
    (∀ i result state, w.phase i = .returned (.ok (result, state)) →
      ∃ e ∈ w.register.values,
        Carries e (calls i).key ((calls i).logicalHash digest) result.toValue ∧
        state = e.table.commit.semanticStateSha256 ∧
        ∀ e' ∈ w.register.values,
          (calls i).key ∈ e'.table.commit.intents.map IntentRecord.key → e' = e) ∧
    ∀ i,
      (Run PinnedHead.head token (publishersOf parse digest policy calls)
          (Clear PinnedHead.head token (publishersOf parse digest policy calls) i) genesis w →
        ∀ error, w.phase i = .returned (.error error) → error ≠ .publicationIndeterminate →
          ∀ w', Later PinnedHead.head token (publishersOf parse digest policy calls) Anything
              w w' →
            Set.InjOn token (headBytes PinnedHead.head w'.register.values) →
            ∀ e ∈ w'.register.values, e.author ≠ some i) ∧
      ∀ event w', Step PinnedHead.head token (publishersOf parse digest policy calls) w event w' →
        ¬ Clear PinnedHead.head token (publishersOf parse digest policy calls) i w event →
        ∃ later, Later PinnedHead.head token (publishersOf parse digest policy calls)
            (Clear PinnedHead.head token (publishersOf parse digest policy calls) i) w' later ∧
          Misreported later i := by
  have hinitial := initializeHead_initial hgenesis
  have hlaws := @Call.lawful parse digest policy ι calls hparse
  have hsound := hrun.sound hlaws hinitial.sound hinj
  have hchain := hsound.chain
  have hkeys : ∀ current, w.register.values.head? = some current →
      Ledger w.register.values current.table.db ∧ current.table.db.Consistent :=
    fun current hcurrent => ⟨hchain.ledger hparse hinitial hcurrent,
      (hchain.valid hlaws hinitial.sound current (List.mem_of_mem_head? hcurrent)).consistent⟩
  have hnodup : (w.register.values.flatMap fun e =>
      e.table.commit.intents.map IntentRecord.key).Nodup := by
    cases hcurrent : w.register.values.head? with
    | none =>
      rw [List.head?_eq_none_iff.mp hcurrent]
      exact List.nodup_nil
    | some current =>
      obtain ⟨hledger, hdb⟩ := hkeys current hcurrent
      exact hledger.nodup hdb
  refine ⟨hchain.continues hparse hinitial, hchain.getLast?, hnodup,
    fun i result state hphase => ?_,
    fun i => ⟨fun hclear error hphase hne w' hlater hinj' e he hauthor => ?_,
      fun event w' hstep hunclear => ?_⟩⟩
  · have hcall := hsound.calls i
    rw [hphase] at hcall
    obtain ⟨current, hcurrent, hreplay⟩ := hcall
    obtain ⟨hledger, hdb⟩ := hkeys current hcurrent
    obtain ⟨e, he, hcarries, hstate⟩ := hledger.carries hdb hreplay
    refine ⟨e, he, hcarries, hstate, fun e' he' hkey => ?_⟩
    obtain ⟨ids, hids⟩ := hcarries
    exact eq_of_key hnodup he' he hkey (by rw [hids]; exact List.mem_singleton.mpr rfl)
  · obtain ⟨hrun', hphase'⟩ := hclear.extend hphase hlater
    have hsettled := hrun'.settled hlaws hinitial.sound hinj'
    exact hsettled.not_misreported ⟨⟨error, hphase', hne⟩, e, he, hauthor⟩
  · exact hstep.misreported hlaws hinitial.sound hsound hinj hunclear

section Samples

/-- The call of the sample append, with its staged file. -/
private def onceCall : Call :=
  .append sampleAppend [⟨sampleId 1, 0, sampleId 3, "data/a.parquet", sampleDigest [4], 10, none⟩]
    (sampleId 1) (some (.branch, none)) 0
    (by
      intro file hfile
      obtain rfl := List.mem_singleton.mp hfile
      exact ⟨sampleId_v7 3, by decide +kernel⟩)
    (by decide +kernel)

/-- An image that is laid out in one checkpoint. -/
private def onceWork : ImageWork where
  generationId := sampleId 7
  checked := .ok ()
  stored := .ok ⟨"otmp.metadata.sqlite3-cow.v1", 4096, 1,
    ⟨0, "_otmp/checkpoints/0/a.sqlite3", sampleDigest [8], 4096⟩, none, none, sampleDigest [9]⟩
  projected := .ok ()

/-- A new table and the candidate of the call on it. -/
private def onceRun : Except RuntimeError (PinnedHead × PinnedHead × CallResult × Sha256) := do
  let genesis ← initializeHead sampleDigest ⟨sampleGenesis.schema, ∅⟩ (sampleId 1) (sampleId 2) 0
    onceWork 3
  let built ← onceCall.build sampleDigest (sampleDrawn 4 5 1) onceWork genesis
  return (genesis, built)

/-- The publisher of the call, with room for eight rebases and three reconciliations. -/
private def oncePublisher : Publisher PinnedHead (CallResult × Sha256) :=
  onceCall.publisher textParser sampleDigest ⟨8, 3⟩

/-- The world in which a call writes its first candidate. -/
private def onceWriting (genesis next : PinnedHead) (result : CallResult × Sha256) :
    World Unit Bytes PinnedHead (CallResult × Sha256) :=
  ⟨⟨[⟨genesis, none⟩], []⟩, fun _ =>
    .writing ⟨⟨genesis.head.tableId, genesis, 0⟩, next, result, 0⟩⟩

/-- There is one call, so its phase is all there is. -/
private theorem update_once {A : Type} (f : Unit → A) (a : A) :
    Function.update f () a = fun _ => a := by
  funext i
  exact Function.update_self i a f

/-- The call comes to its first write on a table that has been initialized. -/
private theorem exists_onceRun : ∃ genesis next result,
    initializeHead sampleDigest ⟨sampleGenesis.schema, ∅⟩ (sampleId 1) (sampleId 2) 0 onceWork 3 =
      .ok genesis ∧
    oncePublisher.found next = .ok (some result) ∧
    next.head.tableId = genesis.head.tableId ∧
    Run PinnedHead.head id (fun _ => oncePublisher) Anything genesis
      (onceWriting genesis next result) := by
  have hok : onceRun.isOk = true := by decide +kernel
  cases hrun : onceRun with
  | error e =>
    rw [hrun] at hok
    cases hok
  | ok pair =>
    obtain ⟨genesis, next, result, state⟩ := pair
    rw [onceRun] at hrun
    obtain ⟨root, hgenesis, hrun⟩ := bind_eq_ok.mp hrun
    obtain ⟨built, hbuilt, hrun⟩ := bind_eq_ok.mp hrun
    cases hrun
    have hinitial := initializeHead_initial hgenesis
    have hlaws := @Call.lawful textParser sampleDigest ⟨8, 3⟩ Unit (fun _ => onceCall)
      textParser_jsonParser
    have hbuilds : oncePublisher.Builds genesis (.ok (next, result, state)) :=
      ⟨_, _, hbuilt.symm⟩
    obtain ⟨candidate, hrecords, -⟩ := Call.publisher_builds hinitial.sound hbuilds
    have hreplay : oncePublisher.replay .fine genesis = .ok none :=
      replayAs_eq_none.mpr hrecords.key_fresh
    have hattempt : oncePublisher.attempt PinnedHead.head ⟨genesis.head.tableId, genesis, 0⟩ .fine
        (.ok (next, result, state)) (.ok ()) =
          .writing ⟨⟨genesis.head.tableId, genesis, 0⟩, next, (result, state), 0⟩ := by
      rw [Publisher.attempt, if_neg (not_not.mpr rfl), hreplay]
    have hbegin := @Run.step _ _ _ _ _ PinnedHead.head id (fun _ => oncePublisher) Anything genesis
      _ _ _ .start trivial (@Step.begin _ _ _ _ _ _ _ _ _ () genesis rfl
        (.found (e := ⟨genesis, none⟩) rfl))
    have hwrite := @Run.step _ _ _ _ _ _ _ _ _ _ _ _ _ hbegin trivial
      (@Step.attempt _ _ _ _ _ _ _ _ _ () ⟨genesis.head.tableId, genesis, 0⟩ .fine _ (.ok ()) rfl
        fun _ => hbuilds)
    rw [hattempt, update_once] at hwrite
    exact ⟨genesis, next, (result, state), hgenesis,
      @Lawful.records _ _ _ _ _ _ hlaws () _ _ _ hinitial.sound hreplay hbuilds,
      @Lawful.tableId _ _ _ _ _ _ hlaws () _ _ _ hinitial.sound hbuilds, hwrite⟩

/-- The world after the write of the call was applied and its answer was lost. -/
private def onceLost (genesis next : PinnedHead) (result : CallResult × Sha256) :
    World Unit Bytes PinnedHead (CallResult × Sha256) :=
  ⟨⟨[⟨next, some ()⟩, ⟨genesis, none⟩], []⟩, fun _ =>
    .reconciling ⟨⟨genesis.head.tableId, genesis, 0⟩, next, result, 1⟩⟩

/-- The answer to the write is lost. -/
private theorem onceLost_run {genesis next : PinnedHead} {result : CallResult × Sha256}
    (h : Run PinnedHead.head id (fun _ => oncePublisher) Anything genesis
      (onceWriting genesis next result)) :
    Run PinnedHead.head id (fun _ => oncePublisher) Anything genesis
      (onceLost genesis next result) := by
  have hlost := @Run.step _ _ _ _ _ _ _ _ _ _ _ _ _ h trivial
    (@Step.replace _ _ _ _ _ _ _ _ _ () _ _ _ rfl (.lostAfter rfl))
  rw [update_once] at hlost
  exact hlost

/-- The answer to an append is lost; the call finds its key and returns what is stored. -/
theorem exactly_once_append : ∃ w : World Unit Bytes PinnedHead (CallResult × Sha256),
    w.register.values.length = 2 ∧ ∃ result state, w.phase () = .returned (.ok (result, state)) ∧
      ∃ e ∈ w.register.values, Carries e "first" (onceCall.logicalHash sampleDigest)
        result.toValue ∧ state = e.table.commit.semanticStateSha256 := by
  obtain ⟨genesis, next, ⟨result, state⟩, hgenesis, hfound, htable, hrun⟩ := exists_onceRun
  have hlook : oncePublisher.reconcile PinnedHead.head
      ⟨⟨genesis.head.tableId, genesis, 0⟩, next, (result, state), 1⟩ .fine (.ok next) =
        .returned (.ok (result, state)) := by
    rw [Publisher.found] at hfound
    rw [Publisher.reconcile, if_neg (not_not.mpr htable), hfound]
  have hdone := @Run.step _ _ _ _ _ _ _ _ _ _ _ _ _ (onceLost_run hrun) trivial
    (@Step.reconcile _ _ _ _ _ _ _ _ _ () _ .fine _ rfl (.found (e := ⟨next, some ()⟩) rfl))
  rw [hlook, update_once] at hdone
  obtain ⟨-, -, -, hreturned, -⟩ := exactly_once textParser_jsonParser ⟨8, 3⟩
    (fun _ : Unit => onceCall) hgenesis hdone (Set.injOn_id _)
  obtain ⟨e, he, hcarries, hstate, -⟩ := hreturned () result state rfl
  exact ⟨_, rfl, result, state, rfl, e, he, hcarries, hstate⟩

/-- The answer to an append is lost and the image of the next pin cannot be opened: the call returns
that error as it is, and its head is published. -/
theorem not_exactly_once_unread :
    ∃ (genesis : PinnedHead) (w : World Unit Bytes PinnedHead (CallResult × Sha256)),
      initializeHead sampleDigest ⟨sampleGenesis.schema, ∅⟩ (sampleId 1) (sampleId 2) 0 onceWork
        3 = .ok genesis ∧
      Run PinnedHead.head id (fun _ => onceCall.publisher textParser sampleDigest ⟨8, 3⟩) Anything
        genesis w ∧
      Set.InjOn id (headBytes PinnedHead.head w.register.values) ∧
      ∃ error, w.phase () = .returned (.error error) ∧ error ≠ .publicationIndeterminate ∧
        ∃ e ∈ w.register.values, e.author = some () := by
  obtain ⟨genesis, next, result, hgenesis, -, htable, hrun⟩ := exists_onceRun
  let reads : KeyReads := ⟨.error "unable to open database file", .ok ()⟩
  have hlook : oncePublisher.reconcile PinnedHead.head
      ⟨⟨genesis.head.tableId, genesis, 0⟩, next, result, 1⟩ reads (.ok next) =
        .returned (.error (.sqlite "unable to open database file")) := by
    rw [Publisher.reconcile, if_neg (not_not.mpr htable)]
    rfl
  have hdone := @Run.step _ _ _ _ _ _ _ _ _ _ _ _ _ (onceLost_run hrun) trivial
    (@Step.reconcile _ _ _ _ _ _ _ _ _ () _ reads _ rfl (.found (e := ⟨next, some ()⟩) rfl))
  rw [hlook, update_once] at hdone
  refine ⟨genesis, _, hgenesis, hdone, Set.injOn_id _, _, rfl, ?_, _, List.mem_cons_self, rfl⟩
  rintro ⟨⟩

end Samples

end Publication

end Otmp
