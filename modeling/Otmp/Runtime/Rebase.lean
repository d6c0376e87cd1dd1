import Otmp.Runtime.History

/-!
# Rebasing an append

An append is prepared on a base and may be committed on a later parent. The operations
of the commits in between are read from their summaries; when the check accepts them,
none of them moved the branch other than by an append and none changed the current
schema, so the new snapshot continues the history of the branch from its old tip.
-/

namespace Otmp

open Foundation CanonicalValue

/-- A history from one table to another, with its actions in order. -/
inductive Run (digest : Digest) (base : PinnedTable) : List Action → PinnedTable → Prop
  | nil : Run digest base [] base
  | snoc {actions : List Action} {action : Action} {table table' : PinnedTable} :
      Run digest base actions table → Step digest table action table' →
      Run digest base (actions ++ [action]) table'

/-- Whether an operation selects the current schema, which no append may be rebased over. -/
def OperationRequest.setsCurrentSchema : OperationRequest → Bool
  | .setCurrentSchema _ _ => true
  | _ => false

/-- An action that neither touches a branch other than by an append nor selects a schema. -/
def Action.Safe (name : String) : Action → Prop
  | .append _ _ => True
  | .transact request => ∀ operation ∈ request.operations,
      operation.ref? ≠ some name ∧ operation.setsCurrentSchema = false

/-- The snapshots that actions append to a branch, the latest first. -/
def appendedTo (name : String) (actions : List Action) : List Id :=
  (actions.filterMap fun
    | .append request drawn => if request.targetRef = name then some drawn.snapshotId else none
    | .transact _ => none).reverse

/-- An append adds its snapshot to the branch it targets, and to no other. -/
theorem appendedTo_append (name : String) (actions : List Action) (request : AppendRequest)
    (drawn : Drawn) : appendedTo name (actions ++ [.append request drawn]) =
      if request.targetRef = name then drawn.snapshotId :: appendedTo name actions
      else appendedTo name actions := by
  by_cases h : request.targetRef = name
  · simp [appendedTo, h]
  · simp [appendedTo, h]

/-- A transaction appends no snapshot to any branch. -/
theorem appendedTo_transact (name : String) (actions : List Action)
    (request : TransactionRequest) :
    appendedTo name (actions ++ [.transact request]) = appendedTo name actions := by
  simp [appendedTo]

/-- The summary of an operation shows the ref that it touches. -/
theorem touchesRef_toValue {name : String} {operation : OperationRequest}
    (h : operation.ref? = some name) : touchesRef name operation.toValue = true := by
  cases operation with
  | createRef operationId other refType snapshotId =>
    cases h
    simp [OperationRequest.toValue, touchesRef, get?]
  | replaceRef operationId other snapshotId =>
    cases h
    simp [OperationRequest.toValue, touchesRef, get?]
  | dropRef operationId other =>
    cases h
    simp [OperationRequest.toValue, touchesRef, get?]
  | setProperties operationId updates removals => cases h
  | addSchema operationId schema => cases h
  | setCurrentSchema operationId schemaId => cases h

/-- The summary of an operation shows that it selects a schema. -/
theorem changesSchema_toValue {operation : OperationRequest}
    (h : operation.setsCurrentSchema = true) : changesSchema operation.toValue = true := by
  cases operation with
  | setCurrentSchema operationId schemaId =>
    simp [OperationRequest.toValue, changesSchema, get?]
  | _ => cases h

/-- Checked operations neither touch the branch nor select a schema. -/
theorem checkOperations_eq_ok {name : String} {operations : List OperationRequest}
    (h : checkOperations name (operations.map OperationRequest.toValue) = .ok ()) :
    ∀ operation ∈ operations, operation.ref? ≠ some name ∧
      operation.setsCurrentSchema = false := by
  intro operation hmem
  rw [checkOperations, checkAll_eq_ok] at h
  have hcheck := h operation.toValue (List.mem_map_of_mem hmem)
  obtain ⟨htouches, hcheck⟩ := ite_error_eq_ok.mp hcheck
  obtain ⟨hchanges, -⟩ := ite_error_eq_ok.mp hcheck
  refine ⟨fun href => htouches (touchesRef_toValue href), ?_⟩
  rw [← Bool.not_eq_true]
  exact fun hset => hchanges (changesSchema_toValue hset)

/-- What an accepted rebase has checked: the base was a branch, and the operations of every commit
since then touch neither the branch nor the current schema. -/
theorem validateAppendRebase_eq_ok {parent : Database} {name : String}
    {original : Option (RefType × Option Id)} {version : ℕ}
    (h : validateAppendRebase parent name original version = .ok ()) :
    (∃ old, original = some (.branch, old)) ∧
      ∀ row ∈ parent.commits, version < row.tableVersion →
        (match row.operationSummary with
          | .array operations => checkOperations name operations
          | _ => .error (.protocol (.invalidJson "invalid type: expected a sequence"))) =
            .ok () := by
  rcases original with _ | ⟨_ | _, old⟩
  · cases h
  · rw [validateAppendRebase] at h
    obtain ⟨current, -, h⟩ := bind_eq_ok.mp h
    rcases current with _ | ⟨_ | _, tip⟩
    · cases h
    · obtain ⟨chain, -, h⟩ := bind_eq_ok.mp h
      obtain ⟨-, h⟩ := ite_error_eq_ok.mp h
      obtain ⟨-, h⟩ := ite_error_eq_ok.mp h
      rw [checkAll_eq_ok] at h
      refine ⟨⟨old, rfl⟩, fun row hrow hlt => h row (List.mem_filter.mpr ⟨hrow, ?_⟩)⟩
      exact decide_eq_true hlt
    · cases h
  · cases h

/-- A step records one commit; that of a transaction lists its operations. -/
theorem Step.commits {digest : Digest} {table table' : PinnedTable} {action : Action}
    (h : Step digest table action table') :
    table'.db.tableMeta.tableVersion = table.db.tableMeta.tableVersion + 1 ∧
      ∃ row, table'.db.commits = table.db.commits ++ [row] ∧
        row.tableVersion = table.db.tableMeta.tableVersion + 1 ∧
        ∀ request, action = .transact request →
          row.operationSummary = .array (request.operations.map OperationRequest.toValue) := by
  cases h with
  | append _ _ hrequest hbuild =>
    obtain ⟨first, summary, target, commitBytes, files, -, -, -, -, happendable, -, hnext⟩ :=
      buildCandidate_eq_ok hrequest hbuild
    rw [hnext]
    exact ⟨rfl, _, rfl, rfl, fun _ h => by cases h⟩
  | transact hbuild =>
    obtain ⟨db₁, results, commitBytes, -, hrun, -, -, -, hdb₁, -⟩ :=
      buildTransaction_recorded hbuild
    have hcommits : db₁.commits = table.db.commits := by
      refine runAll_invariant (P := fun d : Database => d.commits = table.db.commits)
        (fun _ hinv hstep => ?_) rfl hrun
      exact (Database.applyOperation_spec hstep).1.commits.trans hinv
    rw [hdb₁]
    refine ⟨rfl, _, congrArg (· ++ _) hcommits, rfl, fun request h => ?_⟩
    cases h
    rfl

/-- The commits of a run: one for every action, and those of transactions list their
operations. -/
theorem Run.commits {digest : Digest} {base table : PinnedTable} {actions : List Action}
    (h : Run digest base actions table) :
    table.db.tableMeta.tableVersion = base.db.tableMeta.tableVersion + actions.length ∧
      ∀ request, .transact request ∈ actions → ∃ row ∈ table.db.commits,
        base.db.tableMeta.tableVersion < row.tableVersion ∧
        row.operationSummary = .array (request.operations.map OperationRequest.toValue) := by
  induction h with
  | nil => exact ⟨rfl, nofun⟩
  | snoc _ hstep ih =>
    obtain ⟨hversion, hrows⟩ := ih
    obtain ⟨hnext, row, hcommits, hrow, hsummary⟩ := hstep.commits
    refine ⟨by rw [hnext, hversion, List.length_append]; rfl, fun request hmem => ?_⟩
    rw [hcommits]
    rcases List.mem_append.mp hmem with hmem | hmem
    · obtain ⟨old, hold, hlt, hold'⟩ := hrows request hmem
      exact ⟨old, List.mem_append_left _ hold, hlt, hold'⟩
    · refine ⟨row, List.mem_append_right _ List.mem_cons_self, by omega, hsummary request ?_⟩
      exact (List.mem_singleton.mp hmem).symm

/-- The actions since the base of an accepted rebase are safe. -/
theorem Run.safe {digest : Digest} {base parent : PinnedTable} {actions : List Action}
    (h : Run digest base actions parent) {name : String} {original : Option (RefType × Option Id)}
    (hrebase : validateAppendRebase parent.db name original base.db.tableMeta.tableVersion =
      .ok ()) : ∀ action ∈ actions, action.Safe name := by
  intro action hmem
  cases action with
  | append request drawn => trivial
  | transact request =>
    obtain ⟨row, hrow, hlt, hsummary⟩ := h.commits.2 request hmem
    obtain ⟨-, hchecks⟩ := validateAppendRebase_eq_ok hrebase
    have hcheck := hchecks row hrow hlt
    rw [hsummary] at hcheck
    exact checkOperations_eq_ok hcheck

namespace Database

variable {db db' : Database} {version : ℕ}

/-- Only a selection changes the current schema. -/
theorem applyOperation_tableMeta {operation : OperationRequest}
    (hset : operation.setsCurrentSchema = false)
    (h : db.applyOperation version operation = .ok db') : db'.tableMeta = db.tableMeta := by
  cases operation with
  | setProperties operationId updates removals =>
    rw [applyOperation] at h
    obtain ⟨db₁, h₁, h⟩ := bind_eq_ok.mp h
    cases h
    obtain ⟨properties, hprops⟩ := applyProperties_spec removals h₁
    rw [hprops]
  | createRef operationId name refType snapshotId =>
    rw [applyOperation] at h
    obtain ⟨db₁, h₁, h⟩ := bind_eq_ok.mp h
    obtain ⟨rfl, -, -⟩ := insertRef_spec h₁
    split at h
    · obtain ⟨chain, -, rfl⟩ := materializeBranch_spec h
      rfl
    · cases h
      rfl
  | replaceRef operationId name snapshotId =>
    rw [applyOperation] at h
    obtain ⟨db₁, h₁, h⟩ := bind_eq_ok.mp h
    obtain ⟨rfl, -⟩ := updateRefs_spec h₁
    obtain ⟨chain, -, rfl⟩ := materializeBranch_spec h
    rfl
  | dropRef operationId name =>
    rw [applyOperation] at h
    obtain rfl := deleteRef_spec h
    rfl
  | addSchema operationId schema =>
    rw [applyOperation] at h
    obtain ⟨schemas, -, h⟩ := bind_eq_ok.mp h
    cases h
    rfl
  | setCurrentSchema operationId schemaId => cases hset

end Database

/-- A branch whose ancestry is a given list, in a table with a given current schema. -/
def BranchAt (name : String) (chain : List Id) (schemaId : ℕ) (db : Database) : Prop :=
  db.tableMeta.currentSchemaId = schemaId ∧
    ∃ r ∈ db.refs, r.refName = name ∧ r.refType = .branch ∧ db.Ancestors r.snapshotId chain

/-- An append extends the ancestry of its branch by the new snapshot. -/
theorem BranchAt.appended {name : String} {chain : List Id} {schemaId : ℕ} {db : Database}
    {input : AppendImage} (hbranch : BranchAt name chain schemaId db) (hdb : db.Consistent)
    (h : db.Appendable input) (hinput : db.Continues input) :
    BranchAt name (if input.targetRef = name then input.snapshotId :: chain else chain) schemaId
      (db.appended input) := by
  obtain ⟨hschema, r, hr, hname, hkind, hchain⟩ := hbranch
  refine ⟨hschema, _, List.mem_map_of_mem hr, (Database.retarget_refName r).trans hname,
    (Database.retarget_refType r).trans hkind, ?_⟩
  have hselected : (r.refName == input.targetRef && r.refType == .branch) = true ↔
      input.targetRef = name := by
    rw [hname, hkind, Bool.and_eq_true, beq_iff_eq, eq_comm]
    exact and_iff_left rfl
  rw [Database.retarget]
  by_cases htarget : input.targetRef = name
  · rw [if_pos (hselected.mpr htarget), if_pos htarget]
    obtain ⟨r', hr', hname', -, htip⟩ := hinput.parent
    have heq := hdb.refs.ref_unique hr hr' (hname.trans (htarget.symm.trans hname'.symm))
    subst heq
    refine .cons ?_ (h.keeps.ancestors hchain)
    rw [Database.parentOf, h.findSnapshot_new, htip]
    rfl
  · rw [if_neg (fun he => htarget (hselected.mp he)), if_neg htarget]
    exact h.keeps.ancestors hchain

/-- A safe step extends the ancestry of a branch only by an append to it. -/
theorem Step.branchAt {digest : Digest} {table table' : PinnedTable} {action : Action}
    {actions : List Action} {name : String} {chain : List Id} {schemaId : ℕ}
    (h : Step digest table action table') (hdb : table.db.Consistent) (hsafe : action.Safe name)
    (hbranch : BranchAt name (appendedTo name actions ++ chain) schemaId table.db) :
    BranchAt name (appendedTo name (actions ++ [action]) ++ chain) schemaId table'.db := by
  cases h with
  | append _ _ hrequest hbuild =>
    obtain ⟨first, summary, target, commitBytes, files, -, -, -, -, happendable, hcontinues,
      hnext⟩ := buildCandidate_eq_ok hrequest hbuild
    have hnew := hbranch.appended hdb happendable hcontinues
    rw [hnext, appendedTo_append, apply_ite (· ++ chain)]
    exact hnew
  | @transact request _ _ candidate hbuild =>
    obtain ⟨hschema, r, hr, hname, hkind, hchain⟩ := hbranch
    obtain ⟨db₁, results, commitBytes, hprepare, hrun, -, -, -, hdb₁, -⟩ :=
      buildTransaction_recorded hbuild
    obtain ⟨touched, htouched, hmid⟩ := hdb.midway (Nat.le_succ _) hprepare hrun
    have hmeta : db₁.tableMeta = table.db.tableMeta := by
      refine runAll_invariant (P := fun d : Database => d.tableMeta = table.db.tableMeta)
        (fun hmem hinv hstep => ?_) rfl hrun
      exact (Database.applyOperation_tableMeta (hsafe _ hmem).2 hstep).trans hinv
    have huntouched : r.refName ∉ touched := by
      intro hmem
      obtain ⟨operation, hoperation, href⟩ := List.mem_filterMap.mp (htouched _ hmem)
      exact (hsafe operation hoperation).1 (href.trans (congrArg some hname))
    have hkeeps : table.db.Keeps (candidate.next.db) := by
      rw [hdb₁]
      exact .of_eq hmid.untouched.snapshots hmid.untouched.changes
    rw [appendedTo_transact]
    refine ⟨?_, r, ?_, hname, hkind, hkeeps.ancestors hchain⟩
    · rw [hdb₁]
      change db₁.tableMeta.currentSchemaId = schemaId
      rw [hmeta, hschema]
    · rw [hdb₁]
      exact (hmid.kept r huntouched).mpr hr

/-- A run of safe actions extends the ancestry of a branch only by appends to it. -/
theorem Run.branchAt {digest : Digest} {base table : PinnedTable} {actions : List Action}
    {name : String} {chain : List Id} {schemaId : ℕ} (h : Run digest base actions table)
    (hbase : Reachable digest base) (hsafe : ∀ action ∈ actions, action.Safe name)
    (hbranch : BranchAt name chain schemaId base.db) :
    Reachable digest table ∧
      BranchAt name (appendedTo name actions ++ chain) schemaId table.db := by
  induction h with
  | nil => exact ⟨hbase, hbranch⟩
  | snoc _ hstep ih =>
    obtain ⟨htable, hmid⟩ := ih fun action hmem => hsafe action (List.mem_append_left _ hmem)
    refine ⟨htable.step hstep, hstep.branchAt htable.consistent (hsafe _ ?_) hmid⟩
    exact List.mem_append_right _ List.mem_cons_self

/-- An append that was prepared on a base and is accepted on a later parent: every commit in
between is one of the actions of the run, none of them touched the branch other than by an append
and none selected a schema; the new snapshot continues the ancestry of the old tip by the
snapshots appended to the branch since, and its schema is the current one of base and parent. -/
theorem append_rebase_safe {digest : Digest} {base parent : PinnedTable} {actions : List Action}
    {request : AppendRequest} {staged : List VerifiedStagedFile} {logicalHash : Sha256}
    {drawn : Drawn} {original : Option (RefType × Option Id)} {candidate : Candidate AppendResult}
    (hbase : Reachable digest base) (hrun : Run digest base actions parent)
    (horiginal : base.db.refRow request.targetRef = .ok original)
    (hstaged : validateStaged request staged parent.db.tableMeta.tableId = .ok ())
    (hrebase : validateAppendRebase parent.db request.targetRef original
      base.db.tableMeta.tableVersion = .ok ())
    (hrequest : validateRequest parent.db request = .ok ())
    (hbuild : buildCandidate digest request staged logicalHash drawn parent = .ok candidate) :
    parent.db.tableMeta.tableVersion = base.db.tableMeta.tableVersion + actions.length ∧
      (∀ action ∈ actions, action.Safe request.targetRef) ∧
      ∃ tip chain row, original = some (.branch, tip) ∧ base.db.ancestry tip = .ok chain ∧
        candidate.next.db.ancestry (some drawn.snapshotId) =
          .ok (drawn.snapshotId :: (appendedTo request.targetRef actions ++ chain)) ∧
        candidate.next.db.findSnapshot drawn.snapshotId = some row ∧
        row.schemaId = base.db.tableMeta.currentSchemaId ∧
        row.schemaId = parent.db.tableMeta.currentSchemaId := by
  have hsafe := hrun.safe hrebase
  refine ⟨hrun.commits.1, hsafe, ?_⟩
  obtain ⟨⟨tip, rfl⟩, -⟩ := validateAppendRebase_eq_ok hrebase
  obtain ⟨r, hr, hname, hkind, rfl⟩ := Database.refRow_eq_some horiginal
  obtain ⟨chain, hchain, -⟩ := hbase.consistent.refs.live r hr hkind
  obtain ⟨hparent, hbranch⟩ :=
    hrun.branchAt hbase hsafe ⟨rfl, r, hr, hname, hkind, hchain⟩
  have hstep : Step digest parent (.append request drawn) candidate.next :=
    .append hstaged hrebase hrequest hbuild
  have hnext : BranchAt request.targetRef
      (appendedTo request.targetRef (actions ++ [.append request drawn]) ++ chain)
      base.db.tableMeta.currentSchemaId candidate.next.db :=
    hstep.branchAt hparent.consistent trivial hbranch
  obtain ⟨-, r', -, -, -, hchain'⟩ := hnext
  rw [appendedTo_append, if_pos rfl, List.cons_append] at hchain'
  have htip : r'.snapshotId = some drawn.snapshotId := by
    generalize r'.snapshotId = target at hchain'
    cases hchain'
    rfl
  rw [htip] at hchain'
  obtain ⟨first, summary, target, commitBytes, files, -, -, -, -, happendable, -, hdb⟩ :=
    buildCandidate_eq_ok hrequest hbuild
  have hrow := happendable.findSnapshot_new
  refine ⟨r.snapshotId, chain, _, rfl, hbase.consistent.snapshots.ancestry_eq_ok hchain,
    (hparent.step hstep).consistent.snapshots.ancestry_eq_ok hchain', by rw [hdb]; exact hrow,
    hbranch.1, rfl⟩

section Samples

/-- The tables of the sample history: after genesis, after the append and at the end. -/
theorem sampleRun_steps {table : PinnedTable} (h : sampleRun = .ok table) :
    ∃ base appended, mutateGenesis sampleGenesis = .ok base.db ∧
      base.db.tableMeta.tableVersion = 0 ∧
      base.db.refRow "main" = .ok (some (.branch, none)) ∧
      Step sampleDigest base (.append sampleAppend (sampleDrawn 4 5 1)) appended ∧
      Step sampleDigest appended (.transact sampleTransaction) table := by
  rw [sampleRun] at h
  obtain ⟨db, hgenesis, h⟩ := bind_eq_ok.mp h
  obtain ⟨hstaged, h⟩ := check_eq_ok.mp h
  obtain ⟨hrebase, h⟩ := check_eq_ok.mp h
  obtain ⟨hrequest, h⟩ := check_eq_ok.mp h
  obtain ⟨appended, happend, h⟩ := bind_eq_ok.mp h
  obtain ⟨branched, htransact, h⟩ := bind_eq_ok.mp h
  cases h
  refine ⟨_, _, hgenesis, ?_, ?_, .append hstaged hrebase hrequest happend, .transact htransact⟩
  · rw [mutateGenesis] at hgenesis
    obtain ⟨schemas, -, hgenesis⟩ := bind_eq_ok.mp hgenesis
    cases hgenesis
    rfl
  · rw [mutateGenesis] at hgenesis
    obtain ⟨schemas, -, hgenesis⟩ := bind_eq_ok.mp hgenesis
    cases hgenesis
    rfl

/-- The base of the sample history and its two actions. -/
theorem sampleRun_run {table : PinnedTable} (h : sampleRun = .ok table) :
    ∃ base, mutateGenesis sampleGenesis = .ok base.db ∧ base.db.tableMeta.tableVersion = 0 ∧
      base.db.refRow "main" = .ok (some (.branch, none)) ∧
      Run sampleDigest base [.append sampleAppend (sampleDrawn 4 5 1), .transact sampleTransaction]
        table := by
  obtain ⟨base, appended, hgenesis, hversion, href, happend, htransact⟩ := sampleRun_steps h
  exact ⟨base, hgenesis, hversion, href, .snoc (.snoc .nil happend) htransact⟩

/-- A second append, prepared before the first, under a key of its own. -/
def laterAppend : AppendRequest := { sampleAppend with idempotencyKey := "third" }

/-- The staged file of the second append, stored beside that of the first. -/
def laterStaged : List VerifiedStagedFile :=
  [⟨sampleId 1, 0, sampleId 8, "data/b.parquet", sampleDigest [4], 10, none⟩]

/-- The second append on the table of the sample history. -/
def laterRun (parent : PinnedTable) : Except RuntimeError (Candidate AppendResult) := do
  validateStaged laterAppend laterStaged parent.db.tableMeta.tableId
  validateAppendRebase parent.db "main" (some (.branch, none)) 0
  validateRequest parent.db laterAppend
  buildCandidate sampleDigest laterAppend laterStaged (sampleDigest [7]) (sampleDrawn 9 10 3) parent

/-- The second append is a step of the history. -/
theorem laterRun_step {parent : PinnedTable} {candidate : Candidate AppendResult}
    (h : laterRun parent = .ok candidate) :
    Step sampleDigest parent (.append laterAppend (sampleDrawn 9 10 3)) candidate.next := by
  rw [laterRun] at h
  obtain ⟨hstaged, h⟩ := check_eq_ok.mp h
  obtain ⟨hrebase, h⟩ := check_eq_ok.mp h
  obtain ⟨hrequest, hbuild⟩ := check_eq_ok.mp h
  exact .append hstaged hrebase hrequest hbuild

/-- The second append continues the snapshot of the first. -/
theorem append_rebase_safe_later : ∃ parent candidate, sampleRun = .ok parent ∧
    laterRun parent = .ok candidate ∧
      candidate.next.db.ancestry (some (sampleId 10)) = .ok [sampleId 10, sampleId 5] := by
  have hok : (sampleRun >>= laterRun).isOk = true := by decide +kernel
  cases hlater : sampleRun >>= laterRun with
  | error e =>
    rw [hlater] at hok
    cases hok
  | ok candidate =>
    obtain ⟨parent, hsample, hlater⟩ := bind_eq_ok.mp hlater
    refine ⟨parent, candidate, hsample, hlater, ?_⟩
    obtain ⟨base, hgenesis, hversion, href, hrun⟩ := sampleRun_run hsample
    have hbase : Reachable sampleDigest base := .genesis hgenesis
    rw [laterRun] at hlater
    obtain ⟨hstaged, hlater⟩ := check_eq_ok.mp hlater
    obtain ⟨hrebase, hlater⟩ := check_eq_ok.mp hlater
    obtain ⟨hrequest, hbuild⟩ := check_eq_ok.mp hlater
    rw [← hversion] at hrebase
    obtain ⟨-, -, tip, chain, row, htip, hchain, hancestry, -⟩ :=
      append_rebase_safe hbase hrun href hstaged hrebase hrequest hbuild
    cases htip
    have hnil : base.db.ancestry none = .ok [] :=
      hbase.consistent.snapshots.ancestry_eq_ok .nil
    rw [hnil] at hchain
    cases hchain
    exact hancestry

end Samples

end Otmp
