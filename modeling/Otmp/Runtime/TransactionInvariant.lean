import Otmp.Image.AppendInvariant
import Otmp.Runtime.Transactions

/-!
# Metadata transactions keep the invariant

Between the operations of a transaction the refs and live rows are already those of
the next version, while commits and snapshots are still those of the parent. A ref
that no operation has touched yet is as in the parent; this is why the requirements,
which are evaluated on the parent, still hold when their operation is applied.
-/

namespace Otmp

open Foundation CanonicalValue

namespace Database

variable {db db' : Database}

/-- A ref that is read is a row of its table. -/
theorem refRow_eq_some {name : String} {kind : RefType} {target : Option Id}
    (h : db.refRow name = .ok (some (kind, target))) :
    ∃ r ∈ db.refs, r.refName = name ∧ r.refType = kind ∧ r.snapshotId = target := by
  rw [refRow] at h
  cases hfind : db.refs.find? (·.refName == name) with
  | none =>
    rw [hfind] at h
    cases h
  | some r =>
    rw [hfind] at h
    obtain ⟨target', htarget, h⟩ := bind_eq_ok.mp h
    cases h
    have hname := List.find?_some hfind
    exact ⟨r, List.mem_of_find?_eq_some hfind, beq_iff_eq.mp hname, rfl,
      (optionalIdFromBlob_eq_ok htarget).symm⟩

/-- Evaluated requirements hold of the database they were evaluated on. -/
theorem holds_of_evaluate {requirements : List Requirement}
    (h : db.evaluate requirements = .ok ()) {requirement : Requirement}
    (hmem : requirement ∈ requirements) : db.holds requirement = .ok true := by
  rw [evaluate, checkAll_eq_ok] at h
  obtain ⟨b, hb, hcheck⟩ := bind_eq_ok.mp (h requirement hmem)
  cases b with
  | false => cases hcheck
  | true => exact hb

end Database

/-- A required requirement is among those of the request. -/
theorem mem_of_required {request : TransactionRequest} {requirement : Requirement}
    (h : required request requirement = .ok ()) : requirement ∈ request.requirements := by
  rw [required, invalid] at h
  obtain ⟨hcount, -⟩ := ite_error_eq_ok.mp h
  rw [← List.count_pos_iff]
  omega

/-- An accepted ref name is new and is recorded. -/
theorem validateRefName_eq_ok {name : String} {refs refs' : List String}
    (h : validateRefName name refs = .ok refs') : refs' = name :: refs ∧ name ∉ refs := by
  rw [validateRefName, invalid] at h
  obtain ⟨hguard, h⟩ := ite_error_eq_ok.mp h
  cases h
  exact ⟨rfl, fun hmem => hguard (.inr (.inr hmem))⟩

/-- The ref that an operation touches, if it touches one. -/
def OperationRequest.ref? : OperationRequest → Option String
  | .createRef _ name _ _ | .replaceRef _ name _ | .dropRef _ name => some name
  | _ => none

/-- What the preparation of an operation has checked, its result and what it uses up. -/
def Prepares (db : Database) (request : TransactionRequest) (st : Prepared)
    (operation : OperationRequest) (result : OperationResult) (st' : Prepared) : Prop :=
  match operation with
  | .setProperties operationId updates removals =>
    updates.toList.any (fun entry => entry.2 == .null) = false ∧
      ∃ keys, validateKeys request st.keys (updates.toList.map Prod.fst ++ removals) = .ok keys ∧
        st' = { st with keys := keys } ∧
        result = .properties operationId
          ((updates.toList.map Prod.fst ++ removals).mergeSort fun a b => decide (a ≤ b))
  | .createRef operationId name refType snapshotId =>
    required request (.refAbsent name) = .ok () ∧ (refType = .tag → snapshotId ≠ none) ∧
      (∀ id ∈ snapshotId, required request (.snapshotExists id) = .ok ()) ∧
      ∃ refs, validateRefName name st.refs = .ok refs ∧ st' = { st with refs := refs } ∧
        result = .ref operationId name refType snapshotId
  | .replaceRef operationId name snapshotId =>
    ∃ kind old, db.refRow name = .ok (some (kind, old)) ∧
      required request (.refExists name .branch) = .ok () ∧
      required request (.refSnapshotIs name old) = .ok () ∧
      required request (.snapshotExists snapshotId) = .ok () ∧
      ∃ refs, validateRefName name st.refs = .ok refs ∧ st' = { st with refs := refs } ∧
        result = .ref operationId name .branch (some snapshotId)
  | .dropRef operationId name =>
    name ≠ "main" ∧ ∃ kind old, db.refRow name = .ok (some (kind, old)) ∧
      required request (.refExists name kind) = .ok () ∧
      required request (.refSnapshotIs name old) = .ok () ∧
      ∃ refs, validateRefName name st.refs = .ok refs ∧ st' = { st with refs := refs } ∧
        result = .ref operationId name kind old
  | .addSchema operationId schema =>
    st.addSchema = false ∧ ∃ current old newIds actual, db.currentSchema = .ok current ∧
      required request (.currentSchemaIs current) = .ok () ∧
      required request (.schemaIdAbsent schema.schemaId) = .ok () ∧
      readSchema db.schemas current = .ok old ∧ additiveSchema old schema = .ok newIds ∧
      request.fieldIdsAbsent = [actual] ∧ actual.mergeSort (fun a b => decide (a ≤ b)) = newIds ∧
      st' = { st with addSchema := true } ∧ result = .schema operationId schema.schemaId
  | .setCurrentSchema operationId schemaId =>
    st.setSchema = false ∧ ∃ current, db.currentSchema = .ok current ∧
      required request (.currentSchemaIs current) = .ok () ∧
      st' = { st with setSchema := true } ∧ result = .schema operationId schemaId

/-- An operation is prepared by passing its checks. -/
theorem prepareOperation_eq_ok {db : Database} {request : TransactionRequest} {st st' : Prepared}
    {operation : OperationRequest} {result : OperationResult}
    (h : prepareOperation db request st operation = .ok (result, st')) :
    Prepares db request st operation result st' := by
  cases operation with
  | setProperties operationId updates removals =>
    rw [prepareOperation, invalid] at h
    obtain ⟨hnull, h⟩ := ite_error_eq_ok.mp h
    obtain ⟨keys, hkeys, h⟩ := bind_eq_ok.mp h
    cases h
    exact ⟨Bool.eq_false_iff.mpr hnull, keys, hkeys, rfl, rfl⟩
  | createRef operationId name refType snapshotId =>
    rw [prepareOperation, check_eq_ok, invalid] at h
    obtain ⟨habsent, h⟩ := h
    obtain ⟨htag, h⟩ := ite_error_eq_ok.mp h
    obtain ⟨hexists, refs, hname, h⟩ : (∀ id ∈ snapshotId,
        required request (.snapshotExists id) = .ok ()) ∧
        ∃ refs, validateRefName name st.refs = .ok refs ∧
        (Except.ok (.ref operationId name refType snapshotId, { st with refs := refs }) :
          Except RuntimeError _) = .ok (result, st') := by
      cases snapshotId with
      | none => exact ⟨nofun, bind_eq_ok.mp h⟩
      | some id =>
        obtain ⟨hid, h⟩ := check_eq_ok.mp h
        exact ⟨fun _ hi => Option.some.inj hi ▸ hid, bind_eq_ok.mp h⟩
    cases h
    exact ⟨habsent, fun hkind hnone => htag ⟨hkind, hnone⟩, hexists, refs, hname, rfl, rfl⟩
  | replaceRef operationId name snapshotId =>
    rw [prepareOperation] at h
    obtain ⟨row, hrow, h⟩ := bind_eq_ok.mp h
    match row with
    | none => cases h
    | some (kind, old) =>
      obtain ⟨hbranch, h⟩ := check_eq_ok.mp h
      obtain ⟨htarget, h⟩ := check_eq_ok.mp h
      obtain ⟨hexists, h⟩ := check_eq_ok.mp h
      obtain ⟨refs, hname, h⟩ := bind_eq_ok.mp h
      cases h
      exact ⟨kind, old, hrow, hbranch, htarget, hexists, refs, hname, rfl, rfl⟩
  | dropRef operationId name =>
    rw [prepareOperation, invalid] at h
    obtain ⟨hmain, h⟩ := ite_error_eq_ok.mp h
    obtain ⟨row, hrow, h⟩ := bind_eq_ok.mp h
    match row with
    | none => cases h
    | some (kind, old) =>
      obtain ⟨hkind, h⟩ := check_eq_ok.mp h
      obtain ⟨htarget, h⟩ := check_eq_ok.mp h
      obtain ⟨refs, hname, h⟩ := bind_eq_ok.mp h
      cases h
      exact ⟨hmain, kind, old, hrow, hkind, htarget, refs, hname, rfl, rfl⟩
  | addSchema operationId schema =>
    rw [prepareOperation, invalid, invalid] at h
    obtain ⟨hfirst, h⟩ := ite_error_eq_ok.mp h
    obtain ⟨current, hcurrent, h⟩ := bind_eq_ok.mp h
    obtain ⟨hpinned, h⟩ := check_eq_ok.mp h
    obtain ⟨habsent, h⟩ := check_eq_ok.mp h
    obtain ⟨old, hold, h⟩ := bind_eq_ok.mp h
    obtain ⟨newIds, hnew, h⟩ := bind_eq_ok.mp h
    cases hids : request.fieldIdsAbsent with
    | nil =>
      rw [hids] at h
      cases h
    | cons actual others =>
      rw [hids] at h
      obtain ⟨hcover, h⟩ := ite_error_eq_ok.mp h
      cases h
      rw [not_or, not_not, not_not] at hcover
      exact ⟨Bool.eq_false_iff.mpr hfirst, current, old, newIds, actual, hcurrent, hpinned,
        habsent, hold, hnew, by rw [hids, hcover.1], hcover.2, rfl, rfl⟩
  | setCurrentSchema operationId schemaId =>
    rw [prepareOperation, invalid] at h
    obtain ⟨hfirst, h⟩ := ite_error_eq_ok.mp h
    obtain ⟨current, hcurrent, h⟩ := bind_eq_ok.mp h
    obtain ⟨hpinned, h⟩ := check_eq_ok.mp h
    cases h
    exact ⟨Bool.eq_false_iff.mpr hfirst, current, hcurrent, hpinned, rfl, rfl⟩

/-- What the preparation of an operation has checked about refs: the name is new, and a ref that
is replaced is a branch. -/
theorem prepareOperation_ref {db : Database} {request : TransactionRequest} {st st' : Prepared}
    {operation : OperationRequest} {result : OperationResult}
    (hreq : db.evaluate request.requirements = .ok ())
    (h : prepareOperation db request st operation = .ok (result, st')) :
    st'.refs = operation.ref?.toList ++ st.refs ∧ (∀ name ∈ operation.ref?, name ∉ st.refs) ∧
      match operation with
      | .replaceRef _ name _ => ∃ r ∈ db.refs, r.refName = name ∧ r.refType = .branch
      | .dropRef _ name => name ≠ "main"
      | _ => True := by
  have hprepares := prepareOperation_eq_ok h
  cases operation with
  | setProperties operationId updates removals =>
    obtain ⟨-, keys, -, rfl, -⟩ := hprepares
    exact ⟨rfl, nofun, trivial⟩
  | createRef operationId name refType snapshotId =>
    obtain ⟨-, -, -, refs, hname, rfl, -⟩ := hprepares
    obtain ⟨rfl, hnew⟩ := validateRefName_eq_ok hname
    exact ⟨rfl, fun _ hn => by cases hn; exact hnew, trivial⟩
  | replaceRef operationId name snapshotId =>
    obtain ⟨kind, old, hrow, hexists, -, -, refs, hname, rfl, -⟩ := hprepares
    obtain ⟨rfl, hnew⟩ := validateRefName_eq_ok hname
    refine ⟨rfl, fun _ hn => by cases hn; exact hnew, ?_⟩
    have hholds := Database.holds_of_evaluate hreq (mem_of_required hexists)
    rw [Database.holds, hrow, ok_bind rfl] at hholds
    injection hholds with hbranch
    have hkind : kind = .branch := by simpa using hbranch
    obtain ⟨r, hr, hr', hkind', -⟩ := Database.refRow_eq_some hrow
    exact ⟨r, hr, hr', hkind'.trans hkind⟩
  | dropRef operationId name =>
    obtain ⟨hmain, kind, old, -, -, -, refs, hname, rfl, -⟩ := hprepares
    obtain ⟨rfl, hnew⟩ := validateRefName_eq_ok hname
    exact ⟨rfl, fun _ hn => by cases hn; exact hnew, hmain⟩
  | addSchema operationId schema =>
    obtain ⟨-, current, old, newIds, actual, -, -, -, -, -, -, -, rfl, -⟩ := hprepares
    exact ⟨rfl, nofun, trivial⟩
  | setCurrentSchema operationId schemaId =>
    obtain ⟨-, current, -, -, rfl, -⟩ := hprepares
    exact ⟨rfl, nofun, trivial⟩

namespace Database

variable {db db' : Database} {version : ℕ}

/-- Two databases that differ in properties, schemas, refs and live rows only. -/
structure Untouched (db db' : Database) : Prop where
  tableMeta : ∃ schemaId, db'.tableMeta = { db.tableMeta with currentSchemaId := schemaId }
  partitionSpecs : db'.partitionSpecs = db.partitionSpecs
  sortOrders : db'.sortOrders = db.sortOrders
  features : db'.features = db.features
  commits : db'.commits = db.commits
  idempotency : db'.idempotency = db.idempotency
  snapshots : db'.snapshots = db.snapshots
  summaries : db'.summaries = db.summaries
  files : db'.files = db.files
  metrics : db'.metrics = db.metrics
  changes : db'.changes = db.changes

/-- Nothing is touched when nothing is done. -/
theorem Untouched.refl (db : Database) : db.Untouched db :=
  ⟨⟨_, rfl⟩, rfl, rfl, rfl, rfl, rfl, rfl, rfl, rfl, rfl, rfl⟩

/-- Replacing the schemas, the properties, the refs and the live rows touches nothing else. -/
theorem Untouched.intro (schemaId : ℕ) (schemas : SchemaTables) (properties : List PropertyRow)
    (refs : List RefRow) (liveFiles : List LiveFileRow) :
    db.Untouched { db with
      tableMeta := { db.tableMeta with currentSchemaId := schemaId }
      schemas := schemas
      properties := properties
      refs := refs
      liveFiles := liveFiles } :=
  ⟨⟨_, rfl⟩, rfl, rfl, rfl, rfl, rfl, rfl, rfl, rfl, rfl, rfl⟩

/-- Two changes that touch nothing else touch nothing else together. -/
theorem Untouched.trans {db'' : Database} (h : db.Untouched db') (h' : db'.Untouched db'') :
    db.Untouched db'' := by
  obtain ⟨schemaId, hmeta⟩ := h.tableMeta
  obtain ⟨schemaId', hmeta'⟩ := h'.tableMeta
  exact ⟨⟨schemaId', by rw [hmeta', hmeta]⟩, h'.partitionSpecs.trans h.partitionSpecs,
    h'.sortOrders.trans h.sortOrders, h'.features.trans h.features, h'.commits.trans h.commits,
    h'.idempotency.trans h.idempotency, h'.snapshots.trans h.snapshots,
    h'.summaries.trans h.summaries, h'.files.trans h.files, h'.metrics.trans h.metrics,
    h'.changes.trans h.changes⟩

/-- Insert the live rows of a list of snapshots. -/
private theorem runAll_liveRows {name : String} {ids : List Id}
    (h : runAll (fun db id => runAll insertLiveFile db (db.liveRowsOf name id)) db ids = .ok db') :
    db' = { db with liveFiles := db.liveFiles ++ ids.flatMap (db.liveRowsOf name) } := by
  induction ids generalizing db with
  | nil =>
    cases h
    simp
  | cons id ids ih =>
    obtain ⟨db₁, h₁, h⟩ := runAll_cons_ok.mp h
    have e₁ := runAll_extend
      (fun (db : Database) rows => { db with liveFiles := db.liveFiles ++ rows })
      (fun row => row) (fun db => by simp) (fun db xs ys => by simp)
      insertLiveFile_spec h₁
    rw [List.map_id'] at e₁
    rw [ih h, e₁, List.flatMap_cons, ← List.append_assoc]
    rfl

/-- What the rebuilding of a branch does: its live rows become those of an ancestry. -/
theorem materializeBranch_spec {name : String} {snapshot : Option Id}
    (h : db.materializeBranch name snapshot = .ok db') :
    ∃ chain, db.Ancestors snapshot chain ∧
      db' = { db with
        liveFiles :=
          (db.deleteLiveFiles name).liveFiles ++ chain.flatMap (db.liveRowsOf name) } := by
  rw [materializeBranch] at h
  obtain ⟨chain, hchain, h⟩ := bind_eq_ok.mp h
  have hancestors : (db.deleteLiveFiles name).Ancestors snapshot chain := ancestryFrom_sound hchain
  exact ⟨chain, hancestors, runAll_liveRows h⟩

/-- The changes of properties touch nothing else. -/
theorem applyProperties_spec {updates : List (String × CanonicalValue)}
    (removals : List String)
    (h : runAll (fun (db : Database) entry => do
      let text ← liftProtocol (canonicalText entry.2)
      return db.upsertProperty ⟨entry.1, text, version⟩) db updates = .ok db') :
    ∃ properties, removals.foldl deleteProperty db' = { db with properties := properties } := by
  have hupdates : ∃ properties, db' = { db with properties := properties } := by
    refine runAll_invariant
      (P := fun d : Database => ∃ properties, d = { db with properties := properties })
      (fun _ hinv hstep => ?_) ⟨db.properties, rfl⟩ h
    obtain ⟨properties, rfl⟩ := hinv
    obtain ⟨text, -, hstep⟩ := bind_eq_ok.mp hstep
    cases hstep
    rw [upsertProperty]
    split
    · exact ⟨_, rfl⟩
    · exact ⟨_, rfl⟩
  clear h
  induction removals generalizing db' with
  | nil => exact hupdates
  | cons key removals ih =>
    obtain ⟨properties, rfl⟩ := hupdates
    exact ih ⟨_, rfl⟩

/-- Other refs and their live rows stay as they are. -/
structure OthersKept (name? : Option String) (db db' : Database) : Prop where
  refs : ∀ r : RefRow, name? ≠ some r.refName → (r ∈ db'.refs ↔ r ∈ db.refs)
  live : ∀ l : LiveFileRow, name? ≠ some l.refName → (l ∈ db'.liveFiles ↔ l ∈ db.liveFiles)

/-- Other refs are kept when no ref and no live row changes. -/
theorem OthersKept.of_eq {name? : Option String} (hrefs : db'.refs = db.refs)
    (hlive : db'.liveFiles = db.liveFiles) : OthersKept name? db db' :=
  ⟨fun _ _ => by rw [hrefs], fun _ _ => by rw [hlive]⟩

/-- Rebuilding a branch keeps the live rows of the others. -/
private theorem mem_rebuilt {name : String} {chain : List Id} {l : LiveFileRow}
    (hl : l.refName ≠ name) :
    l ∈ (db.deleteLiveFiles name).liveFiles ++ chain.flatMap (db.liveRowsOf name) ↔
      l ∈ db.liveFiles := by
  have hnew : l ∉ chain.flatMap (db.liveRowsOf name) := by
    intro hmem
    obtain ⟨id, -, hrow⟩ := List.mem_flatMap.mp hmem
    obtain ⟨_, _, _, _, _, _, rfl⟩ := mem_liveRowsOf.mp hrow
    exact hl rfl
  rw [List.mem_append, or_iff_left hnew, deleteLiveFiles, List.mem_filter, bne_iff_ne]
  exact and_iff_left hl

/-- The live rows of a rebuilt branch match. -/
private theorem mem_rebuilt_self {name : String} {chain : List Id} {l : LiveFileRow}
    (hl : l.refName = name) :
    l ∈ (db.deleteLiveFiles name).liveFiles ++ chain.flatMap (db.liveRowsOf name) ↔
      ∃ id ∈ chain, l ∈ db.liveRowsOf name id := by
  have hold : l ∉ (db.deleteLiveFiles name).liveFiles := by
    rw [deleteLiveFiles, List.mem_filter, bne_iff_ne]
    exact fun h => h.2 hl
  rw [List.mem_append, or_iff_right hold, List.mem_flatMap]

/-- What an operation does outside of the refs it touches. -/
theorem applyOperation_spec {operation : OperationRequest}
    (h : db.applyOperation version operation = .ok db') :
    db.Untouched db' ∧ OthersKept operation.ref? db db' := by
  cases operation with
  | setProperties operationId updates removals =>
    rw [applyOperation] at h
    obtain ⟨db₁, h₁, h⟩ := bind_eq_ok.mp h
    cases h
    obtain ⟨properties, hprops⟩ := applyProperties_spec removals h₁
    rw [hprops]
    exact ⟨.intro _ _ _ _ _, .of_eq rfl rfl⟩
  | createRef operationId name refType snapshotId =>
    rw [applyOperation] at h
    obtain ⟨db₁, h₁, h⟩ := bind_eq_ok.mp h
    obtain ⟨rfl, -, -⟩ := insertRef_spec h₁
    have hrefs : ∀ r : RefRow, some name ≠ some r.refName →
        (r ∈ db.refs ++ [⟨name, refType, snapshotId, version, version⟩] ↔ r ∈ db.refs) := by
      intro r hr
      rw [List.mem_append, List.mem_singleton]
      exact or_iff_left fun he => hr (by rw [he])
    split at h
    · obtain ⟨chain, -, rfl⟩ := materializeBranch_spec h
      exact ⟨.intro _ _ _ _ _, hrefs, fun l hl => mem_rebuilt fun he => hl (congrArg some he.symm)⟩
    · cases h
      exact ⟨.intro _ _ _ _ _, hrefs, fun _ _ => Iff.rfl⟩
  | replaceRef operationId name snapshotId =>
    rw [applyOperation] at h
    obtain ⟨db₁, h₁, h⟩ := bind_eq_ok.mp h
    obtain ⟨rfl, -⟩ := updateRefs_spec h₁
    obtain ⟨chain, -, rfl⟩ := materializeBranch_spec h
    refine ⟨.intro _ _ _ _ _, fun r hr => ?_,
      fun l hl => mem_rebuilt fun he => hl (congrArg some he.symm)⟩
    have hne : r.refName ≠ name := fun he => hr (congrArg some he.symm)
    constructor
    · intro hmem
      obtain ⟨r', hr', rfl⟩ := List.mem_map.mp hmem
      rw [retarget_refName] at hne
      rwa [retarget, if_neg (by simpa using hne)]
    · intro hmem
      exact List.mem_map.mpr ⟨r, hmem, by rw [retarget, if_neg (by simpa using hne)]⟩
  | dropRef operationId name =>
    rw [applyOperation] at h
    obtain rfl := deleteRef_spec h
    refine ⟨.intro _ _ _ _ _, fun r hr => ?_, fun l hl => ?_⟩
    · have hne : r.refName ≠ name := fun he => hr (congrArg some he.symm)
      exact List.mem_filter.trans (and_iff_left (bne_iff_ne.mpr hne))
    · have hne : l.refName ≠ name := fun he => hl (congrArg some he.symm)
      exact List.mem_filter.trans (and_iff_left (bne_iff_ne.mpr hne))
  | addSchema operationId schema =>
    rw [applyOperation] at h
    obtain ⟨schemas, -, h⟩ := bind_eq_ok.mp h
    cases h
    exact ⟨.intro _ _ _ _ _, .of_eq rfl rfl⟩
  | setCurrentSchema operationId schemaId =>
    rw [applyOperation, invalid, constraintFailed] at h
    obtain ⟨-, h⟩ := ite_error_eq_ok.mp h
    obtain ⟨-, h⟩ := ite_error_eq_ok.mp h
    cases h
    exact ⟨.intro _ _ _ _ _, .of_eq rfl rfl⟩

/-- The refs after one is added: its target is there, and the others are as before. -/
theorem RefsConsistent.inserted (row : RefRow) (hdb : db.RefsConsistent version)
    (hkeeps : db.Keeps db') (hkept : OthersKept (some row.refName) db db')
    (hrefs : db'.refs = db.refs ++ [row]) (hfresh : ∀ r ∈ db.refs, r.refName ≠ row.refName)
    (hcreated : row.createdVersion ≤ row.updatedVersion) (hupdated : row.updatedVersion ≤ version)
    (htag : row.refType = .tag → row.snapshotId ≠ none)
    (hbranch : ∀ l ∈ db'.liveFiles, l.refName = row.refName → row.refType = .branch)
    (hlive : row.refType = .branch → db'.LiveMatches row) : db'.RefsConsistent version := by
  have hmem : ∀ r ∈ db'.refs, r ∈ db.refs ∨ r = row := by
    intro r hr
    rwa [hrefs, List.mem_append, List.mem_singleton] at hr
  have hold : ∀ r ∈ db.refs, r ∈ db'.refs := fun r hr => hrefs ▸ List.mem_append_left _ hr
  refine ⟨?_, ?_, fun r hr => ?_, fun r hr => ?_, fun r hr hkind => ?_, fun l hl => ?_,
    fun r hr hkind => ?_⟩
  · rw [hrefs, List.map_append]
    refine hdb.names.append (List.nodup_singleton _) (List.disjoint_singleton.mpr fun hname => ?_)
    obtain ⟨r, hr, he⟩ := List.mem_map.mp hname
    exact hfresh r hr he
  · obtain ⟨r, hr, hmain⟩ := hdb.main
    exact ⟨r, hold r hr, hmain⟩
  · rcases hmem r hr with hr | rfl
    · exact hdb.created_le r hr
    · exact hcreated
  · rcases hmem r hr with hr | rfl
    · exact hdb.updated_le r hr
    · exact hupdated
  · rcases hmem r hr with hr | rfl
    · exact hdb.tags r hr hkind
    · exact htag hkind
  · by_cases hname : l.refName = row.refName
    · exact ⟨row, hrefs ▸ List.mem_append_right _ List.mem_cons_self, hname.symm,
        hbranch l hl hname⟩
    · have hl' := (hkept.live l fun he => hname (Option.some.inj he).symm).mp hl
      obtain ⟨r, hr, hr'⟩ := hdb.live_branch l hl'
      exact ⟨r, hold r hr, hr'⟩
  · rcases hmem r hr with hr | rfl
    · refine (hdb.live r hr hkind).keep hkeeps rfl rfl fun l hl => hkept.live l fun he => ?_
      exact hfresh r hr (hl.symm.trans (Option.some.inj he).symm)
    · exact hlive hkind

/-- The refs after one is dropped, which is never the main branch. -/
theorem RefsConsistent.dropped {name : String} (hdb : db.RefsConsistent version)
    (hmain : name ≠ "main") (hkeeps : db.Keeps db')
    (hrefs : db'.refs = db.refs.filter (·.refName != name))
    (hlive : db'.liveFiles = db.liveFiles.filter (·.refName != name)) :
    db'.RefsConsistent version := by
  have hmem : ∀ r, r ∈ db'.refs ↔ r ∈ db.refs ∧ r.refName ≠ name := by
    intro r
    rw [hrefs, List.mem_filter, bne_iff_ne]
  have hmem' : ∀ l, l ∈ db'.liveFiles ↔ l ∈ db.liveFiles ∧ l.refName ≠ name := by
    intro l
    rw [hlive, List.mem_filter, bne_iff_ne]
  refine ⟨?_, ?_, fun r hr => ?_, fun r hr => ?_, fun r hr hkind => ?_, fun l hl => ?_,
    fun r hr hkind => ?_⟩
  · rw [hrefs]
    exact hdb.names.sublist (List.filter_sublist.map _)
  · obtain ⟨r, hr, hname, hr'⟩ := hdb.main
    exact ⟨r, (hmem r).mpr ⟨hr, fun he => hmain (he.symm.trans hname)⟩, hname, hr'⟩
  · exact hdb.created_le r ((hmem r).mp hr).1
  · exact hdb.updated_le r ((hmem r).mp hr).1
  · exact hdb.tags r ((hmem r).mp hr).1 hkind
  · obtain ⟨hl, hne⟩ := (hmem' l).mp hl
    obtain ⟨r, hr, hname, hkind⟩ := hdb.live_branch l hl
    exact ⟨r, (hmem r).mpr ⟨hr, fun he => hne (hname.symm.trans he)⟩, hname, hkind⟩
  · obtain ⟨hr, hne⟩ := (hmem r).mp hr
    refine (hdb.live r hr hkind).keep hkeeps rfl rfl fun l hl => (hmem' l).trans ?_
    exact and_iff_left fun he => hne (hl.symm.trans he)

/-- The refs stay consistent when neither they nor their live rows change. -/
theorem RefsConsistent.of_eq (hdb : db.RefsConsistent version) (hkeeps : db.Keeps db')
    (hrefs : db'.refs = db.refs) (hlive : db'.liveFiles = db.liveFiles) :
    db'.RefsConsistent version := by
  refine ⟨hrefs ▸ hdb.names, hrefs ▸ hdb.main, hrefs ▸ hdb.created_le, hrefs ▸ hdb.updated_le,
    hrefs ▸ hdb.tags, ?_, fun r hr hkind => ?_⟩
  · rw [hlive, hrefs]
    exact hdb.live_branch
  · rw [hrefs] at hr
    exact (hdb.live r hr hkind).keep hkeeps rfl rfl fun l _ => by rw [hlive]

/-- The creation of a ref keeps the refs consistent: a branch gets the live files of its ancestry,
and a tag gets none. -/
theorem RefsConsistent.created {name : String} {refType : RefType} {snapshotId : Option Id}
    {operationId : String} (hdb : db.RefsConsistent version)
    (h : db.applyOperation version (.createRef operationId name refType snapshotId) = .ok db') :
    db'.RefsConsistent version := by
  obtain ⟨huntouched, hkept⟩ := applyOperation_spec h
  have hkeeps : db.Keeps db' := .of_eq huntouched.snapshots huntouched.changes
  rw [Database.applyOperation] at h
  obtain ⟨db₁, h₁, h⟩ := bind_eq_ok.mp h
  obtain ⟨e₁, hfresh, hcheck⟩ := insertRef_spec h₁
  have htag : refType = .tag → snapshotId ≠ none := fun hkind hnone => hcheck ⟨hkind, hnone⟩
  by_cases hkind : refType = .branch
  · rw [if_pos hkind] at h
    obtain ⟨chain, hchain, e⟩ := materializeBranch_spec h
    refine hdb.inserted ⟨name, refType, snapshotId, version, version⟩ hkeeps hkept
      (by rw [e, e₁]) hfresh le_rfl le_rfl htag (fun _ _ _ => hkind) fun _ => ?_
    refine ⟨chain, ?_, fun l hl => ?_⟩
    · subst e
      exact hchain
    · have hlive : db'.liveFiles =
          (db₁.deleteLiveFiles name).liveFiles ++ chain.flatMap (db₁.liveRowsOf name) := by rw [e]
      rw [hlive, mem_rebuilt_self hl]
      subst e
      rfl
  · rw [if_neg hkind] at h
    cases h
    subst e₁
    refine hdb.inserted ⟨name, refType, snapshotId, version, version⟩ hkeeps hkept rfl
      hfresh le_rfl le_rfl htag (fun l hl hname => ?_) (absurd · hkind)
    obtain ⟨r, hr, hr', -⟩ := hdb.live_branch l hl
    exact absurd (hr'.trans hname) (hfresh r hr)

/-- The replacement of a branch keeps the refs consistent: its live files become those of the new
ancestry, and the other branches keep theirs. -/
theorem RefsConsistent.replaced {name : String} {snapshotId : Id} {operationId : String}
    (hdb : db.RefsConsistent version)
    (hbranch : ∃ r ∈ db.refs, r.refName = name ∧ r.refType = .branch)
    (h : db.applyOperation version (.replaceRef operationId name snapshotId) = .ok db') :
    db'.RefsConsistent version := by
  obtain ⟨huntouched, hkept⟩ := applyOperation_spec h
  have hkeeps : db.Keeps db' := .of_eq huntouched.snapshots huntouched.changes
  obtain ⟨r₀, hr₀, hname₀, hkind₀⟩ := hbranch
  rw [Database.applyOperation] at h
  obtain ⟨db₁, h₁, h⟩ := bind_eq_ok.mp h
  obtain ⟨e₁, hselected⟩ := updateRefs_spec h₁
  obtain ⟨chain, hchain, e⟩ := materializeBranch_spec h
  have hlive : db'.liveFiles =
      (db₁.deleteLiveFiles name).liveFiles ++ chain.flatMap (db₁.liveRowsOf name) := by rw [e]
  refine hdb.retargeted le_rfl (by rw [e, e₁]) hselected (fun l hl => ?_) fun r hr hkind => ?_
  · by_cases hname : l.refName = name
    · exact ⟨r₀, hr₀, hname₀.trans hname.symm, hkind₀⟩
    · exact hdb.live_branch l ((hkept.live l fun he => hname (Option.some.inj he).symm).mp hl)
  · rw [retarget]
    split
    · rename_i hname
      rw [beq_iff_eq] at hname
      refine ⟨chain, ?_, fun l hl => ?_⟩
      · subst e
        exact hchain
      · rw [hlive]
        dsimp only at hl ⊢
        rw [hname] at hl ⊢
        rw [mem_rebuilt_self hl]
        subst e
        rfl
    · rename_i hname
      rw [beq_iff_eq] at hname
      exact (hdb.live r hr hkind).keep hkeeps rfl rfl fun l hl =>
        hkept.live l fun he => hname (hl.symm.trans (Option.some.inj he).symm)

/-- An operation that was prepared keeps the refs consistent. -/
theorem RefsConsistent.applyOperation {operation : OperationRequest}
    (hdb : db.RefsConsistent version)
    (hprepared : match operation with
      | .replaceRef _ name _ => ∃ r ∈ db.refs, r.refName = name ∧ r.refType = .branch
      | .dropRef _ name => name ≠ "main"
      | _ => True)
    (h : db.applyOperation version operation = .ok db') : db'.RefsConsistent version := by
  obtain ⟨huntouched, hkept⟩ := applyOperation_spec h
  have hkeeps : db.Keeps db' := .of_eq huntouched.snapshots huntouched.changes
  cases operation with
  | setProperties operationId updates removals =>
    rw [Database.applyOperation] at h
    obtain ⟨db₁, h₁, h⟩ := bind_eq_ok.mp h
    cases h
    obtain ⟨properties, hprops⟩ := applyProperties_spec removals h₁
    rw [hprops] at hkeeps ⊢
    exact hdb.of_eq hkeeps rfl rfl
  | createRef operationId name refType snapshotId => exact hdb.created h
  | replaceRef operationId name snapshotId => exact hdb.replaced hprepared h
  | dropRef operationId name =>
    rw [Database.applyOperation] at h
    obtain rfl := deleteRef_spec h
    exact hdb.dropped hprepared hkeeps rfl rfl
  | addSchema operationId schema =>
    rw [Database.applyOperation] at h
    obtain ⟨schemas, -, h⟩ := bind_eq_ok.mp h
    cases h
    exact hdb.of_eq hkeeps rfl rfl
  | setCurrentSchema operationId schemaId =>
    rw [Database.applyOperation, invalid, constraintFailed] at h
    obtain ⟨-, h⟩ := ite_error_eq_ok.mp h
    obtain ⟨-, h⟩ := ite_error_eq_ok.mp h
    cases h
    exact hdb.of_eq hkeeps rfl rfl

end Database

end Otmp
