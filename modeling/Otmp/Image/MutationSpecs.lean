import Otmp.Image.Mutations

/-!
# What the mutations do

A successful insert adds one row and has passed its constraints. From these lemmas the
effect of an append on every table is read off once; later results use only that.
-/

namespace Otmp

open Foundation CanonicalValue

/-- An integer that fits a table is accepted, and no other one. -/
theorem checkI64_eq_ok {value : ℕ} {name : String} :
    checkI64 value name = .ok () ↔ value ≤ i64Max := by
  rw [checkI64, sqliteI64]
  by_cases hle : value ≤ i64Max
  · rw [if_pos hle]
    exact iff_of_true rfl hle
  · rw [if_neg hle]
    exact iff_of_false (fun h => by cases h) hle

/-- A text is the value it is made of. -/
theorem canonicalText_eq {value text : CanonicalValue} (h : canonicalText value = .ok text) :
    text = value := by
  rw [canonicalText] at h
  obtain ⟨-, h⟩ := ite_error_eq_ok.mp h
  obtain ⟨-, h⟩ := ite_error_eq_ok.mp h
  cases h
  rfl

namespace Database

variable {db db' : Database}

/-- A list that has no element with a property has only elements without it. -/
private theorem any_eq_false {α : Type} {p : α → Bool} {as : List α} (h : ¬as.any p = true) :
    ∀ a ∈ as, p a = false := by
  simpa using h

/-- An insert into `otmp_commits` that succeeds appends the row and changes nothing else. -/
theorem insertCommit_spec {row : CommitRow} (h : db.insertCommit row = .ok db') :
    db' = { db with commits := db.commits ++ [row] } := by
  rw [insertCommit] at h
  obtain ⟨-, h⟩ := ite_error_eq_ok.mp h
  obtain ⟨-, h⟩ := ite_error_eq_ok.mp h
  cases h
  rfl

/-- An insert into `otmp_idempotency` that succeeds appends the row, under a key that was not in
use. -/
theorem insertIdempotency_spec {row : IdempotencyRow} (h : db.insertIdempotency row = .ok db') :
    db' = { db with idempotency := db.idempotency ++ [row] } ∧
      ∀ i ∈ db.idempotency, i.idempotencyKey ≠ row.idempotencyKey := by
  rw [insertIdempotency] at h
  obtain ⟨hunique, h⟩ := ite_error_eq_ok.mp h
  obtain ⟨-, h⟩ := ite_error_eq_ok.mp h
  cases h
  refine ⟨rfl, fun i hi => ?_⟩
  simpa using any_eq_false hunique i hi

/-- An insert into `otmp_snapshots` that succeeds appends the row, under a new identifier. -/
theorem insertSnapshot_spec {row : SnapshotRow} (h : db.insertSnapshot row = .ok db') :
    db' = { db with snapshots := db.snapshots ++ [row] } ∧
      ∀ s ∈ db.snapshots, s.snapshotId ≠ row.snapshotId := by
  rw [insertSnapshot] at h
  obtain ⟨hunique, h⟩ := ite_error_eq_ok.mp h
  obtain ⟨-, h⟩ := ite_error_eq_ok.mp h
  obtain ⟨-, h⟩ := ite_error_eq_ok.mp h
  cases h
  refine ⟨rfl, fun s hs => ?_⟩
  have hfresh := any_eq_false hunique s hs
  rw [Bool.or_eq_false_iff] at hfresh
  exact beq_eq_false_iff_ne.mp hfresh.1

/-- An insert into `otmp_snapshot_summary` that succeeds appends the row and changes nothing else.
-/
theorem insertSummary_spec {row : SummaryRow} (h : db.insertSummary row = .ok db') :
    db' = { db with summaries := db.summaries ++ [row] } := by
  rw [insertSummary] at h
  obtain ⟨-, h⟩ := ite_error_eq_ok.mp h
  obtain ⟨-, h⟩ := ite_error_eq_ok.mp h
  cases h
  rfl

/-- An insert into `otmp_files` that succeeds appends the row and changes nothing else. -/
theorem insertFile_spec {row : FileRow} (h : db.insertFile row = .ok db') :
    db' = { db with files := db.files ++ [row] } := by
  rw [insertFile] at h
  obtain ⟨-, h⟩ := ite_error_eq_ok.mp h
  obtain ⟨-, h⟩ := ite_error_eq_ok.mp h
  obtain ⟨-, h⟩ := ite_error_eq_ok.mp h
  cases h
  rfl

/-- An insert into `otmp_file_metrics` that succeeds appends the row and changes nothing else. -/
theorem insertMetric_spec {row : MetricRow} (h : db.insertMetric row = .ok db') :
    db' = { db with metrics := db.metrics ++ [row] } := by
  rw [insertMetric] at h
  obtain ⟨-, h⟩ := ite_error_eq_ok.mp h
  obtain ⟨-, h⟩ := ite_error_eq_ok.mp h
  cases h
  rfl

/-- An insert into `otmp_snapshot_file_changes` that succeeds appends the row and changes nothing
else. -/
theorem insertChange_spec {row : ChangeRow} (h : db.insertChange row = .ok db') :
    db' = { db with changes := db.changes ++ [row] } := by
  rw [insertChange] at h
  obtain ⟨-, h⟩ := ite_error_eq_ok.mp h
  obtain ⟨-, h⟩ := ite_error_eq_ok.mp h
  cases h
  rfl

/-- An insert into `otmp_ref_live_files` that succeeds appends the row and changes nothing else. -/
theorem insertLiveFile_spec {row : LiveFileRow} (h : db.insertLiveFile row = .ok db') :
    db' = { db with liveFiles := db.liveFiles ++ [row] } := by
  rw [insertLiveFile] at h
  obtain ⟨-, h⟩ := ite_error_eq_ok.mp h
  obtain ⟨-, h⟩ := ite_error_eq_ok.mp h
  obtain ⟨-, h⟩ := ite_error_eq_ok.mp h
  cases h
  rfl

/-- An insert into `otmp_refs` that succeeds appends the row, under a name that was not in use. -/
theorem insertRef_spec {row : RefRow} (h : db.insertRef row = .ok db') :
    db' = { db with refs := db.refs ++ [row] } ∧
      (∀ r ∈ db.refs, r.refName ≠ row.refName) ∧
      ¬(row.refType = .tag ∧ row.snapshotId = none) := by
  rw [insertRef] at h
  obtain ⟨hunique, h⟩ := ite_error_eq_ok.mp h
  obtain ⟨hcheck, h⟩ := ite_error_eq_ok.mp h
  cases h
  refine ⟨rfl, fun r hr => ?_, fun htag => hcheck (.inr htag)⟩
  simpa using any_eq_false hunique r hr

/-- An update of refs that succeeds moves the selected ones, none of which is younger than the
update. -/
theorem updateRefs_spec {selected : RefRow → Bool} {target : Option Id} {version : ℕ}
    (h : db.updateRefs selected target version = .ok db') :
    db' = { db with refs := db.refs.map (retarget selected target version) } ∧
      ∀ r ∈ db.refs, selected r = true → r.createdVersion ≤ version ∧
        ¬(r.refType = .tag ∧ target = none) := by
  rw [updateRefs] at h
  obtain ⟨hcheck, h⟩ := ite_error_eq_ok.mp h
  cases h
  refine ⟨rfl, fun r hr hselected => ?_⟩
  have hr := any_eq_false hcheck r hr
  rw [hselected, Bool.true_and, Bool.or_eq_false_iff] at hr
  refine ⟨by simpa using hr.1, ?_⟩
  rintro ⟨htag, htarget⟩
  have hr := hr.2
  rw [htag, htarget] at hr
  cases hr

/-- What the deletion of a ref does. -/
theorem deleteRef_spec {name : String} (h : db.deleteRef name = .ok db') :
    db' = { db with refs := db.refs.filter (·.refName != name) } := by
  rw [deleteRef] at h
  obtain ⟨-, h⟩ := ite_error_eq_ok.mp h
  cases h
  rfl

/-- What the commit of a transaction does. -/
theorem commitTransaction_spec (h : db.commitTransaction = .ok db') :
    db' = db ∧ db.deferredKeysHold = true := by
  rw [commitTransaction] at h
  obtain ⟨hkeys, h⟩ := ite_ok_eq_ok.mp h
  cases h
  exact ⟨rfl, hkeys⟩

/-- What one metric of an append does. -/
theorem appendMetric_spec {fileId : Id} {m : ImageMetric} (h : db.appendMetric fileId m = .ok db') :
    db' = { db with metrics := db.metrics ++ [m.row fileId] } := by
  rw [appendMetric] at h
  obtain ⟨-, -, h⟩ := bind_eq_ok.mp h
  exact insertMetric_spec h

/-- What one entry of a summary does. -/
theorem appendSummary_spec {snapshotId : Id} {entry : String × CanonicalValue}
    (h : db.appendSummary snapshotId entry = .ok db') :
    db' = { db with summaries := db.summaries ++ [⟨snapshotId, entry.1, entry.2⟩] } := by
  rw [appendSummary] at h
  obtain ⟨text, htext, h⟩ := bind_eq_ok.mp h
  rw [canonicalText_eq (liftProtocol_eq_ok.mp htext)] at h
  exact insertSummary_spec h

/-- A database with the rows of appended files, of their metrics, their changes and their live rows.
-/
def withFiles (input : AppendImage) (db : Database) (files : List ImageFile) : Database :=
  { db with
    files := db.files ++ files.map input.fileRow
    metrics := db.metrics ++ files.flatMap fun file =>
      file.metrics.map (ImageMetric.row file.fileId)
    changes := db.changes ++ files.map input.changeRow
    liveFiles := db.liveFiles ++ files.map input.liveRow }

/-- What one file of an append does. -/
theorem appendFile_spec {input : AppendImage} {file : ImageFile}
    (h : db.appendFile input file = .ok db') : db' = db.withFiles input [file] := by
  rw [appendFile] at h
  obtain ⟨-, -, h⟩ := bind_eq_ok.mp h
  obtain ⟨-, -, h⟩ := bind_eq_ok.mp h
  obtain ⟨db₁, h₁, h⟩ := bind_eq_ok.mp h
  obtain ⟨db₂, h₂, h⟩ := bind_eq_ok.mp h
  obtain ⟨db₃, h₃, h⟩ := bind_eq_ok.mp h
  have hmetrics := runAll_extend
    (fun (db : Database) rows => { db with metrics := db.metrics ++ rows })
    (ImageMetric.row file.fileId)
    (fun db => by simp) (fun db xs ys => by simp) appendMetric_spec h₂
  rw [insertLiveFile_spec h, insertChange_spec h₃, hmetrics, insertFile_spec h₁, withFiles,
    List.flatMap_singleton]
  rfl

/-- The database after an append, with all rows of the new snapshot, its files and its commit. -/
def appended (input : AppendImage) (db : Database) : Database :=
  { db.withFiles input input.files with
    tableMeta :=
      { db.tableMeta with
        tableVersion := input.tableVersion
        semanticStateSha256 := input.semanticState
        lastCommitId := input.commitId
        lastCommitSha256 := input.commitHash
        lastSequenceNumber := input.sequenceNumber }
    snapshots := db.snapshots ++ [input.snapshotRow db.tableMeta.currentSchemaId]
    summaries := db.summaries ++ input.summary.toList.map fun e => ⟨input.snapshotId, e.1, e.2⟩
    refs := db.refs.map (retarget (fun r => r.refName == input.targetRef && r.refType == .branch)
      (some input.snapshotId) input.tableVersion)
    commits := db.commits ++ [input.commitRow]
    idempotency := db.idempotency ++ [input.idempotencyRow] }

/-- What an append has checked before it changes anything: the next version, new keys, and one
target branch that is not younger than the append. -/
structure Appendable (input : AppendImage) (db : Database) : Prop where
  version_eq : input.tableVersion = db.tableMeta.tableVersion + 1
  version_le : input.tableVersion ≤ i64Max
  sequence_le : input.sequenceNumber ≤ i64Max
  snapshot_fresh : ∀ s ∈ db.snapshots, s.snapshotId ≠ input.snapshotId
  key_fresh : ∀ i ∈ db.idempotency, i.idempotencyKey ≠ input.idempotencyKey
  target_unique : (db.refs.filter fun r => r.refName == input.targetRef &&
    r.refType == .branch).length = 1
  target_created : ∀ r ∈ db.refs, r.refName = input.targetRef → r.refType = .branch →
    r.createdVersion ≤ input.tableVersion

/-- **What an append does.** An append that succeeds has checked what it must and has added exactly
the rows of its snapshot, its files and its commit. -/
theorem mutateAppend_spec {input : AppendImage} (h : db.mutateAppend input = .ok db') :
    db' = db.appended input ∧ db.Appendable input := by
  rw [mutateAppend] at h
  obtain ⟨hversion, h⟩ := ite_error_eq_ok.mp h
  obtain ⟨_, hsequence, h⟩ := bind_eq_ok.mp h
  obtain ⟨-, -, h⟩ := bind_eq_ok.mp h
  obtain ⟨db₁, h₁, h⟩ := bind_eq_ok.mp h
  obtain ⟨db₂, h₂, h⟩ := bind_eq_ok.mp h
  obtain ⟨db₃, h₃, h⟩ := bind_eq_ok.mp h
  obtain ⟨hunique, h⟩ := ite_error_eq_ok.mp h
  obtain ⟨db₄, h₄, h⟩ := bind_eq_ok.mp h
  obtain ⟨db₅, h₅, h⟩ := bind_eq_ok.mp h
  obtain ⟨db₆, h₆, h⟩ := bind_eq_ok.mp h
  cases h
  obtain ⟨e₁, hfresh⟩ := insertSnapshot_spec h₁
  have e₂ := runAll_extend
    (fun (db : Database) rows => { db with summaries := db.summaries ++ rows })
    (fun e : String × CanonicalValue => ⟨input.snapshotId, e.1, e.2⟩)
    (fun db => by simp) (fun db xs ys => by simp) appendSummary_spec h₂
  have e₃ := runAll_extend (fun db files => db.withFiles input files)
    (fun file => file) (fun db => by simp [withFiles])
    (fun db xs ys => by simp [withFiles]) appendFile_spec h₃
  rw [List.map_id'] at e₃
  obtain ⟨e₄, hrefs⟩ := updateRefs_spec h₄
  have e₅ := insertCommit_spec h₅
  obtain ⟨e₆, hkey⟩ := insertIdempotency_spec h₆
  have hrefs₃ : db₃.refs = db.refs := by rw [e₃, e₂, e₁, withFiles]
  have hkeys₅ : db₅.idempotency = db.idempotency := by
    rw [e₅, e₄, e₃, e₂, e₁, withFiles]
  rw [hrefs₃] at hunique hrefs
  rw [hkeys₅] at hkey
  refine ⟨?_, by omega, by omega, checkI64_eq_ok.mp hsequence, hfresh, hkey, by omega,
    fun r hr hname htype => (hrefs r hr (by simp [hname, htype])).1⟩
  subst e₆ e₅ e₄ e₃ e₂ e₁
  rfl

end Database

end Otmp
