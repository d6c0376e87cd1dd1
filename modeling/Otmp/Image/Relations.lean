import Mathlib.Data.List.Dedup
import Otmp.Image.Mutations

/-!
# The relational checks of an image

A reader checks an image before it uses it: commits are contiguous and paired with
their idempotency rows, snapshots are numbered without gaps, parents come before
children, refs have targets, and the live files of every branch are those that the
ancestry of its tip added.
-/

namespace Otmp

open Foundation CanonicalValue

namespace Database

/-- Every commit has as many idempotency rows as it counts intents. -/
def commitsPaired (db : Database) : Bool :=
  db.commits.all fun c => c.intentCount == db.idempotency.countP fun i =>
    i.commitId == c.commitId && i.tableVersion == c.tableVersion

/-- The commits run from version 0 to the head; their number has to fit a table integer. -/
def commitsContiguous (db : Database) (tableVersion : ℕ) : Bool :=
  let versions := db.commits.map CommitRow.tableVersion
  decide (tableVersion + 1 ≤ i64Max) && versions.length == tableVersion + 1 &&
    versions.min? == some 0 && versions.max? == some tableVersion

/-- A snapshot outside the range of versions and sequence numbers. -/
def snapshotInvalid (version : ℕ) (s : SnapshotRow) : Bool :=
  s.committedTableVersion < 1 || version < s.committedTableVersion || s.sequenceNumber < 1

/-- A snapshot whose version another snapshot has too, though versions are unique. -/
def snapshotRepeated (db : Database) (s : SnapshotRow) : Bool :=
  1 < db.snapshots.countP fun t => t.committedTableVersion == s.committedTableVersion

/-- A snapshot whose parent is missing or not older. -/
def parentInvalid (db : Database) (s : SnapshotRow) : Bool :=
  s.parentSnapshotId.any fun parent => match db.findSnapshot parent with
    | none => true
    | some p => decide (s.sequenceNumber ≤ p.sequenceNumber) ||
        decide (s.committedTableVersion ≤ p.committedTableVersion)

/-- A ref with disordered versions or a tag without a target. -/
def refInvalid (version : ℕ) (r : RefRow) : Bool :=
  r.updatedVersion < r.createdVersion || version < r.updatedVersion ||
    r.refType == .tag && r.snapshotId == none

/-- The row of the main branch, which genesis made and nothing may remove. -/
def isMain (r : RefRow) : Bool :=
  r.refName == "main" && r.refType == .branch && r.createdVersion == 0

/-- The history of snapshots and refs: sequence numbers count up to the recorded one, parents come
earlier, and the main branch is there. -/
def validateRelationalHistory (db : Database) (tableVersion lastSequenceNumber : ℕ) :
    Except RuntimeError Unit := do
  checkI64 tableVersion "table version"
  let sequences := db.snapshots.map SnapshotRow.sequenceNumber
  let maximum := sequences.max?.getD 0
  if db.snapshots.any (snapshotInvalid tableVersion) = true ∨
      db.snapshots.any db.snapshotRepeated = true ∨
      sequences.length ≠ sequences.dedup.length ∨ sequences.length ≠ maximum ∨
      maximum ≠ lastSequenceNumber ∨ db.snapshots.any db.parentInvalid = true ∨
      db.refs.any (refInvalid tableVersion) = true ∨ db.refs.any isMain = false then
    .error (.corrupt "snapshot, sequence, ancestry, or ref invariant violated")
  else .ok ()

/-- A ref whose target is not among the snapshots. -/
def targetMissing (db : Database) (r : RefRow) : Bool :=
  r.snapshotId.any fun target => !db.snapshots.any (·.snapshotId == target)

/-- A live row without its file or without the change that added it. -/
def liveInvalid (db : Database) (l : LiveFileRow) : Bool :=
  !db.files.any (·.fileId == l.fileId) ||
    !db.changes.any fun c => c.snapshotId == l.addedSnapshotId && c.fileId == l.fileId &&
      c.changeKind == .add

/-- A file outside the profile of the runtime, which writes verified Parquet data files only. -/
def fileOutsideProfile (f : FileRow) : Bool :=
  f.fileKind != .data || f.fileFormat != "parquet" || f.objectIdentity.isSome ||
    f.partitionSpecId != 0 || f.sortOrderId != 0 || f.contentSha256.isNone

/-- Whether two lists have the same rows, in whatever order. -/
def sameRows (xs ys : List LiveFileRow) : Bool :=
  xs.all (fun x => ys.contains x) && ys.all fun y => xs.contains y

/-- The live rows that a ref has to have. -/
def expectedRows (db : Database) (r : RefRow) : Except RuntimeError (List LiveFileRow) :=
  match r.refType with
  | .tag => .ok []
  | .branch => do
    let target ← optionalIdFromBlob r.snapshotId
    let chain ← db.ancestry target
    return chain.flatMap (db.liveRowsOf r.refName)

/-- The live rows of a ref against the ancestry of its tip. -/
def validateMembership (db : Database) (r : RefRow) : Except RuntimeError Unit := do
  let expected ← db.expectedRows r
  if sameRows (db.liveFiles.filter (·.refName == r.refName)) expected then .ok ()
  else .error (.corrupt "materialized membership differs from snapshot ancestry")

/-- The checks of commits, up to the comparison with the previous state. -/
def validateCommits (db : Database) (tableVersion : ℕ) : Except RuntimeError Unit :=
  if db.commitsPaired = false then .error (.corrupt "commit/idempotency pairing mismatch")
  else if db.commitsContiguous tableVersion = false then
    .error (.corrupt "relational commit history is not contiguous through HEAD")
  else .ok ()

/-- The checks of snapshots, refs and live files, with the live rows of each ref derived again from
its ancestry. -/
def validateRelations (db : Database) (tableVersion : ℕ) : Except RuntimeError Unit := do
  db.validateRelationalHistory tableVersion db.tableMeta.lastSequenceNumber
  if db.refs.any db.targetMissing = true then .error (.corrupt "ref references missing snapshot")
  else if db.liveFiles.any db.liveInvalid = true then
    .error (.corrupt "live membership is inconsistent")
  else if db.changes.any (·.changeKind != .add) = true ∨
      db.snapshots.any (·.operation != .append) = true ∨
      db.files.any fileOutsideProfile = true then
    .error (.corrupt
      "relational state uses features outside the local/full-image profile append profile")
  else checkAll db.validateMembership db.refs

end Database

end Otmp
