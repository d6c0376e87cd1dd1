import Mathlib.Data.List.Perm.Subperm
import Otmp.Image.Ancestry
import Otmp.Image.Relations

/-!
# The relational invariant

What holds of the tables between transactions. The invariant is stated in terms of the
rows themselves; the checks that a reader runs on an image follow from it.
-/

namespace Otmp

open Foundation CanonicalValue

namespace Database

/-- The commits of a database and their idempotency rows. -/
structure CommitsConsistent (db : Database) : Prop where
  /-- One commit for every version up to the current one, in order. -/
  versions : db.commits.map CommitRow.tableVersion = List.range (db.tableMeta.tableVersion + 1)
  /-- One idempotency row for every commit, in order. -/
  paired : db.idempotency.map (fun i => (i.commitId, i.tableVersion)) =
    db.commits.map fun c => (c.commitId, c.tableVersion)
  intentCount : ∀ c ∈ db.commits, c.intentCount = 1
  /-- No key is used twice. -/
  keys : (db.idempotency.map IdempotencyRow.idempotencyKey).Nodup
  version_le : db.tableMeta.tableVersion ≤ i64Max

/-- The snapshots of a database and the files they add. -/
structure SnapshotsConsistent (db : Database) : Prop where
  /-- The sequence numbers are those from 1 to the last one, in order. -/
  sequences : db.snapshots.map SnapshotRow.sequenceNumber =
    List.range' 1 db.tableMeta.lastSequenceNumber
  sequence_le : db.tableMeta.lastSequenceNumber ≤ i64Max
  ids : (db.snapshots.map SnapshotRow.snapshotId).Nodup
  v7 : ∀ s ∈ db.snapshots, s.snapshotId.isV7 = true
  /-- At most one snapshot for every version, in order. -/
  versions : (db.snapshots.map SnapshotRow.committedTableVersion).Pairwise (· < ·)
  version_pos : ∀ s ∈ db.snapshots, 1 ≤ s.committedTableVersion
  version_le : ∀ s ∈ db.snapshots, s.committedTableVersion ≤ db.tableMeta.tableVersion
  /-- A parent is an older snapshot. -/
  parents : ∀ s ∈ db.snapshots, ∀ p ∈ s.parentSnapshotId, ∃ t ∈ db.snapshots, t.snapshotId = p ∧
    t.sequenceNumber < s.sequenceNumber ∧ t.committedTableVersion < s.committedTableVersion
  operations : ∀ s ∈ db.snapshots, s.operation = .append
  changes : ∀ c ∈ db.changes, c.changeKind = .add ∧
    (∃ s ∈ db.snapshots, s.snapshotId = c.snapshotId) ∧ ∃ f ∈ db.files, f.fileId = c.fileId
  files : ∀ f ∈ db.files, fileOutsideProfile f = false

/-- The live rows of a branch are those that the ancestry of its tip added. -/
def LiveMatches (db : Database) (r : RefRow) : Prop :=
  ∃ chain, db.Ancestors r.snapshotId chain ∧
    ∀ l : LiveFileRow, l.refName = r.refName →
      (l ∈ db.liveFiles ↔ ∃ id ∈ chain, l ∈ db.liveRowsOf r.refName id)

/-- The refs of a database and their live rows, up to a version. -/
structure RefsConsistent (db : Database) (version : ℕ) : Prop where
  names : (db.refs.map RefRow.refName).Nodup
  main : ∃ r ∈ db.refs, r.refName = "main" ∧ r.refType = .branch ∧ r.createdVersion = 0
  created_le : ∀ r ∈ db.refs, r.createdVersion ≤ r.updatedVersion
  updated_le : ∀ r ∈ db.refs, r.updatedVersion ≤ version
  tags : ∀ r ∈ db.refs, r.refType = .tag → r.snapshotId ≠ none
  /-- Only branches have live rows. -/
  live_branch : ∀ l ∈ db.liveFiles, ∃ r ∈ db.refs, r.refName = l.refName ∧ r.refType = .branch
  live : ∀ r ∈ db.refs, r.refType = .branch → db.LiveMatches r

/-- The relational invariant of every table that the runtime publishes: its commits, its snapshots,
its refs and its live files agree. -/
structure Consistent (db : Database) : Prop where
  commits : db.CommitsConsistent
  snapshots : db.SnapshotsConsistent
  refs : db.RefsConsistent db.tableMeta.tableVersion
  /-- Every target exists. -/
  targets : ∀ r ∈ db.refs, ∀ id ∈ r.snapshotId, ∃ s ∈ db.snapshots, s.snapshotId = id

variable {db : Database}

/-- Two refs of one name are one. -/
theorem RefsConsistent.ref_unique {version : ℕ} (h : db.RefsConsistent version) {r r' : RefRow}
    (hr : r ∈ db.refs) (hr' : r' ∈ db.refs) (hname : r.refName = r'.refName) : r = r' :=
  List.inj_on_of_nodup_map h.names hr hr' hname

namespace SnapshotsConsistent

/-- A snapshot is found by its identifier. -/
theorem findSnapshot_of_mem (h : db.SnapshotsConsistent) {s : SnapshotRow}
    (hs : s ∈ db.snapshots) : db.findSnapshot s.snapshotId = some s := by
  rw [findSnapshot]
  cases hfind : db.snapshots.find? (·.snapshotId == s.snapshotId) with
  | none =>
    rw [List.find?_eq_none] at hfind
    exact absurd (beq_self_eq_true _) (hfind s hs)
  | some t =>
    obtain ⟨ht, hid⟩ := findSnapshot_eq_some hfind
    rw [List.inj_on_of_nodup_map h.ids ht hs hid]

/-- A parent has a smaller sequence number. -/
theorem parent_sequence_lt (h : db.SnapshotsConsistent) {s row : SnapshotRow}
    (hs : s ∈ db.snapshots) {p : Id} (hp : p ∈ s.parentSnapshotId)
    (hrow : db.findSnapshot p = some row) : row.sequenceNumber < s.sequenceNumber := by
  obtain ⟨t, ht, rfl, hlt, -⟩ := h.parents s hs p hp
  rw [h.findSnapshot_of_mem ht] at hrow
  cases hrow
  exact hlt

/-- Every sequence number is within the range. -/
theorem sequence_mem (h : db.SnapshotsConsistent) {s : SnapshotRow} (hs : s ∈ db.snapshots) :
    1 ≤ s.sequenceNumber ∧ s.sequenceNumber ≤ db.tableMeta.lastSequenceNumber := by
  have hmem := List.mem_map_of_mem (f := SnapshotRow.sequenceNumber) hs
  rw [h.sequences, List.mem_range'_1] at hmem
  omega

/-- A snapshot that exists has an ancestry. -/
theorem exists_ancestors (h : db.SnapshotsConsistent) {s : SnapshotRow} (hs : s ∈ db.snapshots) :
    ∃ chain, db.Ancestors (some s.snapshotId) chain := by
  refine Chain.exists_of_rank
    (fun id => ((db.findSnapshot id).map SnapshotRow.sequenceNumber).getD 0) ?_ ?_
  · intro a p hparent
    rw [parentOf] at hparent
    obtain ⟨row, hrow, hp⟩ := Option.map_eq_some_iff.mp hparent
    obtain ⟨hmem, -⟩ := findSnapshot_eq_some hrow
    obtain ⟨t, ht, rfl, hlt, -⟩ := h.parents row hmem p hp
    have hfind := h.findSnapshot_of_mem ht
    refine ⟨⟨t.parentSnapshotId, by rw [parentOf, hfind]; rfl⟩, ?_⟩
    rw [hfind, hrow]
    exact hlt
  · exact ⟨s.parentSnapshotId, by rw [parentOf, h.findSnapshot_of_mem hs]; rfl⟩

/-- The walk of readers finds the ancestry. -/
theorem ancestry_eq_ok (h : db.SnapshotsConsistent) {tip : Option Id} {chain : List Id}
    (hchain : db.Ancestors tip chain) : db.ancestry tip = .ok chain := by
  refine ancestryFrom_complete h.v7 (fun _ _ => rfl)
    (fun s hs p hp row hrow => h.parent_sequence_lt hs hp hrow) nofun ?_ hchain
  intro id _ row hrow
  obtain ⟨hmem, -⟩ := findSnapshot_eq_some hrow
  have hle := (h.sequence_mem hmem).2
  have hbound : db.tableMeta.lastSequenceNumber ≤ 2 ^ 63 - 1 := h.sequence_le
  rw [u64Max]
  omega

/-- The number of snapshots is the last sequence number. -/
theorem length_sequences (h : db.SnapshotsConsistent) :
    (db.snapshots.map SnapshotRow.sequenceNumber).length = db.tableMeta.lastSequenceNumber := by
  rw [h.sequences, List.length_range']

/-- The last sequence number is the largest. -/
theorem max_sequences (h : db.SnapshotsConsistent) :
    (db.snapshots.map SnapshotRow.sequenceNumber).max?.getD 0 =
      db.tableMeta.lastSequenceNumber := by
  rw [h.sequences]
  cases hn : db.tableMeta.lastSequenceNumber with
  | zero => rfl
  | succ n =>
    have hmax : (List.range' 1 (n + 1)).max? = some (n + 1) := by
      rw [List.max?_eq_some_iff]
      refine ⟨List.mem_range'_1.mpr (by omega), fun b hb => ?_⟩
      have := List.mem_range'_1.mp hb
      omega
    rw [hmax]
    rfl

/-- No two snapshots have one version, so that the check for it never fails. -/
theorem not_repeated (h : db.SnapshotsConsistent) (s : SnapshotRow) :
    db.snapshotRepeated s = false := by
  have hnodup : (db.snapshots.map SnapshotRow.committedTableVersion).Nodup :=
    h.versions.imp fun hlt => Nat.ne_of_lt hlt
  have hcount := List.nodup_iff_count_le_one.mp hnodup s.committedTableVersion
  rw [List.count, List.countP_map] at hcount
  rw [snapshotRepeated, decide_eq_false_iff_not, not_lt]
  exact hcount

/-- Every parent is in order: it is there, and it comes earlier in the sequence. -/
theorem parent_valid (h : db.SnapshotsConsistent) {s : SnapshotRow} (hs : s ∈ db.snapshots) :
    db.parentInvalid s = false := by
  rw [parentInvalid]
  cases hp : s.parentSnapshotId with
  | none => rfl
  | some p =>
    obtain ⟨t, ht, rfl, hsequence, hversion⟩ := h.parents s hs p hp
    simp only [Option.any_some, h.findSnapshot_of_mem ht, Bool.or_eq_false_iff,
      decide_eq_false_iff_not, not_le]
    exact ⟨hsequence, hversion⟩

end SnapshotsConsistent

/-- The history of a consistent database passes its check. -/
theorem Consistent.validateRelationalHistory_eq_ok (h : db.Consistent) :
    db.validateRelationalHistory db.tableMeta.tableVersion db.tableMeta.lastSequenceNumber =
      .ok () := by
  have hinvalid : db.snapshots.any (snapshotInvalid db.tableMeta.tableVersion) = false := by
    rw [List.any_eq_false]
    intro s hs
    have hpos := h.snapshots.version_pos s hs
    have hle := h.snapshots.version_le s hs
    have hsequence := (h.snapshots.sequence_mem hs).1
    simp only [snapshotInvalid, Bool.or_eq_true, decide_eq_true_eq]
    omega
  have hrepeated : db.snapshots.any db.snapshotRepeated = false := by
    rw [List.any_eq_false]
    intro s _
    rw [h.snapshots.not_repeated s]
    exact Bool.false_ne_true
  have hparents : db.snapshots.any db.parentInvalid = false := by
    rw [List.any_eq_false]
    intro s hs
    rw [h.snapshots.parent_valid hs]
    exact Bool.false_ne_true
  have hrefs : db.refs.any (refInvalid db.tableMeta.tableVersion) = false := by
    rw [List.any_eq_false]
    intro r hr
    have hcreated := h.refs.created_le r hr
    have hupdated := h.refs.updated_le r hr
    have htag := h.refs.tags r hr
    simp only [refInvalid, Bool.or_eq_true, decide_eq_true_eq, Bool.and_eq_true, beq_iff_eq]
    rintro ((hlt | hlt) | ⟨hkind, hnone⟩)
    · omega
    · omega
    · exact htag hkind hnone
  have hmain : db.refs.any isMain = true := by
    obtain ⟨r, hr, hname, hkind, hcreated⟩ := h.refs.main
    rw [List.any_eq_true]
    exact ⟨r, hr, by simp [isMain, hname, hkind, hcreated]⟩
  have hnodup : (db.snapshots.map SnapshotRow.sequenceNumber).Nodup := by
    rw [h.snapshots.sequences]
    exact List.nodup_range'
  rw [validateRelationalHistory, check_eq_ok, checkI64_eq_ok]
  refine ⟨h.commits.version_le, ?_⟩
  dsimp only
  rw [hnodup.dedup, h.snapshots.max_sequences, h.snapshots.length_sequences, hinvalid, hrepeated,
    hparents, hrefs, hmain]
  simp

/-- The commits of a consistent database pass their checks, while their number fits. -/
theorem CommitsConsistent.validateCommits_eq_ok (h : db.CommitsConsistent)
    (hfits : db.tableMeta.tableVersion < i64Max) :
    db.validateCommits db.tableMeta.tableVersion = .ok () := by
  have hnodup : (db.commits.map fun c => (c.commitId, c.tableVersion)).Nodup := by
    refine List.Nodup.of_map Prod.snd ?_
    rw [List.map_map]
    change (db.commits.map CommitRow.tableVersion).Nodup
    rw [h.versions]
    exact List.nodup_range
  have hpaired : db.commitsPaired = true := by
    rw [commitsPaired, List.all_eq_true]
    intro c hc
    have hcount : (db.idempotency.map fun i => (i.commitId, i.tableVersion)).count
        (c.commitId, c.tableVersion) = 1 := by
      rw [h.paired]
      exact List.count_eq_one_of_mem hnodup
        (List.mem_map_of_mem (f := fun c : CommitRow => (c.commitId, c.tableVersion)) hc)
    rw [List.count, List.countP_map] at hcount
    rw [beq_iff_eq, h.intentCount c hc, ← hcount]
    rfl
  have hcontiguous : db.commitsContiguous db.tableMeta.tableVersion = true := by
    have hmin : (List.range (db.tableMeta.tableVersion + 1)).min? = some 0 := by
      rw [List.min?_eq_some_iff]
      exact ⟨List.mem_range.mpr (by omega), fun _ _ => Nat.zero_le _⟩
    have hmax : (List.range (db.tableMeta.tableVersion + 1)).max? =
        some db.tableMeta.tableVersion := by
      rw [List.max?_eq_some_iff]
      refine ⟨List.mem_range.mpr (by omega), fun b hb => ?_⟩
      have := List.mem_range.mp hb
      omega
    rw [commitsContiguous, h.versions, hmin, hmax, List.length_range]
    simp only [beq_self_eq_true, Bool.and_true, decide_eq_true_eq]
    omega
  rw [validateCommits, hpaired, hcontiguous]
  rfl

/-- A row that a snapshot contributes to a branch. -/
theorem mem_liveRowsOf {name : String} {id : Id} {l : LiveFileRow} :
    l ∈ db.liveRowsOf name id ↔ ∃ row, db.findSnapshot id = some row ∧ ∃ c ∈ db.changes,
      c.snapshotId = id ∧ c.changeKind = .add ∧
        l = ⟨name, c.fileId, id, row.sequenceNumber, row.sequenceNumber⟩ := by
  rw [liveRowsOf]
  cases hfind : db.findSnapshot id with
  | none => simp
  | some row =>
    simp only [List.mem_map, List.mem_filter, Bool.and_eq_true, beq_iff_eq, Option.some.injEq,
      exists_eq_left', and_assoc, eq_comm (a := l)]

/-- Two lists have the same rows when their members are the same. -/
theorem sameRows_eq_true {xs ys : List LiveFileRow} (h : ∀ l, l ∈ xs ↔ l ∈ ys) :
    sameRows xs ys = true := by
  simp [sameRows, h]

/-- The targets of refs are identifiers of the runtime. -/
theorem Consistent.target_v7 (h : db.Consistent) {r : RefRow} (hr : r ∈ db.refs) :
    ∀ id ∈ r.snapshotId, id.isV7 = true := by
  intro id hid
  obtain ⟨s, hs, rfl⟩ := h.targets r hr id hid
  exact h.snapshots.v7 s hs

/-- The live rows of a ref pass their check. -/
theorem Consistent.validateMembership_eq_ok (h : db.Consistent) {r : RefRow} (hr : r ∈ db.refs) :
    db.validateMembership r = .ok () := by
  rw [validateMembership, expectedRows]
  cases hkind : r.refType with
  | tag =>
    have hnone : ∀ l, l ∈ db.liveFiles.filter (·.refName == r.refName) ↔ l ∈ [] := by
      intro l
      simp only [List.mem_filter, beq_iff_eq, List.not_mem_nil, iff_false, not_and]
      intro hl hname
      obtain ⟨r', hr', hname', hbranch⟩ := h.refs.live_branch l hl
      rw [h.refs.ref_unique hr' hr (hname'.trans hname), hkind] at hbranch
      cases hbranch
    rw [ok_bind rfl, if_pos (sameRows_eq_true hnone)]
  | branch =>
    obtain ⟨chain, hchain, hlive⟩ := h.refs.live r hr hkind
    have hsame : ∀ l, l ∈ db.liveFiles.filter (·.refName == r.refName) ↔
        l ∈ chain.flatMap (db.liveRowsOf r.refName) := by
      intro l
      rw [List.mem_filter, beq_iff_eq, List.mem_flatMap]
      constructor
      · rintro ⟨hl, hname⟩
        exact (hlive l hname).mp hl
      · rintro ⟨id, hid, hl⟩
        have hname : l.refName = r.refName := by
          obtain ⟨_, _, _, _, _, _, rfl⟩ := mem_liveRowsOf.mp hl
          rfl
        exact ⟨(hlive l hname).mpr ⟨id, hid, hl⟩, hname⟩
    dsimp only
    rw [optionalIdFromBlob_of_v7 (h.target_v7 hr), ok_bind rfl, h.snapshots.ancestry_eq_ok hchain,
      ok_bind rfl, pure_bind, if_pos (sameRows_eq_true hsame)]

/-- A live row has its file and the change that added it. -/
theorem Consistent.live_valid (h : db.Consistent) {l : LiveFileRow} (hl : l ∈ db.liveFiles) :
    db.liveInvalid l = false := by
  obtain ⟨r, hr, hname, hkind⟩ := h.refs.live_branch l hl
  obtain ⟨chain, -, hlive⟩ := h.refs.live r hr hkind
  obtain ⟨id, -, hrow⟩ := (hlive l hname.symm).mp hl
  obtain ⟨row, -, c, hc, hsnapshot, hadd, rfl⟩ := mem_liveRowsOf.mp hrow
  obtain ⟨-, -, f, hf, hfile⟩ := h.snapshots.changes c hc
  have hfiles : db.files.any (·.fileId == c.fileId) = true :=
    List.any_eq_true.mpr ⟨f, hf, beq_iff_eq.mpr hfile⟩
  have hchanges : (db.changes.any fun c' => c'.snapshotId == id && c'.fileId == c.fileId &&
      c'.changeKind == .add) = true :=
    List.any_eq_true.mpr ⟨c, hc, by rw [hsnapshot, hadd]; simp⟩
  rw [liveInvalid, hfiles, hchanges]
  rfl

/-- The relational checks of a consistent database pass. -/
theorem Consistent.validateRelations_eq_ok (h : db.Consistent) :
    db.validateRelations db.tableMeta.tableVersion = .ok () := by
  have htargets : db.refs.any db.targetMissing = false := by
    rw [List.any_eq_false]
    intro r hr
    rw [targetMissing, Bool.not_eq_true]
    cases htarget : r.snapshotId with
    | none => rfl
    | some id =>
      obtain ⟨s, hs, hid⟩ := h.targets r hr id htarget
      have hany : db.snapshots.any (·.snapshotId == id) = true :=
        List.any_eq_true.mpr ⟨s, hs, beq_iff_eq.mpr hid⟩
      rw [Option.any_some, hany]
      rfl
  have hlive : db.liveFiles.any db.liveInvalid = false := by
    rw [List.any_eq_false]
    intro l hl
    rw [h.live_valid hl]
    exact Bool.false_ne_true
  have hchanges : db.changes.any (·.changeKind != .add) = false := by
    rw [List.any_eq_false]
    intro c hc
    rw [(h.snapshots.changes c hc).1]
    exact Bool.false_ne_true
  have hoperations : db.snapshots.any (·.operation != .append) = false := by
    rw [List.any_eq_false]
    intro s hs
    rw [h.snapshots.operations s hs]
    exact Bool.false_ne_true
  have hfiles : db.files.any fileOutsideProfile = false := by
    rw [List.any_eq_false]
    intro f hf
    rw [h.snapshots.files f hf]
    exact Bool.false_ne_true
  rw [validateRelations, check_eq_ok, htargets, hlive, hchanges, hoperations, hfiles]
  refine ⟨h.validateRelationalHistory_eq_ok, ?_⟩
  simp only [Bool.false_eq_true, if_false, or_self]
  exact checkAll_eq_ok.mpr fun r hr => h.validateMembership_eq_ok hr

end Database

end Otmp
