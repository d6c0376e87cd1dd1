import Otmp.Image.Invariant

/-!
# Genesis and append keep the invariant

Genesis establishes the relational invariant. An append adds a snapshot that nothing
refers to yet, so the ancestries of the other branches stay as they are, while the
target branch gains the new snapshot and its files.
-/

namespace Otmp

open Foundation CanonicalValue

namespace Database

variable {db db' : Database}

/-- A later database knows the same of every snapshot that an earlier one knows. -/
structure Keeps (db db' : Database) : Prop where
  findSnapshot : ∀ {id row}, db.findSnapshot id = some row → db'.findSnapshot id = some row
  liveRowsOf : ∀ {id row} (name : String), db.findSnapshot id = some row →
    db'.liveRowsOf name id = db.liveRowsOf name id

/-- Databases with the same snapshots and changes know the same. -/
theorem Keeps.of_eq (hsnapshots : db'.snapshots = db.snapshots)
    (hchanges : db'.changes = db.changes) :
    db.Keeps db' := by
  have hfind : ∀ id, db'.findSnapshot id = db.findSnapshot id := by
    intro id
    rw [Database.findSnapshot, hsnapshots, Database.findSnapshot]
  refine ⟨fun h => (hfind _).trans h, fun name _ => ?_⟩
  rw [Database.liveRowsOf, hfind, hchanges, Database.liveRowsOf]

/-- Ancestries stay as they are when no snapshot changes its parent. -/
theorem Keeps.ancestors (h : db.Keeps db') {tip : Option Id} {chain : List Id}
    (hchain : db.Ancestors tip chain) : db'.Ancestors tip chain := by
  refine hchain.congr fun id hid => ?_
  obtain ⟨next, hnext⟩ := hchain.known hid
  rw [hnext]
  rw [parentOf] at hnext
  obtain ⟨row, hrow, rfl⟩ := Option.map_eq_some_iff.mp hnext
  rw [parentOf, h.findSnapshot hrow]
  rfl

/-- A snapshot of an ancestry is known. -/
theorem Ancestors.findSnapshot {tip : Option Id} {chain : List Id} (h : db.Ancestors tip chain)
    {id : Id} (hid : id ∈ chain) : ∃ row, db.findSnapshot id = some row := by
  obtain ⟨next, hnext⟩ := h.known hid
  rw [parentOf] at hnext
  obtain ⟨row, hrow, -⟩ := Option.map_eq_some_iff.mp hnext
  exact ⟨row, hrow⟩

/-- The live rows of a branch still match when neither they nor its tip change. -/
theorem LiveMatches.keep {r r' : RefRow} (h : db.LiveMatches r) (hkeeps : db.Keeps db')
    (hname : r'.refName = r.refName) (htarget : r'.snapshotId = r.snapshotId)
    (hlive : ∀ l, l.refName = r.refName → (l ∈ db'.liveFiles ↔ l ∈ db.liveFiles)) :
    db'.LiveMatches r' := by
  obtain ⟨chain, hchain, hrows⟩ := h
  refine ⟨chain, htarget ▸ hkeeps.ancestors hchain, fun l hl => ?_⟩
  rw [hname] at hl ⊢
  rw [hlive l hl, hrows l hl]
  refine exists_congr fun id => and_congr_right fun hid => ?_
  obtain ⟨row, hrow⟩ := Ancestors.findSnapshot hchain hid
  rw [hkeeps.liveRowsOf r.refName hrow]

section

variable {selected : RefRow → Bool} {target : Option Id} {version : ℕ}

/-- Moving a reference keeps its name. -/
theorem retarget_refName (r : RefRow) :
    (retarget selected target version r).refName = r.refName := by
  rw [retarget]
  split <;> rfl

/-- Moving a reference keeps its type. -/
theorem retarget_refType (r : RefRow) :
    (retarget selected target version r).refType = r.refType := by
  rw [retarget]
  split <;> rfl

/-- Moving a reference keeps the version it was created at. -/
theorem retarget_createdVersion (r : RefRow) :
    (retarget selected target version r).createdVersion = r.createdVersion := by
  rw [retarget]
  split <;> rfl

/-- The refs after the target of some is set. -/
theorem RefsConsistent.retargeted {before : ℕ} (hdb : db.RefsConsistent before)
    (hversion : before ≤ version)
    (hrefs : db'.refs = db.refs.map (retarget selected target version))
    (hselected : ∀ r ∈ db.refs, selected r = true → r.createdVersion ≤ version ∧
      ¬(r.refType = .tag ∧ target = none))
    (hbranch : ∀ l ∈ db'.liveFiles, ∃ r ∈ db.refs, r.refName = l.refName ∧ r.refType = .branch)
    (hlive : ∀ r ∈ db.refs, r.refType = .branch →
      db'.LiveMatches (retarget selected target version r)) : db'.RefsConsistent version := by
  have hmem : ∀ r' ∈ db'.refs, ∃ r ∈ db.refs, r' = retarget selected target version r := by
    intro r' hr'
    rw [hrefs] at hr'
    obtain ⟨r, hr, rfl⟩ := List.mem_map.mp hr'
    exact ⟨r, hr, rfl⟩
  have hmem' : ∀ r ∈ db.refs, retarget selected target version r ∈ db'.refs :=
    fun r hr => hrefs ▸ List.mem_map_of_mem hr
  refine ⟨?_, ?_, fun r' hr' => ?_, fun r' hr' => ?_, fun r' hr' htag => ?_, fun l hl => ?_,
    fun r' hr' hkind => ?_⟩
  · have hnames : RefRow.refName ∘ retarget selected target version = RefRow.refName :=
      funext retarget_refName
    rw [hrefs, List.map_map, hnames]
    exact hdb.names
  · obtain ⟨r, hr, hname, hkind, hcreated⟩ := hdb.main
    exact ⟨_, hmem' r hr, (retarget_refName r).trans hname, (retarget_refType r).trans hkind,
      (retarget_createdVersion r).trans hcreated⟩
  · obtain ⟨r, hr, rfl⟩ := hmem r' hr'
    rw [retarget]
    split
    · rename_i hsel
      exact (hselected r hr hsel).1
    · exact hdb.created_le r hr
  · obtain ⟨r, hr, rfl⟩ := hmem r' hr'
    rw [retarget]
    split
    · exact le_rfl
    · exact (hdb.updated_le r hr).trans hversion
  · obtain ⟨r, hr, rfl⟩ := hmem r' hr'
    rw [retarget_refType] at htag
    rw [retarget]
    split
    · rename_i hsel
      exact fun hnone => (hselected r hr hsel).2 ⟨htag, hnone⟩
    · exact hdb.tags r hr htag
  · obtain ⟨r, hr, hname, hkind⟩ := hbranch l hl
    exact ⟨_, hmem' r hr, (retarget_refName r).trans hname, (retarget_refType r).trans hkind⟩
  · obtain ⟨r, hr, rfl⟩ := hmem r' hr'
    rw [retarget_refType] at hkind
    exact hlive r hr hkind

end

/-- **Genesis establishes the invariant.** A database that genesis has filled has consistent
commits, snapshots, refs and live files. -/
theorem mutateGenesis_consistent {input : GenesisImage} (h : mutateGenesis input = .ok db) :
    db.Consistent := by
  rw [mutateGenesis] at h
  obtain ⟨schemas, -, h⟩ := bind_eq_ok.mp h
  cases h
  refine ⟨⟨rfl, rfl, ?_, ?_, Nat.zero_le _⟩, ⟨rfl, Nat.zero_le _, .nil, nofun, .nil, nofun, nofun,
    nofun, nofun, nofun, nofun⟩, ⟨?_, ?_, ?_, ?_, ?_, nofun, ?_⟩, ?_⟩
  · simp
  · simp
  · simp
  · exact ⟨mainRef, List.mem_cons_self, rfl, rfl, rfl⟩
  · simp [mainRef]
  · simp [mainRef]
  · simp [mainRef]
  · intro r hr _
    cases List.mem_singleton.mp hr
    exact ⟨[], .nil, fun l _ => by simp⟩
  · simp [mainRef]

section

variable {input : AppendImage}

/-- What else has to hold of an append: it continues the sequence and has the tip of the target
branch as its parent, and its files are within the profile. -/
structure Continues (input : AppendImage) (db : Database) : Prop where
  sequence_eq : input.sequenceNumber = db.tableMeta.lastSequenceNumber + 1
  v7 : input.snapshotId.isV7 = true
  parent : ∃ r ∈ db.refs, r.refName = input.targetRef ∧ r.refType = .branch ∧
    r.snapshotId = input.parentSnapshotId
  files : ∀ file ∈ input.files, file.partitionSpecId = 0 ∧ file.sortOrderId = 0

/-- The snapshots of before are found after an append. -/
theorem Appendable.keeps (h : db.Appendable input) : db.Keeps (db.appended input) := by
  have hfind : ∀ {id row}, db.findSnapshot id = some row →
      (db.appended input).findSnapshot id = some row := by
    intro id row hrow
    rw [Database.findSnapshot] at hrow
    change (db.snapshots ++ [_]).find? _ = _
    rw [List.find?_append, hrow]
    rfl
  refine ⟨hfind, fun {id row} name hrow => ?_⟩
  obtain ⟨hmem, rfl⟩ := findSnapshot_eq_some hrow
  have hnew : (input.files.map input.changeRow).filter
      (fun c => c.snapshotId == row.snapshotId && c.changeKind == .add) = [] := by
    rw [List.filter_eq_nil_iff]
    intro c hc
    obtain ⟨file, -, rfl⟩ := List.mem_map.mp hc
    have hne := (h.snapshot_fresh row hmem).symm
    simp only [AppendImage.changeRow, beq_eq_false_iff_ne.mpr hne, Bool.false_and,
      Bool.false_eq_true, not_false_eq_true]
  rw [liveRowsOf, hfind hrow, liveRowsOf, hrow]
  change ((db.changes ++ input.files.map input.changeRow).filter _).map _ = _
  rw [List.filter_append, hnew, List.append_nil]

/-- The new snapshot is found after an append. -/
theorem Appendable.findSnapshot_new (h : db.Appendable input) :
    (db.appended input).findSnapshot input.snapshotId =
      some (input.snapshotRow db.tableMeta.currentSchemaId) := by
  have hnone : db.snapshots.find? (·.snapshotId == input.snapshotId) = none := by
    rw [List.find?_eq_none]
    intro s hs
    rw [beq_eq_false_iff_ne.mpr (h.snapshot_fresh s hs)]
    exact Bool.false_ne_true
  change (db.snapshots ++ [_]).find? _ = _
  rw [List.find?_append, hnone, Option.none_or, List.find?_singleton]
  exact if_pos (beq_self_eq_true input.snapshotId)

/-- The rows that the new snapshot contributes to its branch are those of the added files. -/
theorem Appendable.mem_liveRowsOf_new (h : db.Appendable input) (hdb : db.SnapshotsConsistent)
    {l : LiveFileRow} : l ∈ (db.appended input).liveRowsOf input.targetRef input.snapshotId ↔
      l ∈ input.files.map input.liveRow := by
  rw [mem_liveRowsOf, h.findSnapshot_new]
  constructor
  · rintro ⟨row, hrow, c, hc, hsnapshot, -, rfl⟩
    cases hrow
    rcases List.mem_append.mp hc with hc | hc
    · obtain ⟨-, ⟨s, hs, hid⟩, -⟩ := hdb.changes c hc
      exact absurd (hid.trans hsnapshot) (h.snapshot_fresh s hs)
    · obtain ⟨file, hfile, rfl⟩ := List.mem_map.mp hc
      exact List.mem_map_of_mem hfile
  · intro hl
    obtain ⟨file, hfile, rfl⟩ := List.mem_map.mp hl
    exact ⟨_, rfl, input.changeRow file,
      List.mem_append_right _ (List.mem_map_of_mem hfile), rfl, rfl, rfl⟩

/-- The commits after an append count up to the new version, each of them with its key. -/
theorem CommitsConsistent.appended (hdb : db.CommitsConsistent) (h : db.Appendable input) :
    (db.appended input).CommitsConsistent where
  versions := by
    change (db.commits ++ [input.commitRow]).map _ = List.range (input.tableVersion + 1)
    rw [List.map_append, hdb.versions, List.range_succ (n := input.tableVersion), h.version_eq]
    rw [List.map_singleton, AppendImage.commitRow, h.version_eq]
  paired := by
    change (db.idempotency ++ [input.idempotencyRow]).map _ =
      (db.commits ++ [input.commitRow]).map _
    rw [List.map_append, hdb.paired, List.map_append]
    rfl
  intentCount := by
    intro c hc
    rcases List.mem_append.mp hc with hc | hc
    · exact hdb.intentCount c hc
    · cases List.mem_singleton.mp hc
      rfl
  keys := by
    change ((db.idempotency ++ [input.idempotencyRow]).map _).Nodup
    rw [List.map_append, List.map_singleton]
    refine hdb.keys.append (List.nodup_singleton _) (List.disjoint_singleton.mpr fun hkey => ?_)
    obtain ⟨i, hi, he⟩ := List.mem_map.mp hkey
    exact h.key_fresh i hi he
  version_le := h.version_le

/-- The snapshots after an append count up to the new sequence number, with parents that come
earlier. -/
theorem SnapshotsConsistent.appended (hdb : db.SnapshotsConsistent) (h : db.Appendable input)
    (hinput : db.Continues input)
    (hparent : ∀ p ∈ input.parentSnapshotId, ∃ s ∈ db.snapshots, s.snapshotId = p) :
    (db.appended input).SnapshotsConsistent where
  sequences := by
    change (db.snapshots ++ [_]).map _ = List.range' 1 input.sequenceNumber
    rw [List.map_append, hdb.sequences, hinput.sequence_eq, List.range'_1_concat,
      List.map_singleton, AppendImage.snapshotRow, hinput.sequence_eq, Nat.add_comm 1]
  sequence_le := h.sequence_le
  ids := by
    change ((db.snapshots ++ [_]).map _).Nodup
    rw [List.map_append, List.map_singleton]
    refine hdb.ids.append (List.nodup_singleton _) (List.disjoint_singleton.mpr fun hid => ?_)
    obtain ⟨s, hs, he⟩ := List.mem_map.mp hid
    exact h.snapshot_fresh s hs he
  v7 := by
    intro s hs
    rcases List.mem_append.mp hs with hs | hs
    · exact hdb.v7 s hs
    · cases List.mem_singleton.mp hs
      exact hinput.v7
  versions := by
    change ((db.snapshots ++ [_]).map _).Pairwise _
    rw [List.map_append, List.map_singleton, List.pairwise_append]
    refine ⟨hdb.versions, List.pairwise_singleton _ _, fun v hv w hw => ?_⟩
    obtain ⟨s, hs, rfl⟩ := List.mem_map.mp hv
    cases List.mem_singleton.mp hw
    have hle := hdb.version_le s hs
    have heq := h.version_eq
    change s.committedTableVersion < input.tableVersion
    omega
  version_pos := by
    intro s hs
    rcases List.mem_append.mp hs with hs | hs
    · exact hdb.version_pos s hs
    · cases List.mem_singleton.mp hs
      have heq := h.version_eq
      change 1 ≤ input.tableVersion
      omega
  version_le := by
    intro s hs
    rcases List.mem_append.mp hs with hs | hs
    · have hle := hdb.version_le s hs
      have heq := h.version_eq
      change s.committedTableVersion ≤ input.tableVersion
      omega
    · cases List.mem_singleton.mp hs
      exact le_rfl
  parents := by
    intro s hs p hp
    rcases List.mem_append.mp hs with hs | hs
    · obtain ⟨t, ht, hid, hlt⟩ := hdb.parents s hs p hp
      exact ⟨t, List.mem_append_left _ ht, hid, hlt⟩
    · cases List.mem_singleton.mp hs
      obtain ⟨t, ht, hid⟩ := hparent p hp
      have hsequence := (hdb.sequence_mem ht).2
      have hversion := hdb.version_le t ht
      have hnext := hinput.sequence_eq
      have heq := h.version_eq
      refine ⟨t, List.mem_append_left _ ht, hid, ?_, ?_⟩
      · change t.sequenceNumber < input.sequenceNumber
        omega
      · change t.committedTableVersion < input.tableVersion
        omega
  operations := by
    intro s hs
    rcases List.mem_append.mp hs with hs | hs
    · exact hdb.operations s hs
    · cases List.mem_singleton.mp hs
      rfl
  changes := by
    intro c hc
    rcases List.mem_append.mp hc with hc | hc
    · obtain ⟨hadd, ⟨s, hs, hid⟩, f, hf, hfile⟩ := hdb.changes c hc
      exact ⟨hadd, ⟨s, List.mem_append_left _ hs, hid⟩, f, List.mem_append_left _ hf, hfile⟩
    · obtain ⟨file, hfile, rfl⟩ := List.mem_map.mp hc
      exact ⟨rfl, ⟨_, List.mem_append_right _ List.mem_cons_self, rfl⟩, input.fileRow file,
        List.mem_append_right _ (List.mem_map_of_mem hfile), rfl⟩
  files := by
    intro f hf
    rcases List.mem_append.mp hf with hf | hf
    · exact hdb.files f hf
    · obtain ⟨file, hfile, rfl⟩ := List.mem_map.mp hf
      obtain ⟨hspec, hsort⟩ := hinput.files file hfile
      simp [fileOutsideProfile, AppendImage.fileRow, hspec, hsort]

/-- The live rows of the target branch after an append. -/
theorem LiveMatches.append {r : RefRow} (hlive : db.LiveMatches r) (h : db.Appendable input)
    (hdb : db.SnapshotsConsistent) (hname : r.refName = input.targetRef)
    (hparent : r.snapshotId = input.parentSnapshotId) :
    (db.appended input).LiveMatches
      { r with snapshotId := some input.snapshotId, updatedVersion := input.tableVersion } := by
  obtain ⟨chain, hchain, hrows⟩ := hlive
  have hnew : (db.appended input).parentOf input.snapshotId = some r.snapshotId := by
    rw [parentOf, h.findSnapshot_new, hparent]
    rfl
  refine ⟨input.snapshotId :: chain, .cons hnew (h.keeps.ancestors hchain), fun l hl => ?_⟩
  have hlive' : l ∈ (db.appended input).liveFiles ↔
      l ∈ db.liveFiles ∨ l ∈ input.files.map input.liveRow := List.mem_append
  have hold : (∃ id ∈ chain, l ∈ (db.appended input).liveRowsOf r.refName id) ↔
      ∃ id ∈ chain, l ∈ db.liveRowsOf r.refName id := by
    refine exists_congr fun id => and_congr_right fun hid => ?_
    obtain ⟨row, hrow⟩ := Ancestors.findSnapshot hchain hid
    rw [h.keeps.liveRowsOf r.refName hrow]
  rw [hlive', hrows l hl, List.exists_mem_cons_iff, hold, hname, h.mem_liveRowsOf_new hdb, or_comm]

/-- The refs after an append have targets that are there, and the main branch among them. -/
theorem RefsConsistent.appended (hdb : db.RefsConsistent db.tableMeta.tableVersion)
    (hsnapshots : db.SnapshotsConsistent) (h : db.Appendable input) (hinput : db.Continues input) :
    (db.appended input).RefsConsistent input.tableVersion := by
  obtain ⟨r₀, hr₀, hname₀, hkind₀, hparent⟩ := hinput.parent
  have hversion : db.tableMeta.tableVersion ≤ input.tableVersion := by
    have := h.version_eq
    omega
  refine hdb.retargeted hversion rfl (fun r hr hselected => ?_) (fun l hl => ?_)
    fun r hr hkind => ?_
  · simp only [Bool.and_eq_true, beq_iff_eq] at hselected
    exact ⟨h.target_created r hr hselected.1 hselected.2, fun htag => by cases htag.2⟩
  · rcases List.mem_append.mp hl with hl | hl
    · exact hdb.live_branch l hl
    · obtain ⟨file, -, rfl⟩ := List.mem_map.mp hl
      exact ⟨r₀, hr₀, hname₀, hkind₀⟩
  · rw [retarget]
    split
    · rename_i hselected
      simp only [Bool.and_eq_true, beq_iff_eq] at hselected
      have hr : r = r₀ := hdb.ref_unique hr hr₀ (hselected.1.trans hname₀.symm)
      subst hr
      exact (hdb.live r hr₀ hkind).append h hsnapshots hname₀ hparent
    · rename_i hselected
      refine (hdb.live r hr hkind).keep h.keeps rfl rfl fun l hl => ?_
      have hnew : l ∉ input.files.map input.liveRow := by
        intro hmem
        obtain ⟨file, -, rfl⟩ := List.mem_map.mp hmem
        refine hselected ?_
        simp only [Bool.and_eq_true, beq_iff_eq]
        exact ⟨hl.symm, hkind⟩
      exact List.mem_append.trans (or_iff_left hnew)

/-- The targets of refs after an append. -/
theorem Consistent.targets_appended (hdb : db.Consistent) :
    ∀ r ∈ (db.appended input).refs, ∀ id ∈ r.snapshotId,
      ∃ s ∈ (db.appended input).snapshots, s.snapshotId = id := by
  intro r' hr' id hid
  obtain ⟨r, hr, rfl⟩ := List.mem_map.mp hr'
  rw [retarget] at hid
  split at hid
  · cases hid
    exact ⟨_, List.mem_append_right _ List.mem_cons_self, rfl⟩
  · obtain ⟨s, hs, he⟩ := hdb.targets r hr id hid
    exact ⟨s, List.mem_append_left _ hs, he⟩

/-- **An append keeps the invariant.** Its checks are enough for the new rows to agree with each
other and with the old ones. -/
theorem Consistent.appended (hdb : db.Consistent) (h : db.Appendable input)
    (hinput : db.Continues input) : (db.appended input).Consistent := by
  have hparent : ∀ p ∈ input.parentSnapshotId, ∃ s ∈ db.snapshots, s.snapshotId = p := by
    obtain ⟨r, hr, -, -, htarget⟩ := hinput.parent
    rw [← htarget]
    exact hdb.targets r hr
  exact ⟨hdb.commits.appended h, hdb.snapshots.appended h hinput hparent,
    hdb.refs.appended hdb.snapshots h hinput, hdb.targets_appended⟩

end

end Database

end Otmp
