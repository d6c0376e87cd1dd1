import Otmp.Runtime.StoredWalks

/-!
# What a history never rewrites

Along every history the rows of commits, idempotency keys, snapshots, files, metrics and changes are
only continued. So a snapshot that was published stays readable in every later table, with the
ancestry and the live rows it had, and a key that was used keeps its row.
-/

namespace Otmp

open Foundation

namespace Database

variable {db db' db'' : Database}

/-- A later database continues the tables of an earlier one, and knows the same of its snapshots. -/
structure Extends (db db' : Database) : Prop where
  keeps : db.Keeps db'
  commits : db.commits <+: db'.commits
  idempotency : db.idempotency <+: db'.idempotency
  snapshots : db.snapshots <+: db'.snapshots
  summaries : db.summaries <+: db'.summaries
  files : db.files <+: db'.files
  metrics : db.metrics <+: db'.metrics
  changes : db.changes <+: db'.changes

namespace Extends

/-- A database continues itself. -/
theorem refl (db : Database) : db.Extends db :=
  ⟨.of_eq rfl rfl, List.prefix_rfl, List.prefix_rfl, List.prefix_rfl, List.prefix_rfl,
    List.prefix_rfl, List.prefix_rfl, List.prefix_rfl⟩

/-- Continuing is transitive. -/
theorem trans (h : db.Extends db') (h' : db'.Extends db'') : db.Extends db'' where
  keeps := by
    refine ⟨fun hrow => h'.keeps.findSnapshot (h.keeps.findSnapshot hrow), fun name hrow => ?_⟩
    rw [h'.keeps.liveRowsOf name (h.keeps.findSnapshot hrow), h.keeps.liveRowsOf name hrow]
  commits := h.commits.trans h'.commits
  idempotency := h.idempotency.trans h'.idempotency
  snapshots := h.snapshots.trans h'.snapshots
  summaries := h.summaries.trans h'.summaries
  files := h.files.trans h'.files
  metrics := h.metrics.trans h'.metrics
  changes := h.changes.trans h'.changes

/-- A used key keeps its row, so that later retries find the same result. -/
theorem find_key (h : db.Extends db') {key : String} {row : IdempotencyRow}
    (hrow : db.idempotency.find? (·.idempotencyKey == key) = some row) :
    db'.idempotency.find? (·.idempotencyKey == key) = some row := by
  obtain ⟨later, hlater⟩ := h.idempotency
  rw [← hlater, List.find?_append, hrow]
  rfl

end Extends

/-- An append continues the tables: it adds rows behind those that are there. -/
theorem Appendable.extends {input : AppendImage} (h : db.Appendable input) :
    db.Extends (db.appended input) where
  keeps := h.keeps
  commits := List.prefix_append _ _
  idempotency := List.prefix_append _ _
  snapshots := List.prefix_append _ _
  summaries := List.prefix_append _ _
  files := List.prefix_append _ _
  metrics := List.prefix_append _ _
  changes := List.prefix_append _ _

/-- Recording a commit over operations continues the tables. -/
theorem Untouched.extends (h : db.Untouched db') (commit : CommitRow) (key : IdempotencyRow) :
    db.Extends (db'.recorded commit key) where
  keeps := .of_eq h.snapshots h.changes
  commits := by
    rw [← h.commits]
    exact List.prefix_append _ _
  idempotency := by
    rw [← h.idempotency]
    exact List.prefix_append _ _
  snapshots := by
    rw [← h.snapshots]
    exact List.prefix_rfl
  summaries := by
    rw [← h.summaries]
    exact List.prefix_rfl
  files := by
    rw [← h.files]
    exact List.prefix_rfl
  metrics := by
    rw [← h.metrics]
    exact List.prefix_rfl
  changes := by
    rw [← h.changes]
    exact List.prefix_rfl

end Database

variable {digest : Digest} {base table table' : PinnedTable} {actions : List Action}

/-- A step continues the tables, be it an append or a transaction. -/
theorem Step.extends {action : Action} (h : Step digest table action table')
    (hdb : table.db.Consistent) : table.db.Extends table'.db := by
  cases h with
  | append _ _ hrequest hbuild =>
    obtain ⟨first, summary, target, commitBytes, files, -, -, -, -, happendable, -, hnext⟩ :=
      buildCandidate_eq_ok hrequest hbuild
    rw [hnext]
    exact happendable.extends
  | transact hbuild =>
    obtain ⟨db₁, results, commitBytes, hprepare, hrun, -, -, -, hdb₁, -⟩ :=
      buildTransaction_recorded hbuild
    obtain ⟨touched, -, hmid⟩ := hdb.midway (Nat.le_succ _) hprepare hrun
    rw [hdb₁]
    exact hmid.untouched.extends _ _

/-- A run keeps the invariant and continues the tables. -/
theorem Run.extends (h : Run digest base actions table) (hdb : base.db.Consistent) :
    table.db.Consistent ∧ base.db.Extends table.db := by
  induction h with
  | nil => exact ⟨hdb, .refl _⟩
  | snoc _ hstep ih =>
    obtain ⟨hconsistent, hextends⟩ := ih
    exact ⟨hstep.consistent hconsistent, hextends.trans (hstep.extends hconsistent)⟩

/-- **Histories only grow.** In every history from a reachable table, whatever appends and
transactions it is made of, the rows of the earlier table begin each table that records history,
there is one more commit for each action, and a key that was used is still found with its row, so
that a retry is answered from the commit that used it first. -/
theorem history_extends (digest : Digest) {base table : PinnedTable} {actions : List Action}
    (hbase : Reachable digest base) (hrun : Run digest base actions table) :
    base.db.Extends table.db ∧
      table.db.commits.length = base.db.commits.length + actions.length ∧
      ∀ key row, base.db.idempotency.find? (·.idempotencyKey == key) = some row →
        table.db.idempotency.find? (·.idempotencyKey == key) = some row := by
  obtain ⟨-, hextends⟩ := hrun.extends hbase.consistent
  refine ⟨hextends, ?_, fun key row hrow => hextends.find_key hrow⟩
  clear hbase hextends
  induction hrun with
  | nil => rfl
  | snoc _ hstep ih =>
    obtain ⟨-, row, hcommits, -⟩ := hstep.commits
    rw [hcommits, List.length_append, ih, List.length_append]
    rfl

/-- The walk of the writer finds the ancestry too. -/
theorem Database.SnapshotsConsistent.writerAncestry_eq_ok {db : Database}
    (h : db.SnapshotsConsistent) {tip : Option Id} {chain : List Id}
    (hchain : db.Ancestors tip chain) : db.writerAncestry tip = .ok chain := by
  refine Database.ancestryFrom_complete h.v7 (fun s hs => ?_)
    (fun s hs p hp row hrow => h.parent_sequence_lt hs hp hrow) nofun ?_ hchain
  · have hpos := (h.sequence_mem hs).1
    rw [beq_eq_false_iff_ne]
    omega
  · intro id _ row hrow
    obtain ⟨hmem, -⟩ := Database.findSnapshot_eq_some hrow
    have hle := (h.sequence_mem hmem).2
    have hbound : db.tableMeta.lastSequenceNumber ≤ 2 ^ 63 - 1 := h.sequence_le
    rw [Database.u64Max]
    omega

/-- The walks of the source return a list for a tip: the walk of readers and that of the writer over
the stored rows, and the walks over the typed rows. -/
structure Database.Walked (parse : Bytes → Except ProtocolError CanonicalValue) (db : Database)
    (tip : Option Id) (chain : List Id) : Prop where
  readers : History.Ancestry parse db.storedSnapshots tip (.ok chain)
  writer : Writer.Ancestry db.storedSnapshots tip (.ok chain)
  ancestry : db.ancestry tip = .ok chain
  writerAncestry : db.writerAncestry tip = .ok chain

/-- The walks return the chain of a tip, in a table whose snapshots decode. -/
theorem Database.Consistent.walked {parse : Bytes → Except ProtocolError CanonicalValue}
    {db : Database} (h : db.Consistent) (hparse : JsonParser parse)
    (hdecodes : ∀ s ∈ db.snapshots, s.Decodes) {tip : Option Id} {chain : List Id}
    (hchain : db.Ancestors tip chain) : db.Walked parse tip chain where
  readers := (h.ancestry_iff_stored hparse hdecodes).mpr (h.snapshots.ancestry_eq_ok hchain)
  writer := (Writer.ancestry_iff h.snapshots.positive_stored).mpr
    (h.snapshots.isAncestry_stored.mpr hchain)
  ancestry := h.snapshots.ancestry_eq_ok hchain
  writerAncestry := h.snapshots.writerAncestry_eq_ok hchain

/-- **A published snapshot stays readable.** Every snapshot of a table of a history has an ancestry
that the walks of readers and of the writer return from the stored rows. In every later table of the
history they return the same ancestry, and each snapshot on it contributes the same live rows to
every branch. -/
theorem time_travel {parse : Bytes → Except ProtocolError CanonicalValue}
    (hparse : JsonParser parse) {input : GenesisImage} {genesis base table : PinnedTable}
    {before actions : List Action} (hgenesis : mutateGenesis input = .ok genesis.db)
    (hbefore : Run digest genesis before base) (hrun : Run digest base actions table)
    (hsorted : ∀ action ∈ before ++ actions, action.Sorted) {s : SnapshotRow}
    (hs : s ∈ base.db.snapshots) :
    ∃ chain, s.snapshotId ∈ chain ∧ base.db.Walked parse (some s.snapshotId) chain ∧
      table.db.Walked parse (some s.snapshotId) chain ∧
      ∀ id ∈ chain, ∀ name, table.db.liveRowsOf name id = base.db.liveRowsOf name id := by
  obtain ⟨hsortedBefore, hsortedAfter⟩ := List.forall_mem_append.mp hsorted
  obtain ⟨hearlier, hdecodes⟩ := hbefore.decodes_genesis hgenesis hsortedBefore
  obtain ⟨hlater, hdecodes'⟩ := hrun.decodes hsortedAfter hearlier hdecodes
  obtain ⟨-, hextends⟩ := hrun.extends hearlier
  obtain ⟨chain, hchain⟩ := hearlier.snapshots.exists_ancestors hs
  have hkept := hextends.keeps.ancestors hchain
  refine ⟨chain, ?_, hearlier.walked hparse hdecodes hchain, hlater.walked hparse hdecodes' hkept,
    fun id hid name => ?_⟩
  · cases hchain with
    | cons _ _ => exact List.mem_cons_self
  · obtain ⟨row, hrow⟩ := hchain.findSnapshot hid
    exact hextends.keeps.liveRowsOf name hrow

/-- The sample history has an end: no step of it fails. -/
theorem exists_sampleRun : ∃ table, sampleRun = .ok table := by
  have hok : sampleRun.isOk = true := by decide +kernel
  cases hrun : sampleRun with
  | error e =>
    rw [hrun] at hok
    cases hok
  | ok table => exact ⟨table, rfl⟩

/-- The sample history has added two commits. -/
theorem history_extends_sample : ∃ base table : PinnedTable, base.db.Extends table.db ∧
    table.db.commits.length = base.db.commits.length + 2 := by
  obtain ⟨table, hsample⟩ := exists_sampleRun
  obtain ⟨base, hgenesis, -, -, hrun⟩ := sampleRun_run hsample
  obtain ⟨hextends, hcount, -⟩ := history_extends sampleDigest (.genesis hgenesis) hrun
  exact ⟨base, table, hextends, hcount⟩

/-- The requests of the sample history store empty maps only. -/
theorem sample_sorted : sampleAppend.Sorted ∧ laterAppend.Sorted :=
  have hempty : ∀ entry ∈ (∅ : JsonMap).toList, entry.2.sorted = true :=
    fun _ hentry => absurd hentry List.not_mem_nil
  ⟨⟨hempty, hempty⟩, hempty, hempty⟩

/-- The snapshot that the sample history appends is read from its stored rows in the table after the
append, and again after the transaction and a second append. -/
theorem time_travel_sample : ∃ base table : PinnedTable,
    base.db.snapshots.map SnapshotRow.snapshotId = [sampleId 5] ∧
    table.db.snapshots.map SnapshotRow.snapshotId = [sampleId 5, sampleId 10] ∧
    History.Ancestry textParser base.db.storedSnapshots (some (sampleId 5)) (.ok [sampleId 5]) ∧
    History.Ancestry textParser table.db.storedSnapshots (some (sampleId 5)) (.ok [sampleId 5]) ∧
    table.db.liveRowsOf "main" (sampleId 5) = base.db.liveRowsOf "main" (sampleId 5) := by
  have hmiddle : sampleRun.toOption.map (fun t => (t.db.snapshots.map SnapshotRow.snapshotId,
      t.db.parentOf (sampleId 5))) = some ([sampleId 5], some none) := by decide +kernel
  have hend : (sampleRun >>= laterRun).toOption.map
      (fun c => c.next.db.snapshots.map SnapshotRow.snapshotId) =
        some [sampleId 5, sampleId 10] := by decide +kernel
  cases hruns : sampleRun >>= laterRun with
  | error e =>
    rw [hruns] at hend
    cases hend
  | ok candidate =>
    obtain ⟨branched, hsample, hlater⟩ := bind_eq_ok.mp hruns
    rw [hruns] at hend
    rw [hsample] at hmiddle
    obtain ⟨hids, hroot⟩ := Prod.ext_iff.mp (Option.some.inj hmiddle)
    obtain ⟨genesis, base, hgenesis, -, -, happend, htransact⟩ := sampleRun_steps hsample
    have hbase : Reachable sampleDigest base := .step (.genesis hgenesis) happend
    have hsnapshots := htransact.snapshots_transact hbase.consistent
    have hids : base.db.snapshots.map SnapshotRow.snapshotId = [sampleId 5] := hsnapshots ▸ hids
    have hroot : base.db.parentOf (sampleId 5) = some none := by
      rw [Database.parentOf, Database.findSnapshot, ← hsnapshots]
      exact hroot
    obtain ⟨s, hs, hid⟩ : ∃ s ∈ base.db.snapshots, s.snapshotId = sampleId 5 := by
      refine List.mem_map.mp ?_
      rw [hids]
      exact List.mem_singleton_self _
    obtain ⟨chain, -, hwalked, hwalked', hlive⟩ := time_travel textParser_jsonParser hgenesis
      (.snoc .nil happend) (.snoc (.snoc .nil htransact) (laterRun_step hlater))
      (by
        simp only [List.nil_append, List.cons_append, List.forall_mem_cons]
        exact ⟨sample_sorted.1, trivial, sample_sorted.2,
          fun _ haction => absurd haction List.not_mem_nil⟩) hs
    rw [hid] at hwalked hwalked'
    obtain rfl := (Database.ancestryFrom_sound hwalked.ancestry).unique (.cons hroot .nil)
    exact ⟨base, candidate.next, hids, Option.some.inj hend, hwalked.readers, hwalked'.readers,
      hlive _ List.mem_cons_self "main"⟩

end Otmp
