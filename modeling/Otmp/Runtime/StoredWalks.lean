import Otmp.Runtime.AncestryWalks
import Otmp.Runtime.Rebase
import Otmp.Runtime.Retries

/-!
# Walks over stored snapshots

The relational model keeps a snapshot as typed values, and its walks read those. The tables keep
columns: integers of 64 signed bits, identifiers as blobs and JSON values as canonical text, which
the walks of the source decode at each snapshot. In every table of a history the columns decode, so
that the typed walks and the walks over the stored rows return the same ancestries.
-/

namespace Otmp

open Foundation CanonicalValue

/-- The text of an operation in `otmp_snapshots`, as the runtime writes it. -/
def SnapshotOperation.asStr : SnapshotOperation → String
  | .append => "append"
  | .overwrite => "overwrite"
  | .rewrite => "rewrite"
  | .delete => "delete"
  | .update => "update"
  | .merge => "merge"
  | .optimize => "optimize"
  | .metadata => "metadata"

/-- The columns in which `otmp_snapshots` keeps a snapshot, as the database returns them. -/
def SnapshotRow.stored (s : SnapshotRow) : StoredSnapshot where
  snapshotId := s.snapshotId.val
  parentSnapshotId := s.parentSnapshotId.map Subtype.val
  sequenceNumber := Int64.ofNat s.sequenceNumber
  committedTableVersion := Int64.ofNat s.committedTableVersion
  schemaId := Int64.ofNat s.schemaId
  partitionSpecId := Int64.ofNat s.partitionSpecId
  sortOrderId := Int64.ofNat s.sortOrderId
  operation := s.operation.asStr
  committedAtMs := Int64.ofInt s.committedAtMs
  summaryJson := s.summary.bytes
  metadataJson := s.metadata.bytes

/-- A snapshot whose columns decode into a descriptor: its numbers have 32 bits where a descriptor
has them, and its JSON values are read back from their text. -/
structure SnapshotRow.Decodes (s : SnapshotRow) : Prop where
  schemaId : s.schemaId < 2 ^ 32
  partitionSpecId : s.partitionSpecId < 2 ^ 32
  sortOrderId : s.sortOrderId < 2 ^ 32
  summary : Readable s.summary
  metadata : Readable s.metadata

/-- A number of 32 bits keeps its value in a column. -/
private theorem toInt_ofNat_u32 {n : ℕ} (h : n < 2 ^ 32) :
    0 ≤ (Int64.ofNat n).toInt ∧ (Int64.ofNat n).toInt < 2 ^ 32 := by
  rw [Int64.toInt_ofNat_of_lt (h.trans (by decide))]
  omega

/-- A readable value is read back from its text. -/
theorem Readable.parseCanonical {parse : Bytes → Except ProtocolError CanonicalValue}
    {value : CanonicalValue} (h : Readable value) (hparse : JsonParser parse) :
    parseCanonical parse value.bytes = .ok value :=
  parseCanonical_eq_ok.mpr ⟨hparse.reads h.sorted h.fits h.depth, rfl⟩

namespace Database

variable {db : Database} {parse : Bytes → Except ProtocolError CanonicalValue} {tip : Option Id}
  {chain : List Id}

/-- The rows of `otmp_snapshots`, as the walk of readers queries them. -/
def storedSnapshots (db : Database) : List StoredSnapshot := db.snapshots.map SnapshotRow.stored

/-- A stored row is found exactly when the snapshot is. -/
theorem storedSnapshot_storedSnapshots (id : Id) :
    storedSnapshot db.storedSnapshots id = (db.findSnapshot id).map SnapshotRow.stored := by
  rw [storedSnapshot, storedSnapshots, List.find?_map]
  rfl

namespace SnapshotsConsistent

/-- The sequence number keeps its value in its column. -/
theorem sequence_stored (h : db.SnapshotsConsistent) {s : SnapshotRow} (hs : s ∈ db.snapshots) :
    s.stored.sequence = s.sequenceNumber := by
  have hle := (h.sequence_mem hs).2
  have hbound := h.sequence_le
  exact Int64.toNatClampNeg_ofNat_of_lt (by unfold i64Max at hbound; omega)

/-- The sequence numbers are positive in their columns. -/
theorem positive_stored (h : db.SnapshotsConsistent) :
    ∀ row ∈ db.storedSnapshots, row.Positive := by
  refine List.forall_mem_map.mpr fun s hs => ?_
  have hmem := h.sequence_mem hs
  have hbound := h.sequence_le
  refine Int64.lt_iff_toInt_lt.mpr ?_
  change (0 : Int64).toInt < (Int64.ofNat s.sequenceNumber).toInt
  rw [Int64.toInt_ofNat_of_lt (by unfold i64Max at hbound; omega)]
  exact Int.natCast_pos.mpr hmem.1

/-- The numbers of rows that decode fit the descriptor. -/
theorem numbersFit_stored (h : db.SnapshotsConsistent)
    (hversion : db.tableMeta.tableVersion ≤ i64Max)
    (hdecodes : ∀ s ∈ db.snapshots, s.Decodes) : ∀ row ∈ db.storedSnapshots, row.NumbersFit := by
  refine List.forall_mem_map.mpr fun s hs => ⟨?_, ?_⟩
  · have hle := h.version_le s hs
    change 0 ≤ (Int64.ofNat s.committedTableVersion).toInt
    rw [Int64.toInt_ofNat_of_lt (by unfold i64Max at hversion; omega)]
    exact Int.natCast_nonneg _
  · have hs := hdecodes s hs
    simp only [List.forall_mem_cons]
    exact ⟨toInt_ofNat_u32 hs.schemaId, toInt_ofNat_u32 hs.partitionSpecId,
      toInt_ofNat_u32 hs.sortOrderId, fun _ hnil => absurd hnil List.not_mem_nil⟩

/-- The parent that a stored row names is that of the snapshot. -/
theorem parentIn_stored (h : db.SnapshotsConsistent) (id : Id) :
    parentIn db.storedSnapshots id = db.parentOf id := by
  rw [parentIn, parentOf, storedSnapshot_storedSnapshots]
  cases hrow : db.findSnapshot id with
  | none => rfl
  | some s =>
    obtain ⟨hs, -⟩ := findSnapshot_eq_some hrow
    cases hparent : s.parentSnapshotId with
    | none =>
      simp only [Option.map_some, Option.bind_some, SnapshotRow.stored, hparent, Option.map_none]
      rfl
    | some p =>
      obtain ⟨t, ht, rfl, -⟩ := h.parents s hs p hparent
      simp only [Option.map_some, Option.bind_some, SnapshotRow.stored, hparent]
      rw [optionalIdFromBytes, idFromBytes, dif_pos t.snapshotId.2, idFromBlob,
        if_pos (h.v7 t ht)]
      rfl

/-- The sequence number in a stored row is that of the snapshot. -/
theorem sequenceIn_stored (h : db.SnapshotsConsistent) {id : Id} {s : SnapshotRow}
    (hs : db.findSnapshot id = some s) : sequenceIn db.storedSnapshots id = s.sequenceNumber := by
  have hrow : storedSnapshot db.storedSnapshots id = some s.stored := by
    rw [storedSnapshot_storedSnapshots, hs]
    rfl
  rw [sequenceIn_eq hrow, h.sequence_stored (findSnapshot_eq_some hs).1]

/-- The sequence numbers of a chain descend from that of its tip. -/
theorem descends_stored (h : db.SnapshotsConsistent) (hchain : db.Ancestors tip chain) :
    (∀ id ∈ tip, ∀ other ∈ chain,
        sequenceIn db.storedSnapshots other ≤ sequenceIn db.storedSnapshots id) ∧
      chain.Pairwise fun a b =>
        sequenceIn db.storedSnapshots b < sequenceIn db.storedSnapshots a := by
  induction hchain with
  | nil => exact ⟨fun _ _ _ hother => absurd hother List.not_mem_nil, .nil⟩
  | @cons id next rest hparent hrest ih =>
    obtain ⟨s, hs, rfl⟩ := Option.map_eq_some_iff.mp hparent
    obtain ⟨hmem, -⟩ := findSnapshot_eq_some hs
    have hbelow : ∀ other ∈ rest,
        sequenceIn db.storedSnapshots other < sequenceIn db.storedSnapshots id := by
      intro other hother
      cases hnext : s.parentSnapshotId with
      | none =>
        rw [hnext] at hrest
        cases hrest
        cases hother
      | some p =>
        obtain ⟨t, ht, rfl, hlt, -⟩ := h.parents s hmem p hnext
        have hle := ih.1 t.snapshotId hnext other hother
        rw [h.sequenceIn_stored (h.findSnapshot_of_mem ht)] at hle
        rw [h.sequenceIn_stored hs]
        exact hle.trans_lt hlt
    refine ⟨fun a ha other hother => ?_, List.pairwise_cons.mpr ⟨hbelow, ih.2⟩⟩
    obtain rfl := Option.some.inj ha
    obtain rfl | hother := List.mem_cons.mp hother
    · exact le_rfl
    · exact (hbelow other hother).le

/-- The chains of the typed rows are the ancestries of the stored rows. -/
theorem isAncestry_stored (h : db.SnapshotsConsistent) :
    IsAncestry db.storedSnapshots tip chain ↔ db.Ancestors tip chain := by
  constructor
  · intro hchain
    exact hchain.follows.congr fun id _ => (h.parentIn_stored id).symm
  · intro hchain
    have hdescends := (h.descends_stored hchain).2
    refine ⟨hchain.congr fun id _ => h.parentIn_stored id, ?_, hdescends⟩
    refine hdescends.imp fun hlt heq => ?_
    rw [heq] at hlt
    exact lt_irrefl _ hlt

end SnapshotsConsistent

/-- The walk of readers over stored rows, which decodes a descriptor for each, returns what the walk
over the typed rows returns. -/
theorem Consistent.ancestry_iff_stored (h : db.Consistent) (hparse : JsonParser parse)
    (hdecodes : ∀ s ∈ db.snapshots, s.Decodes) :
    History.Ancestry parse db.storedSnapshots tip (.ok chain) ↔ db.ancestry tip = .ok chain := by
  have hjson : ∀ row ∈ db.storedSnapshots, row.CanonicalColumns parse :=
    List.forall_mem_map.mpr fun s hs =>
      ⟨⟨_, (hdecodes s hs).summary.parseCanonical hparse⟩,
        _, (hdecodes s hs).metadata.parseCanonical hparse⟩
  rw [History.ancestry_iff h.snapshots.positive_stored hjson
    (h.snapshots.numbersFit_stored h.commits.version_le hdecodes), h.snapshots.isAncestry_stored]
  exact ⟨h.snapshots.ancestry_eq_ok, ancestryFrom_sound⟩

end Database

/-- The members of the JSON values of an append are sorted by their keys, as the maps of the source
keep them. -/
structure AppendRequest.Sorted (request : AppendRequest) : Prop where
  summary : ∀ entry ∈ request.summary.toList, entry.2.sorted = true
  snapshotMetadata : ∀ entry ∈ request.snapshotMetadata.toList, entry.2.sorted = true

/-- The JSON values that an action stores with a snapshot are sorted. -/
def Action.Sorted : Action → Prop
  | .append request _ => request.Sorted
  | .transact _ => True

/-- A value of sorted members under sorted keys is sorted. -/
theorem JsonMap.sorted_toValue {m : JsonMap} (h : ∀ entry ∈ m.toList, entry.2.sorted = true) :
    m.toValue.sorted = true := by
  refine sorted_object.mpr ⟨?_, h⟩
  rw [List.pairwise_map]
  exact (Std.ExtTreeMap.ordered_keys_toList (t := m)).imp fun hlt => compareOfLessAndEq_eq_lt.mp hlt

/-- The entries of a map with one more entry. -/
theorem JsonMap.sorted_insert {m : JsonMap} {key : String} {value : CanonicalValue}
    (h : ∀ entry ∈ m.toList, entry.2.sorted = true) (hvalue : value.sorted = true) :
    ∀ entry ∈ (m.insert key value).toList, entry.2.sorted = true := by
  rintro ⟨k, v⟩ hentry
  rw [Std.ExtTreeMap.mem_toList_iff_getElem?_eq_some, Std.ExtTreeMap.getElem?_insert] at hentry
  split at hentry
  · obtain rfl := Option.some.inj hentry
    exact hvalue
  · exact h (k, v) (Std.ExtTreeMap.mem_toList_iff_getElem?_eq_some.mpr hentry)

section Histories

variable {digest : Digest} {base table table' : PinnedTable} {action : Action}
  {actions : List Action}

/-- The summary of an append is sorted when the caller's entries are. -/
theorem derivedSummary_sorted {request : AppendRequest} {summary : JsonMap}
    (hrequest : request.Sorted) (h : derivedSummary request = .ok summary) :
    summary.toValue.sorted = true := by
  rw [derivedSummary] at h
  obtain ⟨recordCount, -, h⟩ := bind_eq_ok.mp h
  obtain ⟨fileSize, -, h⟩ := bind_eq_ok.mp h
  obtain ⟨-, h⟩ := ite_error_eq_ok.mp h
  cases h
  have hcount (n : ℕ) : (decimalString n).sorted = true := rfl
  exact JsonMap.sorted_toValue (JsonMap.sorted_insert (JsonMap.sorted_insert
    (JsonMap.sorted_insert hrequest.summary (hcount _)) (hcount _)) (hcount _))

/-- The snapshot that an append adds decodes. -/
theorem buildCandidate_decodes {request : AppendRequest} {staged : List VerifiedStagedFile}
    {logicalHash : Sha256} {drawn : Drawn} {parent : PinnedTable}
    {candidate : Candidate AppendResult} (hrequest : request.Sorted)
    (h : buildCandidate digest request staged logicalHash drawn parent = .ok candidate) :
    ∃ s : SnapshotRow, candidate.next.db.snapshots = parent.db.snapshots ++ [s] ∧ s.Decodes := by
  rw [buildCandidate, invalidAppend, invalidAppend, invalidAppend] at h
  obtain ⟨-, h⟩ := ite_error_eq_ok.mp h
  obtain ⟨⟨schemaId, lastSequence⟩, hschema, h⟩ := bind_eq_ok.mp h
  obtain ⟨target, -, h⟩ := bind_eq_ok.mp h
  rcases target with _ | ⟨kind, tip⟩
  · cases h
  · obtain ⟨-, h⟩ := ite_error_eq_ok.mp h
    obtain ⟨summary, hsummary, h⟩ := bind_eq_ok.mp h
    cases hfiles : request.files with
    | nil =>
      rw [hfiles] at h
      cases h
    | cons first rest =>
      rw [hfiles] at h
      obtain ⟨resultValue, -, h⟩ := bind_eq_ok.mp h
      obtain ⟨commit, -, h⟩ := bind_eq_ok.mp h
      obtain ⟨commitBytes, -, h⟩ := bind_eq_ok.mp h
      obtain ⟨-, -, h⟩ := bind_eq_ok.mp h
      obtain ⟨-, -, h⟩ := bind_eq_ok.mp h
      obtain ⟨metadata, hmetadata, h⟩ := bind_eq_ok.mp h
      obtain ⟨files, -, h⟩ := bind_eq_ok.mp h
      obtain ⟨db, hmutate, h⟩ := bind_eq_ok.mp h
      obtain ⟨db', hdb', h⟩ := bind_eq_ok.mp h
      cases h
      obtain ⟨rfl, -⟩ := Database.commitTransaction_spec hdb'
      have hspec := (Database.mutateAppend_spec hmutate).1
      rw [Database.mutateAppend] at hmutate
      obtain ⟨-, hmutate⟩ := ite_error_eq_ok.mp hmutate
      obtain ⟨-, -, hmutate⟩ := bind_eq_ok.mp hmutate
      obtain ⟨text, htext, -⟩ := bind_eq_ok.mp hmutate
      obtain ⟨hsummaryFits, hsummaryDepth, -⟩ :=
        canonicalText_eq_ok.mp (liftProtocol_eq_ok.mp htext)
      obtain ⟨hfits, hdepth, -⟩ := canonicalText_eq_ok.mp (liftProtocol_eq_ok.mp hmetadata)
      obtain ⟨hschema, -⟩ := currentSchemaAndSequence_eq_ok hschema
      refine ⟨_, congrArg Database.snapshots hspec, ?_, Nat.two_pow_pos 32, Nat.two_pow_pos 32,
        ⟨derivedSummary_sorted hrequest hsummary, hsummaryFits, hsummaryDepth⟩,
        JsonMap.sorted_toValue hrequest.snapshotMetadata, hfits, hdepth⟩
      rw [u32TryFrom] at hschema
      obtain ⟨hbound, -⟩ := ite_ok_eq_ok.mp hschema
      change parent.db.tableMeta.currentSchemaId < 2 ^ 32
      omega

/-- A transaction adds no snapshot, so that all of them decode as before. -/
theorem Step.snapshots_transact {request : TransactionRequest}
    (h : Step digest table (.transact request) table') (hdb : table.db.Consistent) :
    table'.db.snapshots = table.db.snapshots := by
  cases h with
  | transact hbuild =>
    obtain ⟨db₁, results, commitBytes, hprepare, hrun, -, -, -, hnext, -⟩ :=
      buildTransaction_recorded hbuild
    obtain ⟨touched, -, hmid⟩ := hdb.midway (Nat.le_succ _) hprepare hrun
    rw [hnext]
    exact hmid.untouched.snapshots

/-- A step keeps the snapshots decodable, when its documents are sorted as the runtime builds them.
-/
theorem Step.decodes (h : Step digest table action table') (haction : action.Sorted)
    (hdb : table.db.Consistent) (hdecodes : ∀ s ∈ table.db.snapshots, s.Decodes) :
    ∀ s ∈ table'.db.snapshots, s.Decodes := by
  cases action with
  | append request drawn =>
    cases h with
    | append _ _ _ hbuild =>
      obtain ⟨s, hsnapshots, hs⟩ := buildCandidate_decodes haction hbuild
      rw [hsnapshots]
      exact List.forall_mem_append.mpr ⟨hdecodes, List.forall_mem_singleton.mpr hs⟩
  | transact request => rwa [h.snapshots_transact hdb]

/-- The snapshots decode along every run of such steps. -/
theorem Run.decodes (h : Run digest base actions table)
    (hactions : ∀ action ∈ actions, action.Sorted) (hdb : base.db.Consistent)
    (hdecodes : ∀ s ∈ base.db.snapshots, s.Decodes) :
    table.db.Consistent ∧ ∀ s ∈ table.db.snapshots, s.Decodes := by
  induction h with
  | nil => exact ⟨hdb, hdecodes⟩
  | snoc _ hstep ih =>
    obtain ⟨hbefore, hlast⟩ := List.forall_mem_append.mp hactions
    obtain ⟨hconsistent, hdecoded⟩ := ih hbefore
    exact ⟨hstep.consistent hconsistent,
      hstep.decodes (List.forall_mem_singleton.mp hlast) hconsistent hdecoded⟩

/-- In every table of a history from genesis the snapshots decode. -/
theorem Run.decodes_genesis {input : GenesisImage} (hgenesis : mutateGenesis input = .ok base.db)
    (h : Run digest base actions table) (hactions : ∀ action ∈ actions, action.Sorted) :
    table.db.Consistent ∧ ∀ s ∈ table.db.snapshots, s.Decodes := by
  refine h.decodes hactions (Database.mutateGenesis_consistent hgenesis) ?_
  obtain ⟨schemas, -, hgenesis⟩ := bind_eq_ok.mp hgenesis
  have hsnapshots : base.db.snapshots = [] :=
    (congrArg Database.snapshots (Except.ok.inj hgenesis)).symm
  rw [hsnapshots]
  exact fun s hs => absurd hs List.not_mem_nil

end Histories

end Otmp
