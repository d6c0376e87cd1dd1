import Otmp.Foundation.Chain
import Otmp.Foundation.Loop
import Otmp.Image.Mutations
import Otmp.Protocol.OneEncoding

/-!
# The two walks along the ancestry of a snapshot

Readers decode a whole descriptor for each snapshot of the walk; the writer reads the parent and
the sequence number only. Both walks run on stored rows, whatever these hold. They end, since
the sequence number falls with each pass, and they agree on rows whose descriptors decode.
-/

namespace Otmp

open Foundation

/-- A stored row of `otmp_snapshots`, with the types that the database has for its columns. -/
structure StoredSnapshot where
  snapshotId : Bytes
  parentSnapshotId : Option Bytes
  sequenceNumber : Int64
  committedTableVersion : Int64
  schemaId : Int64
  partitionSpecId : Int64
  sortOrderId : Int64
  operation : String
  committedAtMs : Int64
  summaryJson : Bytes
  metadataJson : Bytes

/-- A snapshot as readers see it, with every column checked and converted. -/
structure SnapshotDescriptor where
  snapshotId : Id
  parentSnapshotId : Option Id
  sequenceNumber : ℕ
  committedTableVersion : ℕ
  schemaId : UInt32
  partitionSpecId : UInt32
  sortOrderId : UInt32
  operation : String
  committedAtMs : Int64
  summary : CanonicalValue
  metadata : CanonicalValue

/-- An identifier from stored bytes, with the message for bytes of another length. -/
def idFromBytes (message : String) (blob : Bytes) : Except RuntimeError Id :=
  if h : blob.length = 16 then idFromBlob ⟨blob, h⟩ else .error (.corrupt message)

/-- An optional identifier from stored bytes, which must be sixteen; the message says what it is of.
-/
def optionalIdFromBytes (message : String) : Option Bytes → Except RuntimeError (Option Id)
  | none => .ok none
  | some blob => (idFromBytes message blob).map some

/-- A number of 32 bits from a column; one that does not fit is a failed conversion of that column.
-/
def u32Column (index : ℕ) (value : Int64) : Except RuntimeError UInt32 :=
  if 0 ≤ value.toInt ∧ value.toInt < 2 ^ 32 then .ok (UInt32.ofNat value.toNatClampNeg)
  else .error (.sqlite s!"Integer {value.toInt} out of range at index {index}")

/-- `nonnegative`: a stored integer as a natural number, or an error that names the column. -/
def nonnegative (value : Int64) (name : String) : Except RuntimeError ℕ :=
  if value.toInt < 0 then .error (.corrupt s!"negative {name}") else .ok value.toNatClampNeg

section Walks

variable (parse : Bytes → Except ProtocolError CanonicalValue) (table : List StoredSnapshot)

/-- The row of a snapshot, found by the bytes of its identifier. -/
def storedSnapshot (id : Id) : Option StoredSnapshot := table.find? (·.snapshotId == id.val)

/-- The descriptor of a snapshot: its row, with every column checked and converted. -/
def descriptor (id : Id) : Except RuntimeError SnapshotDescriptor :=
  match storedSnapshot table id with
  | none => .error .snapshotNotFound
  | some row => do
    let schemaId ← u32Column 3 row.schemaId
    let partitionSpecId ← u32Column 4 row.partitionSpecId
    let sortOrderId ← u32Column 5 row.sortOrderId
    let parent ← optionalIdFromBytes "invalid ID blob" row.parentSnapshotId
    let sequence ← nonnegative row.sequenceNumber "sequence"
    let version ← nonnegative row.committedTableVersion "version"
    let summary ← liftProtocol (parseCanonical parse row.summaryJson)
    let metadata ← liftProtocol (parseCanonical parse row.metadataJson)
    return {
      snapshotId := id
      parentSnapshotId := parent
      sequenceNumber := sequence
      committedTableVersion := version
      schemaId
      partitionSpecId
      sortOrderId
      operation := row.operation
      committedAtMs := row.committedAtMs
      summary
      metadata }

/-- A missing snapshot inside a walk leaves the ancestry dangling. -/
def danglingAncestry : RuntimeError → RuntimeError
  | .snapshotNotFound => .corrupt "dangling snapshot ancestry"
  | other => other

/-- The state of a walk between two passes: the next snapshot, those passed, and the least sequence
number so far. -/
structure Walk where
  tip : Option Id
  seen : List Id
  chain : List Id
  lastSequence : ℕ

namespace Walk

/-- The state before the first pass, where any sequence number is small enough. -/
def start (tip : Option Id) : Walk := ⟨tip, [], [], 2 ^ 64 - 1⟩

/-- The state after a snapshot has been passed, which goes on with the parent. -/
def pass (w : Walk) (id : Id) (sequence : ℕ) (parent : Option Id) : Walk :=
  ⟨parent, id :: w.seen, w.chain ++ [id], sequence⟩

end Walk

namespace History

/-- One pass of the walk of readers: it needs the whole descriptor, and sequence numbers that
descend. -/
def ancestryPass (w : Walk) : Except RuntimeError (Option Walk) :=
  match w.tip with
  | none => .ok none
  | some id =>
    if id ∈ w.seen then .error (.corrupt "snapshot ancestry cycle")
    else do
      let snapshot ← (descriptor parse table id).mapError danglingAncestry
      if w.lastSequence ≤ snapshot.sequenceNumber then
        .error (.corrupt "nondecreasing snapshot ancestry")
      else return some (w.pass id snapshot.sequenceNumber snapshot.parentSnapshotId)

/-- The walk of readers from a tip, up to a root or to the first error. -/
def Ancestry (tip : Option Id) (r : Except RuntimeError (List Id)) : Prop :=
  ∃ last, Returns (ancestryPass parse table) (.start tip) last ∧ r = last.map Walk.chain

end History

namespace Writer

/-- One pass of the walk of the writer: it needs the parent and the sequence number only. -/
def ancestryPass (w : Walk) : Except RuntimeError (Option Walk) :=
  match w.tip with
  | none => .ok none
  | some id =>
    if id ∈ w.seen then .error (.corrupt "snapshot ancestry cycle")
    else
      match storedSnapshot table id with
      | none => .error (.sqlite "Query returned no rows")
      | some row =>
        if row.sequenceNumber ≤ 0 ∨ w.lastSequence ≤ row.sequenceNumber.toUInt64.toNat then
          .error (.corrupt "nondecreasing snapshot ancestry")
        else do
          let parent ← optionalIdFromBytes "invalid snapshot ID" row.parentSnapshotId
          return some (w.pass id row.sequenceNumber.toUInt64.toNat parent)

/-- The walk of the writer from a tip, up to a root or to the first error. -/
def Ancestry (tip : Option Id) (r : Except RuntimeError (List Id)) : Prop :=
  ∃ last, Returns (ancestryPass table) (.start tip) last ∧ r = last.map Walk.chain

end Writer

end Walks

/-- The message for bytes of another length does not matter to what is read. -/
theorem optionalIdFromBytes_congr {message other : String} {blob : Option Bytes} {id : Option Id}
    (h : optionalIdFromBytes message blob = .ok id) : optionalIdFromBytes other blob = .ok id := by
  cases blob with
  | none => exact h
  | some blob =>
    obtain ⟨found, hfound, rfl⟩ := map_eq_ok.mp h
    by_cases hlength : blob.length = 16
    · rw [idFromBytes, dif_pos hlength] at hfound
      rw [optionalIdFromBytes, idFromBytes, dif_pos hlength, hfound]
      rfl
    · rw [idFromBytes, dif_neg hlength] at hfound
      cases hfound

namespace StoredSnapshot

variable (parse : Bytes → Except ProtocolError CanonicalValue) (row : StoredSnapshot)

/-- The sequence number is positive, as the writer assigns them. -/
def Positive : Prop := 0 < row.sequenceNumber

/-- The JSON columns are canonical, as the writer stores them. -/
def CanonicalColumns : Prop :=
  (∃ value, parseCanonical parse row.summaryJson = .ok value) ∧
    ∃ value, parseCanonical parse row.metadataJson = .ok value

/-- The remaining numbers fit the descriptor, which keeps some of them in 32 bits. -/
def NumbersFit : Prop :=
  0 ≤ row.committedTableVersion.toInt ∧
    (∀ value ∈ [row.schemaId, row.partitionSpecId, row.sortOrderId],
      0 ≤ value.toInt ∧ value.toInt < 2 ^ 32)

/-- The sequence number without its sign, as the walks compare it. -/
def sequence : ℕ := row.sequenceNumber.toNatClampNeg

end StoredSnapshot

section Links

variable (table : List StoredSnapshot)

/-- The parent that the row of a snapshot names. -/
def parentIn (id : Id) : Option (Option Id) :=
  (storedSnapshot table id).bind fun row =>
    (optionalIdFromBytes "" row.parentSnapshotId).toOption

/-- The sequence number in the row of a snapshot. -/
def sequenceIn (id : Id) : ℕ := ((storedSnapshot table id).map StoredSnapshot.sequence).getD 0

/-- The list starts at the tip, follows the parents to a root, repeats nothing and descends in the
sequence numbers. -/
structure IsAncestry (tip : Option Id) (chain : List Id) : Prop where
  follows : Chain (parentIn table) tip chain
  nodup : chain.Nodup
  descends : chain.Pairwise fun a b => sequenceIn table b < sequenceIn table a

/-- A walk passes a snapshot: it is the next one, it is new, and its sequence number descends. -/
structure Passes (w : Walk) (id : Id) (parent : Option Id) : Prop where
  tip : w.tip = some id
  fresh : id ∉ w.seen
  parent : parentIn table id = some parent
  descends : sequenceIn table id < w.lastSequence

end Links

section Agreement

variable {parse : Bytes → Except ProtocolError CanonicalValue} {table : List StoredSnapshot}

/-- A link leads to a parent exactly when the row's parent column reads as it. -/
theorem parentIn_eq_some {id : Id} {parent : Option Id} :
    parentIn table id = some parent ↔ ∃ row, storedSnapshot table id = some row ∧
      ∀ message, optionalIdFromBytes message row.parentSnapshotId = .ok parent := by
  rw [parentIn, Option.bind_eq_some_iff]
  refine exists_congr fun row => and_congr_right fun _ => ?_
  constructor
  · intro h message
    cases hread : optionalIdFromBytes "" row.parentSnapshotId with
    | error e =>
      rw [hread] at h
      cases h
    | ok found =>
      rw [hread] at h
      cases h
      exact optionalIdFromBytes_congr hread
  · intro h
    rw [h ""]
    rfl

/-- The sequence number of a stored snapshot is the one in its row. -/
theorem sequenceIn_eq {id : Id} {row : StoredSnapshot} (h : storedSnapshot table id = some row) :
    sequenceIn table id = row.sequence := by
  rw [sequenceIn, h]
  rfl

/-- A snapshot that is found is one of the stored rows. -/
theorem mem_of_storedSnapshot {id : Id} {row : StoredSnapshot}
    (h : storedSnapshot table id = some row) : row ∈ table := List.mem_of_find?_eq_some h

/-- The writer's walk ends without a tip and passes what can be passed. -/
theorem Writer.ancestryPass_eq_ok (hpos : ∀ row ∈ table, row.Positive) {w : Walk}
    {next : Option Walk} : Writer.ancestryPass table w = .ok next ↔
      w.tip = none ∧ next = none ∨
        ∃ id parent, Passes table w id parent ∧
          next = some (w.pass id (sequenceIn table id) parent) := by
  rw [ancestryPass]
  cases htip : w.tip with
  | none =>
    rw [Except.ok.injEq]
    exact ⟨fun h => .inl ⟨rfl, h.symm⟩, fun h => h.elim (fun h => h.2.symm)
      fun ⟨_, _, hpass, _⟩ => absurd (htip.symm.trans hpass.tip) (by simp)⟩
  | some id =>
    dsimp only
    rw [ite_error_eq_ok]
    cases hrow : storedSnapshot table id with
    | none =>
      refine iff_of_false (fun h => nomatch h.2) ?_
      rintro (⟨hnone, -⟩ | ⟨id', parent, hpass, -⟩)
      · cases hnone
      · obtain rfl : id = id' := Option.some.inj (htip.symm.trans hpass.tip)
        obtain ⟨row, hrow', -⟩ := parentIn_eq_some.mp hpass.parent
        rw [hrow] at hrow'
        cases hrow'
    | some row =>
      have hrowpos : 0 < row.sequenceNumber := hpos row (mem_of_storedSnapshot hrow)
      have hnot : ¬row.sequenceNumber ≤ 0 := by
        rw [Int64.le_iff_toInt_le]
        rw [Int64.lt_iff_toInt_lt] at hrowpos
        omega
      have hseq : row.sequenceNumber.toUInt64.toNat = sequenceIn table id := by
        rw [sequenceIn_eq hrow]
        exact Int64.toNat_toUInt64_of_le (Int64.le_of_lt hrowpos)
      dsimp only
      rw [ite_error_eq_ok, bind_eq_ok, hseq, not_or, not_le]
      constructor
      · rintro ⟨hfresh, ⟨-, hlast⟩, parent, hparent, hnext⟩
        refine .inr ⟨id, parent, ⟨htip, hfresh, ?_, hlast⟩, ?_⟩
        · exact parentIn_eq_some.mpr ⟨row, hrow, fun _ => optionalIdFromBytes_congr hparent⟩
        · exact (Except.ok.inj hnext).symm
      · rintro (⟨hnone, -⟩ | ⟨id', parent, hpass, rfl⟩)
        · cases hnone
        · obtain rfl : id = id' := Option.some.inj (htip.symm.trans hpass.tip)
          obtain ⟨row', hrow', hparent⟩ := parentIn_eq_some.mp hpass.parent
          obtain rfl : row = row' := Option.some.inj (hrow.symm.trans hrow')
          exact ⟨hpass.fresh, ⟨hnot, hpass.descends⟩, parent, hparent _, rfl⟩

/-- A column that fits is read as its number. -/
private theorem u32Column_ok (index : ℕ) {value : Int64}
    (h : 0 ≤ value.toInt ∧ value.toInt < 2 ^ 32) :
    u32Column index value = .ok (UInt32.ofNat value.toNatClampNeg) := by
  rw [u32Column, if_pos h]

/-- An integer that is not negative is read as its number. -/
private theorem nonnegative_ok {value : Int64} (name : String) (h : 0 ≤ value.toInt) :
    nonnegative value name = .ok value.toNatClampNeg := by
  rw [nonnegative, if_neg (by omega)]

/-- A descriptor holds the parent and the sequence number of the row. -/
theorem descriptor_sound {id : Id} {snapshot : SnapshotDescriptor}
    (h : descriptor parse table id = .ok snapshot) :
    parentIn table id = some snapshot.parentSnapshotId ∧
      sequenceIn table id = snapshot.sequenceNumber := by
  rw [descriptor] at h
  cases hrow : storedSnapshot table id with
  | none =>
    rw [hrow] at h
    cases h
  | some row =>
    rw [hrow] at h
    obtain ⟨schemaId, -, h⟩ := bind_eq_ok.mp h
    obtain ⟨partitionSpecId, -, h⟩ := bind_eq_ok.mp h
    obtain ⟨sortOrderId, -, h⟩ := bind_eq_ok.mp h
    obtain ⟨parent, hparent, h⟩ := bind_eq_ok.mp h
    obtain ⟨sequence, hsequence, h⟩ := bind_eq_ok.mp h
    obtain ⟨version, -, h⟩ := bind_eq_ok.mp h
    obtain ⟨summary, -, h⟩ := bind_eq_ok.mp h
    obtain ⟨metadata, -, h⟩ := bind_eq_ok.mp h
    cases h
    refine ⟨parentIn_eq_some.mpr ⟨row, hrow, fun _ => optionalIdFromBytes_congr hparent⟩, ?_⟩
    rw [sequenceIn_eq hrow]
    rw [nonnegative, ite_error_eq_ok] at hsequence
    exact Except.ok.inj hsequence.2

/-- The descriptor of a row with a readable parent decodes when its other columns do. -/
theorem descriptor_complete {id : Id} {parent : Option Id}
    (hpos : ∀ row ∈ table, row.Positive) (hjson : ∀ row ∈ table, row.CanonicalColumns parse)
    (hfit : ∀ row ∈ table, row.NumbersFit) (h : parentIn table id = some parent) :
    ∃ snapshot, descriptor parse table id = .ok snapshot ∧ snapshot.parentSnapshotId = parent ∧
      snapshot.sequenceNumber = sequenceIn table id := by
  obtain ⟨row, hrow, hparent⟩ := parentIn_eq_some.mp h
  have hmem := mem_of_storedSnapshot hrow
  obtain ⟨hversion, hids⟩ := hfit row hmem
  obtain ⟨⟨summary, hsummary⟩, metadata, hmetadata⟩ := hjson row hmem
  have hsequence : 0 ≤ row.sequenceNumber.toInt :=
    Int64.le_iff_toInt_le.mp (Int64.le_of_lt (hpos row hmem))
  simp only [List.forall_mem_cons] at hids
  obtain ⟨hschema, hspec, hsort, -⟩ := hids
  rw [descriptor, hrow]
  dsimp only
  rw [ok_bind (u32Column_ok 3 hschema), ok_bind (u32Column_ok 4 hspec),
    ok_bind (u32Column_ok 5 hsort), ok_bind (hparent _),
    ok_bind (nonnegative_ok "sequence" hsequence), ok_bind (nonnegative_ok "version" hversion),
    hsummary, hmetadata, sequenceIn_eq hrow]
  exact ⟨_, rfl, rfl, rfl⟩

/-- Renaming the error of a computation does not change what it returns when it succeeds. -/
private theorem mapError_eq_ok {ε δ α : Type} {f : ε → δ} {x : Except ε α} {a : α} :
    x.mapError f = .ok a ↔ x = .ok a := by
  cases x <;> simp [Except.mapError]

/-- The walk of readers ends without a tip and passes what can be passed. -/
theorem History.ancestryPass_eq_ok (hpos : ∀ row ∈ table, row.Positive)
    (hjson : ∀ row ∈ table, row.CanonicalColumns parse) (hfit : ∀ row ∈ table, row.NumbersFit)
    {w : Walk} {next : Option Walk} : History.ancestryPass parse table w = .ok next ↔
      w.tip = none ∧ next = none ∨
        ∃ id parent, Passes table w id parent ∧
          next = some (w.pass id (sequenceIn table id) parent) := by
  rw [ancestryPass]
  cases htip : w.tip with
  | none =>
    rw [Except.ok.injEq]
    exact ⟨fun h => .inl ⟨rfl, h.symm⟩, fun h => h.elim (fun h => h.2.symm)
      fun ⟨_, _, hpass, _⟩ => absurd (htip.symm.trans hpass.tip) (by simp)⟩
  | some id =>
    dsimp only
    rw [ite_error_eq_ok, bind_eq_ok]
    constructor
    · rintro ⟨hfresh, snapshot, hsnapshot, h⟩
      obtain ⟨hlast, hnext⟩ := ite_error_eq_ok.mp h
      obtain ⟨hparent, hsequence⟩ := descriptor_sound (mapError_eq_ok.mp hsnapshot)
      refine .inr ⟨id, _, ⟨htip, hfresh, hparent, ?_⟩, ?_⟩
      · omega
      · rw [hsequence]
        exact (Except.ok.inj hnext).symm
    · rintro (⟨hnone, -⟩ | ⟨id', parent, hpass, rfl⟩)
      · cases hnone
      · obtain rfl : id = id' := Option.some.inj (htip.symm.trans hpass.tip)
        obtain ⟨snapshot, hsnapshot, rfl, hsequence⟩ :=
          descriptor_complete hpos hjson hfit hpass.parent
        have hlast := hpass.descends
        refine ⟨hpass.fresh, snapshot, mapError_eq_ok.mpr hsnapshot, ?_⟩
        rw [hsequence, if_neg (by omega)]
        rfl

/-- The writer's walk returns: the sequence number falls with each pass. -/
theorem Writer.exists_returns (hpos : ∀ row ∈ table, row.Positive) (w : Walk) :
    ∃ r, Returns (Writer.ancestryPass table) w r := by
  refine Returns.exists_of_measure Walk.lastSequence (fun w next h => ?_) w
  obtain ⟨-, hnone⟩ | ⟨id, parent, hpass, hnext⟩ := (Writer.ancestryPass_eq_ok hpos).mp h
  · cases hnone
  · cases hnext
    exact hpass.descends

/-- What a walk adds to its list, from its state down to a root. -/
structure Walk.Adds (table : List StoredSnapshot) (w : Walk) (rest : List Id) : Prop where
  follows : Chain (parentIn table) w.tip rest
  fresh : ∀ id ∈ rest, id ∉ w.seen
  below : ∀ id ∈ rest, sequenceIn table id < w.lastSequence
  descends : rest.Pairwise fun a b => sequenceIn table b < sequenceIn table a

/-- A pass puts its snapshot in front of what the rest of the walk adds. -/
theorem Walk.Adds.of_pass {w : Walk} {id : Id} {parent : Option Id} {rest : List Id}
    (hpass : Passes table w id parent)
    (h : (w.pass id (sequenceIn table id) parent).Adds table rest) : w.Adds table (id :: rest) where
  follows := by
    rw [hpass.tip]
    exact .cons hpass.parent h.follows
  fresh := List.forall_mem_cons.mpr
    ⟨hpass.fresh, fun a ha hseen => h.fresh a ha (List.mem_cons_of_mem _ hseen)⟩
  below := List.forall_mem_cons.mpr
    ⟨hpass.descends, fun a ha => (h.below a ha).trans hpass.descends⟩
  descends := List.pairwise_cons.mpr ⟨h.below, h.descends⟩

/-- What remains of a list after its first snapshot is passed. -/
theorem Walk.Adds.pass {w : Walk} {id : Id} {rest : List Id} (h : w.Adds table (id :: rest)) :
    ∃ parent, Passes table w id parent ∧
      (w.pass id (sequenceIn table id) parent).Adds table rest := by
  obtain ⟨hbelow, hdescends⟩ := List.pairwise_cons.mp h.descends
  obtain ⟨hfresh, hfreshRest⟩ := List.forall_mem_cons.mp h.fresh
  generalize htip : w.tip = tip at h
  have hfollows := h.follows
  rw [htip] at hfollows
  cases hfollows with
  | @cons _ parent _ hparent hrest =>
    refine ⟨parent, ⟨htip, hfresh, hparent, h.below id List.mem_cons_self⟩, hrest,
      fun a ha hseen => ?_, hbelow, hdescends⟩
    obtain rfl | hseen := List.mem_cons.mp hseen
    · exact absurd (hbelow a ha) (lt_irrefl _)
    · exact hfreshRest a ha hseen

/-- The writer's walk returns what its list continues to. -/
theorem Writer.returns_iff (hpos : ∀ row ∈ table, row.Positive) {w : Walk} {chain : List Id} :
    (∃ last, Returns (Writer.ancestryPass table) w (.ok last) ∧ last.chain = chain) ↔
      ∃ rest, chain = w.chain ++ rest ∧ w.Adds table rest := by
  constructor
  · rintro ⟨last, hreturns, rfl⟩
    refine Returns.induct
      (P := fun w last => ∃ rest, last.chain = w.chain ++ rest ∧ w.Adds table rest)
      (fun w hend => ?_) (fun w next last hbody hrest => ?_) hreturns
    · obtain ⟨htip, -⟩ | ⟨id, parent, -, hnext⟩ := (Writer.ancestryPass_eq_ok hpos).mp hend
      · exact ⟨[], (List.append_nil _).symm, htip ▸ .nil, by simp, by simp, .nil⟩
      · cases hnext
    · obtain ⟨-, hnone⟩ | ⟨id, parent, hpass, hnext⟩ := (Writer.ancestryPass_eq_ok hpos).mp hbody
      · cases hnone
      · cases hnext
        obtain ⟨rest, hchain, hadds⟩ := hrest
        refine ⟨id :: rest, ?_, .of_pass hpass hadds⟩
        rw [hchain, Walk.pass, List.append_assoc]
        rfl
  · rintro ⟨rest, rfl, hadds⟩
    induction rest generalizing w with
    | nil =>
      have htip : w.tip = none := by
        generalize htip : w.tip = tip
        have hfollows := hadds.follows
        rw [htip] at hfollows
        cases hfollows
        rfl
      have hend := (Writer.ancestryPass_eq_ok hpos).mpr (.inl ⟨htip, rfl⟩)
      exact ⟨w, .of_end hend, (List.append_nil _).symm⟩
    | cons id rest ih =>
      obtain ⟨parent, hpass, hrest⟩ := hadds.pass
      obtain ⟨last, hreturns, hchain⟩ := ih hrest
      have hbody := (Writer.ancestryPass_eq_ok hpos).mpr (.inr ⟨id, parent, hpass, rfl⟩)
      refine ⟨last, (Returns.pass_iff hbody).mpr hreturns, ?_⟩
      rw [hchain, Walk.pass, List.append_assoc]
      rfl

/-- A walk from the start adds an ancestry. -/
theorem adds_start_iff (table : List StoredSnapshot) (tip : Option Id) (chain : List Id) :
    (Walk.start tip).Adds table chain ↔ IsAncestry table tip chain := by
  constructor
  · intro h
    refine ⟨h.follows, ?_, h.descends⟩
    exact h.descends.imp fun hlt heq => by
      rw [heq] at hlt
      exact lt_irrefl _ hlt
  · intro h
    refine ⟨h.follows, fun _ _ => List.not_mem_nil, fun id hid => ?_, h.descends⟩
    obtain ⟨parent, hparent⟩ := h.follows.known hid
    obtain ⟨row, hrow, -⟩ := parentIn_eq_some.mp hparent
    have hlt := Int64.toNatClampNeg_lt row.sequenceNumber
    rw [sequenceIn_eq hrow, StoredSnapshot.sequence, Walk.start]
    dsimp only
    omega

/-- The writer's walk returns a list exactly when it is the ancestry. -/
theorem Writer.ancestry_iff (hpos : ∀ row ∈ table, row.Positive) {tip : Option Id}
    {chain : List Id} : Writer.Ancestry table tip (.ok chain) ↔ IsAncestry table tip chain := by
  have hreturns : Writer.Ancestry table tip (.ok chain) ↔
      ∃ last, Returns (Writer.ancestryPass table) (.start tip) (.ok last) ∧ last.chain = chain := by
    constructor
    · rintro ⟨last, hlast, heq⟩
      cases last with
      | error e => cases heq
      | ok last => exact ⟨last, hlast, (Except.ok.inj heq).symm⟩
    · rintro ⟨last, hlast, rfl⟩
      exact ⟨.ok last, hlast, rfl⟩
  rw [hreturns, Writer.returns_iff hpos, ← adds_start_iff]
  exact ⟨fun ⟨rest, heq, h⟩ => heq ▸ h, fun h => ⟨chain, rfl, h⟩⟩

/-- The two walks pass the same snapshots of a table whose descriptors decode. -/
theorem ancestryPass_agree (hpos : ∀ row ∈ table, row.Positive)
    (hjson : ∀ row ∈ table, row.CanonicalColumns parse) (hfit : ∀ row ∈ table, row.NumbersFit)
    (w : Walk) (next : Option Walk) : Writer.ancestryPass table w = .ok next ↔
      History.ancestryPass parse table w = .ok next :=
  (Writer.ancestryPass_eq_ok hpos).trans (History.ancestryPass_eq_ok hpos hjson hfit).symm

/-- The readers' walk returns a list exactly when it is the ancestry, on a table whose descriptors
decode. -/
theorem History.ancestry_iff (hpos : ∀ row ∈ table, row.Positive)
    (hjson : ∀ row ∈ table, row.CanonicalColumns parse) (hfit : ∀ row ∈ table, row.NumbersFit)
    {tip : Option Id} {chain : List Id} :
    History.Ancestry parse table tip (.ok chain) ↔ IsAncestry table tip chain := by
  have hagree := ancestryPass_agree hpos hjson hfit
  rw [← Writer.ancestry_iff hpos]
  constructor
  · rintro ⟨last, hlast, heq⟩
    cases last with
    | error e => cases heq
    | ok last => exact ⟨.ok last, hlast.congr fun w next => (hagree w next).symm, heq⟩
  · rintro ⟨last, hlast, heq⟩
    cases last with
    | error e => cases heq
    | ok last => exact ⟨.ok last, hlast.congr hagree, heq⟩

/-- The readers' walk returns on a table whose descriptors decode. -/
theorem History.exists_returns (hpos : ∀ row ∈ table, row.Positive)
    (hjson : ∀ row ∈ table, row.CanonicalColumns parse) (hfit : ∀ row ∈ table, row.NumbersFit)
    (w : Walk) : ∃ r, Returns (History.ancestryPass parse table) w r := by
  refine Returns.exists_of_measure Walk.lastSequence (fun w next h => ?_) w
  obtain ⟨-, hnone⟩ | ⟨id, parent, hpass, hnext⟩ :=
    (History.ancestryPass_eq_ok hpos hjson hfit).mp h
  · cases hnone
  · cases hnext
    exact hpass.descends

/-- **The two walks agree.** On a table whose descriptors decode, both walks return: both the one
list that starts at the tip, follows the parents to a root, repeats nothing and descends in the
sequence numbers, or both a failure, and then there is no such list. -/
theorem ancestry_walks_agree (hpos : ∀ row ∈ table, row.Positive)
    (hjson : ∀ row ∈ table, row.CanonicalColumns parse) (hfit : ∀ row ∈ table, row.NumbersFit)
    (tip : Option Id) :
    (∃ chain, History.Ancestry parse table tip (.ok chain) ∧ Writer.Ancestry table tip (.ok chain) ∧
        IsAncestry table tip chain) ∨
      (∃ e e', History.Ancestry parse table tip (.error e) ∧
        Writer.Ancestry table tip (.error e') ∧ ¬∃ chain, IsAncestry table tip chain) := by
  obtain ⟨writer, hwriter⟩ := Writer.exists_returns hpos (.start tip)
  obtain ⟨reader, hreader⟩ := History.exists_returns hpos hjson hfit (.start tip)
  cases writer with
  | ok last =>
    have hchain : IsAncestry table tip last.chain :=
      (Writer.ancestry_iff hpos).mp ⟨_, hwriter, rfl⟩
    exact .inl ⟨last.chain, (History.ancestry_iff hpos hjson hfit).mpr hchain,
      ⟨_, hwriter, rfl⟩, hchain⟩
  | error e' =>
    have hnone : ¬∃ chain, IsAncestry table tip chain := by
      rintro ⟨chain, hchain⟩
      obtain ⟨last, hlast, heq⟩ := (Writer.ancestry_iff hpos).mpr hchain
      rw [hlast.unique hwriter] at heq
      cases heq
    cases reader with
    | ok last =>
      exact absurd ⟨_, (History.ancestry_iff hpos hjson hfit).mp ⟨_, hreader, rfl⟩⟩ hnone
    | error e => exact .inr ⟨e, e', ⟨_, hreader, rfl⟩, ⟨_, hwriter, rfl⟩, hnone⟩

end Agreement

section Samples

/-- The identifiers of the snapshots, by their sequence numbers. -/
def linkedId (n : UInt8) : Id := ⟨[0, 0, 0, 0, 0, 0, 0x70, 0, 0x80, 0, 0, 0, 0, 0, 0, n], rfl⟩

/-- A snapshot with a given parent, and with the number of the snapshot in its sequence. -/
def linkedSnapshot (n : UInt8) (parent : Option UInt8) : StoredSnapshot where
  snapshotId := (linkedId n).val
  parentSnapshotId := parent.map fun p => (linkedId p).val
  sequenceNumber := Int64.ofNat n.toNat
  committedTableVersion := 1
  schemaId := 1
  partitionSpecId := 0
  sortOrderId := 0
  operation := "append"
  committedAtMs := 0
  summaryJson := [123, 125]
  metadataJson := [123, 125]

/-- Two branches from one root, one of them of two snapshots. -/
def linkedSnapshots : List StoredSnapshot :=
  [linkedSnapshot 1 none, linkedSnapshot 2 (some 1), linkedSnapshot 3 (some 1),
    linkedSnapshot 4 (some 2)]

/-- A parser of the empty object, which is all that the sample rows hold. -/
def parseEmptyObject (bytes : Bytes) : Except ProtocolError CanonicalValue :=
  if bytes = [123, 125] then .ok (.object []) else .error .nonCanonicalJson

/-- The ancestry of the last snapshot leaves the other branch out. -/
theorem isAncestry_linkedSnapshots :
    IsAncestry linkedSnapshots (some (linkedId 4)) [linkedId 4, linkedId 2, linkedId 1] where
  follows := by
    have hroot : Chain (parentIn linkedSnapshots) (some (linkedId 1)) [linkedId 1] :=
      .cons (show parentIn linkedSnapshots (linkedId 1) = some none by decide) .nil
    have hsecond : Chain (parentIn linkedSnapshots) (some (linkedId 2)) [linkedId 2, linkedId 1] :=
      .cons (show parentIn linkedSnapshots (linkedId 2) = some (some (linkedId 1)) by decide) hroot
    exact .cons (show parentIn linkedSnapshots (linkedId 4) = some (some (linkedId 2)) by decide)
      hsecond
  nodup := by decide
  descends := by decide

/-- Both walks return the ancestry of the last snapshot. -/
theorem ancestry_walks_agree_linked :
    History.Ancestry parseEmptyObject linkedSnapshots (some (linkedId 4))
        (.ok [linkedId 4, linkedId 2, linkedId 1]) ∧
      Writer.Ancestry linkedSnapshots (some (linkedId 4))
        (.ok [linkedId 4, linkedId 2, linkedId 1]) := by
  have hpos : ∀ row ∈ linkedSnapshots, 0 < row.sequenceNumber := by decide
  have hread : parseCanonical parseEmptyObject [123, 125] = .ok (.object []) := by decide
  have hcolumns : ∀ row ∈ linkedSnapshots,
      row.summaryJson = [123, 125] ∧ row.metadataJson = [123, 125] := by decide
  have hjson : ∀ row ∈ linkedSnapshots, row.CanonicalColumns parseEmptyObject := by
    intro row hrow
    obtain ⟨hsummary, hmetadata⟩ := hcolumns row hrow
    exact ⟨⟨_, hsummary ▸ hread⟩, _, hmetadata ▸ hread⟩
  have hids : ∀ row ∈ linkedSnapshots, row.committedTableVersion = 1 ∧ row.schemaId = 1 ∧
      row.partitionSpecId = 0 ∧ row.sortOrderId = 0 := by decide
  have hfit : ∀ row ∈ linkedSnapshots, 0 ≤ row.committedTableVersion.toInt ∧
      ∀ value ∈ [row.schemaId, row.partitionSpecId, row.sortOrderId],
        0 ≤ value.toInt ∧ value.toInt < 2 ^ 32 := by
    have hzero : (0 : Int64).toInt = 0 := rfl
    have hone : (1 : Int64).toInt = 1 := rfl
    intro row hrow
    obtain ⟨hversion, hschema, hspec, horder⟩ := hids row hrow
    rw [hversion, hschema, hspec, horder, List.forall_mem_cons, List.forall_mem_cons,
      List.forall_mem_singleton, hzero, hone]
    omega
  obtain ⟨chain, hreader, hwriter, hchain⟩ | ⟨-, -, -, -, hnone⟩ :=
    ancestry_walks_agree hpos hjson hfit (some (linkedId 4))
  · obtain rfl := hchain.follows.unique isAncestry_linkedSnapshots.follows
    exact ⟨hreader, hwriter⟩
  · exact absurd ⟨_, isAncestry_linkedSnapshots⟩ hnone

end Samples

section WideColumn

/-- The identifier of the one snapshot, one that the runtime could have made. -/
def loneId : Id := ⟨[0, 0, 0, 0, 0, 0, 0x70, 0, 0x80, 0, 0, 0, 0, 0, 0, 1], rfl⟩

/-- A root snapshot with a given schema, which need not fit 32 bits. -/
def loneSnapshot (schemaId : Int64) : StoredSnapshot where
  snapshotId := loneId.val
  parentSnapshotId := none
  sequenceNumber := 1
  committedTableVersion := 1
  schemaId := schemaId
  partitionSpecId := 0
  sortOrderId := 0
  operation := "append"
  committedAtMs := 0
  summaryJson := [123, 125]
  metadataJson := [123, 125]

/-- The row of the lone snapshot has a positive sequence number. -/
private theorem lone_positive (schemaId : Int64) :
    ∀ row ∈ [loneSnapshot schemaId], row.Positive := by
  intro row hrow
  obtain rfl := List.mem_singleton.mp hrow
  exact (by decide : (0 : Int64) < 1)

/-- The document columns of the lone snapshot are canonical. -/
private theorem lone_canonical (schemaId : Int64) :
    ∀ row ∈ [loneSnapshot schemaId], row.CanonicalColumns parseEmptyObject := by
  intro row hrow
  obtain rfl := List.mem_singleton.mp hrow
  have hread : parseCanonical parseEmptyObject [123, 125] = .ok (.object []) := by decide
  exact ⟨⟨_, hread⟩, _, hread⟩

/-- A snapshot whose schema needs more than 32 bits stops the readers' walk only. -/
theorem not_ancestry_walks_agree :
    ¬ ∀ parse table tip, (∀ row ∈ table, row.Positive) →
      (∀ row ∈ table, row.CanonicalColumns parse) →
      (∃ chain, History.Ancestry parse table tip (.ok chain) ∧
          Writer.Ancestry table tip (.ok chain) ∧ IsAncestry table tip chain) ∨
        (∃ e e', History.Ancestry parse table tip (.error e) ∧
          Writer.Ancestry table tip (.error e') ∧ ¬∃ chain, IsAncestry table tip chain) := by
  intro h
  have hwriter : Returns (Writer.ancestryPass [loneSnapshot 4294967296]) (.start (some loneId))
      (.ok ⟨none, [loneId], [loneId], 1⟩) := ⟨2, by rfl⟩
  have hreader : Returns (History.ancestryPass parseEmptyObject [loneSnapshot 4294967296])
      (.start (some loneId))
      (.error (.sqlite "Integer 4294967296 out of range at index 3")) := ⟨1, by rfl⟩
  obtain ⟨chain, ⟨last, hlast, hok⟩, -⟩ | ⟨e, e', -, ⟨last, hlast, herror⟩, -⟩ :=
    h parseEmptyObject [loneSnapshot 4294967296] (some loneId) (lone_positive _) (lone_canonical _)
  · rw [hlast.unique hreader] at hok
    cases hok
  · rw [hlast.unique hwriter] at herror
    cases herror

end WideColumn

end Otmp
