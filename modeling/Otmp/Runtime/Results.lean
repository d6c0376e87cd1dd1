import Otmp.Protocol.OneEncoding
import Otmp.Runtime.Append

/-!
# Stored results

The result of a commit is stored beside its idempotency key as canonical text and is read
back when the same request comes again. Results of operations are tagged by their kind.
-/

namespace Otmp

open Foundation CanonicalValue

/-- Read a number that is written as a number. -/
def readCount (value : CanonicalValue) : Except ProtocolError ℕ :=
  match value with
  | .integer n =>
    if 0 ≤ n ∧ n < 18446744073709551616 then .ok n.toNat else deError "invalid value"
  | _ => deError "invalid type"

/-- Read a `u32` from its decimal string, as results keep identifiers. -/
def readIdNumber (value : CanonicalValue) : Except ProtocolError UInt32 := do
  let n ← readU64 value
  if n < 4294967296 then .ok (UInt32.ofNat n) else deError "out of range integral type conversion"

/-- Read an optional identifier that has to be stated. -/
def requiredSnapshot (value : CanonicalValue) : Except ProtocolError (Option Id) :=
  match value with
  | .null => .ok none
  | value => (readId value).map some

/-- Read the kind of a ref, which is a name, alone or as the only key of an object. -/
def RefType.read (value : CanonicalValue) : Except ProtocolError RefType :=
  match value with
  | .string name | .object [(name, .null)] =>
    if name = "branch" then .ok .branch
    else if name = "tag" then .ok .tag
    else deError "unknown variant"
  | _ => deError "invalid type"

namespace OperationResult

/-- The declared members of a kind of result and their reader. -/
def variant (tag : String) :
    Option (List String × (Fields → Except ProtocolError OperationResult)) :=
  match tag with
  | "properties" => some (["operation_id", "keys"], fun fields => do
      let operationId ← fields.required readText "operation_id"
      let keys ← fields.required (readArray readText) "keys"
      return .properties operationId keys)
  | "ref" => some (["operation_id", "ref", "ref_type", "snapshot_id"], fun fields => do
      let operationId ← fields.required readText "operation_id"
      let name ← fields.required readText "ref"
      let refType ← fields.required RefType.read "ref_type"
      let snapshotId ← fields.required requiredSnapshot "snapshot_id"
      return .ref operationId name refType snapshotId)
  | "schema" => some (["operation_id", "schema_id"], fun fields => do
      let operationId ← fields.required readText "operation_id"
      let schemaId ← fields.required readIdNumber "schema_id"
      return .schema operationId schemaId)
  | _ => none

/-- Read the members beside a tag, which decides what they are. -/
def ofTagged (tag rest : CanonicalValue) : Except ProtocolError OperationResult := do
  match variant (← readText tag) with
  | some (declared, read) => Fields.ofValue declared rest >>= read
  | none => deError "unknown variant"

/-- Read a result, which is an object with a tag or an array that starts with it. -/
def read (value : CanonicalValue) : Except ProtocolError OperationResult :=
  match value with
  | .object ms =>
    match get? "type" ms with
    | some tag => ofTagged tag (.object (ms.filter (·.1 ≠ "type")))
    | none => deError "missing field type"
  | .array (tag :: rest) => ofTagged tag (.array rest)
  | _ => deError "invalid type"

/-- The values of the source's type, whose identifiers the runtime made. -/
def Good : OperationResult → Prop
  | .ref _ _ _ snapshotId => ∀ id ∈ snapshotId, Id.isV7 id = true
  | _ => True

end OperationResult

namespace DurableResult

/-- Read the members of a transaction's stored result. -/
def ofFields (fields : Fields) : Except ProtocolError DurableResult := do
  let tableVersion ← fields.required readCount "table_version"
  let commitId ← fields.required readId "commit_id"
  let operationResults ← fields.required (readArray OperationResult.read) "operation_results"
  return { tableVersion, commitId, operationResults }

/-- Reads a transaction's stored result, refusing members it does not know. -/
def read (value : CanonicalValue) : Except ProtocolError DurableResult :=
  Fields.ofValue ["table_version", "commit_id", "operation_results"] value >>= ofFields

/-- The values of the source's type: a version of 64 bits, and identifiers that the runtime made. -/
structure Good (r : DurableResult) : Prop where
  tableVersion : r.tableVersion < 18446744073709551616
  commitId : Id.isV7 r.commitId = true
  operationResults : ∀ result ∈ r.operationResults, result.Good

end DurableResult

/-- Read a committed file: its identifier and its location. -/
def readCommittedFile (value : CanonicalValue) : Except ProtocolError (Id × String) :=
  Fields.ofValue ["file_id", "uri"] value >>= fun fields => do
    let fileId ← fields.required readId "file_id"
    let uri ← fields.required readUri "uri"
    return (fileId, uri)

namespace AppendResult

/-- Read the members of an append's stored result. -/
def ofFields (fields : Fields) : Except ProtocolError AppendResult := do
  let tableVersion ← fields.required readU64 "table_version"
  let commitId ← fields.required readId "commit_id"
  let snapshotId ← fields.required readId "snapshot_id"
  let sequenceNumber ← fields.required readU64 "sequence_number"
  let targetRef ← fields.required readText "ref"
  let files ← fields.required (readArray readCommittedFile) "files"
  return { tableVersion, commitId, snapshotId, sequenceNumber, targetRef, files }

/-- Reads an append's stored result, refusing members it does not know. -/
def read (value : CanonicalValue) : Except ProtocolError AppendResult :=
  Fields.ofValue ["table_version", "commit_id", "snapshot_id", "sequence_number", "ref", "files"]
    value >>= ofFields

/-- The values of the source's type: numbers of 64 bits, identifiers that the runtime made, and safe
locations. -/
structure Good (r : AppendResult) : Prop where
  tableVersion : r.tableVersion < 18446744073709551616
  commitId : Id.isV7 r.commitId = true
  snapshotId : Id.isV7 r.snapshotId = true
  sequenceNumber : r.sequenceNumber < 18446744073709551616
  files : ∀ file ∈ r.files, Id.isV7 file.1 = true ∧ safeRelativeUri file.2 = true

end AppendResult

/-- A written number is read. -/
theorem readCount_integer {n : ℕ} (h : n < 18446744073709551616) :
    readCount (.integer n) = .ok n := by
  rw [readCount, if_pos (by omega), Int.toNat_natCast]

/-- A field or schema identifier is read back from its decimal number. -/
theorem readIdNumber_decimalString (n : UInt32) : readIdNumber (decimalString n.toNat) = .ok n := by
  have hlt := n.toNat_lt
  rw [readIdNumber, ok_bind (readU64_spelling.reads (by omega : n.toNat < 18446744073709551616)),
    if_pos (by omega), UInt32.ofNat_toNat]

/-- An optional snapshot is read back from its document, if the runtime made it. -/
theorem requiredSnapshot_optionalIdValue {id : Option Id} (h : ∀ i ∈ id, Id.isV7 i = true) :
    requiredSnapshot (optionalIdValue id) = .ok id := by
  cases id with
  | none => rfl
  | some i =>
    change (readId (.string (UuidValue.format i))).map some = .ok (some i)
    rw [readId_spelling.reads (h i rfl)]
    rfl

/-- A type of references is read back from its name. -/
theorem RefType.read_asStr (refType : RefType) : RefType.read (.string refType.asStr) =
    .ok refType := by
  cases refType with
  | branch => rfl
  | tag => rfl

/-- A written array is read when its elements are. -/
theorem readArray_map {α : Type} {read : CanonicalValue → Except ProtocolError α}
    {write : α → CanonicalValue} {as : List α} (h : ∀ a ∈ as, read (write a) = .ok a) :
    readArray read (.array (as.map write)) = .ok as := by
  have hmap := mapM_map_eq_ok (k := id) h
  rwa [List.map_id] at hmap

namespace OperationResult

/-- The tag of a result, by which its document is told. -/
def tag : OperationResult → String
  | .properties _ _ => "properties"
  | .ref _ _ _ _ => "ref"
  | .schema _ _ => "schema"

/-- The members beside the tag in key order, each of them present. -/
def entries : OperationResult → List (String × Option CanonicalValue)
  | .properties operationId keys => [("keys", some (.array (keys.map .string))),
      ("operation_id", some (.string operationId))]
  | .ref operationId name refType snapshotId => [("operation_id", some (.string operationId)),
      ("ref", some (.string name)), ("ref_type", some (.string refType.asStr)),
      ("snapshot_id", some (optionalIdValue snapshotId))]
  | .schema operationId schemaId => [("operation_id", some (.string operationId)),
      ("schema_id", some (decimalString schemaId.toNat))]

/-- A result is read by the reader of its tag. -/
theorem read_eq {r : OperationResult} {declared : List String}
    {body : Fields → Except ProtocolError OperationResult}
    (hvariant : variant r.tag = some (declared, body)) :
    read r.toValue = (Fields.ofValue declared (.object (members r.entries)) >>= body) := by
  have hobject : ∃ ms, r.toValue = .object ms ∧ get? "type" ms = some (.string r.tag) ∧
      ms.filter (·.1 ≠ "type") = members r.entries := by
    cases r <;> exact ⟨_, rfl, by simp [get?, tag], by simp [members, entries]⟩
  obtain ⟨ms, hvalue, htag, hrest⟩ := hobject
  rw [hvalue]
  simp only [read, htag, hrest, ofTagged]
  rw [ok_bind (readText_spelling.reads trivial)]
  simp only [hvariant]

/-- A stored result of an operation is read back. -/
theorem read_toValue {r : OperationResult} (h : r.Good) : read r.toValue = .ok r := by
  cases r with
  | properties operationId keys =>
    rw [read_eq rfl]
    refine record_reads ["keys", "operation_id"] rfl (by decide) (by decide) fun fields hget => ?_
    simp only [entries, List.forall_mem_cons] at hget
    obtain ⟨hkeys, hid, -⟩ := hget
    rw [ok_bind (required_of_get hid (readText_spelling.reads trivial)),
      ok_bind (required_of_get hkeys (readArray_map fun _ _ => readText_spelling.reads trivial))]
    rfl
  | ref operationId name refType snapshotId =>
    rw [read_eq rfl]
    refine record_reads ["operation_id", "ref", "ref_type", "snapshot_id"] rfl (by decide)
      (by decide) fun fields hget => ?_
    simp only [entries, List.forall_mem_cons] at hget
    obtain ⟨hid, hname, htype, hsnapshot, -⟩ := hget
    rw [ok_bind (required_of_get hid (readText_spelling.reads trivial)),
      ok_bind (required_of_get hname (readText_spelling.reads trivial)),
      ok_bind (required_of_get htype (RefType.read_asStr refType)),
      ok_bind (required_of_get hsnapshot (requiredSnapshot_optionalIdValue h))]
    rfl
  | schema operationId schemaId =>
    rw [read_eq rfl]
    refine record_reads ["operation_id", "schema_id"] rfl (by decide) (by decide)
      fun fields hget => ?_
    simp only [entries, List.forall_mem_cons] at hget
    obtain ⟨hid, hschema, -⟩ := hget
    rw [ok_bind (required_of_get hid (readText_spelling.reads trivial)),
      ok_bind (required_of_get hschema (readIdNumber_decimalString schemaId))]
    rfl

/-- The members of an operation's result are in order. -/
theorem sorted_toValue (r : OperationResult) : r.toValue.sorted = true := by
  cases r with
  | properties operationId keys =>
    have hkeys : (array (keys.map .string)).sorted = true :=
      sortedList_iff.mpr (List.forall_mem_map.mpr fun _ _ => rfl)
    refine sorted_object.mpr ⟨?_, by simpa [sorted] using hkeys⟩
    change ["keys", "operation_id", "type"].Pairwise (· < ·)
    decide
  | ref operationId name refType snapshotId =>
    refine sorted_object.mpr ⟨?_, by cases snapshotId <;> simp [sorted, optionalIdValue, orNull]⟩
    change ["operation_id", "ref", "ref_type", "snapshot_id", "type"].Pairwise (· < ·)
    decide
  | schema operationId schemaId =>
    refine sorted_object.mpr ⟨?_, by simp [sorted, decimalString]⟩
    change ["operation_id", "schema_id", "type"].Pairwise (· < ·)
    decide

end OperationResult

namespace DurableResult

/-- The members in key order, each of them present. -/
def entries (r : DurableResult) : List (String × Option CanonicalValue) :=
  [("commit_id", some (.string (UuidValue.format r.commitId))),
    ("operation_results", some (.array (r.operationResults.map OperationResult.toValue))),
    ("table_version", some (.integer r.tableVersion))]

/-- The document of a transaction's result is made of its entries. -/
theorem toValue_eq (r : DurableResult) : r.toValue = .object (members r.entries) := rfl

/-- The keys of a transaction's result, in order. -/
theorem keys_entries (r : DurableResult) :
    r.entries.map Prod.fst = ["commit_id", "operation_results", "table_version"] := rfl

/-- A stored result of a transaction is read back. -/
theorem read_toValue {r : DurableResult} (h : r.Good) : read r.toValue = .ok r := by
  rw [toValue_eq, read]
  refine record_reads _ r.keys_entries (by decide) (by decide) fun fields hget => ?_
  simp only [entries, List.forall_mem_cons] at hget
  obtain ⟨hcommit, hresults, hversion, -⟩ := hget
  rw [ofFields, ok_bind (required_of_get hversion (readCount_integer h.tableVersion)),
    ok_bind (required_of_get hcommit (readId_spelling.reads h.commitId)),
    ok_bind (required_of_get hresults (readArray_map fun result hresult =>
      OperationResult.read_toValue (h.operationResults result hresult)))]
  rfl

/-- The members of a transaction's result are in order. -/
theorem sorted_toValue (r : DurableResult) : r.toValue.sorted = true := by
  rw [toValue_eq]
  refine sorted_record _ r.keys_entries (by decide) ?_
  have hresults : (array (r.operationResults.map OperationResult.toValue)).sorted = true :=
    sortedList_iff.mpr (List.forall_mem_map.mpr fun result _ => result.sorted_toValue)
  simpa [entries, sorted] using hresults

end DurableResult

/-- The members of a committed file in key order. -/
def committedFileEntries (file : Id × String) : List (String × Option CanonicalValue) :=
  [("file_id", some (.string (UuidValue.format file.1))), ("uri", some (.string file.2))]

/-- A committed file in JSON: its identifier and its location. -/
abbrev committedFileValue (file : Id × String) : CanonicalValue :=
  .object (members (committedFileEntries file))

/-- A committed file is read back from its document. -/
theorem readCommittedFile_value {file : Id × String} (hid : Id.isV7 file.1 = true)
    (huri : safeRelativeUri file.2 = true) :
    readCommittedFile (committedFileValue file) = .ok file := by
  refine record_reads ["file_id", "uri"] rfl (by decide) (by decide) fun fields hget => ?_
  simp only [committedFileEntries, List.forall_mem_cons] at hget
  obtain ⟨hfile, hlocation, -⟩ := hget
  rw [ok_bind (required_of_get hfile (readId_spelling.reads hid)),
    ok_bind (required_of_get hlocation (readUri_spelling.reads huri))]
  rfl

namespace AppendResult

/-- The members in key order, each of them present. -/
def entries (r : AppendResult) : List (String × Option CanonicalValue) :=
  [("commit_id", some (.string (UuidValue.format r.commitId))),
    ("files", some (.array (r.files.map committedFileValue))),
    ("ref", some (.string r.targetRef)), ("sequence_number", some (decimalString r.sequenceNumber)),
    ("snapshot_id", some (.string (UuidValue.format r.snapshotId))),
    ("table_version", some (decimalString r.tableVersion))]

/-- The document of an append's result is made of its entries. -/
theorem toValue_eq (r : AppendResult) : r.toValue = .object (members r.entries) := rfl

/-- The keys of an append's result, in order. -/
theorem keys_entries (r : AppendResult) : r.entries.map Prod.fst =
    ["commit_id", "files", "ref", "sequence_number", "snapshot_id", "table_version"] := rfl

/-- A stored result of an append is read back. -/
theorem read_toValue {r : AppendResult} (h : r.Good) : read r.toValue = .ok r := by
  rw [toValue_eq, read]
  refine record_reads _ r.keys_entries (by decide) (by decide) fun fields hget => ?_
  simp only [entries, List.forall_mem_cons] at hget
  obtain ⟨hcommit, hfiles, href, hsequence, hsnapshot, hversion, -⟩ := hget
  rw [ofFields, ok_bind (required_of_get hversion (readU64_spelling.reads h.tableVersion)),
    ok_bind (required_of_get hcommit (readId_spelling.reads h.commitId)),
    ok_bind (required_of_get hsnapshot (readId_spelling.reads h.snapshotId)),
    ok_bind (required_of_get hsequence (readU64_spelling.reads h.sequenceNumber)),
    ok_bind (required_of_get href (readText_spelling.reads trivial)),
    ok_bind (required_of_get hfiles (readArray_map fun file hfile =>
      readCommittedFile_value (h.files file hfile).1 (h.files file hfile).2))]
  rfl

/-- The members of an append's result are in order. -/
theorem sorted_toValue (r : AppendResult) : r.toValue.sorted = true := by
  rw [toValue_eq]
  refine sorted_record _ r.keys_entries (by decide) ?_
  have hfiles : (array (r.files.map committedFileValue)).sorted = true := by
    refine sortedList_iff.mpr (List.forall_mem_map.mpr fun file _ => ?_)
    exact sorted_record ["file_id", "uri"] rfl (by decide)
      (by simp [committedFileEntries, sorted])
  simpa [entries, sorted, decimalString] using hfiles

end AppendResult

end Otmp
