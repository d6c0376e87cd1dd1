import Otmp.Protocol.References

/-!
# Semantic commits in JSON

A commit is read with all its intents. Its parent members are nullable, so a genesis
commit is also read when they are missing; it is written with nulls.
-/

namespace Otmp

open Foundation CanonicalValue

namespace IntentRecord

/-- The members in key order, each of them present. -/
def entries (i : IntentRecord) : List (String × Option CanonicalValue) :=
  [("intent_sha256", some (.string i.intentSha256.format)), ("key", some (.string i.key)),
    ("operation_ids", some (.array (i.operationIds.map .string))), ("result", some i.result)]

/-- Read an intent from the members that were checked to be the known ones. -/
def ofFields (fields : Fields) : Except ProtocolError IntentRecord := do
  let key ← fields.required readText "key"
  let intentSha256 ← fields.required readHash "intent_sha256"
  let operationIds ← fields.required (readArray readText) "operation_ids"
  let result ← fields.required .ok "result"
  return { key, intentSha256, operationIds, result }

/-- Read an intent; unknown members are refused, and so are missing ones. -/
def read (value : CanonicalValue) : Except ProtocolError IntentRecord :=
  Fields.ofValue ["key", "intent_sha256", "operation_ids", "result"] value >>= ofFields

/-- Whether the JSON of an intent is spelled as it is written. -/
def spelled : CanonicalValue → Bool :=
  recordSpelled fun get => requiredSpelled anySpelling (get "intent_sha256") &&
    requiredSpelled anySpelling (get "key") &&
    requiredSpelled (arraySpelled anySpelling) (get "operation_ids") &&
    requiredSpelled anySpelling (get "result")

/-- The values of the source's type, whose result is a document with sorted keys. -/
structure Good (i : IntentRecord) : Prop where
  result : i.result.sorted = true

/-- **Intents have one spelling.** What is read is written back exactly when it is spelled
canonically, and every good intent is read back. -/
theorem read_spelling : Spelling read toValue spelled Good :=
  record_spelling
    ["intent_sha256", "key", "operation_ids", "result"]
    entries (fun _ => rfl) (by decide) (by simp; grind)
    (fun fields i hsorted h => by
      obtain ⟨key, hkey, h⟩ := bind_eq_ok.mp h
      obtain ⟨intentSha256, hintentSha256, h⟩ := bind_eq_ok.mp h
      obtain ⟨operationIds, hoperationIds, h⟩ := bind_eq_ok.mp h
      obtain ⟨result, hresult, h⟩ := bind_eq_ok.mp h
      cases h
      simp only [entries, List.forall_mem_cons, List.not_mem_nil, false_implies, implies_true,
        and_true, Bool.and_eq_true, and_assoc]
      exact and_congr (required_exact readHash_spelling (hsorted _) hintentSha256)
        (and_congr (required_exact readText_spelling (hsorted _) hkey)
        (and_congr (required_exact (readArray_spelling readText_spelling) (hsorted _) hoperationIds)
        (required_exact ok_spelling (hsorted _) hresult))))
    (fun fields i hgood hget => by
      simp only [entries, List.forall_mem_cons] at hget
      obtain ⟨hintentSha256, hkey, hoperationIds, hresult, -⟩ := hget
      rw [ofFields, ok_bind (required_reads readText_spelling trivial hkey),
        ok_bind (required_reads readHash_spelling trivial hintentSha256),
        ok_bind (required_reads (readArray_spelling readText_spelling) (fun _ _ => trivial)
          hoperationIds),
        ok_bind (required_reads ok_spelling hgood.result hresult)]
      rfl)
    (fun i hgood => by
      simp only [entries, List.forall_mem_cons]
      exact ⟨required_sorted readHash_spelling trivial,
        required_sorted readText_spelling trivial,
        required_sorted (readArray_spelling readText_spelling) (fun _ _ => trivial),
        required_sorted ok_spelling hgood.result, nofun⟩)

end IntentRecord

namespace SemanticCommit

/-- The members in key order; the parent's members are null at genesis. -/
def entries (c : SemanticCommit) : List (String × Option CanonicalValue) :=
  [("commit_id", some (.string (UuidValue.format c.commitId))),
    ("created_at_ms", some (.string (String.ofList (decimalInt c.createdAtMs)))),
    ("format_version", some (.integer c.formatVersion)),
    ("intents", some (.array (c.intents.map IntentRecord.toValue))),
    ("kind", some (.string c.kind)), ("metadata", some c.metadata),
    ("operations", some (.array c.operations)),
    ("parent_commit", some (orNull ObjectReference.toValue c.parentCommit)),
    ("parent_table_version", some (orNull decimalString c.parentTableVersion)),
    ("previous_semantic_state_sha256", some (orNull (fun hash : Sha256 => .string hash.format)
      c.previousSemanticStateSha256)),
    ("required_reader_features_after_commit", some (.array (c.requiredReaderFeaturesAfterCommit.map
      .string))),
    ("required_writer_features_after_commit", some (.array (c.requiredWriterFeaturesAfterCommit.map
      .string))),
    ("requirements", some (.array c.requirements)),
    ("semantic_state_sha256", some (.string c.semanticStateSha256.format)),
    ("table_id", some (.string (UuidValue.format c.tableId))),
    ("table_version", some (decimalString c.tableVersion))]

/-- Read a commit from the members that were checked to be the known ones. -/
def ofFields (fields : Fields) : Except ProtocolError SemanticCommit := do
  let kind ← fields.required readText "kind"
  let formatVersion ← fields.required readNat32 "format_version"
  let tableId ← fields.required readId "table_id"
  let tableVersion ← fields.required readU64 "table_version"
  let parentTableVersion ← fields.nullable readU64 "parent_table_version"
  let commitId ← fields.required readId "commit_id"
  let parentCommit ← fields.nullable ObjectReference.read "parent_commit"
  let createdAtMs ← fields.required readI64 "created_at_ms"
  let intents ← fields.required (readArray IntentRecord.read) "intents"
  let requirements ← fields.required (readArray .ok) "requirements"
  let operations ← fields.required (readArray .ok) "operations"
  let requiredReaderFeaturesAfterCommit ← fields.required readFeatures
    "required_reader_features_after_commit"
  let requiredWriterFeaturesAfterCommit ← fields.required readFeatures
    "required_writer_features_after_commit"
  let previousSemanticStateSha256 ← fields.nullable readHash "previous_semantic_state_sha256"
  let semanticStateSha256 ← fields.required readHash "semantic_state_sha256"
  let metadata ← fields.required .ok "metadata"
  return {
    kind, formatVersion, tableId, tableVersion, parentTableVersion, commitId, parentCommit,
    createdAtMs, intents, requirements, operations, requiredReaderFeaturesAfterCommit,
    requiredWriterFeaturesAfterCommit, previousSemanticStateSha256, semanticStateSha256, metadata }

/-- Read a commit; unknown members are refused, and optional ones may be missing. -/
def read (value : CanonicalValue) : Except ProtocolError SemanticCommit :=
  Fields.ofValue ["kind", "format_version", "table_id", "table_version", "parent_table_version",
    "commit_id", "parent_commit", "created_at_ms", "intents", "requirements", "operations",
    "required_reader_features_after_commit", "required_writer_features_after_commit",
    "previous_semantic_state_sha256", "semantic_state_sha256", "metadata"] value >>= ofFields

/-- Whether the JSON of a commit is spelled as it is written: its parents are spelled out as null
when there are none. -/
def spelled : CanonicalValue → Bool :=
  recordSpelled fun get => requiredSpelled anySpelling (get "commit_id") &&
    requiredSpelled anySpelling (get "created_at_ms") &&
    requiredSpelled anySpelling (get "format_version") &&
    requiredSpelled (arraySpelled IntentRecord.spelled) (get "intents") &&
    requiredSpelled anySpelling (get "kind") && requiredSpelled anySpelling (get "metadata") &&
    requiredSpelled (arraySpelled anySpelling) (get "operations") &&
    nullableSpelled ObjectReference.spelled (get "parent_commit") &&
    nullableSpelled anySpelling (get "parent_table_version") &&
    nullableSpelled anySpelling (get "previous_semantic_state_sha256") &&
    requiredSpelled (arraySpelled anySpelling) (get "required_reader_features_after_commit") &&
    requiredSpelled (arraySpelled anySpelling) (get "required_writer_features_after_commit") &&
    requiredSpelled (arraySpelled anySpelling) (get "requirements") &&
    requiredSpelled anySpelling (get "semantic_state_sha256") &&
    requiredSpelled anySpelling (get "table_id") &&
    requiredSpelled anySpelling (get "table_version")

/-- The values of the source's type: numbers of fixed width, identifiers that the runtime makes, and
documents with sorted keys. -/
structure Good (c : SemanticCommit) : Prop where
  formatVersion : c.formatVersion < 4294967296
  tableId : Id.isV7 c.tableId = true
  tableVersion : c.tableVersion < 18446744073709551616
  parentTableVersion : ∀ part ∈ c.parentTableVersion, part < 18446744073709551616
  commitId : Id.isV7 c.commitId = true
  parentCommit : ∀ part ∈ c.parentCommit, ObjectReference.Good part
  createdAtMs : -9223372036854775808 ≤ c.createdAtMs ∧ c.createdAtMs < 9223372036854775808
  intents : ∀ intent ∈ c.intents, intent.Good
  requirements : ∀ value ∈ c.requirements, value.sorted = true
  operations : ∀ value ∈ c.operations, value.sorted = true
  requiredReaderFeaturesAfterCommit : featuresAfter none c.requiredReaderFeaturesAfterCommit = .ok
    ()
  requiredWriterFeaturesAfterCommit : featuresAfter none c.requiredWriterFeaturesAfterCommit = .ok
    ()
  metadata : c.metadata.sorted = true

/-- **Semantic commits have one spelling.** What is read is written back exactly when it is spelled
canonically, and every good commit is read back. -/
theorem read_spelling : Spelling read toValue spelled Good :=
  record_spelling
    ["commit_id", "created_at_ms", "format_version", "intents", "kind", "metadata", "operations",
      "parent_commit", "parent_table_version", "previous_semantic_state_sha256",
      "required_reader_features_after_commit", "required_writer_features_after_commit",
      "requirements", "semantic_state_sha256", "table_id", "table_version"]
    entries (fun _ => rfl) (by decide) (by simp; grind)
    (fun fields c hsorted h => by
      obtain ⟨kind, hkind, h⟩ := bind_eq_ok.mp h
      obtain ⟨formatVersion, hformatVersion, h⟩ := bind_eq_ok.mp h
      obtain ⟨tableId, htableId, h⟩ := bind_eq_ok.mp h
      obtain ⟨tableVersion, htableVersion, h⟩ := bind_eq_ok.mp h
      obtain ⟨parentTableVersion, hparentTableVersion, h⟩ := bind_eq_ok.mp h
      obtain ⟨commitId, hcommitId, h⟩ := bind_eq_ok.mp h
      obtain ⟨parentCommit, hparentCommit, h⟩ := bind_eq_ok.mp h
      obtain ⟨createdAtMs, hcreatedAtMs, h⟩ := bind_eq_ok.mp h
      obtain ⟨intents, hintents, h⟩ := bind_eq_ok.mp h
      obtain ⟨requirements, hrequirements, h⟩ := bind_eq_ok.mp h
      obtain ⟨operations, hoperations, h⟩ := bind_eq_ok.mp h
      obtain ⟨requiredReaderFeaturesAfterCommit, hrequiredReaderFeaturesAfterCommit, h⟩ :=
        bind_eq_ok.mp h
      obtain ⟨requiredWriterFeaturesAfterCommit, hrequiredWriterFeaturesAfterCommit, h⟩ :=
        bind_eq_ok.mp h
      obtain ⟨previousSemanticStateSha256, hpreviousSemanticStateSha256, h⟩ := bind_eq_ok.mp h
      obtain ⟨semanticStateSha256, hsemanticStateSha256, h⟩ := bind_eq_ok.mp h
      obtain ⟨metadata, hmetadata, h⟩ := bind_eq_ok.mp h
      cases h
      simp only [entries, List.forall_mem_cons, List.not_mem_nil, false_implies, implies_true,
        and_true, Bool.and_eq_true, and_assoc]
      exact and_congr (required_exact readId_spelling (hsorted _) hcommitId)
        (and_congr (required_exact readI64_spelling (hsorted _) hcreatedAtMs)
        (and_congr (required_exact readNat32_spelling (hsorted _) hformatVersion)
        (and_congr (required_exact (readArray_spelling IntentRecord.read_spelling) (hsorted _)
          hintents)
        (and_congr (required_exact readText_spelling (hsorted _) hkind)
        (and_congr (required_exact ok_spelling (hsorted _) hmetadata)
        (and_congr (required_exact readValues_spelling (hsorted _) hoperations)
        (and_congr (nullable_exact ObjectReference.read_spelling (hsorted _) hparentCommit)
        (and_congr (nullable_exact readU64_spelling (hsorted _) hparentTableVersion)
        (and_congr (nullable_exact readHash_spelling (hsorted _) hpreviousSemanticStateSha256)
        (and_congr (required_exact readFeatures_spelling (hsorted _)
          hrequiredReaderFeaturesAfterCommit)
        (and_congr (required_exact readFeatures_spelling (hsorted _)
          hrequiredWriterFeaturesAfterCommit)
        (and_congr (required_exact readValues_spelling (hsorted _) hrequirements)
        (and_congr (required_exact readHash_spelling (hsorted _) hsemanticStateSha256)
        (and_congr (required_exact readId_spelling (hsorted _) htableId)
        (required_exact readU64_spelling (hsorted _) htableVersion))))))))))))))))
    (fun fields c hgood hget => by
      simp only [entries, List.forall_mem_cons] at hget
      obtain ⟨hcommitId, hcreatedAtMs, hformatVersion, hintents, hkind, hmetadata, hoperations,
        hparentCommit, hparentTableVersion, hpreviousSemanticStateSha256,
        hrequiredReaderFeaturesAfterCommit, hrequiredWriterFeaturesAfterCommit, hrequirements,
        hsemanticStateSha256, htableId, htableVersion, -⟩ := hget
      rw [ofFields, ok_bind (required_reads readText_spelling trivial hkind),
        ok_bind (required_reads readNat32_spelling hgood.formatVersion hformatVersion),
        ok_bind (required_reads readId_spelling hgood.tableId htableId),
        ok_bind (required_reads readU64_spelling hgood.tableVersion htableVersion),
        ok_bind (nullable_reads readU64_spelling hgood.parentTableVersion (fun _ _ => nofun)
          hparentTableVersion),
        ok_bind (required_reads readId_spelling hgood.commitId hcommitId),
        ok_bind (nullable_reads ObjectReference.read_spelling hgood.parentCommit (fun _ _ => nofun)
          hparentCommit),
        ok_bind (required_reads readI64_spelling hgood.createdAtMs hcreatedAtMs),
        ok_bind (required_reads (readArray_spelling IntentRecord.read_spelling) hgood.intents
          hintents),
        ok_bind (required_reads readValues_spelling hgood.requirements hrequirements),
        ok_bind (required_reads readValues_spelling hgood.operations hoperations),
        ok_bind (required_reads readFeatures_spelling hgood.requiredReaderFeaturesAfterCommit
          hrequiredReaderFeaturesAfterCommit),
        ok_bind (required_reads readFeatures_spelling hgood.requiredWriterFeaturesAfterCommit
          hrequiredWriterFeaturesAfterCommit),
        ok_bind (nullable_reads readHash_spelling (fun _ _ => trivial) (fun _ _ => nofun)
          hpreviousSemanticStateSha256),
        ok_bind (required_reads readHash_spelling trivial hsemanticStateSha256),
        ok_bind (required_reads ok_spelling hgood.metadata hmetadata)]
      rfl)
    (fun c hgood => by
      simp only [entries, List.forall_mem_cons]
      exact ⟨required_sorted readId_spelling hgood.commitId,
        required_sorted readI64_spelling hgood.createdAtMs,
        required_sorted readNat32_spelling hgood.formatVersion,
        required_sorted (readArray_spelling IntentRecord.read_spelling) hgood.intents,
        required_sorted readText_spelling trivial,
        required_sorted ok_spelling hgood.metadata,
        required_sorted readValues_spelling hgood.operations,
        nullable_sorted ObjectReference.read_spelling hgood.parentCommit,
        nullable_sorted readU64_spelling hgood.parentTableVersion,
        nullable_sorted readHash_spelling (fun _ _ => trivial),
        required_sorted readFeatures_spelling hgood.requiredReaderFeaturesAfterCommit,
        required_sorted readFeatures_spelling hgood.requiredWriterFeaturesAfterCommit,
        required_sorted readValues_spelling hgood.requirements,
        required_sorted readHash_spelling trivial,
        required_sorted readId_spelling hgood.tableId,
        required_sorted readU64_spelling hgood.tableVersion, nofun⟩)

end SemanticCommit

end Otmp
