import Otmp.Protocol.References

/-!
# Heads and generations in JSON

The head of a table names its current commit and its current generation; a generation
describes the image of one table version.
-/

namespace Otmp

open Foundation CanonicalValue

/-- A generation: the image of one table version, with the commit it shows and the features that
readers must support. -/
structure Generation where
  kind : String
  formatVersion : ℕ
  tableId : Id
  tableVersion : ℕ
  generationId : Id
  createdAtMs : ℤ
  semanticStateSha256 : Sha256
  semanticCommit : ObjectReference
  physicalParent : Option ObjectReference
  metadataImage : MetadataImage
  scanProjection : Option CanonicalValue
  metadata : List (String × CanonicalValue)
  deriving DecidableEq

namespace Generation

/-- The members in key order, some of them null. -/
def entries (g : Generation) : List (String × Option CanonicalValue) :=
  [("created_at_ms", some (.string (String.ofList (decimalInt g.createdAtMs)))),
    ("format_version", some (.integer g.formatVersion)),
    ("generation_id", some (.string (UuidValue.format g.generationId))),
    ("kind", some (.string g.kind)), ("metadata", some (.object g.metadata)),
    ("metadata_image", some g.metadataImage.toValue),
    ("physical_parent", g.physicalParent.map ObjectReference.toValue),
    ("scan_projection", some (orNull id g.scanProjection)),
    ("semantic_commit", some g.semanticCommit.toValue),
    ("semantic_state_sha256", some (.string g.semanticStateSha256.format)),
    ("table_id", some (.string (UuidValue.format g.tableId))),
    ("table_version", some (decimalString g.tableVersion))]

/-- The JSON of a generation, which is what its hash is computed over. -/
def toValue (g : Generation) : CanonicalValue := .object (members g.entries)

/-- Read a generation from the members that were checked to be the known ones. -/
def ofFields (fields : Fields) : Except ProtocolError Generation := do
  let kind ← fields.required readText "kind"
  let formatVersion ← fields.required readNat32 "format_version"
  let tableId ← fields.required readId "table_id"
  let tableVersion ← fields.required readU64 "table_version"
  let generationId ← fields.required readId "generation_id"
  let createdAtMs ← fields.required readI64 "created_at_ms"
  let semanticStateSha256 ← fields.required readHash "semantic_state_sha256"
  let semanticCommit ← fields.required ObjectReference.read "semantic_commit"
  let physicalParent ← fields.skipped ObjectReference.read "physical_parent"
  let metadataImage ← fields.required MetadataImage.read "metadata_image"
  let scanProjection ← fields.nullable .ok "scan_projection"
  let metadata ← fields.required readMap "metadata"
  return {
    kind, formatVersion, tableId, tableVersion, generationId, createdAtMs, semanticStateSha256,
    semanticCommit, physicalParent, metadataImage, scanProjection, metadata }

/-- Read a generation; unknown members are refused, and optional ones may be missing. -/
def read (value : CanonicalValue) : Except ProtocolError Generation :=
  Fields.ofValue ["kind", "format_version", "table_id", "table_version", "generation_id",
    "created_at_ms", "semantic_state_sha256", "semantic_commit", "physical_parent",
    "metadata_image", "scan_projection", "metadata"] value >>= ofFields

/-- Whether the JSON of a generation is spelled as it is written. -/
def spelled : CanonicalValue → Bool :=
  recordSpelled fun get => requiredSpelled anySpelling (get "created_at_ms") &&
    requiredSpelled anySpelling (get "format_version") &&
    requiredSpelled anySpelling (get "generation_id") && requiredSpelled anySpelling (get "kind") &&
    requiredSpelled anySpelling (get "metadata") &&
    requiredSpelled MetadataImage.spelled (get "metadata_image") &&
    skippedSpelled ObjectReference.spelled (get "physical_parent") &&
    nullableSpelled anySpelling (get "scan_projection") &&
    requiredSpelled ObjectReference.spelled (get "semantic_commit") &&
    requiredSpelled anySpelling (get "semantic_state_sha256") &&
    requiredSpelled anySpelling (get "table_id") &&
    requiredSpelled anySpelling (get "table_version")

/-- The values of the source's type: numbers of fixed width, identifiers that the runtime makes, and
sorted documents and features. -/
structure Good (g : Generation) : Prop where
  formatVersion : g.formatVersion < 4294967296
  tableId : Id.isV7 g.tableId = true
  tableVersion : g.tableVersion < 18446744073709551616
  generationId : Id.isV7 g.generationId = true
  createdAtMs : -9223372036854775808 ≤ g.createdAtMs ∧ g.createdAtMs < 9223372036854775808
  semanticCommit : ObjectReference.Good g.semanticCommit
  physicalParent : ∀ part ∈ g.physicalParent, ObjectReference.Good part
  metadataImage : MetadataImage.Good g.metadataImage
  scanProjection : ∀ part ∈ g.scanProjection, part.sorted = true ∧ part ≠ .null
  metadata : (CanonicalValue.object g.metadata).sorted = true

/-- **Generations have one spelling.** What is read is written back exactly when it is spelled
canonically, and every good generation is read back. -/
theorem read_spelling : Spelling read toValue spelled Good :=
  record_spelling
    ["created_at_ms", "format_version", "generation_id", "kind", "metadata", "metadata_image",
      "physical_parent", "scan_projection", "semantic_commit", "semantic_state_sha256", "table_id",
      "table_version"]
    entries (fun _ => rfl) (by decide) (by simp; grind)
    (fun fields g hsorted h => by
      obtain ⟨kind, hkind, h⟩ := bind_eq_ok.mp h
      obtain ⟨formatVersion, hformatVersion, h⟩ := bind_eq_ok.mp h
      obtain ⟨tableId, htableId, h⟩ := bind_eq_ok.mp h
      obtain ⟨tableVersion, htableVersion, h⟩ := bind_eq_ok.mp h
      obtain ⟨generationId, hgenerationId, h⟩ := bind_eq_ok.mp h
      obtain ⟨createdAtMs, hcreatedAtMs, h⟩ := bind_eq_ok.mp h
      obtain ⟨semanticStateSha256, hsemanticStateSha256, h⟩ := bind_eq_ok.mp h
      obtain ⟨semanticCommit, hsemanticCommit, h⟩ := bind_eq_ok.mp h
      obtain ⟨physicalParent, hphysicalParent, h⟩ := bind_eq_ok.mp h
      obtain ⟨metadataImage, hmetadataImage, h⟩ := bind_eq_ok.mp h
      obtain ⟨scanProjection, hscanProjection, h⟩ := bind_eq_ok.mp h
      obtain ⟨metadata, hmetadata, h⟩ := bind_eq_ok.mp h
      cases h
      simp only [entries, List.forall_mem_cons, List.not_mem_nil, false_implies, implies_true,
        and_true, Bool.and_eq_true, and_assoc]
      exact and_congr (required_exact readI64_spelling (hsorted _) hcreatedAtMs)
        (and_congr (required_exact readNat32_spelling (hsorted _) hformatVersion)
        (and_congr (required_exact readId_spelling (hsorted _) hgenerationId)
        (and_congr (required_exact readText_spelling (hsorted _) hkind)
        (and_congr (required_exact readMap_spelling (hsorted _) hmetadata)
        (and_congr (required_exact MetadataImage.read_spelling (hsorted _) hmetadataImage)
        (and_congr (skipped_exact ObjectReference.read_spelling (hsorted _) hphysicalParent)
        (and_congr (nullable_exact ok_spelling (hsorted _) hscanProjection)
        (and_congr (required_exact ObjectReference.read_spelling (hsorted _) hsemanticCommit)
        (and_congr (required_exact readHash_spelling (hsorted _) hsemanticStateSha256)
        (and_congr (required_exact readId_spelling (hsorted _) htableId)
        (required_exact readU64_spelling (hsorted _) htableVersion))))))))))))
    (fun fields g hgood hget => by
      simp only [entries, List.forall_mem_cons] at hget
      obtain ⟨hcreatedAtMs, hformatVersion, hgenerationId, hkind, hmetadata, hmetadataImage,
        hphysicalParent, hscanProjection, hsemanticCommit, hsemanticStateSha256, htableId,
        htableVersion, -⟩ := hget
      rw [ofFields, ok_bind (required_reads readText_spelling trivial hkind),
        ok_bind (required_reads readNat32_spelling hgood.formatVersion hformatVersion),
        ok_bind (required_reads readId_spelling hgood.tableId htableId),
        ok_bind (required_reads readU64_spelling hgood.tableVersion htableVersion),
        ok_bind (required_reads readId_spelling hgood.generationId hgenerationId),
        ok_bind (required_reads readI64_spelling hgood.createdAtMs hcreatedAtMs),
        ok_bind (required_reads readHash_spelling trivial hsemanticStateSha256),
        ok_bind (required_reads ObjectReference.read_spelling hgood.semanticCommit hsemanticCommit),
        ok_bind (skipped_reads ObjectReference.read_spelling hgood.physicalParent (fun _ _ =>
          nofun) hphysicalParent),
        ok_bind (required_reads MetadataImage.read_spelling hgood.metadataImage hmetadataImage),
        ok_bind (nullable_reads ok_spelling (fun part hpart => (hgood.scanProjection part hpart).1)
          (fun part hpart => (hgood.scanProjection part hpart).2) hscanProjection),
        ok_bind (required_reads readMap_spelling hgood.metadata hmetadata)]
      rfl)
    (fun g hgood => by
      simp only [entries, List.forall_mem_cons]
      exact ⟨required_sorted readI64_spelling hgood.createdAtMs,
        required_sorted readNat32_spelling hgood.formatVersion,
        required_sorted readId_spelling hgood.generationId,
        required_sorted readText_spelling trivial,
        required_sorted readMap_spelling hgood.metadata,
        required_sorted MetadataImage.read_spelling hgood.metadataImage,
        skipped_sorted ObjectReference.read_spelling hgood.physicalParent,
        nullable_sorted ok_spelling (fun part hpart => (hgood.scanProjection part hpart).1),
        required_sorted ObjectReference.read_spelling hgood.semanticCommit,
        required_sorted readHash_spelling trivial,
        required_sorted readId_spelling hgood.tableId,
        required_sorted readU64_spelling hgood.tableVersion, nofun⟩)

end Generation

/-- The head of a table: its current commit and generation. -/
structure Head where
  protocol : String
  protocolVersion : String
  tableId : Id
  tableVersion : ℕ
  rootRevision : ℕ
  semanticStateSha256 : Sha256
  semanticCommit : ObjectReference
  metadataGeneration : ObjectReference
  requiredReaderFeatures : List String
  requiredWriterFeatures : List String
  deriving DecidableEq

namespace Head

/-- The members in key order, each of them present. -/
def entries (h : Head) : List (String × Option CanonicalValue) :=
  [("metadata_generation", some h.metadataGeneration.toValue),
    ("protocol", some (.string h.protocol)), ("protocol_version", some (.string h.protocolVersion)),
    ("required_reader_features", some (.array (h.requiredReaderFeatures.map .string))),
    ("required_writer_features", some (.array (h.requiredWriterFeatures.map .string))),
    ("root_revision", some (decimalString h.rootRevision)),
    ("semantic_commit", some h.semanticCommit.toValue),
    ("semantic_state_sha256", some (.string h.semanticStateSha256.format)),
    ("table_id", some (.string (UuidValue.format h.tableId))),
    ("table_version", some (decimalString h.tableVersion))]

/-- The JSON of a head, the one mutable object of a table. -/
def toValue (h : Head) : CanonicalValue := .object (members h.entries)

/-- Read a head from the members that were checked to be the known ones. -/
def ofFields (fields : Fields) : Except ProtocolError Head := do
  let protocol ← fields.required readText "protocol"
  let protocolVersion ← fields.required readText "protocol_version"
  let tableId ← fields.required readId "table_id"
  let tableVersion ← fields.required readU64 "table_version"
  let rootRevision ← fields.required readU64 "root_revision"
  let semanticStateSha256 ← fields.required readHash "semantic_state_sha256"
  let semanticCommit ← fields.required ObjectReference.read "semantic_commit"
  let metadataGeneration ← fields.required ObjectReference.read "metadata_generation"
  let requiredReaderFeatures ← fields.required readFeatures "required_reader_features"
  let requiredWriterFeatures ← fields.required readFeatures "required_writer_features"
  return {
    protocol, protocolVersion, tableId, tableVersion, rootRevision, semanticStateSha256,
    semanticCommit, metadataGeneration, requiredReaderFeatures, requiredWriterFeatures }

/-- Read a head; unknown members are refused, and so are missing ones. -/
def read (value : CanonicalValue) : Except ProtocolError Head :=
  Fields.ofValue ["protocol", "protocol_version", "table_id", "table_version", "root_revision",
    "semantic_state_sha256", "semantic_commit", "metadata_generation", "required_reader_features",
    "required_writer_features"] value >>= ofFields

/-- Whether the JSON of a head is spelled as it is written. -/
def spelled : CanonicalValue → Bool :=
  recordSpelled fun get => requiredSpelled ObjectReference.spelled (get "metadata_generation") &&
    requiredSpelled anySpelling (get "protocol") &&
    requiredSpelled anySpelling (get "protocol_version") &&
    requiredSpelled (arraySpelled anySpelling) (get "required_reader_features") &&
    requiredSpelled (arraySpelled anySpelling) (get "required_writer_features") &&
    requiredSpelled anySpelling (get "root_revision") &&
    requiredSpelled ObjectReference.spelled (get "semantic_commit") &&
    requiredSpelled anySpelling (get "semantic_state_sha256") &&
    requiredSpelled anySpelling (get "table_id") &&
    requiredSpelled anySpelling (get "table_version")

/-- The values of the source's type: numbers of fixed width, an identifier that the runtime makes,
and sorted features. -/
structure Good (h : Head) : Prop where
  tableId : Id.isV7 h.tableId = true
  tableVersion : h.tableVersion < 18446744073709551616
  rootRevision : h.rootRevision < 18446744073709551616
  semanticCommit : ObjectReference.Good h.semanticCommit
  metadataGeneration : ObjectReference.Good h.metadataGeneration
  requiredReaderFeatures : featuresAfter none h.requiredReaderFeatures = .ok ()
  requiredWriterFeatures : featuresAfter none h.requiredWriterFeatures = .ok ()

/-- **Heads have one spelling.** What is read is written back exactly when it is spelled
canonically, and every good head is read back. -/
theorem read_spelling : Spelling read toValue spelled Good :=
  record_spelling
    ["metadata_generation", "protocol", "protocol_version", "required_reader_features",
      "required_writer_features", "root_revision", "semantic_commit", "semantic_state_sha256",
      "table_id", "table_version"]
    entries (fun _ => rfl) (by decide) (by simp; grind)
    (fun fields h hsorted h => by
      obtain ⟨protocol, hprotocol, h⟩ := bind_eq_ok.mp h
      obtain ⟨protocolVersion, hprotocolVersion, h⟩ := bind_eq_ok.mp h
      obtain ⟨tableId, htableId, h⟩ := bind_eq_ok.mp h
      obtain ⟨tableVersion, htableVersion, h⟩ := bind_eq_ok.mp h
      obtain ⟨rootRevision, hrootRevision, h⟩ := bind_eq_ok.mp h
      obtain ⟨semanticStateSha256, hsemanticStateSha256, h⟩ := bind_eq_ok.mp h
      obtain ⟨semanticCommit, hsemanticCommit, h⟩ := bind_eq_ok.mp h
      obtain ⟨metadataGeneration, hmetadataGeneration, h⟩ := bind_eq_ok.mp h
      obtain ⟨requiredReaderFeatures, hrequiredReaderFeatures, h⟩ := bind_eq_ok.mp h
      obtain ⟨requiredWriterFeatures, hrequiredWriterFeatures, h⟩ := bind_eq_ok.mp h
      cases h
      simp only [entries, List.forall_mem_cons, List.not_mem_nil, false_implies, implies_true,
        and_true, Bool.and_eq_true, and_assoc]
      exact and_congr (required_exact ObjectReference.read_spelling (hsorted _) hmetadataGeneration)
        (and_congr (required_exact readText_spelling (hsorted _) hprotocol)
        (and_congr (required_exact readText_spelling (hsorted _) hprotocolVersion)
        (and_congr (required_exact readFeatures_spelling (hsorted _) hrequiredReaderFeatures)
        (and_congr (required_exact readFeatures_spelling (hsorted _) hrequiredWriterFeatures)
        (and_congr (required_exact readU64_spelling (hsorted _) hrootRevision)
        (and_congr (required_exact ObjectReference.read_spelling (hsorted _) hsemanticCommit)
        (and_congr (required_exact readHash_spelling (hsorted _) hsemanticStateSha256)
        (and_congr (required_exact readId_spelling (hsorted _) htableId)
        (required_exact readU64_spelling (hsorted _) htableVersion))))))))))
    (fun fields h hgood hget => by
      simp only [entries, List.forall_mem_cons] at hget
      obtain ⟨hmetadataGeneration, hprotocol, hprotocolVersion, hrequiredReaderFeatures,
        hrequiredWriterFeatures, hrootRevision, hsemanticCommit, hsemanticStateSha256, htableId,
        htableVersion, -⟩ := hget
      rw [ofFields, ok_bind (required_reads readText_spelling trivial hprotocol),
        ok_bind (required_reads readText_spelling trivial hprotocolVersion),
        ok_bind (required_reads readId_spelling hgood.tableId htableId),
        ok_bind (required_reads readU64_spelling hgood.tableVersion htableVersion),
        ok_bind (required_reads readU64_spelling hgood.rootRevision hrootRevision),
        ok_bind (required_reads readHash_spelling trivial hsemanticStateSha256),
        ok_bind (required_reads ObjectReference.read_spelling hgood.semanticCommit hsemanticCommit),
        ok_bind (required_reads ObjectReference.read_spelling hgood.metadataGeneration
          hmetadataGeneration),
        ok_bind (required_reads readFeatures_spelling hgood.requiredReaderFeatures
          hrequiredReaderFeatures),
        ok_bind (required_reads readFeatures_spelling hgood.requiredWriterFeatures
          hrequiredWriterFeatures)]
      rfl)
    (fun h hgood => by
      simp only [entries, List.forall_mem_cons]
      exact ⟨required_sorted ObjectReference.read_spelling hgood.metadataGeneration,
        required_sorted readText_spelling trivial,
        required_sorted readText_spelling trivial,
        required_sorted readFeatures_spelling hgood.requiredReaderFeatures,
        required_sorted readFeatures_spelling hgood.requiredWriterFeatures,
        required_sorted readU64_spelling hgood.rootRevision,
        required_sorted ObjectReference.read_spelling hgood.semanticCommit,
        required_sorted readHash_spelling trivial,
        required_sorted readId_spelling hgood.tableId,
        required_sorted readU64_spelling hgood.tableVersion, nofun⟩)

end Head

end Otmp
