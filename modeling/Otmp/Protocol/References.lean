import Otmp.Protocol.ObjectCodecs

/-!
# References and images in JSON

The readers of the references that protocol objects hold, derived from their
declarations. An object is written as it was read exactly when it and its parts are JSON
objects, its nullable members are present and its skipped members are not null.
-/

namespace Otmp

open Foundation CanonicalValue

namespace ObjectReference

/-- The members in key order; what is not known is left out. -/
def entries (r : ObjectReference) : List (String × Option CanonicalValue) :=
  [("length", r.length.map decimalString), ("media_type", r.mediaType.map .string),
    ("sha256", some (.string r.sha256.format)), ("uri", some (.string r.uri))]

/-- Reads the members of an object reference; length and media type may be absent. -/
def ofFields (fields : Fields) : Except ProtocolError ObjectReference := do
  let uri ← fields.required readUri "uri"
  let sha256 ← fields.required readHash "sha256"
  let length ← fields.skipped readU64 "length"
  let mediaType ← fields.skipped readText "media_type"
  return { uri, sha256, length, mediaType }

/-- Reads an object reference from a document, refusing members it does not know. -/
def read (value : CanonicalValue) : Except ProtocolError ObjectReference :=
  Fields.ofValue ["uri", "sha256", "length", "media_type"] value >>= ofFields

/-- The object references of a document that are spelled as they would be written back. -/
def spelled : CanonicalValue → Bool :=
  recordSpelled fun get => skippedSpelled anySpelling (get "length") &&
    skippedSpelled anySpelling (get "media_type") && requiredSpelled anySpelling (get "sha256") &&
    requiredSpelled anySpelling (get "uri")

/-- The values of the source's type: a safe location and a length of 64 bits. -/
structure Good (r : ObjectReference) : Prop where
  uri : safeRelativeUri r.uri = true
  length : ∀ part ∈ r.length, part < 18446744073709551616

/-- Object references read and write back with the spelling that `spelled` describes. -/
theorem read_spelling : Spelling read toValue spelled Good :=
  record_spelling
    ["length", "media_type", "sha256", "uri"]
    entries (fun _ => rfl) (by decide) (by simp; grind)
    (fun fields r hsorted h => by
      obtain ⟨uri, huri, h⟩ := bind_eq_ok.mp h
      obtain ⟨sha256, hsha256, h⟩ := bind_eq_ok.mp h
      obtain ⟨length, hlength, h⟩ := bind_eq_ok.mp h
      obtain ⟨mediaType, hmediaType, h⟩ := bind_eq_ok.mp h
      cases h
      simp only [entries, List.forall_mem_cons, List.not_mem_nil, false_implies, implies_true,
        and_true, Bool.and_eq_true, and_assoc]
      exact and_congr (skipped_exact readU64_spelling (hsorted _) hlength)
        (and_congr (skipped_exact readText_spelling (hsorted _) hmediaType)
        (and_congr (required_exact readHash_spelling (hsorted _) hsha256)
        (required_exact readUri_spelling (hsorted _) huri))))
    (fun fields r hgood hget => by
      simp only [entries, List.forall_mem_cons] at hget
      obtain ⟨hlength, hmediaType, hsha256, huri, -⟩ := hget
      rw [ofFields, ok_bind (required_reads readUri_spelling hgood.uri huri),
        ok_bind (required_reads readHash_spelling trivial hsha256),
        ok_bind (skipped_reads readU64_spelling hgood.length (fun _ _ => nofun) hlength),
        ok_bind (skipped_reads readText_spelling (fun _ _ => trivial) (fun _ _ => nofun)
          hmediaType)]
      rfl)
    (fun r hgood => by
      simp only [entries, List.forall_mem_cons]
      exact ⟨skipped_sorted readU64_spelling hgood.length,
        skipped_sorted readText_spelling (fun _ _ => trivial),
        required_sorted readHash_spelling trivial,
        required_sorted readUri_spelling hgood.uri, nofun⟩)

end ObjectReference

/-- The root of a page map or of a checkpoint index. -/
structure PageMapRoot where
  uri : String
  sha256 : Sha256
  length : ℕ
  height : ℕ
  deriving DecidableEq

namespace PageMapRoot

/-- The members in key order, each of them present. -/
def entries (r : PageMapRoot) : List (String × Option CanonicalValue) :=
  [("height", some (.integer r.height)), ("length", some (decimalString r.length)),
    ("sha256", some (.string r.sha256.format)), ("uri", some (.string r.uri))]

/-- The document of a page-map root, which writes every member. -/
def toValue (r : PageMapRoot) : CanonicalValue := .object (members r.entries)

/-- Reads the members of a page-map root, all of them required. -/
def ofFields (fields : Fields) : Except ProtocolError PageMapRoot := do
  let uri ← fields.required readUri "uri"
  let sha256 ← fields.required readHash "sha256"
  let length ← fields.required readU64 "length"
  let height ← fields.required readNat32 "height"
  return { uri, sha256, length, height }

/-- Reads a page-map root from a document, refusing members it does not know. -/
def read (value : CanonicalValue) : Except ProtocolError PageMapRoot :=
  Fields.ofValue ["uri", "sha256", "length", "height"] value >>= ofFields

/-- The page-map roots of a document that are spelled as they would be written back. -/
def spelled : CanonicalValue → Bool :=
  recordSpelled fun get => requiredSpelled anySpelling (get "height") &&
    requiredSpelled anySpelling (get "length") && requiredSpelled anySpelling (get "sha256") &&
    requiredSpelled anySpelling (get "uri")

/-- The values of the source's type: a safe location and numbers of fixed width. -/
structure Good (r : PageMapRoot) : Prop where
  uri : safeRelativeUri r.uri = true
  length : r.length < 18446744073709551616
  height : r.height < 4294967296

/-- Page-map roots read and write back with the spelling that `spelled` describes. -/
theorem read_spelling : Spelling read toValue spelled Good :=
  record_spelling
    ["height", "length", "sha256", "uri"]
    entries (fun _ => rfl) (by decide) (by simp; grind)
    (fun fields r hsorted h => by
      obtain ⟨uri, huri, h⟩ := bind_eq_ok.mp h
      obtain ⟨sha256, hsha256, h⟩ := bind_eq_ok.mp h
      obtain ⟨length, hlength, h⟩ := bind_eq_ok.mp h
      obtain ⟨height, hheight, h⟩ := bind_eq_ok.mp h
      cases h
      simp only [entries, List.forall_mem_cons, List.not_mem_nil, false_implies, implies_true,
        and_true, Bool.and_eq_true, and_assoc]
      exact and_congr (required_exact readNat32_spelling (hsorted _) hheight)
        (and_congr (required_exact readU64_spelling (hsorted _) hlength)
        (and_congr (required_exact readHash_spelling (hsorted _) hsha256)
        (required_exact readUri_spelling (hsorted _) huri))))
    (fun fields r hgood hget => by
      simp only [entries, List.forall_mem_cons] at hget
      obtain ⟨hheight, hlength, hsha256, huri, -⟩ := hget
      rw [ofFields, ok_bind (required_reads readUri_spelling hgood.uri huri),
        ok_bind (required_reads readHash_spelling trivial hsha256),
        ok_bind (required_reads readU64_spelling hgood.length hlength),
        ok_bind (required_reads readNat32_spelling hgood.height hheight)]
      rfl)
    (fun r hgood => by
      simp only [entries, List.forall_mem_cons]
      exact ⟨required_sorted readNat32_spelling hgood.height,
        required_sorted readU64_spelling hgood.length,
        required_sorted readHash_spelling trivial,
        required_sorted readUri_spelling hgood.uri, nofun⟩)

end PageMapRoot

/-- A complete image of a table version, stored as one object. -/
structure Checkpoint where
  tableVersion : ℕ
  uri : String
  sha256 : Sha256
  length : ℕ
  deriving DecidableEq

namespace Checkpoint

/-- The members in key order, each of them present. -/
def entries (c : Checkpoint) : List (String × Option CanonicalValue) :=
  [("length", some (decimalString c.length)), ("sha256", some (.string c.sha256.format)),
    ("table_version", some (decimalString c.tableVersion)), ("uri", some (.string c.uri))]

/-- The document of a checkpoint, which writes every member. -/
def toValue (c : Checkpoint) : CanonicalValue := .object (members c.entries)

/-- Reads the members of a checkpoint, all of them required. -/
def ofFields (fields : Fields) : Except ProtocolError Checkpoint := do
  let tableVersion ← fields.required readU64 "table_version"
  let uri ← fields.required readUri "uri"
  let sha256 ← fields.required readHash "sha256"
  let length ← fields.required readU64 "length"
  return { tableVersion, uri, sha256, length }

/-- Reads a checkpoint from a document, refusing members it does not know. -/
def read (value : CanonicalValue) : Except ProtocolError Checkpoint :=
  Fields.ofValue ["table_version", "uri", "sha256", "length"] value >>= ofFields

/-- The checkpoints of a document that are spelled as they would be written back. -/
def spelled : CanonicalValue → Bool :=
  recordSpelled fun get => requiredSpelled anySpelling (get "length") &&
    requiredSpelled anySpelling (get "sha256") &&
    requiredSpelled anySpelling (get "table_version") && requiredSpelled anySpelling (get "uri")

/-- The values of the source's type: a safe location and numbers of fixed width. -/
structure Good (c : Checkpoint) : Prop where
  tableVersion : c.tableVersion < 18446744073709551616
  uri : safeRelativeUri c.uri = true
  length : c.length < 18446744073709551616

/-- Checkpoints read and write back with the spelling that `spelled` describes. -/
theorem read_spelling : Spelling read toValue spelled Good :=
  record_spelling
    ["length", "sha256", "table_version", "uri"]
    entries (fun _ => rfl) (by decide) (by simp; grind)
    (fun fields c hsorted h => by
      obtain ⟨tableVersion, htableVersion, h⟩ := bind_eq_ok.mp h
      obtain ⟨uri, huri, h⟩ := bind_eq_ok.mp h
      obtain ⟨sha256, hsha256, h⟩ := bind_eq_ok.mp h
      obtain ⟨length, hlength, h⟩ := bind_eq_ok.mp h
      cases h
      simp only [entries, List.forall_mem_cons, List.not_mem_nil, false_implies, implies_true,
        and_true, Bool.and_eq_true, and_assoc]
      exact and_congr (required_exact readU64_spelling (hsorted _) hlength)
        (and_congr (required_exact readHash_spelling (hsorted _) hsha256)
        (and_congr (required_exact readU64_spelling (hsorted _) htableVersion)
        (required_exact readUri_spelling (hsorted _) huri))))
    (fun fields c hgood hget => by
      simp only [entries, List.forall_mem_cons] at hget
      obtain ⟨hlength, hsha256, htableVersion, huri, -⟩ := hget
      rw [ofFields, ok_bind (required_reads readU64_spelling hgood.tableVersion htableVersion),
        ok_bind (required_reads readUri_spelling hgood.uri huri),
        ok_bind (required_reads readHash_spelling trivial hsha256),
        ok_bind (required_reads readU64_spelling hgood.length hlength)]
      rfl)
    (fun c hgood => by
      simp only [entries, List.forall_mem_cons]
      exact ⟨required_sorted readU64_spelling hgood.length,
        required_sorted readHash_spelling trivial,
        required_sorted readU64_spelling hgood.tableVersion,
        required_sorted readUri_spelling hgood.uri, nofun⟩)

end Checkpoint

/-- The hashes of a checkpoint's pages, as a tree whose root is referenced. -/
structure CheckpointPageIndex where
  checkpointSha256 : Sha256
  checkpointLength : ℕ
  pageSize : ℕ
  pageCount : ℕ
  root : PageMapRoot
  deriving DecidableEq

namespace CheckpointPageIndex

/-- The members in key order, each of them present. -/
def entries (i : CheckpointPageIndex) : List (String × Option CanonicalValue) :=
  [("checkpoint_length", some (decimalString i.checkpointLength)),
    ("checkpoint_sha256", some (.string i.checkpointSha256.format)),
    ("page_count", some (decimalString i.pageCount)), ("page_size", some (.integer i.pageSize)),
    ("root", some i.root.toValue)]

/-- The document of a checkpoint page index, which writes every member. -/
def toValue (i : CheckpointPageIndex) : CanonicalValue := .object (members i.entries)

/-- Reads the members of a checkpoint page index, all of them required. -/
def ofFields (fields : Fields) : Except ProtocolError CheckpointPageIndex := do
  let checkpointSha256 ← fields.required readHash "checkpoint_sha256"
  let checkpointLength ← fields.required readU64 "checkpoint_length"
  let pageSize ← fields.required readNat32 "page_size"
  let pageCount ← fields.required readU64 "page_count"
  let root ← fields.required PageMapRoot.read "root"
  return { checkpointSha256, checkpointLength, pageSize, pageCount, root }

/-- Reads a checkpoint page index from a document, refusing members it does not know. -/
def read (value : CanonicalValue) : Except ProtocolError CheckpointPageIndex :=
  Fields.ofValue ["checkpoint_sha256", "checkpoint_length", "page_size", "page_count",
    "root"] value >>= ofFields

/-- The checkpoint page indexes of a document that are spelled as they would be written back. -/
def spelled : CanonicalValue → Bool :=
  recordSpelled fun get => requiredSpelled anySpelling (get "checkpoint_length") &&
    requiredSpelled anySpelling (get "checkpoint_sha256") &&
    requiredSpelled anySpelling (get "page_count") &&
    requiredSpelled anySpelling (get "page_size") &&
    requiredSpelled PageMapRoot.spelled (get "root")

/-- The values of the source's type: numbers of fixed width, and a root of the source's type. -/
structure Good (i : CheckpointPageIndex) : Prop where
  checkpointLength : i.checkpointLength < 18446744073709551616
  pageSize : i.pageSize < 4294967296
  pageCount : i.pageCount < 18446744073709551616
  root : PageMapRoot.Good i.root

/-- Checkpoint page indexes read and write back with the spelling that `spelled` describes. -/
theorem read_spelling : Spelling read toValue spelled Good :=
  record_spelling
    ["checkpoint_length", "checkpoint_sha256", "page_count", "page_size", "root"]
    entries (fun _ => rfl) (by decide) (by simp; grind)
    (fun fields i hsorted h => by
      obtain ⟨checkpointSha256, hcheckpointSha256, h⟩ := bind_eq_ok.mp h
      obtain ⟨checkpointLength, hcheckpointLength, h⟩ := bind_eq_ok.mp h
      obtain ⟨pageSize, hpageSize, h⟩ := bind_eq_ok.mp h
      obtain ⟨pageCount, hpageCount, h⟩ := bind_eq_ok.mp h
      obtain ⟨root, hroot, h⟩ := bind_eq_ok.mp h
      cases h
      simp only [entries, List.forall_mem_cons, List.not_mem_nil, false_implies, implies_true,
        and_true, Bool.and_eq_true, and_assoc]
      exact and_congr (required_exact readU64_spelling (hsorted _) hcheckpointLength)
        (and_congr (required_exact readHash_spelling (hsorted _) hcheckpointSha256)
        (and_congr (required_exact readU64_spelling (hsorted _) hpageCount)
        (and_congr (required_exact readNat32_spelling (hsorted _) hpageSize)
        (required_exact PageMapRoot.read_spelling (hsorted _) hroot)))))
    (fun fields i hgood hget => by
      simp only [entries, List.forall_mem_cons] at hget
      obtain ⟨hcheckpointLength, hcheckpointSha256, hpageCount, hpageSize, hroot, -⟩ := hget
      rw [ofFields, ok_bind (required_reads readHash_spelling trivial hcheckpointSha256),
        ok_bind (required_reads readU64_spelling hgood.checkpointLength hcheckpointLength),
        ok_bind (required_reads readNat32_spelling hgood.pageSize hpageSize),
        ok_bind (required_reads readU64_spelling hgood.pageCount hpageCount),
        ok_bind (required_reads PageMapRoot.read_spelling hgood.root hroot)]
      rfl)
    (fun i hgood => by
      simp only [entries, List.forall_mem_cons]
      exact ⟨required_sorted readU64_spelling hgood.checkpointLength,
        required_sorted readHash_spelling trivial,
        required_sorted readU64_spelling hgood.pageCount,
        required_sorted readNat32_spelling hgood.pageSize,
        required_sorted PageMapRoot.read_spelling hgood.root, nofun⟩)

end CheckpointPageIndex

/-- An image: a checkpoint with the pages that changed since. -/
structure MetadataImage where
  codec : String
  pageSize : ℕ
  pageCount : ℕ
  checkpoint : Checkpoint
  pageMap : Option PageMapRoot
  checkpointPageIndex : Option CheckpointPageIndex
  imageRootSha256 : Sha256
  deriving DecidableEq

namespace MetadataImage

/-- The members in key order; the page map may be null, and the page index is left out when there is
none. -/
def entries (m : MetadataImage) : List (String × Option CanonicalValue) :=
  [("checkpoint", some m.checkpoint.toValue),
    ("checkpoint_page_index", m.checkpointPageIndex.map CheckpointPageIndex.toValue),
    ("codec", some (.string m.codec)),
    ("image_root_sha256", some (.string m.imageRootSha256.format)),
    ("page_count", some (decimalString m.pageCount)),
    ("page_map", some (orNull PageMapRoot.toValue m.pageMap)),
    ("page_size", some (.integer m.pageSize))]

/-- The document of a metadata image, with the page index left out when there is none. -/
def toValue (m : MetadataImage) : CanonicalValue := .object (members m.entries)

/-- Reads the members of a metadata image; the page map may be null and the page index absent. -/
def ofFields (fields : Fields) : Except ProtocolError MetadataImage := do
  let codec ← fields.required readText "codec"
  let pageSize ← fields.required readNat32 "page_size"
  let pageCount ← fields.required readU64 "page_count"
  let checkpoint ← fields.required Checkpoint.read "checkpoint"
  let pageMap ← fields.nullable PageMapRoot.read "page_map"
  let checkpointPageIndex ← fields.skipped CheckpointPageIndex.read "checkpoint_page_index"
  let imageRootSha256 ← fields.required readHash "image_root_sha256"
  return { codec, pageSize, pageCount, checkpoint, pageMap, checkpointPageIndex, imageRootSha256 }

/-- Reads a metadata image from a document, refusing members it does not know. -/
def read (value : CanonicalValue) : Except ProtocolError MetadataImage :=
  Fields.ofValue ["codec", "page_size", "page_count", "checkpoint", "page_map",
    "checkpoint_page_index", "image_root_sha256"] value >>= ofFields

/-- The metadata images of a document that are spelled as they would be written back. -/
def spelled : CanonicalValue → Bool :=
  recordSpelled fun get => requiredSpelled Checkpoint.spelled (get "checkpoint") &&
    skippedSpelled CheckpointPageIndex.spelled (get "checkpoint_page_index") &&
    requiredSpelled anySpelling (get "codec") &&
    requiredSpelled anySpelling (get "image_root_sha256") &&
    requiredSpelled anySpelling (get "page_count") &&
    nullableSpelled PageMapRoot.spelled (get "page_map") &&
    requiredSpelled anySpelling (get "page_size")

/-- The values of the source's type: numbers of fixed width, and parts of the source's types. -/
structure Good (m : MetadataImage) : Prop where
  pageSize : m.pageSize < 4294967296
  pageCount : m.pageCount < 18446744073709551616
  checkpoint : Checkpoint.Good m.checkpoint
  pageMap : ∀ part ∈ m.pageMap, PageMapRoot.Good part
  checkpointPageIndex : ∀ part ∈ m.checkpointPageIndex, CheckpointPageIndex.Good part

/-- Metadata images read and write back with the spelling that `spelled` describes. -/
theorem read_spelling : Spelling read toValue spelled Good :=
  record_spelling
    ["checkpoint", "checkpoint_page_index", "codec", "image_root_sha256", "page_count", "page_map",
      "page_size"]
    entries (fun _ => rfl) (by decide) (by simp; grind)
    (fun fields m hsorted h => by
      obtain ⟨codec, hcodec, h⟩ := bind_eq_ok.mp h
      obtain ⟨pageSize, hpageSize, h⟩ := bind_eq_ok.mp h
      obtain ⟨pageCount, hpageCount, h⟩ := bind_eq_ok.mp h
      obtain ⟨checkpoint, hcheckpoint, h⟩ := bind_eq_ok.mp h
      obtain ⟨pageMap, hpageMap, h⟩ := bind_eq_ok.mp h
      obtain ⟨checkpointPageIndex, hcheckpointPageIndex, h⟩ := bind_eq_ok.mp h
      obtain ⟨imageRootSha256, himageRootSha256, h⟩ := bind_eq_ok.mp h
      cases h
      simp only [entries, List.forall_mem_cons, List.not_mem_nil, false_implies, implies_true,
        and_true, Bool.and_eq_true, and_assoc]
      exact and_congr (required_exact Checkpoint.read_spelling (hsorted _) hcheckpoint)
        (and_congr (skipped_exact CheckpointPageIndex.read_spelling (hsorted _)
          hcheckpointPageIndex)
        (and_congr (required_exact readText_spelling (hsorted _) hcodec)
        (and_congr (required_exact readHash_spelling (hsorted _) himageRootSha256)
        (and_congr (required_exact readU64_spelling (hsorted _) hpageCount)
        (and_congr (nullable_exact PageMapRoot.read_spelling (hsorted _) hpageMap)
        (required_exact readNat32_spelling (hsorted _) hpageSize)))))))
    (fun fields m hgood hget => by
      simp only [entries, List.forall_mem_cons] at hget
      obtain ⟨hcheckpoint, hcheckpointPageIndex, hcodec, himageRootSha256, hpageCount, hpageMap,
        hpageSize, -⟩ := hget
      rw [ofFields, ok_bind (required_reads readText_spelling trivial hcodec),
        ok_bind (required_reads readNat32_spelling hgood.pageSize hpageSize),
        ok_bind (required_reads readU64_spelling hgood.pageCount hpageCount),
        ok_bind (required_reads Checkpoint.read_spelling hgood.checkpoint hcheckpoint),
        ok_bind (nullable_reads PageMapRoot.read_spelling hgood.pageMap (fun _ _ => nofun)
          hpageMap),
        ok_bind (skipped_reads CheckpointPageIndex.read_spelling hgood.checkpointPageIndex
          (fun _ _ => nofun) hcheckpointPageIndex),
        ok_bind (required_reads readHash_spelling trivial himageRootSha256)]
      rfl)
    (fun m hgood => by
      simp only [entries, List.forall_mem_cons]
      exact ⟨required_sorted Checkpoint.read_spelling hgood.checkpoint,
        skipped_sorted CheckpointPageIndex.read_spelling hgood.checkpointPageIndex,
        required_sorted readText_spelling trivial,
        required_sorted readHash_spelling trivial,
        required_sorted readU64_spelling hgood.pageCount,
        nullable_sorted PageMapRoot.read_spelling hgood.pageMap,
        required_sorted readNat32_spelling hgood.pageSize, nofun⟩)

end MetadataImage

end Otmp
