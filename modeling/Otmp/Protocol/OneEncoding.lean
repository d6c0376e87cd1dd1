import Otmp.Protocol.Commits
import Otmp.Protocol.Generations

/-!
# One encoding for each protocol object

Canonical decoding compares the bytes with the text of the JSON value that they spell,
and not with the text of the object that is read. An object therefore has the encoding
that is written for it, and other encodings in which a skipped member is null, a nullable
member is missing or a record is an array.
-/

namespace Otmp

open Foundation CanonicalValue

/-- A parser of JSON: it returns values with sorted keys, numbers in range and limited
nesting, and it reads the canonical text of all these values. -/
structure JsonParser (parse : Bytes → Except ProtocolError CanonicalValue) : Prop where
  canonical : ∀ {bytes value}, parse bytes = .ok value →
    value.sorted = true ∧ value.integersFit = true ∧ value.depth ≤ maxDepth
  reads : ∀ {value : CanonicalValue}, value.sorted = true → value.integersFit = true →
    value.depth ≤ maxDepth → parse value.bytes = .ok value

section Decode

variable {α : Type} (parse : Bytes → Except ProtocolError CanonicalValue)

/-- Read JSON bytes that have to be the canonical bytes of the value they spell. -/
def parseCanonical (bytes : Bytes) : Except ProtocolError CanonicalValue := do
  let value ← parse bytes
  if value.bytes ≠ bytes then .error .nonCanonicalJson else .ok value

/-- `from_slice_canonical`: read an object from bytes that have to be its canonical ones. -/
def fromSliceCanonical (read : CanonicalValue → Except ProtocolError α) (bytes : Bytes) :
    Except ProtocolError α := do
  let value ← parseCanonical parse bytes
  read value

/-- Whether bytes spell a value that is spelled as it is written. -/
def spelledIn (spelled : CanonicalValue → Bool) (bytes : Bytes) : Bool :=
  match parse bytes with
  | .ok value => spelled value
  | .error _ => false

end Decode

/-- The canonical bytes of a value, if it has any. -/
def toVec (value : CanonicalValue) : Except ProtocolError Bytes := (canonicalText value).map bytes

/-- A value has canonical text when its integers fit and its depth is within the limit. -/
theorem canonicalText_eq_ok {value text : CanonicalValue} :
    canonicalText value = .ok text ↔
      value.integersFit = true ∧ value.depth ≤ maxDepth ∧ text = value := by
  rw [canonicalText, ite_error_eq_ok, ite_error_eq_ok, Except.ok.injEq]
  constructor
  · rintro ⟨hfit, hdepth, rfl⟩
    exact ⟨by simpa using hfit, not_lt.mp hdepth, rfl⟩
  · rintro ⟨hfit, hdepth, rfl⟩
    exact ⟨by simp [hfit], not_lt.mpr hdepth, rfl⟩

variable {parse : Bytes → Except ProtocolError CanonicalValue}

/-- Bytes are canonical when they are the bytes of the value that they spell. -/
theorem parseCanonical_eq_ok {bytes : Bytes} {value : CanonicalValue} :
    parseCanonical parse bytes = .ok value ↔ parse bytes = .ok value ∧ value.bytes = bytes := by
  rw [parseCanonical, bind_eq_ok]
  constructor
  · rintro ⟨value', hparse, h⟩
    obtain ⟨hbytes, h⟩ := ite_error_eq_ok.mp h
    cases h
    exact ⟨hparse, not_not.mp hbytes⟩
  · rintro ⟨hparse, hbytes⟩
    exact ⟨value, hparse, ite_error_eq_ok.mpr ⟨not_not.mpr hbytes, rfl⟩⟩

/-- The laws of an encoding: what is read from some bytes is written to the same bytes
exactly when they are spelled that way, and what is written is read. -/
structure OneEncoding {α : Type} (parse : Bytes → Except ProtocolError CanonicalValue)
    (read : CanonicalValue → Except ProtocolError α) (write : α → CanonicalValue)
    (spelled : CanonicalValue → Bool) (Good : α → Prop) : Prop where
  decode_encode : ∀ bytes a, fromSliceCanonical parse read bytes = .ok a →
    (toVec (write a) = .ok bytes ↔ spelledIn parse spelled bytes = true)
  encode_decode : ∀ a bytes, Good a → toVec (write a) = .ok bytes →
    fromSliceCanonical parse read bytes = .ok a

/-- A spelling over JSON values is an encoding over bytes: an object is read from exactly one byte
string of the canonical ones. -/
theorem OneEncoding.of_spelling {α : Type} {read : CanonicalValue → Except ProtocolError α}
    {write : α → CanonicalValue} {spelled : CanonicalValue → Bool} {Good : α → Prop}
    (hparse : JsonParser parse) (h : Spelling read write spelled Good) :
    OneEncoding parse read write spelled Good where
  decode_encode bytes a hfrom := by
    obtain ⟨value, hvalue, hread⟩ := bind_eq_ok.mp hfrom
    obtain ⟨hparsed, hbytes⟩ := parseCanonical_eq_ok.mp hvalue
    obtain ⟨hsorted, hfit, hdepth⟩ := hparse.canonical hparsed
    rw [spelledIn, hparsed, ← h.exact hsorted hread, toVec, map_eq_ok]
    constructor
    · rintro ⟨text, htext, heq⟩
      obtain ⟨-, -, rfl⟩ := canonicalText_eq_ok.mp htext
      exact bytes_injective (heq.symm.trans hbytes.symm)
    · rintro rfl
      exact ⟨write a, canonicalText_eq_ok.mpr ⟨hfit, hdepth, rfl⟩, hbytes.symm⟩
  encode_decode a bytes ha hvec := by
    obtain ⟨text, htext, rfl⟩ := map_eq_ok.mp hvec
    obtain ⟨hfit, hdepth, rfl⟩ := canonicalText_eq_ok.mp htext
    have hparsed := hparse.reads (h.sorted ha) hfit hdepth
    rw [fromSliceCanonical, ok_bind (parseCanonical_eq_ok.mpr ⟨hparsed, rfl⟩)]
    exact h.reads ha

/-- Heads, commits and generations are written as they were read exactly when they are
spelled as they are written; and what is written for the values of their types is read. -/
theorem canonical_objects (hparse : JsonParser parse) :
    OneEncoding parse Head.read Head.toValue Head.spelled Head.Good ∧
      OneEncoding parse SemanticCommit.read SemanticCommit.toValue SemanticCommit.spelled
        SemanticCommit.Good ∧
      OneEncoding parse Generation.read Generation.toValue Generation.spelled Generation.Good :=
  ⟨.of_spelling hparse Head.read_spelling, .of_spelling hparse SemanticCommit.read_spelling,
    .of_spelling hparse Generation.read_spelling⟩

section Sample

/-- A parser of canonical text only, which is enough to read what writers store. -/
def textParser (bytes : Bytes) : Except ProtocolError CanonicalValue :=
  match String.fromUTF8? ⟨bytes.toArray⟩ with
  | some text =>
    match readValue (text.toList.length + 1) text.toList with
    | some (value, []) =>
      if value.sorted ∧ value.integersFit ∧ value.depth ≤ maxDepth then .ok value
      else deError "not canonical"
    | _ => deError "not canonical"
  | none => deError "invalid UTF-8"

/-- The parser of JSON texts reads back what is written and accepts nothing that is not JSON. -/
theorem textParser_jsonParser : JsonParser textParser where
  canonical {bytes value} h := by
    unfold textParser at h
    split at h
    · split at h
      · obtain ⟨hvalue, h⟩ := ite_ok_eq_ok.mp h
        cases h
        exact hvalue
      · cases h
    · cases h
  reads {value} hsorted hfit hdepth := by
    have hread := readValue_encode value (value.encode.length + 1) [] (Nat.lt_succ_self _)
      (by simp [Delimited])
    rw [List.append_nil] at hread
    rw [textParser, bytes_eq_utf8, Cbor.fromUTF8?_utf8]
    simp only [String.toList_ofList, hread]
    exact if_pos ⟨hsorted, hfit, hdepth⟩

/-- A hash of zeros, for objects whose hash does not matter. -/
def zeroHash : Sha256 := ⟨List.replicate 32 0, Sha256.length_zeros⟩

/-- A reference without length and media type, as some writers leave them out. -/
def plainReference (uri : String) : ObjectReference := ⟨uri, zeroHash, none, none⟩

/-- A head whose references have no length, which reads and writes as any other. -/
def plainHead : Head where
  protocol := "otmp"
  protocolVersion := "0.0.2-alpha"
  tableId := ⟨[0, 0, 0, 0, 0, 0, 112, 0, 128, 0, 0, 0, 0, 0, 0, 0], by decide⟩
  tableVersion := 0
  rootRevision := 0
  semanticStateSha256 := zeroHash
  semanticCommit := plainReference "_otmp/commits/0"
  metadataGeneration := plainReference "_otmp/generations/0"
  requiredReaderFeatures := []
  requiredWriterFeatures := []

/-- The same head with an explicit null for the length of its commit. -/
def nullLengthHead : CanonicalValue :=
  .object (members (plainHead.entries.map fun entry =>
    if entry.1 = "semantic_commit" then
      (entry.1, some (.object [("length", .null), ("sha256", .string zeroHash.format),
        ("uri", .string "_otmp/commits/0")]))
    else entry))

/-- A plain head is written and read back. -/
theorem canonical_objects_plain :
    fromSliceCanonical textParser Head.read plainHead.toValue.bytes = .ok plainHead := by
  have hreference : ∀ uri, safeRelativeUri uri = true → (plainReference uri).Good :=
    fun uri huri => ⟨huri, nofun⟩
  have hgood : plainHead.Good :=
    ⟨by decide, by decide, by decide, hreference _ (by decide +kernel),
      hreference _ (by decide +kernel), rfl, rfl⟩
  exact (canonical_objects textParser_jsonParser).1.encode_decode plainHead _ hgood
    (map_eq_ok.mpr ⟨_, canonicalText_eq_ok.mpr ⟨by decide +kernel, by decide +kernel, rfl⟩, rfl⟩)

/-- A head is read from an encoding that is not written for it. -/
theorem canonical_objects_null_length :
    ∃ bytes, fromSliceCanonical textParser Head.read bytes = .ok plainHead ∧
      toVec plainHead.toValue ≠ .ok bytes := by
  refine ⟨nullLengthHead.bytes, ?_, ?_⟩
  · have hparsed : textParser nullLengthHead.bytes = .ok nullLengthHead :=
      textParser_jsonParser.reads (by decide +kernel) (by decide +kernel) (by decide +kernel)
    rw [fromSliceCanonical, ok_bind (parseCanonical_eq_ok.mpr ⟨hparsed, rfl⟩)]
    decide +kernel
  · intro h
    obtain ⟨text, htext, hbytes⟩ := map_eq_ok.mp h
    obtain ⟨-, -, rfl⟩ := canonicalText_eq_ok.mp htext
    exact absurd (bytes_injective hbytes) (by decide +kernel)

end Sample

end Otmp
