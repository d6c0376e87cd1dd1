import Std.Data.ExtTreeMap
import Otmp.Protocol.CanonicalText

/-!
# Identifiers, hashes and semantic commits

Protocol objects refer to each other by location and content hash. The hash function
is a parameter of the development; only the byte strings that are hashed are given
here. Numbers that may exceed the range of other readers travel as decimal strings.
-/

namespace Otmp

open Foundation CanonicalValue

/-- An object of free-form members, each key once and in ascending order. -/
abbrev JsonMap := Std.ExtTreeMap String CanonicalValue compare

/-- The JSON form of free-form members, in the order of their keys. -/
def JsonMap.toValue (m : JsonMap) : CanonicalValue := .object m.toList

/-- Identifiers of tables, commits, snapshots and files, of sixteen bytes each. -/
abbrev Id := UuidValue

/-- Identifiers are compared by their bytes. -/
instance Id.lawfulBEq : LawfulBEq Id := inferInstance

/-- The version and variant bits that the runtime's own identifiers carry. -/
def Id.isV7 (id : Id) : Bool := id.val.getD 6 0 >>> 4 == 7 && id.val.getD 8 0 >>> 6 == 2

/-- A content hash, whose length is part of its type. -/
abbrev Sha256 := {bytes : Bytes // bytes.length = 32}

/-- Zeros have the length of a hash. -/
theorem Sha256.length_zeros : (List.replicate 32 (0 : UInt8)).length = 32 := List.length_replicate

/-- The text of a hash, which names its algorithm. -/
def Sha256.format (hash : Sha256) : String := "sha256:" ++ String.ofList (hexEncode hash.val)

/-- A hash function on byte strings, of which nothing else is assumed. -/
abbrev Digest := Bytes → Sha256

namespace CanonicalValue

/-- The bytes of the canonical text, in UTF-8. -/
def bytes (value : CanonicalValue) : Bytes := value.encode.flatMap String.utf8EncodeChar

/-- A number as a decimal string, as numbers of 64 bits are written in JSON. -/
def decimalString (n : ℕ) : CanonicalValue := .string (String.ofList (Nat.toDigits 10 n))

/-- An optional value, null when it is absent, for members that are always written. -/
def orNull {α : Type} (value : α → CanonicalValue) : Option α → CanonicalValue
  | none => .null
  | some a => value a

/-- A value as canonical text: numbers have to fit and the nesting is limited. -/
def canonicalText (value : CanonicalValue) : Except ProtocolError CanonicalValue :=
  if !value.integersFit then .error .integerOutOfRange
  else if value.depth > maxDepth then .error (.invalidJson "recursion limit exceeded")
  else .ok value

end CanonicalValue

/-- The bytes of an ASCII label that separates the uses of the hash function. -/
def label (text : String) : Bytes := text.toList.flatMap String.utf8EncodeChar ++ [0]

/-- The hash of an object's bytes, which references to the object carry. -/
def objectHash (digest : Digest) (bytes : Bytes) : Sha256 := digest bytes

/-- The hash of an intent, under a label of its own. -/
def intentHash (digest : Digest) (canonicalIntent : Bytes) : Sha256 :=
  digest (label "OTMP-INTENT" ++ canonicalIntent)

/-- The state hash of a genesis, under a label of its own. -/
def genesisStateHash (digest : Digest) (canonicalGenesisBody : Bytes) : Sha256 :=
  digest (label "OTMP-GENESIS" ++ canonicalGenesisBody)

/-- The state hash after a commit covers the previous state hash and the commit, under a label of
its own. -/
def nextStateHash (digest : Digest) (previous : Sha256) (canonicalCommitBody : Bytes) : Sha256 :=
  digest (label "OTMP-STATE" ++ previous.val ++ canonicalCommitBody)

/-- A reference to an immutable object: where it is, its hash, and what else is known of it. -/
structure ObjectReference where
  uri : String
  sha256 : Sha256
  length : Option ℕ
  mediaType : Option String
  deriving DecidableEq

/-- The media type that commits are stored with. -/
def commitMediaType : String := "application/vnd.otmp.commit+json"

/-- The JSON of a reference; its length is a decimal text, and what is not known is left out. -/
def ObjectReference.toValue (r : ObjectReference) : CanonicalValue :=
  .object (members [("length", r.length.map decimalString),
    ("media_type", r.mediaType.map .string), ("sha256", some (.string r.sha256.format)),
    ("uri", some (.string r.uri))])

/-- One intent of a commit: its key, the hash of what was asked for, and the result. -/
structure IntentRecord where
  key : String
  intentSha256 : Sha256
  operationIds : List String
  result : CanonicalValue
  deriving DecidableEq

/-- The JSON of an intent, which the commit lists among its intents. -/
def IntentRecord.toValue (i : IntentRecord) : CanonicalValue :=
  .object [("intent_sha256", .string i.intentSha256.format), ("key", .string i.key),
    ("operation_ids", .array (i.operationIds.map .string)), ("result", i.result)]

/-- A semantic commit: what was asked for, the parent it follows, and the state hashes before and
after it. -/
structure SemanticCommit where
  kind : String
  formatVersion : ℕ
  tableId : Id
  tableVersion : ℕ
  parentTableVersion : Option ℕ
  commitId : Id
  parentCommit : Option ObjectReference
  createdAtMs : ℤ
  intents : List IntentRecord
  requirements : List CanonicalValue
  operations : List CanonicalValue
  requiredReaderFeaturesAfterCommit : List String
  requiredWriterFeaturesAfterCommit : List String
  previousSemanticStateSha256 : Option Sha256
  semanticStateSha256 : Sha256
  metadata : CanonicalValue
  deriving DecidableEq

namespace SemanticCommit

/-- The members of a commit in key order, all of them always written. -/
def toMembers (c : SemanticCommit) : List (String × CanonicalValue) :=
  [("commit_id", .string c.commitId.format),
    ("created_at_ms", .string (String.ofList (decimalInt c.createdAtMs))),
    ("format_version", .integer c.formatVersion),
    ("intents", .array (c.intents.map IntentRecord.toValue)),
    ("kind", .string c.kind),
    ("metadata", c.metadata),
    ("operations", .array c.operations),
    ("parent_commit", orNull ObjectReference.toValue c.parentCommit),
    ("parent_table_version", orNull decimalString c.parentTableVersion),
    ("previous_semantic_state_sha256",
      orNull (fun hash : Sha256 => .string hash.format) c.previousSemanticStateSha256),
    ("required_reader_features_after_commit",
      .array (c.requiredReaderFeaturesAfterCommit.map .string)),
    ("required_writer_features_after_commit",
      .array (c.requiredWriterFeaturesAfterCommit.map .string)),
    ("requirements", .array c.requirements),
    ("semantic_state_sha256", .string c.semanticStateSha256.format),
    ("table_id", .string c.tableId.format),
    ("table_version", decimalString c.tableVersion)]

/-- The JSON of a commit, which is what its hashes are computed over. -/
def toValue (c : SemanticCommit) : CanonicalValue := .object c.toMembers

/-- The bytes of a commit, if it has a canonical text. -/
def toVec (c : SemanticCommit) : Except ProtocolError Bytes := (canonicalText c.toValue).map bytes

/-- The bytes of a commit without its own state hash. -/
def body (c : SemanticCommit) : Except ProtocolError Bytes :=
  (canonicalText c.toValue).map fun _ =>
    (CanonicalValue.object (c.toMembers.filter (·.1 ≠ "semantic_state_sha256"))).bytes

end SemanticCommit

end Otmp
