import Otmp.Protocol.NodeReaders

/-!
# The nodes of checkpoint indexes

A checkpoint index is a tree over the pages of a checkpoint: a leaf lists the hashes of an interval
of pages, an internal node lists its children with their intervals. Nodes are written in
deterministic CBOR of at most 1 MiB, and exactly the encodings of the valid nodes are read.
-/

namespace Otmp

open Foundation

/-- A child with the interval of its pages, as an internal node records it. -/
structure CheckpointIndexChild where
  firstPage : ℕ
  pageCount : ℕ
  child : PageObjectReference
  deriving DecidableEq

/-- A node of a checkpoint's page index: a leaf holds the hashes of consecutive pages, an internal
node the children that cover consecutive runs of pages. -/
inductive CheckpointIndexNode where
  | leaf (firstPage : ℕ) (hashes : List Sha256)
  | internal (level : ℕ) (entries : List CheckpointIndexChild)
  deriving DecidableEq

/-- The largest number of hashes of a leaf and of children of an internal node. -/
def checkpointIndexCapacity : ℕ := 128

/-- The largest encoding of a node that is read or written, one mebibyte. -/
def maxCheckpointIndexBytes : ℕ := 1048576

namespace CheckpointIndexChild

/-- The child does not continue the interval, or its reference is bad. -/
def Bad (expected : Option ℕ) (e : CheckpointIndexChild) : Prop :=
  e.firstPage = 0 ∨ e.pageCount = 0 ∨ e.child.length = 0 ∨
    e.child.length > maxCheckpointIndexBytes ∨
    expected.any (fun page => decide (page ≠ e.firstPage)) = true

/-- Whether a child is bad can be decided from its fields. -/
instance (expected : Option ℕ) (e : CheckpointIndexChild) : Decidable (e.Bad expected) :=
  inferInstanceAs (Decidable (_ ∨ _))

/-- The children of a node, each from the page after the one before it. -/
def validateFrom : Option ℕ → List CheckpointIndexChild → Except (Fault ProtocolError) Unit
  | _, [] => .ok ()
  | expected, e :: entries => do
    refuseIf (e.Bad expected)
      (.invalidCbor "noncontiguous checkpoint-index interval or reference")
    let next ← orRefuse (.invalidCbor "checkpoint-index interval overflow")
      (checkedAdd e.firstPage e.pageCount)
    validateFrom (some next) entries

/-- The encoding of a child: a map with the keys in order of their lengths. -/
def encode (e : CheckpointIndexChild) : Bytes :=
  Cbor.mapLen 3 ++ (Cbor.text "child" ++ (encodeRef e.child ++ (Cbor.text "page_count" ++
    (Cbor.unsigned e.pageCount ++ (Cbor.text "first_page" ++ Cbor.unsigned e.firstPage)))))

/-- The values of the source's type, whose numbers have fixed widths. -/
structure InRange (e : CheckpointIndexChild) : Prop where
  firstPage : e.firstPage < 18446744073709551616
  pageCount : e.pageCount < 18446744073709551616
  child : e.child.InRange

end CheckpointIndexChild

namespace CheckpointIndexNode

/-- The level of a node; leaves are at the bottom. -/
def level : CheckpointIndexNode → ℕ
  | .leaf _ _ => 0
  | .internal level _ => level

/-- The first page that a node covers, which an internal node takes from its first child. -/
def firstPage : CheckpointIndexNode → ℕ
  | .leaf firstPage _ => firstPage
  | .internal _ entries => (entries.head?.map CheckpointIndexChild.firstPage).getD 0

/-- The count of the pages. The sum may leave the word. -/
def pageCount : CheckpointIndexNode → Except (Fault ProtocolError) ℕ
  | .leaf _ hashes => .ok hashes.length
  | .internal _ entries => entries.foldlM (fun sum e => addOrPanic sum e.pageCount) 0

/-- Check a node: its interval is not empty, fits the capacity and ends within the word, and
children follow each other without gaps. -/
def validate : CheckpointIndexNode → Except (Fault ProtocolError) Unit
  | .leaf firstPage hashes => do
    refuseIf (firstPage = 0 ∨ hashes.isEmpty = true ∨ hashes.length > checkpointIndexCapacity)
      (.invalidCbor "invalid checkpoint-index leaf interval")
    let others ← subOrPanic hashes.length 1
    let _ ← orRefuse (.invalidCbor "checkpoint-index leaf interval overflow")
      (checkedAdd firstPage others)
  | .internal level entries => do
    refuseIf (level = 0 ∨ entries.isEmpty = true ∨ entries.length > checkpointIndexCapacity)
      (.invalidCbor "invalid checkpoint-index internal level or count")
    CheckpointIndexChild.validateFrom none entries

/-- The CBOR of a node, its members in the order of canonical CBOR. -/
def encode : CheckpointIndexNode → Bytes
  | .leaf firstPage hashes =>
    Cbor.mapLen 4 ++ (Cbor.text "hashes" ++ (Cbor.arrayLen hashes.length ++
      (hashes.flatMap (fun hash => Cbor.byteString hash.val) ++ (Cbor.text "version" ++
      (Cbor.unsigned 1 ++ (Cbor.text "node_type" ++ (Cbor.text "leaf" ++
      (Cbor.text "first_page" ++ Cbor.unsigned firstPage))))))))
  | .internal level entries =>
    Cbor.mapLen 4 ++ (Cbor.text "level" ++ (Cbor.unsigned level ++ (Cbor.text "entries" ++
      (Cbor.arrayLen entries.length ++ (entries.flatMap CheckpointIndexChild.encode ++
      (Cbor.text "version" ++ (Cbor.unsigned 1 ++ (Cbor.text "node_type" ++
      Cbor.text "internal"))))))))

/-- The values of the source's type, whose numbers and counts have fixed widths. -/
def InRange : CheckpointIndexNode → Prop
  | .leaf firstPage hashes =>
    firstPage < 18446744073709551616 ∧ hashes.length < 18446744073709551616
  | .internal level entries => level < 4294967296 ∧ entries.length < 18446744073709551616 ∧
      ∀ e ∈ entries, e.InRange

end CheckpointIndexNode

/-- Write a node that passes its check and does not exceed the limit. -/
def encodeCheckpointIndex (node : CheckpointIndexNode) : Except (Fault ProtocolError) Bytes := do
  node.validate
  refuseIf (node.encode.length > maxCheckpointIndexBytes)
    (.invalidCbor "checkpoint-index node exceeds 1 MiB")
  return node.encode

namespace CheckpointIndex

open NodeReaders Cursor

/-- Read a key that has to come next; keys in any other order are refused. -/
def key (expected : String) : Reader Unit :=
  literal "unexpected or noncanonical checkpoint-index key" expected

/-- Read a hash, which is a byte string of 32 bytes. -/
def hash : Reader Sha256 := NodeReaders.hash "checkpoint-index hash must be 32 raw bytes"

/-- Read the reference of a child's object, with the decoder's own messages. -/
def reference : Reader PageObjectReference :=
  NodeReaders.reference "invalid checkpoint-index reference fields"
    "unexpected or noncanonical checkpoint-index key" "checkpoint-index hash must be 32 raw bytes"

/-- Read an integer that the node keeps in 32 bits. -/
def u32Value : Reader ℕ := u32 "checkpoint-index integer overflow"

/-- A count of entries that no node has: an empty node is refused before its entries are read. -/
def badCount (count : ℕ) : Bool := count == 0 || decide (count > checkpointIndexCapacity)

/-- Read a child with its reference, its number of pages and its first page. -/
def readChild : Reader CheckpointIndexChild := do
  fields "invalid checkpoint-index child fields" 3
  key "child"
  let child ← reference
  key "page_count"
  let pageCount ← readUnsigned
  key "first_page"
  let firstPage ← readUnsigned
  return { firstPage, pageCount, child }

/-- The version and the type of a node, which come last and must be the expected ones. -/
def readTyped (nodeType : String) : Reader Unit :=
  typed "unexpected or noncanonical checkpoint-index key" "unsupported checkpoint-index version"
    "invalid checkpoint-index node type" nodeType

/-- A leaf behind its first key: the hashes, the first page, then version and type. -/
def readLeaf : Reader CheckpointIndexNode := do
  let hashes ← counted "invalid checkpoint-index leaf count" badCount hash
  readTyped "leaf"
  key "first_page"
  let firstPage ← readUnsigned
  return .leaf firstPage hashes

/-- An internal node behind its first key: the level, the entries, then version and type. -/
def readInternal : Reader CheckpointIndexNode := do
  let level ← u32Value
  key "entries"
  let entries ← counted "invalid checkpoint-index internal count" badCount readChild
  readTyped "internal"
  return .internal level entries

/-- A node, told by its first key, without the checks of its validity. -/
def readNode : Reader CheckpointIndexNode := do
  fields "invalid checkpoint-index node fields" 4
  let firstKey ← readText
  if firstKey = "hashes" then readLeaf
  else if firstKey = "level" then readInternal
  else refuse (.invalidCbor "unexpected or noncanonical checkpoint-index key")

end CheckpointIndex

/-- `decode_checkpoint_index`: read a node of permitted size, check it and compare its encoding with
the input. -/
def decodeCheckpointIndex : Bytes → Except (Fault ProtocolError) CheckpointIndexNode :=
  NodeReaders.decodeNode maxCheckpointIndexBytes "checkpoint-index node exceeds 1 MiB"
    CheckpointIndex.readNode CheckpointIndexNode.validate

end Otmp
