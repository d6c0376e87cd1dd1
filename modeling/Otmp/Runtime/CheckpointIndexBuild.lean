import Otmp.Foundation.Chunks
import Otmp.Foundation.Loop
import Otmp.Protocol.NodeCodecs
import Otmp.Runtime.PageTree
import Otmp.Runtime.Retained

/-!
# Building and reading checkpoint indexes

A checkpoint is cut into pages. Leaves hold the hashes of 128 pages each, and levels of internal
nodes are added over them until one root remains. An index is checked as a whole, from its root
down, before an image is used; and the hash of one page is found on one path from the root.
-/

namespace Otmp

open Foundation

namespace CheckpointPageIndex

/-- `validate`: a checkpoint page index carries the hash, the length and the pages of the
checkpoint, and its root has a permitted length and height. -/
def validate (i : CheckpointPageIndex) (checkpoint : Checkpoint) (pageSize : ℕ) :
    Except ProtocolError Unit :=
  match checkedMul i.pageCount i.pageSize with
  | none => .error (.invalidObject "checkpoint page-index length overflow")
  | some expectedLength =>
    if i.checkpointSha256 ≠ checkpoint.sha256 ∨ i.checkpointLength ≠ checkpoint.length ∨
        i.pageSize ≠ pageSize ∨ i.pageSize = 0 ∨ i.pageCount = 0 ∨
        expectedLength ≠ checkpoint.length ∨ i.root.length = 0 ∨
        i.root.length > maxCheckpointIndexBytes ∨ i.root.height > 64 then
      .error (.invalidObject "checkpoint page-index does not bind checkpoint geometry")
    else .ok ()

end CheckpointPageIndex

/-- The reference to the object of a page-map root. -/
def PageMapRoot.reference (r : PageMapRoot) : PageObjectReference := ⟨r.uri, r.sha256, r.length⟩

namespace CheckpointTree

open Physical (Artifact relativeUri)

/-- A fault of the protocol is one of the runtime. -/
def liftFault {α : Type} : Except (Fault ProtocolError) α → Except (Fault RuntimeError) α
  | .error (.refused e) => .error (.refused (.protocol e))
  | .error .panicked => .error .panicked
  | .ok a => .ok a

/-- A created node, with the interval of its pages. -/
structure Part where
  firstPage : ℕ
  pageCount : ℕ
  reference : PageObjectReference
  deriving DecidableEq

/-- The entry that an internal node has for a part. -/
def Part.child (p : Part) : CheckpointIndexChild := ⟨p.firstPage, p.pageCount, p.reference⟩

/-- Where the nodes of checkpoint page indexes are stored. -/
def indexDirectory : String := "_otmp/checkpoint-page-index/"

/-- The location of a node, which is named by its hash. -/
def indexUri (sha256 : Sha256) : String :=
  indexDirectory ++ String.ofList (hexEncode sha256.val) ++ ".cbor"

section Build

variable (digest : Digest)

/-- The artifact of encoded bytes, stored under their hash, and the reference to it. -/
def reference (bytes : Bytes) : Except (Fault RuntimeError) (PageObjectReference × Artifact) := do
  let sha256 := objectHash digest bytes
  let uri ← (liftProtocol (relativeUri (indexUri sha256))).mapError .refused
  return (⟨uri, sha256, bytes.length⟩, ⟨uri, bytes⟩)

/-- Encode a node and note its interval, its reference and the object to store. -/
def create (node : CheckpointIndexNode) : Except (Fault RuntimeError) (Part × Artifact) := do
  let encoded ← liftFault (encodeCheckpointIndex node)
  let (reference, artifact) ← reference digest encoded
  let pageCount ← liftFault node.pageCount
  return (⟨node.firstPage, pageCount, reference⟩, artifact)

/-- The leaves over the chunks of a checkpoint, from some chunk on. -/
def leaves (pageSize : ℕ) : ℕ → List Bytes → Except (Fault RuntimeError) (List (Part × Artifact))
  | _, [] => .ok []
  | chunk, pages :: others => do
    let before ← mulOrPanic chunk checkpointIndexCapacity
    let firstPage ← addOrPanic before 1
    let leaf ← create digest (.leaf firstPage ((chunks pageSize pages).map digest))
    let rest ← leaves pageSize (chunk + 1) others
    return leaf :: rest

/-- The nodes of a level over those of the level below. -/
def nodes (height : ℕ) (current : List Part) :
    Except (Fault RuntimeError) (List (Part × Artifact)) :=
  (chunks checkpointIndexCapacity current).mapM fun group =>
    create digest (.internal height (group.map Part.child))

/-- The levels that are built: how many, the parts of the newest one, and all objects so far. -/
structure Levels where
  height : ℕ
  current : List Part
  artifacts : List Artifact

/-- Add a level while there is more than one node. -/
def addLevel (s : Levels) : Except (Fault RuntimeError) (Option Levels) :=
  if s.current.length > 1 then
    if s.height + 1 < 4294967296 then do
      let next ← nodes digest (s.height + 1) s.current
      return some ⟨s.height + 1, next.map Prod.fst, s.artifacts ++ next.map Prod.snd⟩
    else .error .panicked
  else .ok none

/-- The index over the levels that were built, once a single part is left. -/
def finishIndex (checkpoint : Checkpoint) (pageSize pageCount : ℕ) (s : Levels) :
    Except (Fault RuntimeError) (CheckpointPageIndex × List Artifact) := do
  let part ← orRefuse (.corrupt "empty checkpoint page index") s.current.getLast?
  refuseIf (part.pageCount ≠ pageCount) (.corrupt "checkpoint page index coverage mismatch")
  let r := part.reference
  let index : CheckpointPageIndex :=
    { checkpointSha256 := checkpoint.sha256, checkpointLength := checkpoint.length, pageSize,
      pageCount, root := ⟨r.uri, r.sha256, r.length, s.height⟩ }
  (liftProtocol (index.validate checkpoint pageSize)).mapError .refused
  return (index, s.artifacts)

/-- The index of a checkpoint, with the objects to store. -/
def build (passes : ℕ) (checkpoint : Checkpoint) (pageSize : ℕ) (bytes : Bytes) :
    Bounded (Fault RuntimeError) (CheckpointPageIndex × List Artifact) := do
  given (refuseIf (pageSize = 0 ∨ bytes.isEmpty = true ∨ bytes.length % pageSize ≠ 0 ∨
    objectHash digest bytes ≠ checkpoint.sha256 ∨ bytes.length ≠ checkpoint.length)
    (.corrupt "invalid checkpoint bytes for page index"))
  let leafBytes ← given (orRefuse (.corrupt "checkpoint index leaf size overflow")
    (checkedMul pageSize checkpointIndexCapacity))
  let first ← given (leaves digest pageSize 0 (chunks leafBytes bytes))
  let levels ← ExceptT.mk
    (loop (addLevel digest) passes ⟨0, first.map Prod.fst, first.map Prod.snd⟩)
  given (finishIndex checkpoint pageSize (bytes.length / pageSize) levels)

end Build

section Verify

variable (digest : Digest) (store : String → Except RuntimeError Bytes)

/-- The media type that the objects of a checkpoint page index are stored with. -/
def checkpointPageIndexMediaType : String := "application/vnd.otmp.checkpoint-page-index+cbor"

/-- The hashes of a leaf are those of the checkpoint's pages. -/
def verifyHashes (pageSize : ℕ) (checkpoint : Bytes) (firstPage : ℕ) :
    ℕ → List Sha256 → Except (Fault RuntimeError) Unit
  | _, [] => .ok ()
  | offset, hash :: hashes => do
    let page ← orRefuse (.corrupt "checkpoint-index page overflow") (checkedAdd firstPage offset)
    let before ← subOrPanic page 1
    let start ← orRefuse (.corrupt "checkpoint-index byte offset overflow")
      (checkedMul before pageSize)
    let stop ← orRefuse (.corrupt "checkpoint-index byte range overflow")
      (checkedAdd start pageSize)
    refuseIf
      ((getRange? checkpoint start stop).all (fun bytes => decide (digest bytes ≠ hash)) = true)
      (.corrupt "checkpoint page disagrees with authenticated index")
    verifyHashes pageSize checkpoint firstPage (offset + 1) hashes

/-- Check the pages of a leaf, or the children of an internal node. -/
def verifyContents (pageSize : ℕ) (checkpoint : Bytes)
    (descend : CheckpointIndexChild → List String → Except (Fault RuntimeError) (List String))
    (seen : List String) : CheckpointIndexNode → Except (Fault RuntimeError) (List String)
  | .leaf firstPage hashes => do
    verifyHashes digest pageSize checkpoint firstPage 0 hashes
    return seen
  | .internal _ entries => entries.foldlM (fun seen e => descend e seen) seen

/-- Check a node against its declared interval. There is no way down from level zero. -/
def verifyNodeWith (pageSize : ℕ) (checkpoint : Bytes) (level : ℕ)
    (descend : CheckpointIndexChild → List String → Except (Fault RuntimeError) (List String))
    (reference : PageObjectReference) (firstPage pageCount : ℕ) (seen : List String) :
    Except (Fault RuntimeError) (List String) := do
  refuseIf (level > 64 ∨ reference.uri ∈ seen ∨ reference.length > maxCheckpointIndexBytes)
    (.corrupt "invalid checkpoint-index height, cycle, repeated subtree, or size")
  let bytes ← (verifiedRead digest store ⟨reference.uri, reference.sha256, some reference.length,
    some checkpointPageIndexMediaType⟩).mapError .refused
  let node ← liftFault (decodeCheckpointIndex bytes)
  let count ← liftFault node.pageCount
  refuseIf (node.level ≠ level ∨ node.firstPage ≠ firstPage ∨ count ≠ pageCount)
    (.corrupt "checkpoint-index node does not match declared interval")
  verifyContents digest pageSize checkpoint descend (reference.uri :: seen) node

/-- Check a node and all nodes below it: the interval, the level, and the hashes of the pages. -/
def verifyCheckpointIndexNode (pageSize : ℕ) (checkpoint : Bytes) :
    ℕ → PageObjectReference → ℕ → ℕ → List String → Except (Fault RuntimeError) (List String)
  | 0 => verifyNodeWith digest store pageSize checkpoint 0 fun _ _ => .error .panicked
  | level + 1 => verifyNodeWith digest store pageSize checkpoint (level + 1) fun e =>
    verifyCheckpointIndexNode pageSize checkpoint level e.child e.firstPage e.pageCount

/-- Check the index of an image, when it has one. -/
def verifyCheckpointIndex (image : MetadataImage) (checkpoint : Bytes) :
    Except (Fault RuntimeError) Unit :=
  match image.checkpointPageIndex with
  | none => .ok ()
  | some index => do
    (liftProtocol (index.validate image.checkpoint image.pageSize)).mapError .refused
    let _ ← verifyCheckpointIndexNode digest store image.pageSize checkpoint index.root.height
      index.root.reference 1 index.pageCount []

end Verify

section Descend

variable (digest : Digest) (store : String → Except RuntimeError Bytes)
  (reserve : ℕ → Except RuntimeError Unit)

/-- Read a node of a tree and check it against its reference. -/
def treeNode (reference : PageObjectReference) : Except RuntimeError Bytes := do
  if reference.length = 0 ∨ reference.length > 1048576 then
    .error (.corrupt "invalid authenticated tree node size")
  else
    let bytes ← store reference.uri
    if reference.length ≠ bytes.length then
      .error (.corrupt "object length differs from authenticated reference")
    else if digest bytes ≠ reference.sha256 then
      .error (.corrupt "authenticated metadata object hash mismatch")
    else .ok bytes

/-- The hash of a page in a leaf, or below the child that holds the page. -/
def hashIn (page : ℕ) (descend : CheckpointIndexChild → Except (Fault RuntimeError) Sha256) :
    CheckpointIndexNode → Except (Fault RuntimeError) Sha256
  | .leaf firstPage hashes => do
    let offset ← subOrPanic page firstPage
    orRefuse (.corrupt "checkpoint hash missing") hashes[offset]?
  | .internal _ entries => do
    let child ← orRefuse (.corrupt "checkpoint index gap") (entries.find? fun e =>
      decide (e.firstPage ≤ page) && decide (page - e.firstPage < e.pageCount))
    descend child

/-- Read a node and look for the hash of a page in it. -/
def hashInNodeWith (page level : ℕ)
    (descend : CheckpointIndexChild → Except (Fault RuntimeError) Sha256)
    (reference : PageObjectReference) (first count : ℕ) : Except (Fault RuntimeError) Sha256 := do
  let bytes ← (treeNode digest store reference).mapError .refused
  (reserve (min (bytes.length * 6) (wordSize - 1) + 4096)).mapError .refused
  let node ← liftFault (decodeCheckpointIndex bytes)
  let pageCount ← liftFault node.pageCount
  refuseIf (node.level ≠ level ∨ node.firstPage ≠ first ∨ pageCount ≠ count)
    (.corrupt "checkpoint index interval or height mismatch")
  hashIn page descend node

/-- The hash of a page below a node, found by descending into the child that has the page. -/
def hashBelow (page : ℕ) : ℕ → PageObjectReference → ℕ → ℕ → Except (Fault RuntimeError) Sha256
  | 0 => hashInNodeWith digest store reserve page 0 fun _ => .error .panicked
  | level + 1 => hashInNodeWith digest store reserve page (level + 1) fun e =>
    hashBelow page level e.child e.firstPage e.pageCount

/-- The hash of a page of a checkpoint, from the index if the image has one. -/
def checkpointHash (index : Option CheckpointPageIndex) (page : ℕ) :
    Except (Fault RuntimeError) Sha256 := do
  let index ← orRefuse .authenticatedRangesUnavailable index
  refuseIf (page = 0 ∨ page > index.pageCount) (.corrupt "missing extended metadata page")
  hashBelow digest store reserve page index.root.height index.root.reference 1 index.pageCount

end Descend

end CheckpointTree

end Otmp
