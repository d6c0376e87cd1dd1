import Otmp.Foundation.Halving
import Otmp.Image.SchemaTables
import Otmp.Protocol.PageMapNodes

/-!
# The persistent tree of pages

An image is published by a page map that shares the unchanged nodes of its parent's page map.
Changed leaves and the nodes above them are created again; a node that holds too many entries, or
that is too long, is split at its middle, and new levels are added until one root remains.
-/

namespace Otmp.Physical

open Foundation

/-- The greatest number of entries of a created node. -/
def capacity : ℕ := 128

/-- A node that has been read or created, with its children and the range of its pages. -/
structure Tree where
  reference : PageObjectReference
  node : PageMapNode
  children : List Tree
  min : ℕ
  max : ℕ

/-- An object to store, with the location it is stored at. -/
structure Artifact where
  uri : String
  bytes : Bytes
  deriving DecidableEq

/-- The objects that have been created, by their locations. -/
abbrev Artifacts := Std.ExtTreeMap String Artifact compare

/-- Parse a location, which has to be a safe relative one. -/
def relativeUri (value : String) : Except ProtocolError String :=
  if safeRelativeUri value then .ok value else .error (.unsafeRelativeUri value)

/-- The location of a node, which is named by its hash. -/
def pageMapUri (sha256 : Sha256) : String :=
  "_otmp/page-maps/" ++ String.ofList (hexEncode sha256.val) ++ ".cbor"

section Create

variable (digest : Digest)

/-- Create a node. A node that was written has entries. -/
def createTree (node : PageMapNode) (children : List Tree) (artifacts : Artifacts) :
    Except RuntimeError (Tree × Artifacts) := do
  let bytes ← liftProtocol (encodePageMap node)
  let sha256 := objectHash digest bytes
  let uri ← liftProtocol (relativeUri (pageMapUri sha256))
  let min := match node with
    | .leaf entries => (entries.head?.map PageMapEntry.pageNumber).getD 0
    | .internal _ _ => (children.head?.map Tree.min).getD 0
  return (⟨⟨uri, sha256, bytes.length⟩, node, children, min, node.maxPage.getD 0⟩,
    artifacts.insert uri ⟨uri, bytes⟩)

/-- Create a node over all items. Several items are left to be split when they are too many or
the node cannot be created. -/
def createWhole {α : Type} (node : List α → PageMapNode) (children : List α → List Tree)
    (items : List α) (artifacts : Artifacts) : Except RuntimeError (Option (Tree × Artifacts)) := do
  liftProtocol (node items).validate
  if items.length ≤ capacity then
    match createTree digest (node items) (children items) artifacts with
    | .ok created => .ok (some created)
    | .error e => if items.length = 1 then .error e else .ok none
  else .ok none

/-- The leaves over some entries, halved until each of them fits a node. -/
def leafNodes : ℕ → List PageMapEntry → Artifacts → Bounded RuntimeError (List Tree × Artifacts) :=
  halve (createWhole digest .leaf fun _ => [])

/-- A child as the entry of a node: its reference and its greatest page. -/
def Tree.branch (child : Tree) : PageMapBranch := ⟨child.max, child.reference⟩

/-- The nodes of a level over some children, halved until each of them fits a node. -/
def internalNodes (passes level : ℕ) :
    List Tree → Artifacts → Bounded RuntimeError (List Tree × Artifacts) :=
  halve (createWhole digest (fun children => .internal level (children.map Tree.branch)) id) passes

/-- The entries up to the end of the image, replaced and extended by the changes, in order. -/
def changedPages (entries changes : List PageMapEntry) (eof : ℕ) : List PageMapEntry :=
  let keyed := List.map fun e : PageMapEntry => (e.pageNumber, e)
  let pages : Std.ExtTreeMap ℕ PageMapEntry compare :=
    Std.ExtTreeMap.ofList (keyed (entries.filter fun e => e.pageNumber ≤ eof)) compare
  (pages.insertMany (keyed changes)).toList.map Prod.snd

/-- Hand each child its changes; the last one gets all that remain. -/
def updateChildren
    (visit : Tree → List PageMapEntry → Artifacts → Bounded RuntimeError (List Tree × Artifacts)) :
    List Tree → List PageMapEntry → Artifacts → Bounded RuntimeError (List Tree × Artifacts)
  | [], _, artifacts => pure ([], artifacts)
  | child :: children, remaining, artifacts => do
    let count := if children.isEmpty then remaining.length
      else (remaining.takeWhile fun e => e.pageNumber ≤ child.max).length
    let (updated, artifacts) ← visit child (remaining.take count) artifacts
    let (others, artifacts) ← updateChildren visit children (remaining.drop count) artifacts
    pure (updated ++ others, artifacts)

/-- The nodes that take the place of a node after some changes. -/
def update : ℕ → Tree → List PageMapEntry → ℕ → Artifacts →
    Bounded RuntimeError (List Tree × Artifacts)
  | 0, _, _, _, _ => exhausted
  | passes + 1, tree, changes, eof, artifacts =>
    if changes.isEmpty ∧ tree.max ≤ eof then pure ([tree], artifacts)
    else if tree.min > eof ∧ changes.isEmpty then pure ([], artifacts)
    else
      match tree.node with
      | .leaf entries => leafNodes digest passes (changedPages entries changes eof) artifacts
      | .internal level _ => do
        let (children, artifacts) ← updateChildren
          (fun child here artifacts => update passes child here eof artifacts)
          tree.children changes artifacts
        internalNodes digest passes level children artifacts

/-- The roots of the parent's tree after some changes, or of a new tree. -/
def updatedRoots (passes : ℕ) (parent : Option Tree) (mappings : List PageMapEntry) (eof : ℕ)
    (artifacts : Artifacts) : Bounded RuntimeError (List Tree × Artifacts) :=
  match parent with
  | some parent => update digest passes parent mappings eof artifacts
  | none => leafNodes digest passes mappings artifacts

/-- Add levels while there is more than one root. A level that wraps is refused. -/
def joinRoots : ℕ → List Tree → Artifacts → Bounded RuntimeError (List Tree × Artifacts)
  | 0, _, _ => exhausted
  | passes + 1, roots, artifacts =>
    match roots with
    | first :: _ :: _ => do
      let level := (first.node.level + 1) % 4294967296
      let (roots, artifacts) ← internalNodes digest passes level roots artifacts
      joinRoots passes roots artifacts
    | roots => pure (roots, artifacts)

/-- The roots that are left after the tree is updated and levels are added. -/
def rebuild (passes : ℕ) (parent : Option Tree) (mappings : List PageMapEntry) (eof : ℕ)
    (artifacts : Artifacts) : Bounded RuntimeError (List Tree × Artifacts) := do
  let (roots, artifacts) ← updatedRoots digest passes parent mappings eof artifacts
  joinRoots digest passes roots artifacts

end Create

end Otmp.Physical
