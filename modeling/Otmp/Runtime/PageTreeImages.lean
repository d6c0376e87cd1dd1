import Otmp.Foundation.Chunks
import Otmp.Protocol.PageMapDecode
import Otmp.Protocol.PagePackRoundTrip
import Otmp.Runtime.CheckpointIndexBuild

/-!
# Reading and writing images by page trees

A page tree is read from its root down, and every node is checked against the branch that leads to
it. An image is written as packs of its changed pages and a page tree that maps all its pages: the
parent's tree is updated, levels are added or taken away until one root with several children
remains, and only the objects that can be reached from this root are kept.
-/

namespace Otmp.Physical

open Foundation
open CheckpointTree (liftFault)
open PagePack (PackIndexEntry Pages decodePackIndex encodePagePack)

/-- The media type that the nodes of a page map are stored with. -/
def pageMapMediaType : String := "application/vnd.otmp.page-map+cbor"

/-- The value of an option that is taken to be there. -/
def unwrap {ε α : Type} : Option α → Except (Fault ε) α
  | some a => .ok a
  | none => .error .panicked

section Load

variable (digest : Digest) (store : String → Except RuntimeError Bytes)

/-- How a child is read: by its branch, behind a page, beside the locations that have been read. -/
abbrev LoadChild :=
  PageMapBranch → ℕ → List String → Except (Fault RuntimeError) (Tree × List String)

/-- The children of a node, each behind the one before it. -/
def loadChildren (load : LoadChild) (upper : ℕ) :
    ℕ → List PageMapBranch → List String → Except (Fault RuntimeError) (List Tree × List String)
  | _, [], seen => .ok ([], seen)
  | previous, e :: entries, seen => do
    refuseIf (e.maxPage ≤ previous ∨ e.maxPage > upper)
      (.corrupt "invalid page-map subtree boundary")
    let (child, seen) ← load e previous seen
    refuseIf (child.max ≠ e.maxPage) (.corrupt "page-map maximum disagrees with child")
    let (children, seen) ← loadChildren load upper e.maxPage entries seen
    return (child :: children, seen)

/-- The children of a node, and the range of its pages. -/
def loadContents (load : LoadChild) (lower upper : ℕ) (seen : List String) :
    PageMapNode → Except (Fault RuntimeError) (List Tree × ℕ × ℕ × List String)
  | .leaf entries => do
    let first ← unwrap entries.head?
    let last ← unwrap entries.getLast?
    return ([], first.pageNumber, last.pageNumber, seen)
  | .internal _ entries => do
    let (children, seen) ← loadChildren load upper lower entries seen
    let first ← unwrap children.head?
    let last ← unwrap children.getLast?
    return (children, first.min, last.max, seen)

/-- Read a node of a level and check it against its bounds. -/
def loadNodeWith (level : ℕ) (load : LoadChild) (reference : PageObjectReference) (lower upper : ℕ)
    (seen : List String) : Except (Fault RuntimeError) (Tree × List String) := do
  refuseIf (level > 64 ∨ reference.uri ∈ seen ∨ reference.length > maxPageMapBytes)
    (.corrupt "invalid page-map height, cycle, repeated subtree, or size")
  let bytes ← (verifiedRead digest store ⟨reference.uri, reference.sha256, some reference.length,
    some pageMapMediaType⟩).mapError .refused
  let node ← liftFault (decodePageMap bytes)
  refuseIf (node.level ≠ level) (.corrupt "page-map level mismatch")
  let (children, min, max, seen) ← loadContents load lower upper (reference.uri :: seen) node
  refuseIf (min ≤ lower ∨ max > upper) (.corrupt "page-map entry outside subtree bounds")
  return (⟨reference, node, children, min, max⟩, seen)

/-- Read a tree of a level. There is no way down from level zero. -/
def loadTree : ℕ → PageObjectReference → ℕ → ℕ → List String →
    Except (Fault RuntimeError) (Tree × List String)
  | 0 => loadNodeWith digest store 0 fun _ _ _ => .error .panicked
  | level + 1 => loadNodeWith digest store (level + 1) fun e previous =>
    loadTree level e.child previous e.maxPage

end Load

/-- Entries by their pages, in ascending order. -/
abbrev PageTable := Std.ExtTreeMap ℕ PageMapEntry compare

mutual

/-- Note the entries of the leaves of a tree. -/
def flatten : Tree → PageTable → PageTable
  | ⟨_, .leaf entries, _, _, _⟩, pages =>
    entries.foldl (fun pages e => pages.insert e.pageNumber e) pages
  | ⟨_, .internal _ _, children, _, _⟩, pages => flattenAll children pages

/-- The pages of trees side by side, noted one tree after the other. -/
def flattenAll : List Tree → PageTable → PageTable
  | [], pages => pages
  | child :: children, pages => flattenAll children (flatten child pages)

end

/-- References by their locations, each location once. -/
abbrev References := Std.ExtTreeMap String PageObjectReference compare

/-- Note a reference; another reference to the same location is corrupt. -/
def addReference (references : References) (reference : PageObjectReference) :
    Except RuntimeError References :=
  if (references[reference.uri]?).any (fun old => decide (old ≠ reference)) = true then
    .error (.corrupt "conflicting reachable object references")
  else .ok (references.insert reference.uri reference)

mutual

/-- Note the references to the nodes of a tree and to the packs of its pages. -/
def reachable : Tree → References → Except RuntimeError References
  | ⟨reference, .leaf entries, _, _, _⟩, references => do
    let references ← addReference references reference
    entries.foldlM (fun references e => addReference references e.pack) references
  | ⟨reference, .internal _ _, children, _, _⟩, references => do
    let references ← addReference references reference
    reachableAll children references

/-- The objects of trees side by side, noted one tree after the other. -/
def reachableAll : List Tree → References → Except RuntimeError References
  | [], references => .ok references
  | child :: children, references => do
    let references ← reachable child references
    reachableAll children references

end

section Persist

/-- The size of the pages of images, which is that of the database's pages. -/
def imagePageSize : ℕ := 4096

/-- The size that packs are cut to, one mebibyte of pages. -/
def packTarget : ℕ := 1048576

/-- The greatest number of pages of a written pack. -/
def packCapacity : ℕ := (packTarget - 64) / (64 + imagePageSize)

/-- Where packs are stored, next to the nodes that refer to them. -/
def packDirectory : String := "_otmp/page-packs/"

/-- The extension of a page pack. -/
def packExtension : String := ".otmppg"

/-- The location of a pack, which is named by its hash. -/
def pagePackUri (sha256 : Sha256) : String :=
  packDirectory ++ String.ofList (hexEncode sha256.val) ++ packExtension

/-- Some of the pages, which ascend as all of them do. -/
def pagesOf (pages : Pages) (part : List (ℕ × Bytes)) (h : part.Sublist pages.entries) : Pages :=
  ⟨part, pages.sorted.sublist h, fun p hp => pages.fits p (h.subset hp)⟩

/-- The pages that are packed together: consecutive ones, as many as a pack may have. -/
def packChunks (pages : Pages) : List Pages :=
  (chunks packCapacity pages.entries).attach.map fun part =>
    pagesOf pages part.val (sublist_of_mem_chunks (by decide) part.property)

/-- The entry of a page map for an entry of a pack. -/
def mappingOf (pack : PageObjectReference) (e : PackIndexEntry) : PageMapEntry where
  pageNumber := e.pageNumber
  pack := pack
  offset := e.offset
  storedLength := e.storedLength
  rawLength := e.rawLength
  codec := e.codec
  pageSha256 := e.pageSha256

variable (digest : Digest)

/-- Pack some pages, and map them to the pack. -/
def packPages (eof : ℕ) (pages : Pages) :
    Except (Fault RuntimeError) (List PageMapEntry × Artifact) := do
  refuseIf (∃ page ∈ pages.entries, page.1 > eof) (.corrupt "candidate changed page beyond EOF")
  let bytes ← liftFault (encodePagePack digest imagePageSize pages)
  let sha256 := objectHash digest bytes
  let uri ← (liftProtocol (relativeUri (pagePackUri sha256))).mapError .refused
  let index ← liftFault (decodePackIndex bytes)
  return (index.entries.map (mappingOf ⟨uri, sha256, bytes.length⟩), ⟨uri, bytes⟩)

/-- Pack all changed pages, pack by pack, and collect the mappings to them. -/
def packAll (eof : ℕ) :
    List Pages → Artifacts → Except (Fault RuntimeError) (List PageMapEntry × Artifacts)
  | [], artifacts => .ok ([], artifacts)
  | pages :: others, artifacts => do
    let (mappings, artifact) ← packPages digest eof pages
    let (rest, artifacts) ← packAll eof others (artifacts.insert artifact.uri artifact)
    return (mappings ++ rest, artifacts)

/-- A root with a single child gives way to this child. -/
def collapse : Tree → Tree
  | ⟨_, _, [child], _, _⟩ => collapse child
  | tree => tree

/-- The root of the new tree, with all objects that were created. -/
def buildTree (passes : ℕ) (parent : Option Tree) (changed : Pages) (eof : ℕ) :
    Bounded (Fault RuntimeError) (Option Tree × Artifacts) := do
  let (mappings, artifacts) ← given (packAll digest eof (packChunks changed) ∅)
  let (roots, artifacts) ← (rebuild digest passes parent mappings eof artifacts).adapt .refused
  pure (roots.getLast?.map collapse, artifacts)

/-- An image as it is written: its root, the objects to store and the bytes that can be reached. -/
structure IncrementalImage where
  root : Option PageMapRoot
  artifacts : List Artifact
  reachableBytes : ℕ

/-- The root of a tree, as an image names it. -/
def Tree.mapRoot (tree : Tree) : PageMapRoot :=
  ⟨tree.reference.uri, tree.reference.sha256, tree.reference.length, tree.node.level⟩

/-- All references that can be reached from a root. -/
def reachableFrom : Option Tree → Except RuntimeError References
  | some root => reachable root ∅
  | none => .ok ∅

/-- The bytes of some objects together, which must fit the word. -/
def sumBytes : List PageObjectReference → ℕ → Except RuntimeError ℕ
  | [], total => .ok total
  | r :: references, total =>
    match checkedAdd total r.length with
    | some total => sumBytes references total
    | none => .error (.corrupt "reachable bytes overflow")

/-- The image over a new tree. Objects that cannot be reached are left out. -/
def finishImage (root : Option Tree) (artifacts : Artifacts) :
    Except RuntimeError IncrementalImage := do
  let references ← reachableFrom root
  let reachableBytes ← sumBytes (references.toList.map Prod.snd) 0
  return {
    root := root.map Tree.mapRoot
    artifacts := (artifacts.toList.filter fun p => references.contains p.1).map Prod.snd
    reachableBytes }

/-- Write an image whose changed pages are given: pack them, rebuild the tree and collect what it
reaches. -/
def persist (passes : ℕ) (parent : Option Tree) (changed : Pages) (eof : ℕ) :
    Bounded (Fault RuntimeError) IncrementalImage := do
  let (root, artifacts) ← buildTree digest passes parent changed eof
  given ((finishImage root artifacts).mapError .refused)

end Persist

end Otmp.Physical
