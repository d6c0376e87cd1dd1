import Otmp.Foundation.CborReaders
import Otmp.Foundation.Checked
import Otmp.Protocol.ObjectCodecs
import Otmp.Protocol.PageMap

/-!
# The nodes of page maps

A page map is a tree of nodes: a leaf lists pages with the packs that hold them, an internal node
lists its children with their greatest pages. Nodes are written in deterministic CBOR of at most
1 MiB, and checked before they are written and after they are read.
-/

namespace Otmp

open Foundation Cbor

/-- A page and where its payload stands in a pack. -/
structure PageMapEntry where
  pageNumber : ℕ
  pack : PageObjectReference
  offset : ℕ
  storedLength : ℕ
  rawLength : ℕ
  codec : PageCodec
  pageSha256 : Sha256
  deriving DecidableEq

/-- A child with its greatest page, as an internal node records it. -/
structure PageMapBranch where
  maxPage : ℕ
  child : PageObjectReference
  deriving DecidableEq

/-- A node of the page map: a leaf with the places of pages, or an internal node with its children.
-/
inductive PageMapNode where
  | leaf (entries : List PageMapEntry)
  | internal (level : ℕ) (entries : List PageMapBranch)
  deriving DecidableEq

/-- The largest encoded node that a writer may store, one mebibyte. -/
def maxPageMapBytes : ℕ := 1048576

/-- The text of a codec, as entries name it. -/
def PageCodec.name : PageCodec → String
  | .none => "none"
  | .zstd => "zstd"

/-- Pages are in order, and references are to objects that are not empty. -/
def checkPage (previous page : ℕ) (reference : PageObjectReference) : Except ProtocolError Unit :=
  if page ≤ previous ∨ reference.length = 0 then
    .error (.invalidCbor "invalid page-map ordering or reference length")
  else .ok ()

namespace PageMapEntry

/-- The payload of the page is not where the entry says, or is not a page. -/
def BadRange (e : PageMapEntry) : Prop :=
  e.storedLength = 0 ∨ ¬(512 ≤ e.rawLength ∧ e.rawLength ≤ 65536) ∨
    isPowerOfTwo e.rawLength = false ∨
    (checkedAdd e.offset e.storedLength).all (fun stop => decide (stop > e.pack.length)) = true ∨
    e.codec = .none ∧ e.storedLength ≠ e.rawLength

/-- Whether an entry's range is bad is decided by evaluating its three comparisons. -/
instance (e : PageMapEntry) : Decidable e.BadRange := inferInstanceAs (Decidable (_ ∨ _))

/-- The entries of a leaf after a page: each of them behind the one before, with a range that its
pack holds. -/
def validateAfter : ℕ → List PageMapEntry → Except ProtocolError Unit
  | _, [] => .ok ()
  | previous, e :: entries => do
    checkPage previous e.pageNumber e.pack
    if e.BadRange then .error (.invalidCbor "invalid page-map payload range")
    else validateAfter e.pageNumber entries

end PageMapEntry

/-- The entries of an internal node after a page. -/
def PageMapBranch.validateAfter : ℕ → List PageMapBranch → Except ProtocolError Unit
  | _, [] => .ok ()
  | previous, e :: entries => do
    checkPage previous e.maxPage e.child
    validateAfter e.maxPage entries

namespace PageMapNode

/-- The level of a node; leaves are at level zero. -/
def level : PageMapNode → ℕ
  | .leaf _ => 0
  | .internal level _ => level

/-- The last page that a node speaks of, if it has an entry at all. -/
def maxPage : PageMapNode → Option ℕ
  | .leaf entries => entries.getLast?.map PageMapEntry.pageNumber
  | .internal _ entries => entries.getLast?.map PageMapBranch.maxPage

/-- `PageMapNode::validate`: a node has entries, internal nodes have a positive level, and the page
numbers of the entries ascend. -/
def validate : PageMapNode → Except ProtocolError Unit
  | .leaf entries =>
    if entries.isEmpty then .error (.invalidCbor "empty page-map node")
    else PageMapEntry.validateAfter 0 entries
  | .internal level entries =>
    if level = 0 ∨ entries.isEmpty = true then
      .error (.invalidCbor "invalid internal page-map level or count")
    else PageMapBranch.validateAfter 0 entries

end PageMapNode

/-- The CBOR of a reference, its members in the order of canonical CBOR. -/
def encodeRef (reference : PageObjectReference) : Bytes :=
  mapLen 3 ++ (text "uri" ++ (text reference.uri ++ (text "length" ++ (unsigned reference.length ++
    (text "sha256" ++ byteString reference.sha256.val)))))

/-- The canonical encoding of an entry, its keys in the order of canonical CBOR. -/
def PageMapEntry.encode (e : PageMapEntry) : Bytes :=
  mapLen 7 ++ (text "pack" ++ (encodeRef e.pack ++ (text "codec" ++ (text e.codec.name ++
    (text "offset" ++ (unsigned e.offset ++ (text "raw_length" ++ (unsigned e.rawLength ++
    (text "page_number" ++ (unsigned e.pageNumber ++ (text "page_sha256" ++
    (byteString e.pageSha256.val ++ (text "stored_length" ++ unsigned e.storedLength)))))))))))))

/-- The canonical encoding of a branch. -/
def PageMapBranch.encode (e : PageMapBranch) : Bytes :=
  mapLen 2 ++ (text "child" ++ (encodeRef e.child ++ (text "max_page" ++ unsigned e.maxPage)))

/-- The CBOR of a node, its members in the order of canonical CBOR. -/
def PageMapNode.encode : PageMapNode → Bytes
  | .leaf entries =>
    mapLen 3 ++ (text "entries" ++ (arrayLen entries.length ++
      (entries.flatMap PageMapEntry.encode ++ (text "version" ++ (unsigned 1 ++
      (text "node_type" ++ text "leaf"))))))
  | .internal level entries =>
    mapLen 4 ++ (text "level" ++ (unsigned level ++ (text "entries" ++ (arrayLen entries.length ++
      (entries.flatMap PageMapBranch.encode ++ (text "version" ++ (unsigned 1 ++
      (text "node_type" ++ text "internal"))))))))

/-- `encode_page_map`: the node is checked, encoded and measured against the size bound. -/
def encodePageMap (node : PageMapNode) : Except ProtocolError Bytes := do
  node.validate
  if node.encode.length > maxPageMapBytes then
    .error (.invalidCbor "page-map node exceeds 1 MiB")
  else .ok node.encode

section Length

/-- A head takes at most nine bytes. -/
theorem length_major_le (kind value : ℕ) : (major kind value).length ≤ 9 := by
  unfold major
  repeat' split
  all_goals simp

/-- An encoded integer takes at most nine bytes, its head and eight more. -/
theorem length_unsigned_le (value : ℕ) : (unsigned value).length ≤ 9 := length_major_le 0 value

/-- An encoded text takes at most nine bytes beyond its own. -/
theorem length_text_le (value : String) : (text value).length ≤ 9 + (utf8 value).length := by
  have hmajor := length_major_le 3 (utf8 value).length
  rw [text, List.length_append]
  omega

/-- A reference takes little more than its location. -/
theorem length_encodeRef_le (reference : PageObjectReference) :
    (encodeRef reference).length ≤ 90 + (utf8 reference.uri).length := by
  have huri := length_text_le reference.uri
  have hlength := length_unsigned_le reference.length
  have hhash : (byteString reference.sha256.val).length ≤ 41 := by
    have hmajor := length_major_le 2 reference.sha256.val.length
    rw [byteString, List.length_append, reference.sha256.2]
    rw [reference.sha256.2] at hmajor
    omega
  have hmap : (mapLen 3).length = 1 := rfl
  have hkeys : (text "uri").length = 4 ∧ (text "length").length = 7 ∧
      (text "sha256").length = 7 := ⟨rfl, rfl, rfl⟩
  simp only [encodeRef, List.length_append]
  omega

/-- A node of few children with short locations fits. -/
theorem length_encode_internal_le (level bound : ℕ) (entries : List PageMapBranch)
    (hshort : ∀ e ∈ entries, (utf8 e.child.uri).length ≤ bound) :
    (PageMapNode.internal level entries).encode.length ≤
      entries.length * (120 + bound) + 100 := by
  have hentries : (entries.flatMap PageMapBranch.encode).length ≤
      entries.length * (120 + bound) := by
    induction entries with
    | nil => simp
    | cons e entries ih =>
      have hrest := ih fun e' he' => hshort e' (List.mem_cons_of_mem _ he')
      have hchild := length_encodeRef_le e.child
      have hbound := hshort e List.mem_cons_self
      have hpage := length_unsigned_le e.maxPage
      have hmap : (mapLen 2).length = 1 := rfl
      have hkeys : (text "child").length = 6 ∧ (text "max_page").length = 9 := ⟨rfl, rfl⟩
      rw [List.flatMap_cons, List.length_append, List.length_cons, Nat.succ_mul]
      simp only [PageMapBranch.encode, List.length_append]
      omega
  have hlevel := length_unsigned_le level
  have hcount : (arrayLen entries.length).length ≤ 9 := length_major_le 4 _
  have hconst : (mapLen 4).length = 1 ∧ (text "level").length = 6 ∧ (text "entries").length = 8 ∧
      (text "version").length = 8 ∧ (unsigned 1).length = 1 ∧ (text "node_type").length = 10 ∧
      (text "internal").length = 9 := ⟨rfl, rfl, rfl, rfl, rfl, rfl, rfl⟩
  simp only [PageMapNode.encode, List.length_append]
  omega

/-- A valid node that is small enough is written. -/
theorem encodePageMap_eq_ok {node : PageMapNode} {bytes : Bytes} :
    encodePageMap node = .ok bytes ↔
      node.validate = .ok () ∧ node.encode.length ≤ maxPageMapBytes ∧ bytes = node.encode := by
  rw [encodePageMap, check_eq_ok, ite_error_eq_ok, not_lt, Except.ok.injEq, eq_comm (a := bytes)]

end Length

end Otmp
