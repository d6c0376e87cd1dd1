import Otmp.Protocol.NodeReaders

/-!
# Reading page-map nodes

A node is read from at most 1 MiB: the count of its members tells a leaf from an internal node, and
every member has its fixed place. Exactly the encodings of the valid nodes are accepted.
-/

namespace Otmp

open Foundation

namespace PageMapEntry

/-- The values of the source's type, whose numbers have fixed widths. -/
structure InRange (e : PageMapEntry) : Prop where
  pageNumber : e.pageNumber < 18446744073709551616
  pack : e.pack.InRange
  offset : e.offset < 18446744073709551616
  storedLength : e.storedLength < 4294967296
  rawLength : e.rawLength < 4294967296

end PageMapEntry

namespace PageMapBranch

/-- The values of the source's type, whose numbers have fixed widths. -/
structure InRange (e : PageMapBranch) : Prop where
  maxPage : e.maxPage < 18446744073709551616
  child : e.child.InRange

end PageMapBranch

namespace PageMapNode

/-- The values of the source's type, whose numbers and counts have fixed widths. -/
def InRange : PageMapNode → Prop
  | .leaf entries => entries.length < 18446744073709551616 ∧ ∀ e ∈ entries, e.InRange
  | .internal level entries => level < 4294967296 ∧ entries.length < 18446744073709551616 ∧
      ∀ e ∈ entries, e.InRange

end PageMapNode

namespace PageMap

open NodeReaders Cursor

/-- Read a key of a page-map node that has to come next. -/
def key (expected : String) : Reader Unit :=
  literal "unexpected or noncanonical page-map key" expected

/-- Read a hash of a page-map node as raw bytes. -/
def hash : Reader Sha256 := NodeReaders.hash "page-map hash must be 32 raw bytes"

/-- Read a reference to a page pack or to a child of the page map, with the decoder's own messages.
-/
def reference : Reader PageObjectReference :=
  NodeReaders.reference "invalid page-map reference fields"
    "unexpected or noncanonical page-map key" "page-map hash must be 32 raw bytes"

/-- Read an integer that the node keeps in 32 bits. -/
def uint32 : Reader ℕ := u32 "page-map integer overflow"

/-- Read the name of a page codec; a name that is not known is refused. -/
def codec : Reader PageCodec := do
  match ← readText with
  | "none" => return .none
  | "zstd" => return .zstd
  | _ => refuse (.invalidCbor "unknown page codec")

/-- Read one entry of a leaf: where the page lies in which pack, and the hash of its bytes. -/
def readEntry : Reader PageMapEntry := do
  fields "invalid page-map leaf fields" 7
  key "pack"
  let pack ← reference
  key "codec"
  let codec ← codec
  key "offset"
  let offset ← readUnsigned
  key "raw_length"
  let rawLength ← uint32
  key "page_number"
  let pageNumber ← readUnsigned
  key "page_sha256"
  let pageSha256 ← hash
  key "stored_length"
  let storedLength ← uint32
  return { pageNumber, pack, offset, storedLength, rawLength, codec, pageSha256 }

/-- Read one branch of an internal node: the child and its last page. -/
def readBranch : Reader PageMapBranch := do
  fields "invalid page-map branch fields" 2
  key "child"
  let child ← reference
  key "max_page"
  let maxPage ← readUnsigned
  return { maxPage, child }

/-- The entries behind their count, which is not zero. -/
def readEntries {α : Type} (item : Reader α) : Reader (List α) := do
  key "entries"
  counted "invalid page-map entry count" (· == 0) item

/-- The members behind the entries: the version and the type of the node. -/
def readEnd (nodeType : String) : Reader Unit :=
  typed "unexpected or noncanonical page-map key" "unsupported page-map version"
    "invalid page-map node type" nodeType

/-- A node, told by its count of members, without the checks of its validity. -/
def readNode : Reader PageMapNode := do
  let fields ← readLength 5
  if fields = 4 then
    key "level"
    let level ← uint32
    let entries ← readEntries readBranch
    readEnd "internal"
    return .internal level entries
  else if fields = 3 then
    let entries ← readEntries readEntry
    readEnd "leaf"
    return .leaf entries
  else refuse (.invalidCbor "invalid page-map node fields")

end PageMap

/-- `decode_page_map`: read a node of permitted size, check it and compare its encoding with the
input. -/
def decodePageMap : Bytes → Except (Fault ProtocolError) PageMapNode :=
  NodeReaders.decodeNode maxPageMapBytes "page-map node exceeds 1 MiB" PageMap.readNode
    fun node => node.validate.mapError .refused

namespace PageMap

open NodeReaders Cursor

/-- A key written in full reads back as that key, and as nothing else. -/
theorem key_inverts {expected : String} (h : (Cbor.utf8 expected).length < 18446744073709551616) :
    Cursor.Inverts (key expected) (fun _ => Cbor.text expected) fun _ => True := literal_inverts h

/-- A codec is read back from its name. -/
theorem codec_inverts : Cursor.Inverts codec (fun c => Cbor.text c.name) fun _ => True := by
  refine readText_inverts.only PageCodec.name (fun c _ => ?_) fun name _ => ?_
  · cases c <;> decide
  · split
    · refine .pure fun c => ?_
      cases c <;> simp [PageCodec.name]
    · refine .pure fun c => ?_
      cases c <;> simp [PageCodec.name]
    · next hnone hzstd =>
      refine .refuse fun c hc => ?_
      cases c
      · exact hnone hc.1.symm
      · exact hzstd hc.1.symm

/-- Reading an entry inverts writing it, for the entries whose integers fit their fields. -/
theorem readEntry_inverts :
    Cursor.Inverts readEntry PageMapEntry.encode PageMapEntry.InRange :=
  (fields_inverts (by decide)).skip <| (key_inverts (by decide)).skip <|
    reference_inverts.bind PageMapEntry.pack (fun _ h => h.pack) fun pack hpack =>
    (key_inverts (by decide)).skip <|
    codec_inverts.bind PageMapEntry.codec (fun _ _ => trivial) fun codec _ =>
    (key_inverts (by decide)).skip <|
    readUnsigned_inverts.bind PageMapEntry.offset (fun _ h => h.2.2.offset) fun offset hoffset =>
    (key_inverts (by decide)).skip <|
    u32_inverts.bind PageMapEntry.rawLength (fun _ h => h.2.2.2.rawLength)
      fun rawLength hrawLength =>
    (key_inverts (by decide)).skip <|
    readUnsigned_inverts.bind PageMapEntry.pageNumber (fun _ h => h.2.2.2.2.pageNumber)
      fun pageNumber hpageNumber =>
    (key_inverts (by decide)).skip <|
    hash_inverts.bind PageMapEntry.pageSha256 (fun _ _ => trivial) fun pageSha256 _ =>
    (key_inverts (by decide)).skip <|
    u32_inverts.last PageMapEntry.storedLength (fun _ h => h.2.2.2.2.2.2.storedLength)
      fun storedLength hstoredLength e => by
        constructor
        · rintro ⟨rfl, rfl, rfl, rfl, rfl, rfl, rfl, -⟩
          rfl
        · rintro rfl
          exact ⟨rfl, rfl, rfl, rfl, rfl, rfl, rfl, hpageNumber, hpack, hoffset, hstoredLength,
            hrawLength⟩

/-- Reading a branch inverts writing it, for the branches whose integers fit their fields. -/
theorem readBranch_inverts :
    Cursor.Inverts readBranch PageMapBranch.encode PageMapBranch.InRange :=
  (fields_inverts (by decide)).skip <| (key_inverts (by decide)).skip <|
    reference_inverts.bind PageMapBranch.child (fun _ h => h.child) fun child hchild =>
    (key_inverts (by decide)).skip <|
    readUnsigned_inverts.last PageMapBranch.maxPage (fun _ h => h.2.maxPage)
      fun maxPage hmaxPage e => by
        constructor
        · rintro ⟨rfl, rfl, -⟩
          rfl
        · rintro rfl
          exact ⟨rfl, rfl, hmaxPage, hchild⟩

/-- The head of a map takes at least one byte. -/
theorem length_mapLen_pos (count : ℕ) : 1 ≤ (Cbor.mapLen count).length := by
  unfold Cbor.mapLen Cbor.major
  repeat' split
  all_goals simp

/-- Entries are read back with their key and their count. -/
theorem readEntries_inverts {α : Type} {item : Reader α} {encode : α → Bytes} {Good : α → Prop}
    (hitem : Cursor.Inverts item encode Good) (hlong : ∀ a, Good a → 1 ≤ (encode a).length) :
    Cursor.Inverts (readEntries item)
      (fun as => Cbor.text "entries" ++ (Cbor.arrayLen as.length ++ as.flatMap encode)) fun as =>
      as ≠ [] ∧ as.length < 18446744073709551616 ∧ ∀ a ∈ as, Good a :=
  (key_inverts (by decide)).skip <|
    (counted_inverts hitem hlong).congr (fun _ _ => rfl) fun as => by
      rw [beq_eq_false_iff_ne, Ne, Ne, List.length_eq_zero_iff]

/-- The entries of a leaf; an internal node has none. -/
def leafEntries : PageMapNode → List PageMapEntry
  | .leaf entries => entries
  | .internal _ _ => []

/-- The children of an internal node; a leaf has none. -/
def branches : PageMapNode → List PageMapBranch
  | .leaf _ => []
  | .internal _ entries => entries

/-- The count of the members of a node, which tells leaves from internal nodes. -/
def memberCount : PageMapNode → ℕ
  | .leaf _ => 3
  | .internal _ _ => 4

/-- A node has entries, of whichever kind its own are. -/
def HasEntries (node : PageMapNode) : Prop := leafEntries node ≠ [] ∨ branches node ≠ []

/-- Reading the body of a leaf inverts writing it, key by key in the canonical order. -/
theorem readLeaf_inverts :
    Cursor.Inverts (do
      let entries ← readEntries readEntry
      readEnd "leaf"
      return PageMapNode.leaf entries)
      (fun node => (Cbor.text "entries" ++ (Cbor.arrayLen (leafEntries node).length ++
        (leafEntries node).flatMap PageMapEntry.encode)) ++ (Cbor.text "version" ++
        (Cbor.unsigned 1 ++ (Cbor.text "node_type" ++ Cbor.text "leaf")) ++ []))
      fun node => memberCount node = 3 ∧ node.InRange ∧ HasEntries node :=
  (readEntries_inverts readEntry_inverts fun e _ => by
    have h := length_mapLen_pos 7
    rw [PageMapEntry.encode, List.length_append]
    omega).bind leafEntries (fun node hnode => by
      obtain ⟨hcount, hrange, hentries⟩ := hnode
      cases node with
      | leaf entries => exact ⟨hentries.resolve_right (not_not.mpr rfl), hrange⟩
      | internal => cases hcount) fun entries hentries =>
    (typed_inverts (by decide)).skip <| .pure fun node => by
      constructor
      · rintro ⟨rfl, hcount, -⟩
        cases node with
        | leaf entries => rfl
        | internal => cases hcount
      · rintro rfl
        exact ⟨rfl, rfl, hentries.2, .inl hentries.1⟩

/-- Reading the body of an internal node inverts writing it, key by key in the canonical order. -/
theorem readInternal_inverts :
    Cursor.Inverts (do
      key "level"
      let level ← uint32
      let entries ← readEntries readBranch
      readEnd "internal"
      return PageMapNode.internal level entries)
      (fun node => Cbor.text "level" ++ (Cbor.unsigned node.level ++
        ((Cbor.text "entries" ++ (Cbor.arrayLen (branches node).length ++
        (branches node).flatMap PageMapBranch.encode)) ++ (Cbor.text "version" ++
        (Cbor.unsigned 1 ++ (Cbor.text "node_type" ++ Cbor.text "internal")) ++ []))))
      fun node => memberCount node = 4 ∧ node.InRange ∧ HasEntries node :=
  (key_inverts (by decide)).skip <|
    u32_inverts.bind PageMapNode.level (fun node hnode => by
      obtain ⟨hcount, hrange, -⟩ := hnode
      cases node with
      | leaf entries => cases hcount
      | internal => exact hrange.1) fun level hlevel =>
    (readEntries_inverts readBranch_inverts fun e _ => by
      have h := length_mapLen_pos 2
      rw [PageMapBranch.encode, List.length_append]
      omega).bind branches (fun node hnode => by
        obtain ⟨-, hcount, hrange, hentries⟩ := hnode
        cases node with
        | leaf entries => cases hcount
        | internal => exact ⟨hentries.resolve_left (not_not.mpr rfl), hrange.2⟩)
      fun entries hentries =>
    (typed_inverts (by decide)).skip <| .pure fun node => by
      constructor
      · rintro ⟨rfl, rfl, hcount, -⟩
        cases node with
        | leaf entries => cases hcount
        | internal => rfl
      · rintro rfl
        exact ⟨rfl, rfl, rfl, ⟨hlevel, hentries.2⟩, .inr hentries.1⟩

/-- Exactly the encodings of the nodes with entries are read. -/
theorem readNode_inverts : Cursor.Inverts readNode PageMapNode.encode
    fun node => node.InRange ∧ HasEntries node := by
  refine (readLength_inverts (by decide)).bind_of (fun node count => memberCount node = count)
    (fun node => node.encode.drop 1) (fun node _ => ⟨_, rfl, ?_⟩) (fun {node count} h => ?_)
    fun count _ => ?_
  · cases node with
    | leaf entries => exact (by decide : 3 < 18446744073709551616)
    | internal level entries => exact (by decide : 4 < 18446744073709551616)
  · subst h
    cases node <;> rfl
  · by_cases hfour : count = 4
    · subst hfour
      refine readInternal_inverts.congr (fun node hnode => ?_) fun _ => Iff.rfl
      obtain ⟨hcount, -⟩ := hnode
      cases node with
      | leaf entries => cases hcount
      | internal level entries =>
        simp only [branches, PageMapNode.level, List.append_assoc, List.append_nil]
        rfl
    · rw [if_neg hfour]
      by_cases hthree : count = 3
      · subst hthree
        refine readLeaf_inverts.congr (fun node hnode => ?_) fun _ => Iff.rfl
        obtain ⟨hcount, -⟩ := hnode
        cases node with
        | leaf entries =>
          simp only [leafEntries, List.append_assoc, List.append_nil]
          rfl
        | internal level entries => cases hcount
      · rw [if_neg hthree]
        refine .refuse fun node hnode => ?_
        cases node with
        | leaf entries => exact hthree hnode.1.symm
        | internal level entries => exact hfour hnode.1.symm

end PageMap

section Canonical

variable {node : PageMapNode} {input bytes : Bytes}

/-- A valid node has entries, which its decoder asks for. -/
theorem PageMapNode.hasEntries_of_validate (h : node.validate = .ok ()) :
    PageMap.HasEntries node := by
  cases node with
  | leaf entries =>
    refine .inl fun hempty => ?_
    change entries = [] at hempty
    subst hempty
    cases h
  | internal level entries =>
    refine .inr fun hempty => ?_
    change entries = [] at hempty
    subst hempty
    rw [PageMapNode.validate, if_pos (.inr rfl)] at h
    cases h

/-- Renaming the error of a computation does not change what it returns when it succeeds. -/
theorem mapError_ok_iff {ε ε' α : Type} {f : ε → ε'} {x : Except ε α} {a : α} :
    x.mapError f = .ok a ↔ x = .ok a := by
  cases x <;> simp [Except.mapError]

/-- Exactly the encodings of the valid nodes that are small enough are read. -/
theorem decodePageMap_eq_ok : decodePageMap input = .ok node ↔
    node.InRange ∧ node.validate = .ok () ∧ input.length ≤ maxPageMapBytes ∧
      input = node.encode := by
  rw [decodePageMap, NodeReaders.decodeNode_eq_ok PageMap.readNode_inverts (by decide),
    mapError_ok_iff]
  constructor
  · rintro ⟨⟨hrange, -⟩, h⟩
    exact ⟨hrange, h⟩
  · rintro ⟨hrange, hvalid, h⟩
    exact ⟨⟨hrange, PageMapNode.hasEntries_of_validate hvalid⟩, hvalid, h⟩

/-- Decoding a page-map node panics on no input, since the decoder only refuses. -/
theorem safe_decodePageMap (input : Bytes) : Safe (decodePageMap input) := by
  refine NodeReaders.safe_decodeNode PageMap.readNode_inverts (by decide) fun node => ?_
  cases node.validate with
  | error e => exact safe_refused e
  | ok u => exact safe_ok u

end Canonical

end Otmp
