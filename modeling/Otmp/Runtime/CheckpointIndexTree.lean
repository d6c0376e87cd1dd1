import Otmp.Protocol.Locations
import Otmp.Runtime.CheckpointIndexBuild

/-!
# A checkpoint index is a tree over all pages

A tree of a level covers consecutive pages: a leaf is a node that lists their hashes, and a higher
node lists trees of the level below that follow each other. Each level that is built covers all
pages of the checkpoint, so that the last one is a tree over all of them.
-/

namespace Otmp.CheckpointTree

open Foundation Cbor
open Physical (Artifact relativeUri)

variable {digest : Digest} {objects objects' : List Artifact} {node : CheckpointIndexNode}
  {r : PageObjectReference} {level first : ℕ} {hashes : List Sha256} {parts : List Part}

/-- The directory of the index nodes, character by character. -/
theorem toList_indexDirectory : indexDirectory.toList =
    "_otmp".toList ++ '/' :: ("checkpoint-page-index".toList ++ ['/']) := rfl

/-- The length of the name of that directory. -/
theorem utf8ByteSize_indexDirectory : indexDirectory.utf8ByteSize = 28 := rfl

/-- The location of a node is safe. -/
theorem safe_indexUri (sha256 : Sha256) : safeRelativeUri (indexUri sha256) = true := by
  have hpart : IsPart (hexEncode sha256.val ++ ".cbor".toList) :=
    isPart_hexEncode (by rw [sha256.2]; omega) (by simp)
  have hroot : IsPart "_otmp".toList := ⟨by decide, by decide, by decide, by simp⟩
  have hdirectory : IsPart "checkpoint-page-index".toList :=
    ⟨by decide, by decide, by decide, by simp⟩
  have hsafe := safeRelativeUri_of_parts hroot hdirectory hpart
  have heq : indexUri sha256 = String.ofList ("_otmp".toList ++ '/' ::
      ("checkpoint-page-index".toList ++ '/' :: (hexEncode sha256.val ++ ".cbor".toList))) := by
    rw [← String.toList_inj, indexUri, String.toList_append, String.toList_append,
      String.toList_ofList, String.toList_ofList, toList_indexDirectory]
    simp only [String.toList_ofList, List.append_assoc, List.cons_append, List.nil_append]
  rw [heq]
  exact hsafe

/-- The location of an index node is a valid relative one. -/
theorem relativeUri_indexUri (sha256 : Sha256) :
    relativeUri (indexUri sha256) = .ok (indexUri sha256) := by
  rw [relativeUri, if_pos (safe_indexUri sha256)]

/-- The locations of index nodes all have the same length. -/
theorem length_indexUri (sha256 : Sha256) : (utf8 (indexUri sha256)).length = 97 := by
  have hcbor : ".cbor".utf8ByteSize = 5 := rfl
  rw [length_utf8, indexUri, String.utf8ByteSize_append, String.utf8ByteSize_append,
    utf8ByteSize_hexEncode, sha256.2, utf8ByteSize_indexDirectory]
  omega

/-- Locations of different hashes differ. -/
theorem indexUri_injective : Function.Injective indexUri := by
  intro a b h
  have hlist := congrArg String.toList h
  simp only [indexUri, String.toList_append, String.toList_ofList] at hlist
  have hhex := List.append_cancel_left (List.append_cancel_right hlist)
  have hbytes := congrArg hexDecode? hhex
  rw [hexDecode?_hexEncode, hexDecode?_hexEncode] at hbytes
  exact Subtype.ext (Option.some.inj hbytes)

/-- The reference of a node, stored under the hash of its encoding. -/
def refOf (digest : Digest) (node : CheckpointIndexNode) : PageObjectReference :=
  ⟨indexUri (digest node.encode), digest node.encode, node.encode.length⟩

/-- A node that is valid and can be written. -/
structure Good (node : CheckpointIndexNode) : Prop where
  valid : node.validate = .ok ()
  inRange : node.InRange
  small : node.encode.length ≤ maxCheckpointIndexBytes

/-- What is made of a node: its part, and the object to store. -/
def made (digest : Digest) (node : CheckpointIndexNode) : Part × Artifact :=
  (⟨node.firstPage, node.pages, refOf digest node⟩, ⟨(refOf digest node).uri, node.encode⟩)

/-- A good node is created: it is encoded, and the part and the object are those made of it. -/
theorem create_eq (h : Good node) : create digest node = .ok (made digest node) := by
  have hencode : encodeCheckpointIndex node = .ok node.encode :=
    encodeCheckpointIndex_eq_ok.mpr ⟨h.valid, h.small, rfl⟩
  have hpages := (CheckpointIndexNode.pageCount_eq_ok h.valid).1
  rw [create, hencode, hpages]
  change (reference digest node.encode >>= fun p => _) = _
  have hreference : reference digest node.encode =
      .ok (refOf digest node, ⟨(refOf digest node).uri, node.encode⟩) := by
    rw [reference, objectHash, relativeUri_indexUri]
    rfl
  rw [hreference]
  rfl

/-- A node is stored where its reference says, and is one that readers accept. -/
structure Stored (digest : Digest) (objects : List Artifact) (node : CheckpointIndexNode)
    (r : PageObjectReference) : Prop extends Good node where
  reference_eq : r = refOf digest node
  mem : (⟨r.uri, node.encode⟩ : Artifact) ∈ objects

/-- A node stays stored when more objects are. -/
theorem Stored.mono (h : Stored digest objects node r) (hsub : objects ⊆ objects') :
    Stored digest objects' node r := ⟨h.toGood, h.reference_eq, hsub h.mem⟩

/-- An encoding is not empty, so that references to it have a positive length. -/
theorem length_encode_pos (node : CheckpointIndexNode) : 0 < node.encode.length := by
  have h := PageMap.length_mapLen_pos 4
  cases node with
  | leaf firstPage hashes =>
    rw [CheckpointIndexNode.encode, List.length_append]
    omega
  | internal level entries =>
    rw [CheckpointIndexNode.encode, List.length_append]
    omega

/-- Nodes side by side cover consecutive pages, each of them at least one. -/
def Cover (tree : ℕ → List Sha256 → PageObjectReference → Prop) :
    ℕ → List Part → List Sha256 → Prop
  | _, [], hashes => hashes = []
  | first, p :: ps, hashes => ∃ own rest, hashes = own ++ rest ∧ own ≠ [] ∧ p.firstPage = first ∧
      p.pageCount = own.length ∧ tree first own p.reference ∧
      Cover tree (first + own.length) ps rest

/-- A stored tree of a level over consecutive pages. -/
def IsTree (digest : Digest) (objects : List Artifact) :
    ℕ → ℕ → List Sha256 → PageObjectReference → Prop
  | 0, first, hashes, r => Stored digest objects (.leaf first hashes) r
  | level + 1, first, hashes, r => ∃ parts : List Part,
      Stored digest objects (.internal (level + 1) (parts.map Part.child)) r ∧
        Cover (IsTree digest objects level) first parts hashes

namespace Cover

variable {tree tree' : ℕ → List Sha256 → PageObjectReference → Prop} {ps qs : List Part}
  {hashes' : List Sha256}

/-- A cover by trees is a cover by trees of a weaker kind. -/
theorem mono (h : Cover tree first ps hashes)
    (hsub : ∀ {first own r}, tree first own r → tree' first own r) :
    Cover tree' first ps hashes := by
  induction ps generalizing first hashes with
  | nil => exact h
  | cons p ps ih =>
    obtain ⟨own, rest, rfl, hown, hfirst, hcount, htree, hrest⟩ := h
    exact ⟨own, rest, rfl, hown, hfirst, hcount, hsub htree, ih hrest⟩

/-- A cover is one of its front nodes and one of the others. -/
theorem split (h : Cover tree first (ps ++ qs) hashes) : ∃ front back, hashes = front ++ back ∧
    Cover tree first ps front ∧ Cover tree (first + front.length) qs back := by
  induction ps generalizing first hashes with
  | nil => exact ⟨[], hashes, rfl, rfl, h⟩
  | cons p ps ih =>
    obtain ⟨own, rest, rfl, hown, hfirst, hcount, htree, hrest⟩ := h
    obtain ⟨front, back, rfl, hfront, hback⟩ := ih hrest
    refine ⟨own ++ front, back, (List.append_assoc _ _ _).symm,
      ⟨own, front, rfl, hown, hfirst, hcount, htree, hfront⟩, ?_⟩
    rw [List.length_append, ← Nat.add_assoc]
    exact hback

/-- Every node covers some page, so there are at most as many nodes as pages. -/
theorem length_le (h : Cover tree first ps hashes) : ps.length ≤ hashes.length := by
  induction ps generalizing first hashes with
  | nil => exact Nat.zero_le _
  | cons p ps ih =>
    obtain ⟨own, rest, rfl, hown, -, -, -, hrest⟩ := h
    have hpos := List.length_pos_iff.mpr hown
    have hle := ih hrest
    rw [List.length_cons, List.length_append]
    omega

/-- The counts of the nodes add up. -/
theorem sum_eq (h : Cover tree first ps hashes) :
    (ps.map Part.pageCount).sum = hashes.length := by
  induction ps generalizing first hashes with
  | nil =>
    cases h
    rfl
  | cons p ps ih =>
    obtain ⟨own, rest, rfl, -, -, hcount, -, hrest⟩ := h
    rw [List.map_cons, List.sum_cons, ih hrest, hcount, List.length_append]

/-- The first pages of the nodes ascend. -/
theorem pairwise (h : Cover tree first ps hashes) :
    (∀ p ∈ ps, first ≤ p.firstPage) ∧ (ps.map Part.firstPage).Pairwise (· < ·) := by
  induction ps generalizing first hashes with
  | nil => exact ⟨nofun, .nil⟩
  | cons p ps ih =>
    obtain ⟨own, rest, rfl, hown, hfirst, -, -, hrest⟩ := h
    have hpos := List.length_pos_iff.mpr hown
    obtain ⟨hle, hsorted⟩ := ih hrest
    refine ⟨List.forall_mem_cons.mpr ⟨hfirst.ge, fun q hq => ?_⟩, ?_⟩
    · have hq := hle q hq
      omega
    · rw [List.map_cons, List.pairwise_cons]
      refine ⟨fun page hpage => ?_, hsorted⟩
      obtain ⟨q, hq, rfl⟩ := List.mem_map.mp hpage
      have hq := hle q hq
      omega

/-- Every node is over the pages from its first page on. -/
theorem exists_tree (h : Cover tree first ps hashes) {p : Part} (hp : p ∈ ps) :
    ∃ own, tree p.firstPage own p.reference ∧ p.pageCount = own.length ∧
      first ≤ p.firstPage ∧ p.firstPage + own.length ≤ first + hashes.length ∧
      own = (hashes.drop (p.firstPage - first)).take own.length := by
  induction ps generalizing first hashes with
  | nil => cases hp
  | cons q ps ih =>
    obtain ⟨own, rest, rfl, -, rfl, hcount, htree, hrest⟩ := h
    rw [List.length_append]
    obtain rfl | hp := List.mem_cons.mp hp
    · refine ⟨own, htree, hcount, Nat.le_refl _, by omega, ?_⟩
      rw [Nat.sub_self, List.drop_zero, List.take_left]
    · obtain ⟨own', htree', hcount', hstart, hle, hslice⟩ := ih hrest hp
      refine ⟨own', htree', hcount', by omega, by omega, hslice.trans ?_⟩
      have hindex : p.firstPage - q.firstPage =
          own.length + (p.firstPage - (q.firstPage + own.length)) := by omega
      rw [hindex, List.drop_length_add_append]

/-- The interval of a node over others. -/
theorem interval (h : Cover tree first ps hashes) (hps : ps ≠ []) (level : ℕ) :
    (CheckpointIndexNode.internal level (ps.map Part.child)).firstPage = first ∧
      (CheckpointIndexNode.internal level (ps.map Part.child)).pages = hashes.length := by
  refine ⟨?_, ?_⟩
  · cases ps with
    | nil => exact absurd rfl hps
    | cons p ps =>
      obtain ⟨own, rest, -, -, hfirst, -⟩ := h
      exact hfirst
  · rw [CheckpointIndexNode.pages, List.map_map]
    exact h.sum_eq

/-- Nodes that cover consecutive pages are valid children. -/
theorem validateFrom_eq_ok (h : Cover tree first ps hashes)
    (hlength : ∀ {first own r}, tree first own r →
      0 < r.length ∧ r.length ≤ maxCheckpointIndexBytes)
    (hfirst : 0 < first) (hfits : first + hashes.length < wordSize) {expected : Option ℕ}
    (hexpected : ∀ page, expected = some page → page = first) :
    CheckpointIndexChild.validateFrom expected (ps.map Part.child) = .ok () := by
  induction ps generalizing first hashes expected with
  | nil => rfl
  | cons p ps ih =>
    obtain ⟨own, rest, rfl, hown, rfl, hcount, htree, hrest⟩ := h
    have hpos := List.length_pos_iff.mpr hown
    obtain ⟨hnonempty, hsmall⟩ := hlength htree
    rw [List.length_append] at hfits
    rw [List.map_cons, CheckpointIndexChild.validateFrom_cons_eq_ok]
    refine ⟨?_, ?_, ?_⟩
    · have hexp : ¬expected.any (fun page => decide (page ≠ p.firstPage)) = true := by
        cases hcase : expected with
        | none => exact Bool.false_ne_true
        | some page =>
          have hpage := hexpected page hcase
          simp [hpage]
      rintro (hbad | hbad | hbad | hbad | hbad)
      · exact absurd hbad (by simp only [Part.child]; omega)
      · exact absurd hbad (by simp only [Part.child]; omega)
      · exact absurd hbad (by simp only [Part.child]; omega)
      · exact absurd hbad (by simp only [Part.child]; omega)
      · exact hexp hbad
    · simp only [Part.child]
      omega
    · simp only [Part.child]
      rw [hcount]
      exact ih hrest (by omega) (by omega) fun page hpage => by
        cases hpage
        rfl

end Cover

section Tree

/-- The node of a tree, and its interval. -/
theorem IsTree.exists_stored (h : IsTree digest objects level first hashes r) :
    ∃ node, Stored digest objects node r ∧ node.level = level ∧ node.firstPage = first ∧
      node.pages = hashes.length := by
  cases level with
  | zero => exact ⟨_, h, rfl, rfl, rfl⟩
  | succ level =>
    obtain ⟨parts, hstored, hcover⟩ := h
    obtain ⟨-, hempty, -⟩ := CheckpointIndexNode.validate_internal_eq_ok.mp hstored.valid
    exact ⟨_, hstored, rfl, hcover.interval (fun hnil => hempty (hnil ▸ rfl)) _⟩

/-- The reference of a tree is to a node of a permitted size. -/
theorem IsTree.length_reference (h : IsTree digest objects level first hashes r) :
    0 < r.length ∧ r.length ≤ maxCheckpointIndexBytes := by
  obtain ⟨node, hstored, -⟩ := h.exists_stored
  rw [hstored.reference_eq]
  exact ⟨length_encode_pos node, hstored.small⟩

/-- The reference of a tree fits its encoding. -/
theorem IsTree.inRange_reference (h : IsTree digest objects level first hashes r) : r.InRange := by
  obtain ⟨node, hstored, -⟩ := h.exists_stored
  have hsmall := hstored.small
  have hlength := length_indexUri (digest node.encode)
  rw [hstored.reference_eq]
  refine ⟨safe_indexUri _, ?_, ?_⟩
  · simp only [refOf]
    omega
  · simp only [refOf]
    unfold maxCheckpointIndexBytes at hsmall
    omega

/-- A tree stays a tree when more objects are stored. -/
theorem IsTree.mono (h : IsTree digest objects level first hashes r) (hsub : objects ⊆ objects') :
    IsTree digest objects' level first hashes r := by
  induction level generalizing first hashes r with
  | zero => exact Stored.mono h hsub
  | succ level ih =>
    obtain ⟨parts, hstored, hcover⟩ := h
    exact ⟨parts, hstored.mono hsub, hcover.mono ih⟩

end Tree

section Length

/-- A leaf of at most as many hashes as a node may have fits. -/
theorem length_encode_leaf_le (hcapacity : hashes.length ≤ checkpointIndexCapacity) :
    (CheckpointIndexNode.leaf first hashes).encode.length ≤ maxCheckpointIndexBytes := by
  have hhashes : (hashes.flatMap fun hash => byteString hash.val).length ≤ hashes.length * 41 := by
    clear hcapacity
    induction hashes with
    | nil => simp
    | cons hash hashes ih =>
      have hhead := length_major_le 2 hash.val.length
      rw [List.flatMap_cons, List.length_append, List.length_cons, byteString, List.length_append,
        hash.2]
      rw [hash.2] at hhead
      omega
  have hcount : (arrayLen hashes.length).length ≤ 9 := length_major_le 4 _
  have hfirst := length_unsigned_le first
  have hkeys : (mapLen 4).length = 1 ∧ (text "hashes").length = 7 ∧ (text "version").length = 8 ∧
      (unsigned 1).length = 1 ∧ (text "node_type").length = 10 ∧ (text "leaf").length = 5 ∧
      (text "first_page").length = 11 := ⟨rfl, rfl, rfl, rfl, rfl, rfl, rfl⟩
  unfold checkpointIndexCapacity at hcapacity
  simp only [CheckpointIndexNode.encode, List.length_append, maxCheckpointIndexBytes]
  omega

/-- An internal node of at most as many children as a node may have fits. -/
theorem length_encode_internal_le {entries : List CheckpointIndexChild}
    (hshort : ∀ e ∈ entries, (utf8 e.child.uri).length ≤ 97)
    (hcapacity : entries.length ≤ checkpointIndexCapacity) :
    (CheckpointIndexNode.internal level entries).encode.length ≤ maxCheckpointIndexBytes := by
  have hentries : (entries.flatMap CheckpointIndexChild.encode).length ≤ entries.length * 240 := by
    clear hcapacity
    induction entries with
    | nil => simp
    | cons e entries ih =>
      have hrest := ih fun e' he' => hshort e' (List.mem_cons_of_mem _ he')
      have hchild := length_encodeRef_le e.child
      have huri := hshort e List.mem_cons_self
      have hcount := length_unsigned_le e.pageCount
      have hfirst := length_unsigned_le e.firstPage
      have hkeys : (mapLen 3).length = 1 ∧ (text "child").length = 6 ∧
          (text "page_count").length = 11 ∧ (text "first_page").length = 11 := ⟨rfl, rfl, rfl, rfl⟩
      rw [List.flatMap_cons, List.length_append, List.length_cons]
      simp only [CheckpointIndexChild.encode, List.length_append]
      omega
  have hlevel := length_unsigned_le level
  have hcount : (arrayLen entries.length).length ≤ 9 := length_major_le 4 _
  have hkeys : (mapLen 4).length = 1 ∧ (text "level").length = 6 ∧ (text "entries").length = 8 ∧
      (text "version").length = 8 ∧ (unsigned 1).length = 1 ∧ (text "node_type").length = 10 ∧
      (text "internal").length = 9 := ⟨rfl, rfl, rfl, rfl, rfl, rfl, rfl⟩
  unfold checkpointIndexCapacity at hcapacity
  simp only [CheckpointIndexNode.encode, List.length_append, maxCheckpointIndexBytes]
  omega

end Length

section Levels

variable {pageSize : ℕ} {current : List Part}

/-- A leaf over at most as many pages as it has room for is a good node. -/
theorem good_leaf (hfirst : 0 < first) (hempty : hashes ≠ [])
    (hcapacity : hashes.length ≤ checkpointIndexCapacity)
    (hfits : first + hashes.length < wordSize) : Good (.leaf first hashes) where
  valid := by
    rw [CheckpointIndexNode.validate_leaf_eq_ok]
    exact ⟨by omega, hempty, hcapacity, by omega⟩
  inRange := by
    unfold wordSize at hfits
    exact ⟨by omega, by omega⟩
  small := length_encode_leaf_le hcapacity

/-- An internal node over at most as many parts as it has room for is a good node. -/
theorem good_internal (hcover : Cover (IsTree digest objects level) first parts hashes)
    (hempty : parts ≠ []) (hcapacity : parts.length ≤ checkpointIndexCapacity) (hfirst : 0 < first)
    (hfits : first + hashes.length < wordSize) (hlevel : level + 1 < 4294967296) :
    Good (.internal (level + 1) (parts.map Part.child)) where
  valid := by
    rw [CheckpointIndexNode.validate_internal_eq_ok]
    refine ⟨Nat.succ_ne_zero level, fun hnil => hempty (List.map_eq_nil_iff.mp hnil), ?_, ?_⟩
    · rwa [List.length_map]
    · exact hcover.validateFrom_eq_ok IsTree.length_reference hfirst hfits nofun
  inRange := by
    refine ⟨hlevel, ?_, fun e he => ?_⟩
    · rw [List.length_map]
      exact lt_of_le_of_lt hcapacity (by decide)
    · obtain ⟨p, hp, rfl⟩ := List.mem_map.mp he
      obtain ⟨own, htree, hcount, -, hle, -⟩ := hcover.exists_tree hp
      unfold wordSize at hfits
      refine ⟨?_, ?_, htree.inRange_reference⟩
      · simp only [Part.child]
        omega
      · simp only [Part.child]
        omega
  small := by
    refine length_encode_internal_le (fun e he => ?_) (by rwa [List.length_map])
    obtain ⟨p, hp, rfl⟩ := List.mem_map.mp he
    obtain ⟨own, htree, -⟩ := hcover.exists_tree hp
    obtain ⟨node, hstored, -⟩ := htree.exists_stored
    simp only [Part.child]
    rw [hstored.reference_eq]
    exact (length_indexUri _).le

/-- The leaves over the chunks of a checkpoint cover its pages. -/
theorem leaves_eq_ok (hsize : 0 < pageSize) (bytes : Bytes) (chunk : ℕ)
    (hfits : chunk * checkpointIndexCapacity + 1 + (chunks pageSize bytes).length < wordSize) :
    ∃ nodes : List CheckpointIndexNode,
      leaves digest pageSize chunk (chunks (pageSize * checkpointIndexCapacity) bytes) =
        .ok (nodes.map (made digest)) ∧ (∀ node ∈ nodes, Good node ∧ node.level = 0) ∧
      ∀ objects, (nodes.map (made digest)).map Prod.snd ⊆ objects →
        Cover (IsTree digest objects 0) (chunk * checkpointIndexCapacity + 1)
          ((nodes.map (made digest)).map Prod.fst) ((chunks pageSize bytes).map digest) := by
  have hcapacity : 0 < checkpointIndexCapacity := by decide
  have hlarge := Nat.mul_pos hsize hcapacity
  induction bytes using chunks_induction hlarge generalizing chunk with
  | nil => exact ⟨[], by rw [chunks_nil]; rfl, nofun, fun _ _ => by rw [chunks_nil]; rfl⟩
  | cons bytes hne ih =>
    obtain ⟨hlength, hfull⟩ := length_chunks_take hsize checkpointIndexCapacity bytes
    have hpages := chunks_take_drop hsize checkpointIndexCapacity bytes
    have htake : bytes.take (pageSize * checkpointIndexCapacity) ≠ [] := by
      intro hnil
      obtain hzero | hnil := List.take_eq_nil_iff.mp hnil
      · omega
      · exact hne hnil
    have hown : chunks pageSize (bytes.take (pageSize * checkpointIndexCapacity)) ≠ [] := by
      rw [chunks_of_ne_nil hsize htake]
      exact List.cons_ne_nil _ _
    rw [chunks_of_ne_nil hlarge hne, hpages]
    rw [hpages, List.length_append] at hfits
    generalize bytes.take (pageSize * checkpointIndexCapacity) = front at *
    generalize bytes.drop (pageSize * checkpointIndexCapacity) = back at *
    have hrest : ∃ nodes : List CheckpointIndexNode,
        leaves digest pageSize (chunk + 1) (chunks (pageSize * checkpointIndexCapacity) back) =
          .ok (nodes.map (made digest)) ∧ (∀ node ∈ nodes, Good node ∧ node.level = 0) ∧
        ∀ objects, (nodes.map (made digest)).map Prod.snd ⊆ objects →
          Cover (IsTree digest objects 0)
            (chunk * checkpointIndexCapacity + 1 + (chunks pageSize front).length)
            ((nodes.map (made digest)).map Prod.fst) ((chunks pageSize back).map digest) := by
      by_cases hback : back = []
      · subst hback
        exact ⟨[], by rw [chunks_nil]; rfl, nofun, fun _ _ => by rw [chunks_nil]; rfl⟩
      · have hfull := hfull hback
        have hnext : chunk * checkpointIndexCapacity + 1 + (chunks pageSize front).length =
            (chunk + 1) * checkpointIndexCapacity + 1 := by
          rw [hfull, Nat.succ_mul]
          omega
        rw [hnext]
        exact ih (chunk + 1) (by omega)
    obtain ⟨nodes, hnodes, hgood, hcover⟩ := hrest
    have hpos := List.length_pos_iff.mpr hown
    have hleaf : Good (.leaf (chunk * checkpointIndexCapacity + 1)
        ((chunks pageSize front).map digest)) :=
      good_leaf (Nat.succ_pos _) (fun hnil => hown (List.map_eq_nil_iff.mp hnil))
        (by rwa [List.length_map]) (by rw [List.length_map]; omega)
    refine ⟨_ :: nodes, ?_, List.forall_mem_cons.mpr ⟨⟨hleaf, rfl⟩, hgood⟩, fun objects hsub => ?_⟩
    · rw [leaves, ok_bind (mulOrPanic_eq (by omega)), ok_bind (addOrPanic_eq (by omega)),
        ok_bind (create_eq hleaf), ok_bind hnodes]
      rfl
    · simp only [List.map_cons, List.cons_subset] at hsub
      refine ⟨(chunks pageSize front).map digest, _, List.map_append,
        fun hnil => hown (List.map_eq_nil_iff.mp hnil), rfl, rfl, ⟨hleaf, rfl, hsub.1⟩, ?_⟩
      rw [List.length_map]
      exact hcover objects hsub.2

/-- The nodes of a level cover the pages of the nodes below. -/
theorem nodes_eq_ok (hcover : Cover (IsTree digest objects level) first current hashes)
    (hfirst : 0 < first) (hfits : first + hashes.length < wordSize)
    (hlevel : level + 1 < 4294967296) :
    ∃ made' : List CheckpointIndexNode,
      nodes digest (level + 1) current = .ok (made'.map (made digest)) ∧
      made'.length = (chunks checkpointIndexCapacity current).length ∧
      (∀ node ∈ made', Good node ∧ node.level = level + 1) ∧
      (∀ p ∈ current, ∃ entries, CheckpointIndexNode.internal (level + 1) entries ∈ made' ∧
        p.child ∈ entries) ∧
      ∀ objects', objects ⊆ objects' → (made'.map (made digest)).map Prod.snd ⊆ objects' →
        Cover (IsTree digest objects' (level + 1)) first ((made'.map (made digest)).map Prod.fst)
          hashes := by
  have hcapacity : 0 < checkpointIndexCapacity := by decide
  unfold nodes
  induction current using chunks_induction hcapacity generalizing first hashes with
  | nil =>
    exact ⟨[], by rw [chunks_nil]; rfl, by rw [chunks_nil]; rfl, nofun, nofun, fun _ _ _ => hcover⟩
  | cons current hne ih =>
    have hgroup := (List.take_append_drop checkpointIndexCapacity current).symm
    have htake : current.take checkpointIndexCapacity ≠ [] := by
      intro hnil
      obtain hzero | hnil := List.take_eq_nil_iff.mp hnil
      · cases hzero
      · exact hne hnil
    have hlength := List.length_take_le checkpointIndexCapacity current
    rw [chunks_of_ne_nil hcapacity hne, List.mapM_cons]
    rw [hgroup] at hcover
    generalize current.take checkpointIndexCapacity = group at *
    generalize current.drop checkpointIndexCapacity = others at *
    obtain ⟨own, rest, rfl, hown, hrest⟩ := hcover.split
    rw [List.length_append] at hfits
    obtain ⟨made', hmade, hcount, hgood, hparents, hcover'⟩ := ih hrest (by omega) (by omega)
    have hnode := good_internal hown htake hlength hfirst (by omega) hlevel
    have hpages : own ≠ [] := by
      have hle := hown.length_le
      have hpos := List.length_pos_iff.mpr htake
      exact List.length_pos_iff.mp (by omega)
    refine ⟨_ :: made', ?_, ?_, List.forall_mem_cons.mpr ⟨⟨hnode, rfl⟩, hgood⟩, fun p hp => ?_,
      fun objects' hsub hsub' => ?_⟩
    · rw [create_eq hnode, ok_bind rfl, ok_bind hmade]
      rfl
    · rw [List.length_cons, List.length_cons, hcount]
    · rw [hgroup] at hp
      obtain hp | hp := List.mem_append.mp hp
      · exact ⟨_, List.mem_cons_self, List.mem_map_of_mem hp⟩
      · obtain ⟨entries, hentries, hmem⟩ := hparents p hp
        exact ⟨entries, List.mem_cons_of_mem _ hentries, hmem⟩
    · simp only [List.map_cons, List.cons_subset] at hsub'
      have htree : IsTree digest objects' (level + 1) first own
          (refOf digest (.internal (level + 1) (group.map Part.child))) :=
        ⟨group, ⟨hnode, rfl, hsub'.1⟩, hown.mono fun h => h.mono hsub⟩
      obtain ⟨hfirst', hcount'⟩ := hown.interval htake (level + 1)
      exact ⟨own, rest, rfl, hpages, hfirst', hcount', htree, hcover' objects' hsub hsub'.2⟩

end Levels

end Otmp.CheckpointTree
