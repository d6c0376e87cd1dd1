import Otmp.Protocol.CheckpointIndex
import Otmp.Protocol.PageMapDecode

/-!
# The codecs of nodes are canonical

Every valid node has one encoding, which is read back as the node, and no other byte string is read
as a node. Neither reading nor checking a node panics, and the pages of a valid node can be counted.
-/

namespace Otmp

open Foundation

namespace CheckpointIndex

open NodeReaders Cursor

/-- Reading an expected key inverts writing it. -/
theorem key_inverts {expected : String} (h : (Cbor.utf8 expected).length < 18446744073709551616) :
    Cursor.Inverts (key expected) (fun _ => Cbor.text expected) fun _ => True := literal_inverts h

/-- Reading a child inverts writing one whose numbers are in range. -/
theorem readChild_inverts :
    Cursor.Inverts readChild CheckpointIndexChild.encode CheckpointIndexChild.InRange :=
  (fields_inverts (by decide)).skip <| (key_inverts (by decide)).skip <|
    reference_inverts.bind CheckpointIndexChild.child (fun _ h => h.child) fun child hchild =>
    (key_inverts (by decide)).skip <|
    readUnsigned_inverts.bind CheckpointIndexChild.pageCount (fun _ h => h.2.pageCount)
      fun pageCount hpageCount =>
    (key_inverts (by decide)).skip <|
    readUnsigned_inverts.last CheckpointIndexChild.firstPage (fun _ h => h.2.2.firstPage)
      fun firstPage hfirstPage e => by
        constructor
        · rintro ⟨rfl, rfl, rfl, -⟩
          rfl
        · rintro rfl
          exact ⟨rfl, rfl, rfl, hfirstPage, hpageCount, hchild⟩

/-- The first key of a node, by which a reader tells leaves from internal nodes. -/
def firstKey : CheckpointIndexNode → String
  | .leaf _ _ => "hashes"
  | .internal _ _ => "level"

/-- The hashes of a leaf; an internal node has none. -/
def hashes : CheckpointIndexNode → List Sha256
  | .leaf _ hashes => hashes
  | .internal _ _ => []

/-- The children of an internal node; a leaf has none. -/
def children : CheckpointIndexNode → List CheckpointIndexChild
  | .leaf _ _ => []
  | .internal _ entries => entries

/-- A node has as many entries as a node may have. -/
def GoodCount (node : CheckpointIndexNode) : Prop :=
  badCount (hashes node).length = false ∨ badCount (children node).length = false

variable {node : CheckpointIndexNode}

/-- Reading a leaf behind its type inverts writing its hashes, its version and its first page. -/
theorem readLeaf_inverts :
    Cursor.Inverts readLeaf
      (fun node => (Cbor.arrayLen (hashes node).length ++
        (hashes node).flatMap fun hash => Cbor.byteString hash.val) ++
        ((Cbor.text "version" ++ (Cbor.unsigned 1 ++ (Cbor.text "node_type" ++
        Cbor.text "leaf"))) ++ (Cbor.text "first_page" ++ Cbor.unsigned node.firstPage)))
      fun node => firstKey node = "hashes" ∧ node.InRange ∧ GoodCount node :=
  (counted_inverts hash_inverts fun hash _ => by
    rw [Cbor.byteString, List.length_append, hash.2]
    omega).bind hashes (fun node hnode => by
      obtain ⟨hkey, hrange, hcount⟩ := hnode
      cases node with
      | leaf firstPage hashes =>
        exact ⟨hcount.resolve_right (show ¬badCount 0 = false by decide), hrange.2, by simp⟩
      | internal => exact absurd hkey (show "level" ≠ "hashes" by decide)) fun hashes' hhashes =>
    (typed_inverts (by decide)).skip <| (key_inverts (by decide)).skip <|
    readUnsigned_inverts.last CheckpointIndexNode.firstPage (fun node hnode => by
      obtain ⟨-, hkey, hrange, -⟩ := hnode
      cases node with
      | leaf firstPage hashes => exact hrange.1
      | internal => exact absurd hkey (show "level" ≠ "hashes" by decide))
      fun firstPage hfirstPage node => by
        constructor
        · rintro ⟨rfl, rfl, hkey, -⟩
          cases node with
          | leaf firstPage hashes => rfl
          | internal => exact absurd hkey (show "level" ≠ "hashes" by decide)
        · rintro rfl
          exact ⟨rfl, rfl, rfl, ⟨hfirstPage, hhashes.2.1⟩, .inl hhashes.1⟩

/-- Reading an internal node behind its type inverts writing its level and its children. -/
theorem readInternal_inverts :
    Cursor.Inverts readInternal
      (fun node => Cbor.unsigned node.level ++ (Cbor.text "entries" ++
        ((Cbor.arrayLen (children node).length ++
        (children node).flatMap CheckpointIndexChild.encode) ++ ((Cbor.text "version" ++
        (Cbor.unsigned 1 ++ (Cbor.text "node_type" ++ Cbor.text "internal"))) ++ []))))
      fun node => firstKey node = "level" ∧ node.InRange ∧ GoodCount node :=
  u32_inverts.bind CheckpointIndexNode.level (fun node hnode => by
    obtain ⟨hkey, hrange, -⟩ := hnode
    cases node with
    | leaf => exact absurd hkey (show "hashes" ≠ "level" by decide)
    | internal level entries => exact hrange.1) fun level hlevel =>
  (key_inverts (by decide)).skip <|
    (counted_inverts readChild_inverts fun e _ => by
      have h := PageMap.length_mapLen_pos 3
      rw [CheckpointIndexChild.encode, List.length_append]
      omega).bind children (fun node hnode => by
        obtain ⟨-, hkey, hrange, hcount⟩ := hnode
        cases node with
        | leaf => exact absurd hkey (show "hashes" ≠ "level" by decide)
        | internal level entries =>
          exact ⟨hcount.resolve_left (show ¬badCount 0 = false by decide), hrange.2⟩)
      fun entries hentries =>
    (typed_inverts (by decide)).skip <| .pure fun node => by
      constructor
      · rintro ⟨rfl, rfl, hkey, -⟩
        cases node with
        | leaf => exact absurd hkey (show "hashes" ≠ "level" by decide)
        | internal level entries => rfl
      · rintro rfl
        exact ⟨rfl, rfl, rfl, ⟨hlevel, hentries.2⟩, .inr hentries.1⟩

/-- Exactly the encodings of the nodes with as many entries as a node may have are read. -/
theorem readNode_inverts : Cursor.Inverts readNode CheckpointIndexNode.encode
    fun node => node.InRange ∧ GoodCount node := by
  have hkeyed : Cursor.Inverts (do
      let firstKey ← readText
      if firstKey = "hashes" then readLeaf
      else if firstKey = "level" then readInternal
      else refuse (.invalidCbor "unexpected or noncanonical checkpoint-index key"))
      (fun node => node.encode.drop 1) fun node => node.InRange ∧ GoodCount node := ?_
  · exact ((@fields_inverts _ 4 (by decide)).skip hkeyed).congr
      (fun node _ => by cases node <;> rfl) fun _ => Iff.rfl
  refine readText_inverts.bind_of (fun node name => firstKey node = name)
    (fun node => node.encode.drop (1 + (Cbor.text (firstKey node)).length))
    (fun node _ => ⟨_, rfl, ?_⟩) (fun {node name} h => ?_) fun name _ => ?_
  · cases node with
    | leaf => exact (by decide : (Cbor.utf8 "hashes").length < 18446744073709551616)
    | internal => exact (by decide : (Cbor.utf8 "level").length < 18446744073709551616)
  · subst h
    cases node <;> rfl
  · by_cases hhashes : name = "hashes"
    · subst hhashes
      refine readLeaf_inverts.congr (fun node hnode => ?_) fun _ => Iff.rfl
      obtain ⟨hkey, -⟩ := hnode
      cases node with
      | leaf firstPage entries =>
        simp only [hashes, CheckpointIndexNode.firstPage, List.append_assoc]
        rfl
      | internal => exact absurd hkey (show "level" ≠ "hashes" by decide)
    · rw [if_neg hhashes]
      by_cases hlevel : name = "level"
      · subst hlevel
        refine readInternal_inverts.congr (fun node hnode => ?_) fun _ => Iff.rfl
        obtain ⟨hkey, -⟩ := hnode
        cases node with
        | leaf => exact absurd hkey (show "hashes" ≠ "level" by decide)
        | internal level entries =>
          simp only [children, CheckpointIndexNode.level, List.append_assoc, List.append_nil]
          rfl
      · rw [if_neg hlevel]
        refine .refuse fun node hnode => ?_
        cases node with
        | leaf => exact hhashes hnode.1.symm
        | internal => exact hlevel hnode.1.symm

end CheckpointIndex

namespace CheckpointIndexChild

variable {e : CheckpointIndexChild} {entries : List CheckpointIndexChild} {expected : Option ℕ}

/-- A list of children passes when its first child is not bad and the others follow where that child
ends. -/
theorem validateFrom_cons_eq_ok : validateFrom expected (e :: entries) = .ok () ↔
    ¬e.Bad expected ∧ e.firstPage + e.pageCount < wordSize ∧
      validateFrom (some (e.firstPage + e.pageCount)) entries = .ok () := by
  rw [validateFrom, Foundation.bind_eq_ok]
  simp only [refuseIf_eq_ok, Foundation.bind_eq_ok, orRefuse_eq_ok, checkedAdd_eq_some]
  constructor
  · rintro ⟨-, hbad, next, ⟨hfits, rfl⟩, h⟩
    exact ⟨hbad, hfits, h⟩
  · rintro ⟨hbad, hfits, h⟩
    exact ⟨(), hbad, _, ⟨hfits, rfl⟩, h⟩

/-- Checking children does not panic, as it adds with a check. -/
theorem safe_validateFrom : Safe (validateFrom expected entries) := by
  induction entries generalizing expected with
  | nil => exact safe_ok ()
  | cons e entries ih =>
    exact (safe_refuseIf _).bind fun _ _ => (safe_orRefuse _).bind fun _ _ => ih

/-- The pages of children that follow each other can be counted. -/
theorem exists_pageCount (sum : ℕ) (h : validateFrom expected entries = .ok ())
    (hsum : sum < wordSize) (hnone : expected = none → sum = 0)
    (hsome : ∀ page, expected = some page → sum ≤ page) :
    entries.foldlM (fun sum e => addOrPanic sum e.pageCount) sum =
        (.ok (sum + (entries.map pageCount).sum) : Except (Fault ProtocolError) ℕ) ∧
      sum + (entries.map pageCount).sum < wordSize := by
  induction entries generalizing expected sum with
  | nil => exact ⟨rfl, by simpa using hsum⟩
  | cons e entries ih =>
    obtain ⟨hbad, hfits, hrest⟩ := validateFrom_cons_eq_ok.mp h
    have hstart : sum ≤ e.firstPage := by
      cases hexpected : expected with
      | none =>
        rw [hnone hexpected]
        exact Nat.zero_le _
      | some page =>
        have hpage := hsome page hexpected
        have hsame : page = e.firstPage := by
          by_contra hne
          exact hbad (.inr (.inr (.inr (.inr (by rw [hexpected]; simpa using hne)))))
        omega
    have hnext := ih (sum + e.pageCount) hrest (by omega) nofun fun page hpage => by
      cases hpage
      omega
    rw [List.foldlM_cons, addOrPanic_eq (by omega), List.map_cons, List.sum_cons, ← Nat.add_assoc]
    exact hnext

end CheckpointIndexChild

namespace CheckpointIndexNode

variable {node : CheckpointIndexNode}

/-- A leaf passes its check when its interval is not empty, fits the capacity and ends within the
word. -/
theorem validate_leaf_eq_ok {firstPage : ℕ} {hashes : List Sha256} :
    (leaf firstPage hashes).validate = .ok () ↔ firstPage ≠ 0 ∧ hashes ≠ [] ∧
      hashes.length ≤ checkpointIndexCapacity ∧ firstPage + (hashes.length - 1) < wordSize := by
  rw [validate, Foundation.bind_eq_ok]
  simp only [refuseIf_eq_ok, Foundation.bind_eq_ok, orRefuse_eq_ok, checkedAdd_eq_some, not_or,
    List.isEmpty_iff, not_lt]
  constructor
  · rintro ⟨-, ⟨hfirst, hempty, hcapacity⟩, others, hothers, last, ⟨hlast, rfl⟩, -⟩
    obtain ⟨-, rfl⟩ := subOrPanic_eq_ok hothers
    exact ⟨hfirst, hempty, hcapacity, hlast⟩
  · rintro ⟨hfirst, hempty, hcapacity, hlast⟩
    have hpos := List.length_pos_iff.mpr hempty
    exact ⟨(), ⟨hfirst, hempty, hcapacity⟩, _, subOrPanic_eq hpos, _, ⟨hlast, rfl⟩, rfl⟩

/-- An internal node passes its check when it has a level, children within the capacity, and these
follow each other. -/
theorem validate_internal_eq_ok {level : ℕ} {entries : List CheckpointIndexChild} :
    (internal level entries).validate = .ok () ↔ level ≠ 0 ∧ entries ≠ [] ∧
      entries.length ≤ checkpointIndexCapacity ∧
      CheckpointIndexChild.validateFrom none entries = .ok () := by
  rw [validate, Foundation.bind_eq_ok]
  simp only [refuseIf_eq_ok, not_or, List.isEmpty_iff, not_lt]
  constructor
  · rintro ⟨-, ⟨hlevel, hempty, hcapacity⟩, h⟩
    exact ⟨hlevel, hempty, hcapacity, h⟩
  · rintro ⟨hlevel, hempty, hcapacity, h⟩
    exact ⟨(), ⟨hlevel, hempty, hcapacity⟩, h⟩

/-- Checking a node does not panic, whatever its numbers are. -/
theorem safe_validate (node : CheckpointIndexNode) : Safe node.validate := by
  cases node with
  | leaf firstPage hashes =>
    refine (safe_refuseIf _).bind fun _ h => ?_
    obtain ⟨-, hcount⟩ := not_or.mp (refuseIf_eq_ok.mp h)
    obtain ⟨hempty, -⟩ := not_or.mp hcount
    have hpos : 1 ≤ hashes.length := List.length_pos_iff.mpr (by simpa using hempty)
    exact (safe_sub hpos).bind fun _ _ => (safe_orRefuse _).bind fun _ _ => safe_ok ()
  | internal level entries =>
    exact (safe_refuseIf _).bind fun _ _ => CheckpointIndexChild.safe_validateFrom

/-- A valid node has as many entries as a node may have. -/
theorem goodCount_of_validate (h : node.validate = .ok ()) : CheckpointIndex.GoodCount node := by
  have hgood : ∀ n, n ≠ 0 → n ≤ checkpointIndexCapacity → CheckpointIndex.badCount n = false := by
    intro n hn hle
    simp only [CheckpointIndex.badCount, Bool.or_eq_false_iff, beq_eq_false_iff_ne,
      decide_eq_false_iff_not, not_lt]
    exact ⟨hn, hle⟩
  cases node with
  | leaf firstPage hashes =>
    obtain ⟨-, hempty, hcapacity, -⟩ := validate_leaf_eq_ok.mp h
    exact .inl (hgood _ (List.length_eq_zero_iff.not.mpr hempty) hcapacity)
  | internal level entries =>
    obtain ⟨-, hempty, hcapacity, -⟩ := validate_internal_eq_ok.mp h
    exact .inr (hgood _ (List.length_eq_zero_iff.not.mpr hempty) hcapacity)

/-- The pages of a valid node: as many as a leaf has hashes, or as its children have together. -/
def pages : CheckpointIndexNode → ℕ
  | .leaf _ hashes => hashes.length
  | .internal _ entries => (entries.map CheckpointIndexChild.pageCount).sum

/-- The pages of a valid node can be counted. -/
theorem pageCount_eq_ok (h : node.validate = .ok ()) :
    node.pageCount = .ok node.pages ∧ node.pages < wordSize := by
  cases node with
  | leaf firstPage hashes =>
    obtain ⟨-, -, hcapacity, -⟩ := validate_leaf_eq_ok.mp h
    exact ⟨rfl, lt_of_le_of_lt hcapacity (by decide)⟩
  | internal level entries =>
    obtain ⟨-, -, -, hentries⟩ := validate_internal_eq_ok.mp h
    have hcount := CheckpointIndexChild.exists_pageCount 0 hentries (by decide)
      (fun _ => rfl) nofun
    rw [Nat.zero_add] at hcount
    exact hcount

end CheckpointIndexNode

section Canonical

variable {node : CheckpointIndexNode} {input : Bytes}

/-- A node is written when it passes its check and its encoding fits the limit, and as that
encoding. -/
theorem encodeCheckpointIndex_eq_ok : encodeCheckpointIndex node = .ok input ↔
    node.validate = .ok () ∧ node.encode.length ≤ maxCheckpointIndexBytes ∧
      input = node.encode := by
  rw [encodeCheckpointIndex, Foundation.bind_eq_ok]
  simp only [Foundation.bind_eq_ok, refuseIf_eq_ok, not_lt]
  constructor
  · rintro ⟨_, hvalid, _, hlength, h⟩
    exact ⟨hvalid, hlength, (Except.ok.inj h).symm⟩
  · rintro ⟨hvalid, hlength, rfl⟩
    exact ⟨(), hvalid, (), hlength, rfl⟩

/-- Exactly the encodings of the valid nodes that are small enough are read. -/
theorem decodeCheckpointIndex_eq_ok : decodeCheckpointIndex input = .ok node ↔
    node.InRange ∧ node.validate = .ok () ∧ input.length ≤ maxCheckpointIndexBytes ∧
      input = node.encode := by
  rw [decodeCheckpointIndex,
    NodeReaders.decodeNode_eq_ok CheckpointIndex.readNode_inverts (by decide)]
  constructor
  · rintro ⟨⟨hrange, -⟩, h⟩
    exact ⟨hrange, h⟩
  · rintro ⟨hrange, hvalid, h⟩
    exact ⟨⟨hrange, CheckpointIndexNode.goodCount_of_validate hvalid⟩, hvalid, h⟩

/-- Reading a node does not panic on any input. -/
theorem safe_decodeCheckpointIndex (input : Bytes) : Safe (decodeCheckpointIndex input) :=
  NodeReaders.safe_decodeNode CheckpointIndex.readNode_inverts (by decide)
    CheckpointIndexNode.safe_validate

/-- A codec of nodes of a limited size is canonical: each valid node has one encoding, which is read
back, nothing else is read, and neither reading nor checking panics. -/
structure IsCanonical {α : Type} (limit : ℕ) (bytes : α → Bytes) (InRange : α → Prop)
    (validate : α → Except (Fault ProtocolError) Unit)
    (encode : α → Except (Fault ProtocolError) Bytes)
    (decode : Bytes → Except (Fault ProtocolError) α) : Prop where
  decode_encode : ∀ node, InRange node → validate node = .ok () → (bytes node).length ≤ limit →
    encode node = .ok (bytes node) ∧ decode (bytes node) = .ok node
  encode_decode : ∀ input node, decode input = .ok node →
    InRange node ∧ validate node = .ok () ∧ encode node = .ok input
  safe_validate : ∀ node, Safe (validate node)
  safe_decode : ∀ input, Safe (decode input)

/-- The codecs of both kinds of nodes are canonical, and the pages of every valid checkpoint-index
node are counted without overflow. -/
theorem node_codecs_canonical :
    IsCanonical maxPageMapBytes PageMapNode.encode PageMapNode.InRange
      (fun node => node.validate.mapError .refused)
      (fun node => (encodePageMap node).mapError .refused) decodePageMap ∧
    IsCanonical maxCheckpointIndexBytes CheckpointIndexNode.encode CheckpointIndexNode.InRange
      CheckpointIndexNode.validate encodeCheckpointIndex decodeCheckpointIndex ∧
    ∀ node : CheckpointIndexNode, node.validate = .ok () →
      node.pageCount = .ok node.pages ∧ node.pages < wordSize := by
  have hsafe : ∀ node : PageMapNode,
      Safe (node.validate.mapError .refused : Except (Fault ProtocolError) Unit) := by
    intro node
    cases node.validate with
    | error e => exact safe_refused e
    | ok u => exact safe_ok u
  refine ⟨⟨fun node hrange hvalid hlength => ?_, fun input node h => ?_, hsafe,
    safe_decodePageMap⟩, ⟨fun node hrange hvalid hlength => ?_, fun input node h => ?_,
    CheckpointIndexNode.safe_validate, safe_decodeCheckpointIndex⟩,
    fun node => CheckpointIndexNode.pageCount_eq_ok⟩
  · rw [mapError_ok_iff] at hvalid ⊢
    exact ⟨encodePageMap_eq_ok.mpr ⟨hvalid, hlength, rfl⟩,
      decodePageMap_eq_ok.mpr ⟨hrange, hvalid, hlength, rfl⟩⟩
  · obtain ⟨hrange, hvalid, hlength, rfl⟩ := decodePageMap_eq_ok.mp h
    simp only [mapError_ok_iff]
    exact ⟨hrange, hvalid, encodePageMap_eq_ok.mpr ⟨hvalid, hlength, rfl⟩⟩
  · exact ⟨encodeCheckpointIndex_eq_ok.mpr ⟨hvalid, hlength, rfl⟩,
      decodeCheckpointIndex_eq_ok.mpr ⟨hrange, hvalid, hlength, rfl⟩⟩
  · obtain ⟨hrange, hvalid, hlength, rfl⟩ := decodeCheckpointIndex_eq_ok.mp h
    exact ⟨hrange, hvalid, encodeCheckpointIndex_eq_ok.mpr ⟨hvalid, hlength, rfl⟩⟩

end Canonical

end Otmp
