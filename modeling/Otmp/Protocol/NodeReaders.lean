import Otmp.Foundation.Cursor
import Otmp.Protocol.PageMapNodes

/-!
# Readers of page-map and checkpoint-index nodes

Both kinds of nodes are read by the same small readers, which differ in the texts of their errors:
fixed keys, hashes of 32 bytes, numbers of 32 bits, and references.
-/

namespace Otmp

open Foundation

namespace PageObjectReference

/-- The values of the source's type: a safe location and a length of 64 bits. -/
structure InRange (r : PageObjectReference) : Prop where
  uri : safeRelativeUri r.uri = true
  fits : (Cbor.utf8 r.uri).length < 18446744073709551616
  length : r.length < 18446744073709551616

end PageObjectReference

namespace NodeReaders

open Cursor

/-- A reader of the parts of a node, which refuses with an error of the protocol. -/
abbrev Reader (α : Type) := Cursor ProtocolError α

/-- Read an unsigned integer of a node in its shortest form. -/
def readUnsigned : Reader ℕ := Cursor.readUnsigned .invalidCbor

/-- Read a length of a node, for arrays, maps, texts or byte strings. -/
def readLength (kind : ℕ) : Reader ℕ := Cursor.readLength .invalidCbor kind

/-- Read a text of a node, which must be valid UTF-8. -/
def readText : Reader String := Cursor.readText .invalidCbor

/-- A text that is fixed; any other one is refused with the given message. -/
def literal (message expected : String) : Reader Unit := do
  let value ← readText
  if value ≠ expected then refuse (.invalidCbor message) else return ()

/-- A hash as a string of 32 raw bytes. -/
def hash (message : String) : Reader Sha256 := do
  let bytes ← Cursor.readByteString .invalidCbor
  if h : bytes.length = 32 then return ⟨bytes, h⟩ else refuse (.invalidCbor message)

/-- A number that has to fit 32 bits. -/
def u32 (message : String) : Reader ℕ := do
  let value ← readUnsigned
  if 4294967296 ≤ value then refuse (.invalidCbor message) else return value

/-- A location, which has to be a safe relative one. -/
def uri : Reader String := do
  let value ← readText
  if safeRelativeUri value = false then refuse (.unsafeRelativeUri value) else return value

/-- The format version, which is one for every node. -/
def version (message : String) : Reader Unit := do
  let value ← readUnsigned
  if value ≠ 1 then refuse (.invalidCbor message) else return ()

/-- A map of a fixed count of members, as each kind of node has its own count. -/
def fields (message : String) (count : ℕ) : Reader Unit := do
  let length ← readLength 5
  if length ≠ count then refuse (.invalidCbor message) else return ()

/-- A reference to an object, with the texts of the errors of the node it is read for. -/
def reference (fieldsMessage keyMessage hashMessage : String) : Reader PageObjectReference := do
  fields fieldsMessage 3
  literal keyMessage "uri"
  let uri ← uri
  literal keyMessage "length"
  let length ← readUnsigned
  literal keyMessage "sha256"
  let sha256 ← hash hashMessage
  return ⟨uri, sha256, length⟩

/-- Entries behind their count. Each entry takes at least one byte of the input. -/
def counted {α : Type} (message : String) (bad : ℕ → Bool) (item : Reader α) : Reader (List α) := do
  let count ← readLength 4
  let size ← size
  if bad count = true ∨ count > size then refuse (.invalidCbor message) else readMany item count

/-- The members behind the entries of a page-map leaf or of any internal node. -/
def typed (keyMessage versionMessage typeMessage nodeType : String) : Reader Unit := do
  literal keyMessage "version"
  version versionMessage
  literal keyMessage "node_type"
  literal typeMessage nodeType

/-- Read a whole node of a limited size, and check it. -/
def decodeNode {α : Type} (limit : ℕ) (message : String) (reader : Reader α)
    (validate : α → Except (Fault ProtocolError) Unit) (input : Bytes) :
    Except (Fault ProtocolError) α := do
  refuseIf (input.length > limit) (.invalidCbor message)
  let node ← finish .invalidCbor reader input
  validate node
  return node

variable {message fieldsMessage keyMessage hashMessage expected : String} {count : ℕ}

/-- What is checked against a fixed value carries none. -/
theorem fixed_inverts {α : Type} {c : Reader α} {encode : α → Bytes} {Good : α → Prop}
    [DecidableEq α] (hc : Cursor.Inverts c encode Good) {a : α} (ha : Good a) {e : ProtocolError} :
    Cursor.Inverts (c >>= fun b => if b ≠ a then refuse e else pure ()) (fun _ => encode a)
      fun _ => True := by
  refine hc.only (fun _ => a) (fun _ _ => ha) fun b hb => ?_
  by_cases h : b = a
  · rw [if_neg (not_not.mpr h)]
    exact .pure fun _ => ⟨fun _ => rfl, fun _ => ⟨h.symm, trivial⟩⟩
  · rw [if_pos h]
    exact .refuse fun _ hx => h hx.1.symm

/-- Reading an expected text inverts writing it. -/
theorem literal_inverts (h : (Cbor.utf8 expected).length < 18446744073709551616) :
    Cursor.Inverts (literal message expected) (fun _ => Cbor.text expected) fun _ => True :=
  fixed_inverts readText_inverts h

/-- Reading the version inverts writing the only one. -/
theorem version_inverts :
    Cursor.Inverts (version message) (fun _ => Cbor.unsigned 1) fun _ => True :=
  fixed_inverts readUnsigned_inverts (by decide)

/-- Reading the number of fields inverts writing it. -/
theorem fields_inverts (h : count < 18446744073709551616) :
    Cursor.Inverts (fields message count) (fun _ => Cbor.mapLen count) fun _ => True :=
  fixed_inverts (readLength_inverts (by decide)) h

/-- Reading an integer of 32 bits inverts writing one. -/
theorem u32_inverts : Cursor.Inverts (u32 message) Cbor.unsigned (· < 4294967296) :=
  (readUnsigned_inverts.check (p := (4294967296 ≤ ·))).congr (fun _ _ => rfl) fun n => by omega

/-- Reading a hash inverts writing its bytes. -/
theorem hash_inverts : Cursor.Inverts (hash message) (fun h => Cbor.byteString h.val)
    fun _ => True :=
  (readByteString_inverts.pack (p := fun bytes : Bytes => bytes.length = 32)).congr
    (fun _ _ => rfl) fun h => iff_of_true trivial (h.2.trans_lt (by decide))

/-- Reading a location inverts writing one that is relative and safe. -/
theorem uri_inverts : Cursor.Inverts uri Cbor.text fun value =>
    (Cbor.utf8 value).length < 18446744073709551616 ∧ safeRelativeUri value = true :=
  (readText_inverts.check (p := (safeRelativeUri · = false))).congr (fun _ _ => rfl) fun value => by
    rw [Bool.not_eq_false]

/-- A reference is read back exactly, from its encoding and from no other bytes. -/
theorem reference_inverts :
    Cursor.Inverts (reference fieldsMessage keyMessage hashMessage) encodeRef
      PageObjectReference.InRange :=
  (fields_inverts (by decide)).skip <| (literal_inverts (by decide)).skip <|
    uri_inverts.bind PageObjectReference.uri (fun _ h => ⟨h.fits, h.uri⟩) fun uri huri =>
    (literal_inverts (by decide)).skip <|
    readUnsigned_inverts.bind PageObjectReference.length (fun _ h => h.2.length)
      fun length hlength =>
    (literal_inverts (by decide)).skip <|
    hash_inverts.last PageObjectReference.sha256 (fun _ _ => trivial) fun sha256 _ r => by
      constructor
      · rintro ⟨rfl, rfl, rfl, -⟩
        rfl
      · rintro rfl
        exact ⟨rfl, rfl, rfl, huri.2, huri.1, hlength⟩

/-- Entries that take some bytes each are read back with their count. -/
theorem counted_inverts {α : Type} {item : Reader α} {encode : α → Bytes} {Good : α → Prop}
    {bad : ℕ → Bool} (hitem : Cursor.Inverts item encode Good)
    (hlong : ∀ a, Good a → 1 ≤ (encode a).length) :
    Cursor.Inverts (counted message bad item)
      (fun as => Cbor.arrayLen as.length ++ as.flatMap encode) fun as =>
      bad as.length = false ∧ as.length < 18446744073709551616 ∧ ∀ a ∈ as, Good a := by
  have hsum : ∀ as : List α, (∀ a ∈ as, Good a) → as.length ≤ (as.flatMap encode).length := by
    intro as has
    induction as with
    | nil => exact Nat.le_refl 0
    | cons a as ih =>
      have hfirst := hlong a (has a List.mem_cons_self)
      have hrest := ih fun b hb => has b (List.mem_cons_of_mem a hb)
      rw [List.flatMap_cons, List.length_append, List.length_cons]
      omega
  refine (readLength_inverts (by decide)).bind List.length (fun _ h => h.2.1) fun count hcount => ?_
  refine .sized (fun size hsize => (hitem.many count).congr (fun _ _ => rfl) fun as => ?_)
    fun as has size hsize => ?_
  · obtain ⟨hbad, -⟩ := not_or.mp hsize
    constructor
    · exact fun h => ⟨h.1, h.2.2.2⟩
    · rintro ⟨rfl, has⟩
      exact ⟨rfl, Bool.eq_false_of_not_eq_true hbad, hcount, has⟩
  · obtain ⟨rfl, hbad, -, has⟩ := has
    have hlength := hsum as has
    rw [hbad]
    simp only [Bool.false_eq_true, false_or]
    omega

/-- Reading the version and the type of a node inverts writing them. -/
theorem typed_inverts {versionMessage typeMessage nodeType : String}
    (h : (Cbor.utf8 nodeType).length < 18446744073709551616) :
    Cursor.Inverts (typed keyMessage versionMessage typeMessage nodeType)
      (fun _ => Cbor.text "version" ++ (Cbor.unsigned 1 ++ (Cbor.text "node_type" ++
        Cbor.text nodeType))) fun _ => True :=
  (literal_inverts (by decide)).skip <| version_inverts.skip <|
    (literal_inverts (by decide)).skip (literal_inverts h)

section Decode

variable {α : Type} {limit : ℕ} {reader : Reader α} {encode : α → Bytes} {Good : α → Prop}
  {validate : α → Except (Fault ProtocolError) Unit} {input : Bytes} {node : α}

/-- Exactly the encodings of the good nodes that pass the check and are small enough are read. -/
theorem decodeNode_eq_ok (hreader : Cursor.Inverts reader encode Good) (hlimit : limit < wordSize) :
    decodeNode limit message reader validate input = .ok node ↔
      Good node ∧ validate node = .ok () ∧ input.length ≤ limit ∧ input = encode node := by
  unfold decodeNode
  by_cases hlong : input.length > limit
  · rw [refuseIf_bind hlong]
    exact iff_of_false nofun fun h => absurd h.2.2.1 (by omega)
  · have hfits : input.length < wordSize := by omega
    rw [passed_bind hlong, Foundation.bind_eq_ok]
    constructor
    · rintro ⟨node', hfinish, h⟩
      obtain ⟨_, hvalid, h⟩ := Foundation.bind_eq_ok.mp h
      cases h
      obtain ⟨hgood, hinput⟩ := (finish_eq_ok hreader hfits).mp hfinish
      exact ⟨hgood, hvalid, by omega, hinput⟩
    · rintro ⟨hgood, hvalid, -, hinput⟩
      refine ⟨node, (finish_eq_ok hreader hfits).mpr ⟨hgood, hinput⟩, ?_⟩
      rw [hvalid]
      rfl

/-- Reading a node does not panic when its reader inverts an encoder and its check does not panic.
-/
theorem safe_decodeNode (hreader : Cursor.Inverts reader encode Good) (hlimit : limit < wordSize)
    (hvalidate : ∀ node, Safe (validate node)) :
    Safe (decodeNode limit message reader validate input) := by
  refine (safe_refuseIf _).bind fun _ hsmall => ?_
  have hfits : input.length < wordSize := by
    have h := refuseIf_eq_ok.mp hsmall
    omega
  exact (safe_finish hreader hfits).bind fun node _ =>
    (hvalidate node).bind fun _ _ => safe_pure node

end Decode

end NodeReaders

end Otmp
