import Mathlib.Data.List.Sort
import Otmp.Foundation.CborReaders
import Otmp.Foundation.Checked
import Otmp.Protocol.PageMap

/-!
# Page packs

A page pack holds pages of one size behind a header and an index with one entry for each
page. Header and index can be read without the payload; all their numbers are untrusted.
-/

namespace Otmp

open Foundation Cbor

namespace PagePack

/-- Where the payload of a page stands in the pack. -/
structure PackIndexEntry where
  pageNumber : ℕ
  offset : ℕ
  storedLength : ℕ
  rawLength : ℕ
  codec : PageCodec
  pageSha256 : Sha256
  deriving DecidableEq

/-- The index of a pack: the size of its pages and one entry for each of them. -/
structure PackIndex where
  pageSize : ℕ
  entries : List PackIndexEntry
  deriving DecidableEq

/-- The fixed fields of a pack's 64-byte header. -/
structure PackHeader where
  pageSize : ℕ
  entryCount : ℕ
  indexOffset : ℕ
  payloadOffset : ℕ
  deriving DecidableEq

/-- A computation of the page pack, which refuses its input with an error of the protocol. -/
abbrev Packing := Except (Fault ProtocolError)

/-- A refusal of the pack with the given message. -/
def invalid (message : String) : ProtocolError := .invalidObject message

/-- The `n` bytes that start at a position, as the code slices a fixed-width number out of a buffer.
-/
def number (n : ℕ) (bytes : Bytes) (start : ℕ) : Packing {taken : Bytes // taken.length = n} := do
  let stop ← orRefuse (invalid "pack offset overflow") (checkedAdd start n)
  let taken ← orRefuse (invalid "truncated pack") (getRange? bytes start stop)
  if h : taken.length = n then .ok ⟨taken, h⟩ else .error (.refused (invalid "truncated pack"))

/-- The first bytes of every pack, by which readers know the format. -/
def magic : Bytes := [0x4f, 0x54, 0x4d, 0x50, 0x50, 0x47, 0x50, 0x4b]

/-- The format version and reserved bytes, which are the same in every pack. -/
def version : Bytes := [0, 1, 0, 0, 0, 0, 0, 0]

/-- A page size that packs may have: a power of two from 512 to 65536. -/
def IsPageSize (n : ℕ) : Prop := 512 ≤ n ∧ n ≤ 65536 ∧ isPowerOfTwo n

/-- Whether a number is a page size is decided by evaluating its bounds. -/
instance (n : ℕ) : Decidable (IsPageSize n) := inferInstanceAs (Decidable (_ ∧ _ ∧ _))

/-- `decode_pack_header`: the magic, the version, the codec and the offsets are checked against the
length of the whole pack. -/
def decodePackHeader (header : Bytes) (fullLength : ℕ) : Packing PackHeader := do
  refuseIf (header.length ≠ 64) (invalid "invalid page-pack header")
  let first ← sliceOrPanic header 0 8
  refuseIf (first ≠ magic) (invalid "invalid page-pack header")
  let second ← sliceOrPanic header 8 16
  refuseIf (second ≠ version) (invalid "invalid page-pack header")
  let reserved ← sliceOrPanic header 40 64
  refuseIf (∃ b ∈ reserved, b ≠ 0) (invalid "invalid page-pack header")
  let pageSize ← number 4 header 16
  refuseIf (¬ IsPageSize (beNat pageSize.val)) (invalid "invalid pack page size")
  let entryCount ← number 4 header 20
  let indexOffset ← number 8 header 24
  let payloadOffset ← number 8 header 32
  let indexLength ← orRefuse (invalid "pack index overflow") (checkedMul (beNat entryCount.val) 64)
  let indexEnd ← orRefuse (invalid "pack index overflow")
    (checkedAdd (beNat indexOffset.val) indexLength)
  refuseIf (beNat entryCount.val = 0 ∨ beNat indexOffset.val < 64 ∨
      indexEnd > beNat payloadOffset.val ∨ beNat payloadOffset.val > fullLength)
    (invalid "invalid pack index bounds")
  return ⟨beNat pageSize.val, beNat entryCount.val, beNat indexOffset.val, beNat payloadOffset.val⟩

/-- The codec of a byte; any other byte than the two known ones is refused. -/
def codecOf : UInt8 → Packing PageCodec
  | 0 => .ok .none
  | 1 => .ok .zstd
  | _ => .error (.refused (invalid "unsupported pack codec"))

/-- An end of a range lies behind a length, or does not fit the word. -/
def endsBehind (offset length fullLength : ℕ) : Prop :=
  ∀ stop, checkedAdd offset length = some stop → stop > fullLength

/-- Whether a range ends behind the pack is decided by the checked addition that the code makes. -/
instance (offset length fullLength : ℕ) : Decidable (endsBehind offset length fullLength) :=
  decidable_of_iff ((checkedAdd offset length).all (· > fullLength)) (by
    cases h : checkedAdd offset length <;> simp [endsBehind, h])

/-- One entry of the index, with the range of its payload. -/
def decodeEntry (header : PackHeader) (indexBytes : Bytes) (fullLength previous i : ℕ) :
    Packing (PackIndexEntry × ℕ × ℕ) := do
  let start ← mulOrPanic i 64
  let pageNumber ← number 8 indexBytes start
  let at8 ← addOrPanic start 8
  let offset ← number 8 indexBytes at8
  let at16 ← addOrPanic start 16
  let storedLength ← number 4 indexBytes at16
  let at20 ← addOrPanic start 20
  let rawLength ← number 4 indexBytes at20
  let at24 ← addOrPanic start 24
  let codec ← codecOf (← indexOrPanic indexBytes at24)
  refuseIf (beNat pageNumber.val ≤ previous) (invalid "invalid pack entry")
  let at25 ← addOrPanic start 25
  let at32 ← addOrPanic start 32
  let reserved ← sliceOrPanic indexBytes at25 at32
  refuseIf ((∃ b ∈ reserved, b ≠ 0) ∨ beNat rawLength.val ≠ header.pageSize ∨
      beNat storedLength.val = 0 ∨ beNat offset.val < header.payloadOffset ∨
      endsBehind (beNat offset.val) (beNat storedLength.val) fullLength ∨
      codec = .none ∧ beNat storedLength.val ≠ beNat rawLength.val)
    (invalid "invalid pack entry")
  let stop ← addOrPanic (beNat offset.val) (beNat storedLength.val)
  let pageSha256 ← number 32 indexBytes at32
  return (⟨beNat pageNumber.val, beNat offset.val, beNat storedLength.val, beNat rawLength.val,
    codec, pageSha256⟩, beNat offset.val, stop)

/-- The entries from the `i`-th on, each checked against the one before. -/
def decodeEntries (header : PackHeader) (indexBytes : Bytes) (fullLength : ℕ) :
    ℕ → ℕ → ℕ → Packing (List (PackIndexEntry × ℕ × ℕ))
  | 0, _, _ => return []
  | todo + 1, i, previous => do
    let entry ← decodeEntry header indexBytes fullLength previous i
    let entries ← decodeEntries header indexBytes fullLength todo (i + 1) entry.1.pageNumber
    return entry :: entries

/-- Pairs of numbers in the order of their components. -/
def RangeLe (p q : ℕ × ℕ) : Prop := p.1 < q.1 ∨ p.1 = q.1 ∧ p.2 ≤ q.2

/-- The order of ranges is decided by comparing starts, then ends. -/
instance : DecidableRel RangeLe := fun p q =>
  inferInstanceAs (Decidable (p.1 < q.1 ∨ p.1 = q.1 ∧ p.2 ≤ q.2))

/-- Some range ends behind the start of the next one. -/
def overlapping : List (ℕ × ℕ) → Bool
  | p :: q :: rest => decide (p.2 > q.1) || overlapping (q :: rest)
  | _ => false

/-- `decode_pack_index_parts`: reads an index from the header and the index bytes alone, as a reader
does that fetches only those two ranges. -/
def decodePackIndexParts (header indexBytes : Bytes) (fullLength : ℕ) : Packing PackIndex := do
  let header ← decodePackHeader header fullLength
  let length ← orRefuse (invalid "pack index overflow") (checkedMul header.entryCount 64)
  refuseIf (indexBytes.length ≠ length) (invalid "truncated pack index")
  let entries ← decodeEntries header indexBytes fullLength header.entryCount 0 0
  let ranges := (entries.map Prod.snd).insertionSort RangeLe
  refuseIf (overlapping ranges) (invalid "overlapping pack payloads")
  return ⟨header.pageSize, entries.map Prod.fst⟩

/-- `decode_pack_index`: reads the index of a pack that is held as a whole. -/
def decodePackIndex (bytes : Bytes) : Packing PackIndex := do
  let first ← orRefuse (invalid "truncated pack") (getRange? bytes 0 64)
  let header ← decodePackHeader first bytes.length
  let length ← mulOrPanic header.entryCount 64
  let stop ← orRefuse (invalid "pack index overflow") (checkedAdd header.indexOffset length)
  let again ← sliceOrPanic bytes 0 64
  let indexBytes ← orRefuse (invalid "truncated pack index")
    (getRange? bytes header.indexOffset stop)
  decodePackIndexParts again indexBytes bytes.length

/-- Pages by ascending numbers, as the encoder is given them. -/
structure Pages where
  entries : List (ℕ × Bytes)
  sorted : entries.Pairwise fun p q => p.1 < q.1
  fits : ∀ p ∈ entries, p.1 < wordSize

/-- Write the index entry and the payload of one page. -/
def encodeEntry (digest : Digest) (pageSize payload : ℕ) (bytes : Bytes) (i : ℕ)
    (page : ℕ × Bytes) : Packing Bytes := do
  let start ← addOrPanic 64 (← mulOrPanic 64 i)
  let offset ← addOrPanic payload (← mulOrPanic i pageSize)
  let bytes ← copyOrPanic bytes start (beBytes 8 page.1)
  let bytes ← copyOrPanic bytes (← addOrPanic start 8) (beBytes 8 offset)
  let bytes ← copyOrPanic bytes (← addOrPanic start 16) (beBytes 4 pageSize)
  let bytes ← copyOrPanic bytes (← addOrPanic start 20) (beBytes 4 pageSize)
  let bytes ← copyOrPanic bytes (← addOrPanic start 32) (digest page.2).val
  copyOrPanic bytes offset page.2

/-- Write the pages from the `i`-th on, each with its entry and its bytes. -/
def encodeEntries (digest : Digest) (pageSize payload : ℕ) :
    List (ℕ × Bytes) → ℕ → Bytes → Packing Bytes
  | [], _, bytes => .ok bytes
  | page :: pages, i, bytes => do
    let bytes ← encodeEntry digest pageSize payload bytes i page
    encodeEntries digest pageSize payload pages (i + 1) bytes

/-- `encode_page_pack`: writes the header, the index and the pages of one pack, after checking the
pages' numbers, lengths and count. -/
def encodePagePack (digest : Digest) (pageSize : ℕ) (pages : Pages) : Packing Bytes := do
  refuseIf (pages.entries = [] ∨ ¬ IsPageSize pageSize ∨
      pages.entries.head?.map Prod.fst = some 0 ∨
      ∃ page ∈ pages.entries, page.2.length ≠ pageSize)
    (invalid "invalid pages for page pack")
  refuseIf (4294967296 ≤ pages.entries.length) (invalid "too many pack entries")
  let payload ← orRefuse (invalid "pack size overflow")
    ((checkedMul pages.entries.length 64).bind (checkedAdd · 64))
  let total ← orRefuse (invalid "pack size overflow")
    ((checkedMul pages.entries.length pageSize).bind (checkedAdd · payload))
  let bytes ← copyOrPanic (List.replicate total 0) 0 magic
  let bytes ← copyOrPanic bytes 8 (beBytes 2 1)
  let bytes ← copyOrPanic bytes 16 (beBytes 4 pageSize)
  let bytes ← copyOrPanic bytes 20 (beBytes 4 pages.entries.length)
  let bytes ← copyOrPanic bytes 24 (beBytes 8 64)
  let bytes ← copyOrPanic bytes 32 (beBytes 8 payload)
  encodeEntries digest pageSize payload pages.entries 0 bytes

end PagePack

end Otmp
