import Otmp.Protocol.PagePack

/-!
# Reading page packs is safe

No header and no index makes the readers of page packs panic. Whatever they accept lists
pages by ascending numbers, with payloads that lie behind header and index, inside the
declared length, and apart from each other.
-/

namespace Otmp

open Foundation Cbor

namespace PagePack

section Numbers

variable {bytes : Bytes} {n start : ℕ}

/-- A number inside a buffer is read. -/
theorem number_eq (h : start + n ≤ bytes.length) (hword : bytes.length < wordSize) :
    number n bytes start = .ok ⟨slice bytes start n, length_slice h⟩ := by
  have hadd : checkedAdd start n = some (start + n) :=
    checkedAdd_eq_some.mpr ⟨by omega, rfl⟩
  have hrange : getRange? bytes start (start + n) = some (slice bytes start n) :=
    getRange?_eq_some.mpr ⟨by omega, h, by rw [Nat.add_sub_cancel_left]⟩
  rw [number, hadd, ok_bind (orRefuse_eq_ok.mpr rfl), hrange, ok_bind (orRefuse_eq_ok.mpr rfl),
    dif_pos (length_slice h)]

/-- Reading a number never panics, since short input is refused first. -/
theorem safe_number (n : ℕ) (bytes : Bytes) (start : ℕ) : Safe (number n bytes start) := by
  unfold number
  refine (safe_orRefuse _).bind fun stop _ => (safe_orRefuse _).bind fun taken _ => ?_
  split
  · exact safe_ok _
  · exact safe_refused _

/-- The number of `n` bytes is below the power of 256 that they have room for. -/
theorem beNat_val_lt (taken : {taken : Bytes // taken.length = n}) : beNat taken.val < 256 ^ n := by
  have h := beNat_lt taken.val
  rwa [taken.property] at h

end Numbers

section Header

variable {header : Bytes} {fullLength : ℕ}

/-- What the header of a pack says about the pack. -/
structure PackHeader.Consistent (header : PackHeader) (fullLength : ℕ) : Prop where
  pageSize : IsPageSize header.pageSize
  entryCount : 0 < header.entryCount
  countFits : header.entryCount < 4294967296
  indexOffset : 64 ≤ header.indexOffset
  indexEnd : header.indexOffset + header.entryCount * 64 ≤ header.payloadOffset
  payloadOffset : header.payloadOffset ≤ fullLength

/-- Decoding a header never panics, whatever the bytes and the length of the pack. -/
theorem safe_decodePackHeader (header : Bytes) (fullLength : ℕ) :
    Safe (decodePackHeader header fullLength) := by
  unfold decodePackHeader
  refine (safe_refuseIf _).bind fun _ h => ?_
  have hlength : header.length = 64 := not_not.mp (refuseIf_eq_ok.mp h)
  refine (safe_slice (by omega) (by omega)).bind fun first _ => ?_
  refine (safe_refuseIf _).bind fun _ _ => ?_
  refine (safe_slice (by omega) (by omega)).bind fun second _ => ?_
  refine (safe_refuseIf _).bind fun _ _ => ?_
  refine (safe_slice (by omega) (by omega)).bind fun reserved _ => ?_
  refine (safe_refuseIf _).bind fun _ _ => ?_
  refine (safe_number _ _ _).bind fun pageSize _ => ?_
  refine (safe_refuseIf _).bind fun _ _ => ?_
  refine (safe_number _ _ _).bind fun entryCount _ => ?_
  refine (safe_number _ _ _).bind fun indexOffset _ => ?_
  refine (safe_number _ _ _).bind fun payloadOffset _ => ?_
  refine (safe_orRefuse _).bind fun indexLength _ => ?_
  refine (safe_orRefuse _).bind fun indexEnd _ => ?_
  exact (safe_refuseIf _).bind fun _ _ => safe_pure _

/-- A header that decodes has an index behind it, and pages behind the index, within the pack. -/
theorem decodePackHeader_consistent {result : PackHeader}
    (h : decodePackHeader header fullLength = .ok result) : result.Consistent fullLength := by
  unfold decodePackHeader at h
  obtain ⟨-, -, h⟩ := bind_eq_ok.mp h
  obtain ⟨first, -, h⟩ := bind_eq_ok.mp h
  obtain ⟨-, -, h⟩ := bind_eq_ok.mp h
  obtain ⟨second, -, h⟩ := bind_eq_ok.mp h
  obtain ⟨-, -, h⟩ := bind_eq_ok.mp h
  obtain ⟨reserved, -, h⟩ := bind_eq_ok.mp h
  obtain ⟨-, -, h⟩ := bind_eq_ok.mp h
  obtain ⟨pageSize, -, h⟩ := bind_eq_ok.mp h
  obtain ⟨_, hpage, h⟩ := bind_eq_ok.mp h
  obtain ⟨entryCount, -, h⟩ := bind_eq_ok.mp h
  obtain ⟨indexOffset, -, h⟩ := bind_eq_ok.mp h
  obtain ⟨payloadOffset, -, h⟩ := bind_eq_ok.mp h
  obtain ⟨indexLength, hindex, h⟩ := bind_eq_ok.mp h
  obtain ⟨indexEnd, hend, h⟩ := bind_eq_ok.mp h
  obtain ⟨_, hbounds, h⟩ := bind_eq_ok.mp h
  cases h
  obtain ⟨-, rfl⟩ := checkedMul_eq_some.mp (orRefuse_eq_ok.mp hindex)
  obtain ⟨-, rfl⟩ := checkedAdd_eq_some.mp (orRefuse_eq_ok.mp hend)
  have hpage := not_not.mp (refuseIf_eq_ok.mp hpage)
  have hbounds := refuseIf_eq_ok.mp hbounds
  have hcount := beNat_val_lt entryCount
  simp only [not_or, Nat.not_lt, gt_iff_lt] at hbounds
  obtain ⟨hpositive, hfirst, hlast, hfull⟩ := hbounds
  exact ⟨hpage, Nat.pos_of_ne_zero hpositive, hcount, hfirst, hlast, hfull⟩

end Header

section Entries

variable {header : PackHeader} {indexBytes : Bytes} {fullLength previous i : ℕ}

/-- What an accepted entry says about its payload: it lies behind the index and inside the pack, and
it is not empty. -/
structure PackIndexEntry.Inside (header : PackHeader) (fullLength : ℕ)
    (entry : PackIndexEntry) : Prop where
  behind : header.payloadOffset ≤ entry.offset
  nonempty : 0 < entry.storedLength
  inside : entry.offset + entry.storedLength ≤ fullLength
  rawLength : entry.rawLength = header.pageSize

/-- The range of the payload of an entry, from its start to behind its end. -/
def PackIndexEntry.range (entry : PackIndexEntry) : ℕ × ℕ :=
  (entry.offset, entry.offset + entry.storedLength)

/-- Reading a codec's byte never panics. -/
theorem safe_codecOf (b : UInt8) : Safe (codecOf b) := by
  unfold codecOf
  split
  · exact safe_ok _
  · exact safe_ok _
  · exact safe_refused _

/-- A range that passes the check neither overflows nor ends behind the pack. -/
theorem not_endsBehind {offset length : ℕ} (h : ¬ endsBehind offset length fullLength) :
    offset + length < wordSize ∧ offset + length ≤ fullLength := by
  simp only [endsBehind, not_forall, Nat.not_lt] at h
  obtain ⟨stop, hstop, hle⟩ := h
  obtain ⟨hword, rfl⟩ := checkedAdd_eq_some.mp hstop
  exact ⟨hword, hle⟩

/-- Decoding an entry never panics while the index holds the entry's 64 bytes. -/
theorem safe_decodeEntry (hindex : i * 64 + 64 ≤ indexBytes.length)
    (hword : indexBytes.length < wordSize) :
    Safe (decodeEntry header indexBytes fullLength previous i) := by
  unfold decodeEntry
  refine (safe_mul (by omega)).bind fun start hstart => ?_
  obtain rfl := mulOrPanic_eq_ok hstart
  refine (safe_number _ _ _).bind fun pageNumber _ => ?_
  refine (safe_add (by omega)).bind fun at8 _ => ?_
  refine (safe_number _ _ _).bind fun offset _ => ?_
  refine (safe_add (by omega)).bind fun at16 _ => ?_
  refine (safe_number _ _ _).bind fun storedLength _ => ?_
  refine (safe_add (by omega)).bind fun at20 _ => ?_
  refine (safe_number _ _ _).bind fun rawLength _ => ?_
  refine (safe_add (by omega)).bind fun at24 h24 => ?_
  obtain rfl := addOrPanic_eq_ok h24
  refine (safe_index (by omega)).bind fun b _ => ?_
  refine (safe_codecOf b).bind fun codec _ => ?_
  refine (safe_refuseIf _).bind fun _ _ => ?_
  refine (safe_add (by omega)).bind fun at25 h25 => ?_
  refine (safe_add (by omega)).bind fun at32 h32 => ?_
  obtain rfl := addOrPanic_eq_ok h25
  obtain rfl := addOrPanic_eq_ok h32
  refine (safe_slice (by omega) (by omega)).bind fun reserved _ => ?_
  refine (safe_refuseIf _).bind fun _ hcheck => ?_
  have hcheck := refuseIf_eq_ok.mp hcheck
  simp only [not_or] at hcheck
  refine (safe_add (not_endsBehind hcheck.2.2.2.2.1).1).bind fun stop _ => ?_
  exact (safe_number _ _ _).bind fun _ _ => safe_pure _

/-- An entry that decodes has a greater page number than the one before, and its bytes lie inside
the pack. -/
theorem decodeEntry_inside {entry : PackIndexEntry × ℕ × ℕ}
    (h : decodeEntry header indexBytes fullLength previous i = .ok entry) :
    previous < entry.1.pageNumber ∧ entry.1.Inside header fullLength ∧
      entry.2 = entry.1.range := by
  unfold decodeEntry at h
  obtain ⟨start, -, h⟩ := bind_eq_ok.mp h
  obtain ⟨pageNumber, -, h⟩ := bind_eq_ok.mp h
  obtain ⟨at8, -, h⟩ := bind_eq_ok.mp h
  obtain ⟨offset, -, h⟩ := bind_eq_ok.mp h
  obtain ⟨at16, -, h⟩ := bind_eq_ok.mp h
  obtain ⟨storedLength, -, h⟩ := bind_eq_ok.mp h
  obtain ⟨at20, -, h⟩ := bind_eq_ok.mp h
  obtain ⟨rawLength, -, h⟩ := bind_eq_ok.mp h
  obtain ⟨at24, -, h⟩ := bind_eq_ok.mp h
  obtain ⟨b, -, h⟩ := bind_eq_ok.mp h
  obtain ⟨codec, -, h⟩ := bind_eq_ok.mp h
  obtain ⟨_, hprevious, h⟩ := bind_eq_ok.mp h
  obtain ⟨at25, -, h⟩ := bind_eq_ok.mp h
  obtain ⟨at32, -, h⟩ := bind_eq_ok.mp h
  obtain ⟨reserved, -, h⟩ := bind_eq_ok.mp h
  obtain ⟨_, hcheck, h⟩ := bind_eq_ok.mp h
  obtain ⟨stop, hstop, h⟩ := bind_eq_ok.mp h
  obtain ⟨pageSha256, -, h⟩ := bind_eq_ok.mp h
  cases h
  have hcheck := refuseIf_eq_ok.mp hcheck
  simp only [not_or] at hcheck
  obtain ⟨-, hraw, hstored, hoffset, hbehind, -⟩ := hcheck
  obtain rfl := addOrPanic_eq_ok hstop
  exact ⟨Nat.not_le.mp (refuseIf_eq_ok.mp hprevious),
    ⟨Nat.not_lt.mp hoffset, Nat.pos_of_ne_zero hstored, (not_endsBehind hbehind).2,
      not_not.mp hraw⟩, rfl⟩

/-- The loop over the entries never panics while the index holds all of them. -/
theorem safe_decodeEntries {todo : ℕ} (hindex : (i + todo) * 64 ≤ indexBytes.length)
    (hword : indexBytes.length < wordSize) :
    Safe (decodeEntries header indexBytes fullLength todo i previous) := by
  induction todo generalizing i previous with
  | zero => exact safe_pure _
  | succ todo ih =>
    rw [decodeEntries]
    refine (safe_decodeEntry (by omega) hword).bind fun entry _ => ?_
    exact (ih (by omega)).bind fun entries _ => safe_pure _

/-- The accepted entries ascend, and each payload lies inside the pack. -/
theorem decodeEntries_inside {todo : ℕ} {entries : List (PackIndexEntry × ℕ × ℕ)}
    (h : decodeEntries header indexBytes fullLength todo i previous = .ok entries) :
    entries.length = todo ∧ (entries.map fun entry => entry.1.pageNumber).Pairwise (· < ·) ∧
      (∀ entry ∈ entries, previous < entry.1.pageNumber ∧ entry.1.Inside header fullLength) ∧
      entries.map Prod.snd = (entries.map Prod.fst).map PackIndexEntry.range := by
  induction todo generalizing i previous entries with
  | zero =>
    cases h
    exact ⟨rfl, List.Pairwise.nil, fun _ h => absurd h List.not_mem_nil, rfl⟩
  | succ todo ih =>
    rw [decodeEntries] at h
    obtain ⟨entry, hentry, h⟩ := bind_eq_ok.mp h
    obtain ⟨rest, hrest, h⟩ := bind_eq_ok.mp h
    cases h
    obtain ⟨hprevious, hinside, hrange⟩ := decodeEntry_inside hentry
    obtain ⟨hlength, hpairwise, hall, hranges⟩ := ih hrest
    refine ⟨by rw [List.length_cons, hlength], ?_, ?_, ?_⟩
    · rw [List.map_cons, List.pairwise_cons]
      refine ⟨fun n hn => ?_, hpairwise⟩
      obtain ⟨next, hnext, rfl⟩ := List.mem_map.mp hn
      exact (hall next hnext).1
    · refine List.forall_mem_cons.mpr ⟨⟨hprevious, hinside⟩, fun next hnext => ?_⟩
      exact ⟨hprevious.trans (hall next hnext).1, (hall next hnext).2⟩
    · rw [List.map_cons, List.map_cons, List.map_cons, hrange, hranges]

end Entries

section Disjoint

/-- Ranges that do not overlap a neighbour lie apart from each other. -/
theorem pairwise_of_not_overlapping {ranges : List (ℕ × ℕ)} (h : overlapping ranges = false)
    (hnonempty : ∀ p ∈ ranges, p.1 < p.2) : ranges.Pairwise fun p q => p.2 ≤ q.1 := by
  induction ranges with
  | nil => exact List.Pairwise.nil
  | cons p rest ih =>
    cases rest with
    | nil => exact List.pairwise_singleton _ _
    | cons q rest =>
      simp only [overlapping, Bool.or_eq_false_iff, decide_eq_false_iff_not, Nat.not_lt,
        gt_iff_lt] at h
      obtain ⟨hp, hq⟩ := List.forall_mem_cons.mp hnonempty
      have hrest := ih h.2 hq
      refine List.pairwise_cons.mpr ⟨List.forall_mem_cons.mpr ⟨h.1, fun r hr => ?_⟩, hrest⟩
      have hqr := (List.pairwise_cons.mp hrest).1 r hr
      have hq := hq q List.mem_cons_self
      omega

/-- Two ranges have no position in common, since one of them ends before the other starts. -/
def Apart (p q : ℕ × ℕ) : Prop := p.2 ≤ q.1 ∨ q.2 ≤ p.1

/-- The check on neighbours of the sorted ranges is enough for any two ranges to be apart. -/
theorem apart_of_not_overlapping {ranges : List (ℕ × ℕ)}
    (h : overlapping (ranges.insertionSort RangeLe) = false)
    (hnonempty : ∀ p ∈ ranges, p.1 < p.2) : ranges.Pairwise Apart := by
  have hperm := List.perm_insertionSort RangeLe ranges
  have hsorted := pairwise_of_not_overlapping h fun p hp => hnonempty p (hperm.mem_iff.mp hp)
  have hapart : (ranges.insertionSort RangeLe).Pairwise Apart := hsorted.imp .inl
  exact (hperm.pairwise_iff fun hpq => hpq.symm).mp hapart

end Disjoint

section Index

variable {header indexBytes bytes : Bytes} {fullLength : ℕ} {index : PackIndex}

/-- What an accepted index says about the pack: pages by ascending positive numbers, with
payloads behind header and index, inside the declared length and apart from each other. -/
structure PackIndex.WellFormed (header : PackHeader) (fullLength : ℕ) (index : PackIndex) :
    Prop where
  consistent : header.Consistent fullLength
  count : index.entries.length = header.entryCount
  ascending : (index.entries.map PackIndexEntry.pageNumber).Pairwise (· < ·)
  positive : ∀ entry ∈ index.entries, 0 < entry.pageNumber
  inside : ∀ entry ∈ index.entries, entry.Inside header fullLength
  apart : index.entries.Pairwise fun a b => Apart a.range b.range

/-- Decoding an index from its parts never panics. -/
theorem safe_decodePackIndexParts (hword : indexBytes.length < wordSize) :
    Safe (decodePackIndexParts header indexBytes fullLength) := by
  unfold decodePackIndexParts
  refine (safe_decodePackHeader header fullLength).bind fun result _ => ?_
  refine (safe_orRefuse _).bind fun length hlength => ?_
  obtain ⟨-, rfl⟩ := checkedMul_eq_some.mp (orRefuse_eq_ok.mp hlength)
  refine (safe_refuseIf _).bind fun _ hindex => ?_
  have hindex := not_not.mp (refuseIf_eq_ok.mp hindex)
  refine (safe_decodeEntries (by omega) hword).bind fun entries _ => ?_
  exact (safe_refuseIf _).bind fun _ _ => safe_pure _

/-- An index that decodes from its parts is well formed under a header that decodes. -/
theorem decodePackIndexParts_wellFormed
    (h : decodePackIndexParts header indexBytes fullLength = .ok index) :
    ∃ result, decodePackHeader header fullLength = .ok result ∧
      index.WellFormed result fullLength := by
  unfold decodePackIndexParts at h
  obtain ⟨result, hresult, h⟩ := bind_eq_ok.mp h
  obtain ⟨length, -, h⟩ := bind_eq_ok.mp h
  obtain ⟨-, -, h⟩ := bind_eq_ok.mp h
  obtain ⟨entries, hentries, h⟩ := bind_eq_ok.mp h
  obtain ⟨_, hoverlap, h⟩ := bind_eq_ok.mp h
  cases h
  obtain ⟨hlength, hascending, hall, hranges⟩ := decodeEntries_inside hentries
  have hoverlap : overlapping ((entries.map Prod.snd).insertionSort RangeLe) = false :=
    Bool.not_eq_true _ ▸ refuseIf_eq_ok.mp hoverlap
  rw [hranges] at hoverlap
  have hinside : ∀ entry ∈ entries.map Prod.fst,
      0 < entry.pageNumber ∧ entry.Inside result fullLength := by
    intro entry hentry
    obtain ⟨pair, hpair, rfl⟩ := List.mem_map.mp hentry
    exact hall pair hpair
  have hapart := apart_of_not_overlapping hoverlap fun p hp => by
    obtain ⟨entry, hentry, rfl⟩ := List.mem_map.mp hp
    exact Nat.lt_add_of_pos_right (hinside entry hentry).2.nonempty
  refine ⟨result, hresult, decodePackHeader_consistent hresult, ?_, ?_,
    fun entry hentry => (hinside entry hentry).1, fun entry hentry => (hinside entry hentry).2, ?_⟩
  · rw [List.length_map, hlength]
  · rw [List.map_map]
    exact hascending
  · exact List.pairwise_map.mp hapart

/-- Decoding the index of a whole pack never panics. -/
theorem safe_decodePackIndex (hword : bytes.length < wordSize) : Safe (decodePackIndex bytes) := by
  unfold decodePackIndex
  refine (safe_orRefuse _).bind fun first hfirst => ?_
  obtain ⟨-, hlength, -⟩ := getRange?_eq_some.mp (orRefuse_eq_ok.mp hfirst)
  refine (safe_decodePackHeader _ _).bind fun header hheader => ?_
  have hconsistent := decodePackHeader_consistent hheader
  have hend := hconsistent.indexEnd
  have hpayload := hconsistent.payloadOffset
  refine (safe_mul (by omega)).bind fun length _ => ?_
  refine (safe_orRefuse _).bind fun stop _ => ?_
  refine (safe_slice (by omega) hlength).bind fun again _ => ?_
  refine (safe_orRefuse _).bind fun indexBytes hindex => ?_
  obtain ⟨hle, hstop, rfl⟩ := getRange?_eq_some.mp (orRefuse_eq_ok.mp hindex)
  refine safe_decodePackIndexParts ?_
  rw [length_slice (by omega)]
  omega

/-- Reading a whole pack reads its header and its index. -/
theorem decodePackIndex_parts (h : decodePackIndex bytes = .ok index) :
    ∃ result, 64 ≤ bytes.length ∧ decodePackHeader (slice bytes 0 64) bytes.length = .ok result ∧
      decodePackIndexParts (slice bytes 0 64)
        (slice bytes result.indexOffset (result.entryCount * 64)) bytes.length = .ok index := by
  unfold decodePackIndex at h
  obtain ⟨first, hfirst, h⟩ := bind_eq_ok.mp h
  obtain ⟨header, hheader, h⟩ := bind_eq_ok.mp h
  obtain ⟨length, hmul, h⟩ := bind_eq_ok.mp h
  obtain ⟨stop, hstop, h⟩ := bind_eq_ok.mp h
  obtain ⟨again, hagain, h⟩ := bind_eq_ok.mp h
  obtain ⟨indexBytes, hindex, h⟩ := bind_eq_ok.mp h
  obtain ⟨-, hlength, rfl⟩ := getRange?_eq_some.mp (orRefuse_eq_ok.mp hfirst)
  obtain rfl := mulOrPanic_eq_ok hmul
  obtain ⟨-, rfl⟩ := checkedAdd_eq_some.mp (orRefuse_eq_ok.mp hstop)
  obtain rfl := sliceOrPanic_eq_ok hagain
  obtain ⟨-, -, rfl⟩ := getRange?_eq_some.mp (orRefuse_eq_ok.mp hindex)
  rw [Nat.add_sub_cancel_left] at h
  exact ⟨header, hlength, hheader, h⟩

/-- An index that decodes from a whole pack is well formed under the header at its start. -/
theorem decodePackIndex_wellFormed (h : decodePackIndex bytes = .ok index) :
    ∃ result, decodePackHeader (slice bytes 0 64) bytes.length = .ok result ∧
      index.WellFormed result bytes.length := by
  obtain ⟨_, _, _, hparts⟩ := decodePackIndex_parts h
  exact decodePackIndexParts_wellFormed hparts

end Index

end PagePack

end Otmp
