import Otmp.Protocol.PagePackSafety

/-!
# Page packs are read back

The encoder fills a buffer of zeros by writes to different places: header, index entries
and payloads. So every write can be read from the result, the rest is zero, and the index
reader finds exactly the pages that were packed.
-/

namespace Otmp

open Foundation Cbor

namespace PagePack

section Writing

variable {digest : Digest} {pageSize payload : ℕ} {bytes : Bytes} {page : ℕ × Bytes}
  {pages : List (ℕ × Bytes)} {i : ℕ}

/-- The writes of one page: the fields of its entry and its bytes. -/
def entryWrites (digest : Digest) (pageSize payload i : ℕ) (page : ℕ × Bytes) :
    List (ℕ × Bytes) :=
  [(64 + 64 * i, beBytes 8 page.1), (64 + 64 * i + 8, beBytes 8 (payload + i * pageSize)),
    (64 + 64 * i + 16, beBytes 4 pageSize), (64 + 64 * i + 20, beBytes 4 pageSize),
    (64 + 64 * i + 32, (digest page.2).val), (payload + i * pageSize, page.2)]

/-- The writes of the pages from the `i`-th on. -/
def pageWrites (digest : Digest) (pageSize payload : ℕ) : List (ℕ × Bytes) → ℕ → List (ℕ × Bytes)
  | [], _ => []
  | page :: pages, i =>
    entryWrites digest pageSize payload i page ++ pageWrites digest pageSize payload pages (i + 1)

/-- The writes of the header, from the magic to the offset of the payload. -/
def headerWrites (pageSize count payload : ℕ) : List (ℕ × Bytes) :=
  [(0, magic), (8, beBytes 2 1), (16, beBytes 4 pageSize), (20, beBytes 4 count),
    (24, beBytes 8 64), (32, beBytes 8 payload)]

/-- One copy after others is one more write, when it stays inside the buffer. -/
theorem copy_bind {f : Bytes → Packing Bytes} {start : ℕ} {ys : Bytes}
    (h : start + ys.length ≤ bytes.length) :
    (copyOrPanic bytes start ys >>= f) = f (overwrite bytes start ys) :=
  ok_bind (copyOrPanic_eq h)

/-- The lengths along a sequence of copies. -/
theorem length_copy {xs : Bytes} (start : ℕ) (ys : Bytes) (hxs : xs.length = bytes.length)
    (h : start + ys.length ≤ bytes.length) : (overwrite xs start ys).length = bytes.length := by
  rw [length_overwrite (by omega), hxs]

/-- Writing one page is the writes of its entry and its bytes, since every range it slices lies
inside the pack. -/
theorem encodeEntry_eq (digest : Digest) (hpage : page.2.length = pageSize)
    (hindex : 64 + 64 * i + 64 ≤ payload)
    (hpayload : payload + i * pageSize + pageSize ≤ bytes.length)
    (hword : bytes.length < wordSize) :
    encodeEntry digest pageSize payload bytes i page =
      .ok (overwriteAll bytes (entryWrites digest pageSize payload i page)) := by
  have hdigest := (digest page.2).property
  have h1 : (overwrite bytes (64 + 64 * i) (beBytes 8 page.1)).length = bytes.length :=
    length_copy _ _ rfl (by rw [length_beBytes]; omega)
  have h2 := length_copy (64 + 64 * i + 8) (beBytes 8 (payload + i * pageSize)) h1
    (by rw [length_beBytes]; omega)
  have h3 := length_copy (64 + 64 * i + 16) (beBytes 4 pageSize) h2
    (by rw [length_beBytes]; omega)
  have h4 := length_copy (64 + 64 * i + 20) (beBytes 4 pageSize) h3
    (by rw [length_beBytes]; omega)
  have h5 := length_copy (64 + 64 * i + 32) (digest page.2).val h4 (by omega)
  unfold encodeEntry
  rw [ok_bind (mulOrPanic_eq (by omega)), ok_bind (addOrPanic_eq (by omega)),
    ok_bind (mulOrPanic_eq (by omega)), ok_bind (addOrPanic_eq (by omega)),
    copy_bind (by rw [length_beBytes]; omega), ok_bind (addOrPanic_eq (by omega)),
    copy_bind (by rw [length_beBytes]; omega), ok_bind (addOrPanic_eq (by omega)),
    copy_bind (by rw [length_beBytes]; omega), ok_bind (addOrPanic_eq (by omega)),
    copy_bind (by rw [length_beBytes]; omega), ok_bind (addOrPanic_eq (by omega)),
    copy_bind (by omega), copyOrPanic_eq (by omega)]
  rfl

/-- Where the writes of a page stand. -/
theorem mem_entryWrites {w : ℕ × Bytes} (hpage : page.2.length = pageSize)
    (h : w ∈ entryWrites digest pageSize payload i page) :
    (64 + 64 * i ≤ w.1 ∧ w.1 + w.2.length ≤ 64 + 64 * i + 24) ∨
      (w.1 = 64 + 64 * i + 32 ∧ w.2.length = 32) ∨
      (w.1 = payload + i * pageSize ∧ w.2.length = pageSize) := by
  simp only [entryWrites, List.mem_cons, List.not_mem_nil, or_false] at h
  rcases h with rfl | rfl | rfl | rfl | rfl | rfl
  · exact .inl ⟨by dsimp only; omega, by simp only [length_beBytes]; omega⟩
  · exact .inl ⟨by dsimp only; omega, by simp only [length_beBytes]; omega⟩
  · exact .inl ⟨by dsimp only; omega, by simp only [length_beBytes]; omega⟩
  · exact .inl ⟨by dsimp only; omega, by simp only [length_beBytes]; omega⟩
  · exact .inr (.inl ⟨rfl, (digest page.2).property⟩)
  · exact .inr (.inr ⟨rfl, hpage⟩)

/-- Every write of the pages is one of a page. -/
theorem mem_pageWrites {w : ℕ × Bytes} (h : w ∈ pageWrites digest pageSize payload pages i) :
    ∃ k page, i ≤ k ∧ k < i + pages.length ∧ page ∈ pages ∧
      w ∈ entryWrites digest pageSize payload k page := by
  induction pages generalizing i with
  | nil => cases h
  | cons page pages ih =>
    rw [pageWrites, List.mem_append] at h
    rw [List.length_cons]
    rcases h with h | h
    · exact ⟨i, page, le_refl i, by omega, List.mem_cons_self, h⟩
    · obtain ⟨k, page', hle, hlt, hmem, hw⟩ := ih h
      exact ⟨k, page', by omega, by omega, List.mem_cons_of_mem _ hmem, hw⟩

/-- The writes of the `j`th page are among the writes of all pages. -/
theorem entryWrites_subset (digest : Digest) (pageSize payload i : ℕ) {j : ℕ}
    (h : j < pages.length) :
    entryWrites digest pageSize payload (i + j) pages[j] ⊆
      pageWrites digest pageSize payload pages i := by
  induction pages generalizing i j with
  | nil => cases h
  | cons page pages ih =>
    rw [pageWrites]
    cases j with
    | zero => exact List.subset_append_left _ _
    | succ j =>
      rw [List.length_cons] at h
      have hrest := ih (i + 1) (j := j) (by omega)
      rw [show i + (j + 1) = i + 1 + j by omega, List.getElem_cons_succ]
      exact List.subset_append_of_subset_right _ hrest

/-- Where the writes of all pages stand, and that the index stands before the payloads. -/
theorem pageWrites_place {w : ℕ × Bytes} (hpages : ∀ page ∈ pages, page.2.length = pageSize)
    (h : w ∈ pageWrites digest pageSize payload pages i) :
    ∃ k, i ≤ k ∧ k < i + pages.length ∧
      ((64 + 64 * k ≤ w.1 ∧ w.1 + w.2.length ≤ 64 + 64 * k + 24) ∨
        (w.1 = 64 + 64 * k + 32 ∧ w.2.length = 32) ∨
        (w.1 = payload + k * pageSize ∧ w.2.length = pageSize)) := by
  obtain ⟨k, page, hle, hlt, hmem, hw⟩ := mem_pageWrites h
  exact ⟨k, hle, hlt, mem_entryWrites (hpages page hmem) hw⟩

/-- The loop over the pages is all their writes, one page after the other. -/
theorem encodeEntries_eq (digest : Digest) (hpages : ∀ page ∈ pages, page.2.length = pageSize)
    (hindex : 64 + 64 * (i + pages.length) ≤ payload)
    (hpayload : payload + (i + pages.length) * pageSize ≤ bytes.length)
    (hword : bytes.length < wordSize) :
    encodeEntries digest pageSize payload pages i bytes =
      .ok (overwriteAll bytes (pageWrites digest pageSize payload pages i)) := by
  induction pages generalizing i bytes with
  | nil => rfl
  | cons page pages ih =>
    obtain ⟨hpage, hpages⟩ := List.forall_mem_cons.mp hpages
    rw [List.length_cons] at hindex hpayload
    have hlast : payload + i * pageSize + pageSize ≤ bytes.length := by
      have hle : (i + 1) * pageSize ≤ (i + (pages.length + 1)) * pageSize :=
        Nat.mul_le_mul_right _ (by omega)
      rw [Nat.succ_mul] at hle
      omega
    have hentry := encodeEntry_eq digest hpage (by omega) hlast hword
    have hlength : (overwriteAll bytes (entryWrites digest pageSize payload i page)).length =
        bytes.length := by
      refine length_overwriteAll fun w hw => ?_
      have hplace := mem_entryWrites hpage hw
      omega
    rw [encodeEntries, hentry, ok_bind rfl, pageWrites, overwriteAll_append]
    refine ih hpages (by omega) ?_ (by omega)
    rw [hlength, show i + 1 + pages.length = i + (pages.length + 1) by omega]
    exact hpayload

/-- The writes of the pages touch different places. -/
theorem pageWrites_apart (hpages : ∀ page ∈ pages, page.2.length = pageSize)
    (hindex : 64 + 64 * (i + pages.length) ≤ payload) :
    (pageWrites digest pageSize payload pages i).Pairwise WritesApart := by
  induction pages generalizing i with
  | nil => exact List.Pairwise.nil
  | cons page pages ih =>
    obtain ⟨hpage, hpages⟩ := List.forall_mem_cons.mp hpages
    rw [List.length_cons] at hindex
    rw [pageWrites, List.pairwise_append]
    refine ⟨?_, ih hpages (by omega), fun v hv w hw => ?_⟩
    · have hdigest := (digest page.2).property
      simp only [entryWrites, List.pairwise_cons, List.forall_mem_cons, WritesApart, ApartFrom,
        length_beBytes, hdigest, hpage, List.not_mem_nil, false_implies, implies_true,
        List.Pairwise.nil, and_true]
      omega
    · have hplace := mem_entryWrites hpage hv
      obtain ⟨k, hle, hlt, hrest⟩ := pageWrites_place hpages hw
      have hmul : (i + 1) * pageSize ≤ k * pageSize := Nat.mul_le_mul_right _ hle
      rw [Nat.succ_mul] at hmul
      unfold WritesApart ApartFrom
      omega

end Writing

section Pack

variable {digest : Digest} {pageSize : ℕ} {pages : Pages} {out : Bytes}

/-- The length of header and index, behind which the payload starts. -/
def payloadOf (count : ℕ) : ℕ := count * 64 + 64

/-- The length of a pack of so many pages of one size. -/
def totalOf (pageSize count : ℕ) : ℕ := count * pageSize + payloadOf count

/-- All writes of a pack, those of the header before those of the pages. -/
def packWrites (digest : Digest) (pageSize : ℕ) (pages : List (ℕ × Bytes)) : List (ℕ × Bytes) :=
  headerWrites pageSize pages.length (payloadOf pages.length) ++
    pageWrites digest pageSize (payloadOf pages.length) pages 0

/-- What the encoder checks of the pages, and that the pack's length fits the word. -/
structure Packable (pageSize : ℕ) (pages : Pages) : Prop where
  nonempty : 0 < pages.entries.length
  isPageSize : IsPageSize pageSize
  positive : ∀ page ∈ pages.entries, 0 < page.1
  lengths : ∀ page ∈ pages.entries, page.2.length = pageSize
  count : pages.entries.length < 4294967296
  total : totalOf pageSize pages.entries.length < wordSize

/-- A write of the header touches the first ten bytes or the bytes from 16 to 40. -/
theorem headerWrites_place {count payload : ℕ} {w : ℕ × Bytes}
    (h : w ∈ headerWrites pageSize count payload) :
    w.1 + w.2.length ≤ 10 ∨ 16 ≤ w.1 ∧ w.1 + w.2.length ≤ 40 := by
  simp only [headerWrites, List.mem_cons, List.not_mem_nil, or_false] at h
  rcases h with rfl | rfl | rfl | rfl | rfl | rfl <;>
    simp only [length_beBytes, magic, List.length_cons, List.length_nil] <;> omega

/-- The writes of the header do not overlap each other. -/
theorem headerWrites_apart {count payload : ℕ} :
    (headerWrites pageSize count payload).Pairwise WritesApart := by
  simp only [headerWrites, List.pairwise_cons, List.forall_mem_cons, WritesApart, ApartFrom,
    length_beBytes, magic, List.length_cons, List.length_nil, List.not_mem_nil, false_implies,
    implies_true, List.Pairwise.nil, and_true]
  omega

/-- All writes lie inside the pack, so that none of them panics. -/
theorem packWrites_inside {w : ℕ × Bytes} (h : Packable pageSize pages)
    (hw : w ∈ packWrites digest pageSize pages.entries) :
    w.1 + w.2.length ≤ totalOf pageSize pages.entries.length := by
  rw [packWrites, List.mem_append] at hw
  unfold totalOf payloadOf
  rcases hw with hw | hw
  · have hplace := headerWrites_place hw
    omega
  · obtain ⟨k, -, hlt, hplace⟩ := pageWrites_place h.lengths hw
    have hmul : (k + 1) * pageSize ≤ pages.entries.length * pageSize :=
      Nat.mul_le_mul_right _ (by omega)
    rw [Nat.succ_mul] at hmul
    unfold payloadOf at hplace
    omega

/-- No two writes of a pack overlap, so their order does not matter to what is read back. -/
theorem packWrites_apart (h : Packable pageSize pages) :
    (packWrites digest pageSize pages.entries).Pairwise WritesApart := by
  rw [packWrites, List.pairwise_append]
  refine ⟨headerWrites_apart, pageWrites_apart h.lengths (by unfold payloadOf; omega),
    fun v hv w hw => ?_⟩
  have hheader := headerWrites_place hv
  obtain ⟨k, -, -, hplace⟩ := pageWrites_place h.lengths hw
  unfold payloadOf at hplace
  unfold WritesApart ApartFrom
  omega

/-- The pack of acceptable pages: zeros, with all writes on top. -/
def packOf (digest : Digest) (pageSize : ℕ) (pages : List (ℕ × Bytes)) : Bytes :=
  overwriteAll (List.replicate (totalOf pageSize pages.length) 0)
    (packWrites digest pageSize pages)

/-- A pack is as long as its header, its index and its pages together. -/
theorem length_packOf (digest : Digest) (h : Packable pageSize pages) :
    (packOf digest pageSize pages.entries).length = totalOf pageSize pages.entries.length := by
  rw [packOf, length_overwriteAll, List.length_replicate]
  intro w hw
  rw [List.length_replicate]
  exact packWrites_inside h hw

/-- The first page has the least number. -/
theorem Pages.positive_iff (hne : pages.entries ≠ []) :
    pages.entries.head?.map Prod.fst ≠ some 0 ↔ ∀ page ∈ pages.entries, 0 < page.1 := by
  have hsorted := pages.sorted
  cases hpages : pages.entries with
  | nil => exact absurd hpages hne
  | cons page rest =>
    rw [hpages] at hsorted
    have hfirst := (List.pairwise_cons.mp hsorted).1
    simp only [List.head?_cons, Option.map_some, ne_eq, Option.some.injEq, List.forall_mem_cons]
    constructor
    · intro hpage
      exact ⟨Nat.pos_of_ne_zero hpage, fun q hq => Nat.zero_lt_of_lt (hfirst q hq)⟩
    · intro hpage
      exact Nat.ne_of_gt hpage.1

/-- The pages that the encoder accepts, and what it makes of them. -/
theorem encodePagePack_eq (digest : Digest) (pageSize : ℕ) (pages : Pages) :
    (Packable pageSize pages ∧
        encodePagePack digest pageSize pages = .ok (packOf digest pageSize pages.entries)) ∨
      ¬ Packable pageSize pages ∧
        ∃ e, encodePagePack digest pageSize pages = .error (.refused e) := by
  unfold encodePagePack
  by_cases hpages : pages.entries = [] ∨ ¬ IsPageSize pageSize ∨
      pages.entries.head?.map Prod.fst = some 0 ∨
      ∃ page ∈ pages.entries, page.2.length ≠ pageSize
  · refine .inr ⟨fun h => ?_, _, refuseIf_bind hpages⟩
    obtain hempty | hsize | hfirst | ⟨page, hpage, hlength⟩ := hpages
    · exact List.length_pos_iff.mp h.nonempty hempty
    · exact hsize h.isPageSize
    · exact (pages.positive_iff (List.length_pos_iff.mp h.nonempty)).mpr h.positive hfirst
    · exact hlength (h.lengths page hpage)
  rw [passed_bind hpages]
  by_cases hcount : 4294967296 ≤ pages.entries.length
  · exact .inr ⟨fun h => hcount.not_gt h.count, _, refuseIf_bind hcount⟩
  rw [passed_bind hcount, checkedMulAdd, if_pos (by unfold wordSize; omega),
    ok_bind (orRefuse_eq_ok.mpr rfl), checkedMulAdd]
  by_cases htotal : totalOf pageSize pages.entries.length < wordSize
  · simp only [not_or, not_not, not_exists, not_and] at hpages
    obtain ⟨hne, hsize, hfirst, hlengths⟩ := hpages
    have hpackable : Packable pageSize pages :=
      ⟨List.length_pos_iff.mpr hne, hsize, (pages.positive_iff hne).mp hfirst, hlengths,
        Nat.not_le.mp hcount, htotal⟩
    refine .inl ⟨hpackable, ?_⟩
    have hfits : pages.entries.length * pageSize + (pages.entries.length * 64 + 64) < wordSize :=
      htotal
    have hpositive := hpackable.nonempty
    have hbig : 104 ≤ totalOf pageSize pages.entries.length := by
      unfold totalOf payloadOf
      omega
    have hmagic : magic.length = 8 := rfl
    have h0 : (List.replicate (totalOf pageSize pages.entries.length) (0 : UInt8)).length =
        totalOf pageSize pages.entries.length := List.length_replicate
    have h1 := length_copy 0 magic rfl (show 0 + magic.length ≤ _ by rw [h0]; omega)
    have h2 := length_copy 8 (beBytes 2 1) h1 (by rw [length_beBytes]; omega)
    have h3 := length_copy 16 (beBytes 4 pageSize) h2 (by rw [length_beBytes]; omega)
    have h4 := length_copy 20 (beBytes 4 pages.entries.length) h3 (by rw [length_beBytes]; omega)
    have h5 := length_copy 24 (beBytes 8 64) h4 (by rw [length_beBytes]; omega)
    rw [if_pos hfits, ok_bind (orRefuse_eq_ok.mpr rfl)]
    change (copyOrPanic (List.replicate (totalOf pageSize pages.entries.length) 0) 0 magic >>= _) =
      _
    rw [copy_bind (by omega), copy_bind (by rw [length_beBytes]; omega),
      copy_bind (by rw [length_beBytes]; omega), copy_bind (by rw [length_beBytes]; omega),
      copy_bind (by rw [length_beBytes]; omega), copy_bind (by rw [length_beBytes]; omega)]
    have hheader : (overwriteAll (List.replicate (totalOf pageSize pages.entries.length) 0)
        (headerWrites pageSize pages.entries.length (payloadOf pages.entries.length))).length =
        totalOf pageSize pages.entries.length := by
      rw [length_overwriteAll, h0]
      intro w hw
      have hplace := headerWrites_place hw
      omega
    have hroom : payloadOf pages.entries.length + (0 + pages.entries.length) * pageSize ≤
        totalOf pageSize pages.entries.length := by
      rw [Nat.zero_add, totalOf, Nat.add_comm]
    have hentries := encodeEntries_eq digest (i := 0) hlengths
      (show _ ≤ payloadOf pages.entries.length by unfold payloadOf; omega)
      (hheader.symm ▸ hroom) (hheader.symm ▸ htotal)
    refine hentries.trans ?_
    rw [packOf, packWrites, overwriteAll_append]
  · have hfits : ¬ pages.entries.length * pageSize + (pages.entries.length * 64 + 64) < wordSize :=
      htotal
    refine .inr ⟨fun h => htotal h.total, invalid "pack size overflow", ?_⟩
    rw [if_neg hfits]
    rfl

/-- Every write of a pack is read back. -/
theorem packOf_reads (digest : Digest) (h : Packable pageSize pages) {w : ℕ × Bytes}
    (hw : w ∈ packWrites digest pageSize pages.entries) :
    slice (packOf digest pageSize pages.entries) w.1 w.2.length = w.2 := by
  refine slice_overwriteAll_of_mem (fun v hv => ?_) (packWrites_apart h) hw
  rw [List.length_replicate]
  exact packWrites_inside h hv

/-- The rest of a pack is zero. -/
theorem packOf_zeros (digest : Digest) (h : Packable pageSize pages) {start count : ℕ}
    (hinside : start + count ≤ totalOf pageSize pages.entries.length)
    (hapart : ∀ w ∈ packWrites digest pageSize pages.entries, ApartFrom start count w) :
    slice (packOf digest pageSize pages.entries) start count = List.replicate count 0 := by
  rw [packOf, slice_overwriteAll_of_apart, slice_replicate _ hinside]
  · intro w hw
    rw [List.length_replicate]
    exact packWrites_inside h hw
  · rwa [List.length_replicate]
  · exact hapart

end Pack

section Reading

variable {pageSize : ℕ} {pages : Pages}

/-- Bytes are read where they were written. -/
theorem number_slice_eq {bytes ys : Bytes} (first count start : ℕ) {n : ℕ}
    (hread : slice bytes (first + start) n = ys) (hys : ys.length = n) (h : start + n ≤ count)
    (hinside : first + count ≤ bytes.length) (hword : bytes.length < wordSize) :
    number n (slice bytes first count) start = .ok ⟨ys, hys⟩ := by
  have hlength : (slice bytes first count).length = count := length_slice hinside
  rw [number_eq (by omega) (by omega)]
  congr 2
  rw [slice_slice h, hread]

/-- A number is read where it was written. -/
theorem number_slice {bytes : Bytes} (first count start : ℕ) {n m : ℕ}
    (hread : slice bytes (first + start) n = beBytes n m) (hm : m < 256 ^ n)
    (h : start + n ≤ count) (hinside : first + count ≤ bytes.length)
    (hword : bytes.length < wordSize) :
    ∃ taken, number n (slice bytes first count) start = .ok taken ∧ beNat taken.val = m :=
  ⟨_, number_slice_eq first count start hread (length_beBytes n m) h hinside hword,
    beNat_beBytes hm⟩

/-- Slicing a slice is slicing the bytes themselves, and no panic happens within its bounds. -/
theorem sliceOrPanic_slice {bytes : Bytes} {first count start stop : ℕ} (hle : start ≤ stop)
    (hstop : stop ≤ count) (hinside : first + count ≤ bytes.length) :
    (sliceOrPanic (slice bytes first count) start stop : Packing Bytes) =
      .ok (slice bytes (first + start) (stop - start)) := by
  have hlength : (slice bytes first count).length = count := length_slice hinside
  rw [sliceOrPanic_eq hle (by omega), slice_slice (by omega)]

/-- The header of a written pack reads back as the header that was written. -/
theorem decodePackHeader_packOf (digest : Digest) (h : Packable pageSize pages) :
    decodePackHeader (slice (packOf digest pageSize pages.entries) 0 64)
        (packOf digest pageSize pages.entries).length =
      .ok ⟨pageSize, pages.entries.length, 64, payloadOf pages.entries.length⟩ := by
  have hlength := length_packOf digest h
  have htotal := h.total
  have hpositive := h.nonempty
  have hcount := h.count
  have hsize := h.isPageSize
  have hbig : 128 ≤ totalOf pageSize pages.entries.length := by
    unfold totalOf payloadOf
    omega
  have hfull : payloadOf pages.entries.length ≤ totalOf pageSize pages.entries.length := by
    unfold totalOf
    omega
  have hmem : ∀ w ∈ headerWrites pageSize pages.entries.length (payloadOf pages.entries.length),
      slice (packOf digest pageSize pages.entries) w.1 w.2.length = w.2 :=
    fun w hw => packOf_reads digest h (List.mem_append_left _ hw)
  have hplace : ∀ w ∈ packWrites digest pageSize pages.entries,
      w.1 + w.2.length ≤ 10 ∨ 16 ≤ w.1 ∧ w.1 + w.2.length ≤ 40 ∨ 64 ≤ w.1 := by
    intro w hw
    rcases List.mem_append.mp hw with hw | hw
    · have hheader := headerWrites_place hw
      omega
    · obtain ⟨k, -, -, hpage⟩ := pageWrites_place h.lengths hw
      unfold payloadOf at hpage
      omega
  set out := packOf digest pageSize pages.entries with hout
  obtain ⟨hmagic, hversion, hsizeBytes, hcountBytes, hindexBytes, hpayloadBytes⟩ :
      slice out 0 8 = magic ∧ slice out 8 2 = beBytes 2 1 ∧ slice out 16 4 = beBytes 4 pageSize ∧
        slice out 20 4 = beBytes 4 pages.entries.length ∧ slice out 24 8 = beBytes 8 64 ∧
        slice out 32 8 = beBytes 8 (payloadOf pages.entries.length) := by
    simpa [headerWrites, magic] using hmem
  have hreserved : slice out 10 6 = List.replicate 6 0 := by
    refine packOf_zeros digest h (by omega) fun w hw => ?_
    have hw := hplace w hw
    unfold ApartFrom
    omega
  have hzeros : slice out 40 24 = List.replicate 24 0 := by
    refine packOf_zeros digest h (by omega) fun w hw => ?_
    have hw := hplace w hw
    unfold ApartFrom
    omega
  have hfirst : (slice out 0 64).length = 64 := length_slice (by omega)
  have hsecond : slice out 8 8 = version := by
    rw [slice_add out 8 2 6, hversion, hreserved]
    decide
  obtain ⟨size, hsizeRead, hsizeVal⟩ := number_slice 0 64 16 hsizeBytes
    (by have := hsize.2.1; omega) (by omega) (by omega) (by omega)
  obtain ⟨number, hcountRead, hcountVal⟩ := number_slice 0 64 20 hcountBytes
    (by omega) (by omega) (by omega) (by omega)
  obtain ⟨index, hindexRead, hindexVal⟩ := number_slice 0 64 24 hindexBytes
    (by omega) (by omega) (by omega) (by omega)
  obtain ⟨payload, hpayloadRead, hpayloadVal⟩ := number_slice 0 64 32
    hpayloadBytes (by unfold wordSize at htotal; omega) (by omega) (by omega) (by omega)
  unfold decodePackHeader
  rw [passed_bind (not_not.mpr hfirst),
    ok_bind (sliceOrPanic_slice (by omega) (by omega) (by omega)), passed_bind (not_not.mpr hmagic),
    ok_bind (sliceOrPanic_slice (by omega) (by omega) (by omega)),
    passed_bind (not_not.mpr hsecond),
    ok_bind (sliceOrPanic_slice (by omega) (by omega) (by omega)), passed_bind (by
      rw [hzeros]
      decide),
    ok_bind hsizeRead, passed_bind (by rw [hsizeVal]; exact not_not.mpr hsize), ok_bind hcountRead,
    ok_bind hindexRead, ok_bind hpayloadRead, hsizeVal, hcountVal, hindexVal, hpayloadVal,
    ok_bind (orRefuse_eq_ok.mpr (checkedMul_eq_some.mpr ⟨by unfold wordSize; omega, rfl⟩)),
    ok_bind (orRefuse_eq_ok.mpr (checkedAdd_eq_some.mpr ⟨by unfold wordSize; omega, rfl⟩)),
    passed_bind]
  · rfl
  · unfold payloadOf at hfull ⊢
    omega

/-- The entry of a page in the index of its pack. -/
def entryOf (digest : Digest) (pageSize payload i : ℕ) (page : ℕ × Bytes) : PackIndexEntry where
  pageNumber := page.1
  offset := payload + i * pageSize
  storedLength := pageSize
  rawLength := pageSize
  codec := .none
  pageSha256 := digest page.2

/-- The index ends before the payloads begin, and the payload of each page ends inside the pack. -/
theorem payload_le_totalOf {count j : ℕ} (hj : j < count) (pageSize : ℕ) :
    64 + count * 64 ≤ totalOf pageSize count ∧
      payloadOf count + j * pageSize + pageSize ≤ totalOf pageSize count := by
  have hmul : (j + 1) * pageSize ≤ count * pageSize := Nat.mul_le_mul_right _ (by omega)
  rw [Nat.succ_mul] at hmul
  unfold totalOf payloadOf
  omega

/-- Between the numbers and the hash of an entry stand eight zeros, on which nothing is written. -/
theorem packOf_entryZeros (digest : Digest) (h : Packable pageSize pages) {j : ℕ}
    (hj : j < pages.entries.length) :
    slice (packOf digest pageSize pages.entries) (64 + 64 * j + 24) 8 = List.replicate 8 0 := by
  have hinside := payload_le_totalOf hj pageSize
  refine packOf_zeros digest h (by omega) fun w hw => ?_
  unfold ApartFrom
  rcases List.mem_append.mp hw with hw | hw
  · have hheader := headerWrites_place hw
    omega
  · obtain ⟨k, -, -, hplace⟩ := pageWrites_place h.lengths hw
    unfold payloadOf at hplace
    omega

/-- The first of the eight zeros is the codec of the entry, which is that of plain pages. -/
theorem indexOrPanic_codec {out : Bytes} {count j : ℕ} (hj : j < count)
    (hzeros : slice out (64 + 64 * j + 24) 8 = List.replicate 8 0) :
    (indexOrPanic (slice out 64 (count * 64)) (j * 64 + 24) : Packing UInt8) = .ok 0 := by
  have hzero : out[64 + (j * 64 + 24)]? = some 0 := by
    have hfirst : (slice out (64 + 64 * j + 24) 8)[0]? = out[64 + 64 * j + 24 + 0]? :=
      getElem?_slice (by decide)
    rw [hzeros, show 64 + 64 * j + 24 + 0 = 64 + (j * 64 + 24) by omega] at hfirst
    exact hfirst.symm
  rw [indexOrPanic, getElem?_slice (by omega), hzero]

/-- The other seven zeros are the reserved bytes of the entry. -/
theorem slice_reserved {out : Bytes} {j : ℕ}
    (hzeros : slice out (64 + 64 * j + 24) 8 = List.replicate 8 0) :
    slice out (64 + (j * 64 + 25)) 7 = List.replicate 7 0 := by
  have hrest : slice (slice out (64 + 64 * j + 24) 8) 1 7 = slice out (64 + 64 * j + 24 + 1) 7 :=
    slice_slice (by decide)
  rw [hzeros, slice_replicate _ (by decide),
    show 64 + 64 * j + 24 + 1 = 64 + (j * 64 + 25) by omega] at hrest
  exact hrest.symm

/-- The entry of the `j`th page reads back from a written pack as the entry that was written. -/
theorem decodeEntry_packOf (digest : Digest) (h : Packable pageSize pages) {j previous : ℕ}
    (hj : j < pages.entries.length) (hprevious : previous < pages.entries[j].1) :
    decodeEntry ⟨pageSize, pages.entries.length, 64, payloadOf pages.entries.length⟩
        (slice (packOf digest pageSize pages.entries) 64 (pages.entries.length * 64))
        (packOf digest pageSize pages.entries).length previous j =
      .ok (entryOf digest pageSize (payloadOf pages.entries.length) j pages.entries[j],
        (entryOf digest pageSize (payloadOf pages.entries.length) j pages.entries[j]).range) := by
  have hlength := length_packOf digest h
  have htotal := h.total
  have hcount := h.count
  have hsize := h.isPageSize
  have hpage := h.lengths _ (List.getElem_mem hj)
  have hpageFits := pages.fits _ (List.getElem_mem hj)
  have hdigest := (digest pages.entries[j].2).property
  obtain ⟨hindexEnd, hend⟩ := payload_le_totalOf hj pageSize
  have hmem : ∀ w ∈ entryWrites digest pageSize (payloadOf pages.entries.length) j pages.entries[j],
      slice (packOf digest pageSize pages.entries) w.1 w.2.length = w.2 := by
    intro w hw
    have hsub := entryWrites_subset digest pageSize (payloadOf pages.entries.length) 0 hj
    rw [Nat.zero_add] at hsub
    exact packOf_reads digest h (List.mem_append_right _ (hsub hw))
  have hzeros := packOf_entryZeros digest h hj
  set out := packOf digest pageSize pages.entries with hout
  simp only [entryWrites, List.forall_mem_cons, length_beBytes, hdigest, hpage, List.not_mem_nil,
    false_implies, implies_true, and_true] at hmem
  obtain ⟨hnumber, hoffset, hstored, hraw, hhash, hpayload⟩ := hmem
  have hplace : ∀ n, 64 + 64 * j + n = 64 + (j * 64 + n) := fun n => by omega
  rw [show 64 + 64 * j = 64 + j * 64 by omega] at hnumber
  rw [hplace] at hoffset hstored hraw hhash
  have hinside : 64 + pages.entries.length * 64 ≤ out.length := by omega
  have hword : out.length < wordSize := by omega
  obtain ⟨number, hnumberRead, hnumberVal⟩ := number_slice 64 (pages.entries.length * 64) _
    hnumber hpageFits (by omega) hinside hword
  obtain ⟨offset, hoffsetRead, hoffsetVal⟩ := number_slice 64 (pages.entries.length * 64) _
    hoffset (show _ < wordSize by omega) (by omega) hinside hword
  obtain ⟨stored, hstoredRead, hstoredVal⟩ := number_slice 64 (pages.entries.length * 64) _
    hstored (by have := hsize.2.1; omega) (by omega) hinside hword
  obtain ⟨raw, hrawRead, hrawVal⟩ := number_slice 64 (pages.entries.length * 64) _
    hraw (by have := hsize.2.1; omega) (by omega) hinside hword
  have hhashRead := number_slice_eq 64 (pages.entries.length * 64) _ hhash hdigest (by omega)
    hinside hword
  have hcodec := indexOrPanic_codec hj hzeros
  have hreserved := slice_reserved hzeros
  unfold decodeEntry
  rw [ok_bind (mulOrPanic_eq (by omega)), ok_bind hnumberRead, ok_bind (addOrPanic_eq (by omega)),
    ok_bind hoffsetRead, ok_bind (addOrPanic_eq (by omega)), ok_bind hstoredRead,
    ok_bind (addOrPanic_eq (by omega)), ok_bind hrawRead, ok_bind (addOrPanic_eq (by omega)),
    ok_bind hcodec]
  have hcodecOf : codecOf 0 = .ok .none := rfl
  have hbehind : ¬ endsBehind (payloadOf pages.entries.length + j * pageSize) pageSize
      out.length := by
    intro hbehind
    have hstop := hbehind _ (checkedAdd_eq_some.mpr ⟨by omega, rfl⟩)
    omega
  rw [ok_bind hcodecOf, hnumberVal, passed_bind (by omega), ok_bind (addOrPanic_eq (by omega)),
    ok_bind (addOrPanic_eq (by omega)),
    ok_bind (sliceOrPanic_slice (by omega) (by omega) (by omega)), hrawVal, hstoredVal, hoffsetVal,
    passed_bind, ok_bind (addOrPanic_eq (by omega)), ok_bind hhashRead]
  · rfl
  · have hpositive := hsize.1
    rw [show j * 64 + 32 - (j * 64 + 25) = 7 by omega, hreserved]
    simp only [not_or]
    refine ⟨by decide, not_not.mpr rfl, by omega, by omega, hbehind, fun hcodec => hcodec.2 rfl⟩

/-- The entries of the pages from the `i`-th on. -/
def entriesOf (digest : Digest) (pageSize payload : ℕ) :
    List (ℕ × Bytes) → ℕ → List PackIndexEntry
  | [], _ => []
  | page :: pages, i =>
    entryOf digest pageSize payload i page :: entriesOf digest pageSize payload pages (i + 1)

/-- The entries of a pack carry the page numbers in the order of the pages. -/
theorem map_pageNumber_entriesOf (digest : Digest) (pageSize payload : ℕ)
    (pages : List (ℕ × Bytes)) (i : ℕ) :
    (entriesOf digest pageSize payload pages i).map PackIndexEntry.pageNumber =
      pages.map Prod.fst := by
  induction pages generalizing i with
  | nil => rfl
  | cons page pages ih => rw [entriesOf, List.map_cons, ih, List.map_cons, entryOf]

/-- Every entry of a pack is the entry of one of its pages. -/
theorem mem_entriesOf {digest : Digest} {payload i : ℕ} {pages : List (ℕ × Bytes)}
    {entry : PackIndexEntry} (h : entry ∈ entriesOf digest pageSize payload pages i) :
    ∃ (j : ℕ) (hj : j < pages.length),
      entry = entryOf digest pageSize payload (i + j) pages[j] := by
  induction pages generalizing i with
  | nil => cases h
  | cons page pages ih =>
    rcases List.mem_cons.mp h with rfl | h
    · exact ⟨0, Nat.succ_pos _, rfl⟩
    · obtain ⟨j, hj, rfl⟩ := ih h
      refine ⟨j + 1, Nat.succ_lt_succ hj, ?_⟩
      rw [List.getElem_cons_succ, show i + 1 + j = i + (j + 1) by omega]

/-- The payloads stand one after the other. -/
theorem ranges_entriesOf (digest : Digest) (pageSize payload : ℕ) (pages : List (ℕ × Bytes))
    (i : ℕ) :
    ((entriesOf digest pageSize payload pages i).map PackIndexEntry.range).Pairwise
      fun p q => p.2 ≤ q.1 := by
  induction pages generalizing i with
  | nil => exact List.Pairwise.nil
  | cons page pages ih =>
    rw [entriesOf, List.map_cons, List.pairwise_cons]
    refine ⟨fun q hq => ?_, ih (i + 1)⟩
    obtain ⟨entry, hentry, rfl⟩ := List.mem_map.mp hq
    obtain ⟨j, _, rfl⟩ := mem_entriesOf hentry
    have hmul : (i + 1) * pageSize ≤ (i + 1 + j) * pageSize :=
      Nat.mul_le_mul_right _ (by omega)
    rw [Nat.succ_mul] at hmul
    simp only [PackIndexEntry.range, entryOf]
    omega

/-- Ranges of which each ends before the next starts pass the overlap check. -/
theorem not_overlapping {ranges : List (ℕ × ℕ)} (h : ranges.Pairwise fun p q => p.2 ≤ q.1) :
    overlapping ranges = false := by
  induction ranges with
  | nil => rfl
  | cons p rest ih =>
    cases rest with
    | nil => rfl
    | cons q rest =>
      obtain ⟨hfirst, hrest⟩ := List.pairwise_cons.mp h
      have hle := hfirst q List.mem_cons_self
      simp only [overlapping, Bool.or_eq_false_iff, decide_eq_false_iff_not, gt_iff_lt, Nat.not_lt]
      exact ⟨hle, ih hrest⟩

/-- The loop over the index of a written pack reads back the entries of all pages. -/
theorem decodeEntries_packOf (digest : Digest) (h : Packable pageSize pages)
    {rest before : List (ℕ × Bytes)} {previous : ℕ} (hpages : pages.entries = before ++ rest)
    (hprevious : ∀ page ∈ rest, previous < page.1) :
    decodeEntries ⟨pageSize, pages.entries.length, 64, payloadOf pages.entries.length⟩
        (slice (packOf digest pageSize pages.entries) 64 (pages.entries.length * 64))
        (packOf digest pageSize pages.entries).length rest.length before.length previous =
      .ok ((entriesOf digest pageSize (payloadOf pages.entries.length) rest before.length).map
        fun entry => (entry, entry.range)) := by
  induction rest generalizing before previous with
  | nil => rfl
  | cons page rest ih =>
    have hj : before.length < pages.entries.length := by
      rw [hpages, List.length_append, List.length_cons]
      omega
    have hpage : pages.entries[before.length] = page := by
      simp [hpages]
    have hsorted := pages.sorted
    rw [hpages, List.pairwise_append] at hsorted
    have hnext := (List.pairwise_cons.mp hsorted.2.1).1
    have hentry := decodeEntry_packOf digest h hj
      (hpage.symm ▸ hprevious page List.mem_cons_self)
    rw [hpage] at hentry
    have hbefore : pages.entries = (before ++ [page]) ++ rest := by
      rw [hpages, List.append_assoc, List.singleton_append]
    have hrest := ih hbefore hnext
    rw [List.length_append, List.length_singleton] at hrest
    rw [List.length_cons, decodeEntries, ok_bind hentry]
    dsimp only
    rw [entryOf, ok_bind hrest]
    rfl

/-- What the index reader makes of a pack. -/
theorem decodePackIndex_packOf (digest : Digest) (h : Packable pageSize pages) :
    decodePackIndex (packOf digest pageSize pages.entries) =
      .ok ⟨pageSize,
        entriesOf digest pageSize (payloadOf pages.entries.length) pages.entries 0⟩ := by
  have hlength := length_packOf digest h
  have htotal := h.total
  have hcount := h.count
  have hsize := h.isPageSize
  have hend : 64 + pages.entries.length * 64 ≤ totalOf pageSize pages.entries.length := by
    unfold totalOf payloadOf
    omega
  have hheader := decodePackHeader_packOf digest h
  have hentries : decodeEntries _ _ _ pages.entries.length 0 0 = .ok _ :=
    decodeEntries_packOf digest h (List.nil_append _).symm h.positive
  have hranges := ranges_entriesOf digest pageSize (payloadOf pages.entries.length) pages.entries 0
  have hsorted : ((entriesOf digest pageSize (payloadOf pages.entries.length) pages.entries 0).map
      PackIndexEntry.range).Pairwise RangeLe := by
    refine List.Pairwise.imp_of_mem ?_ hranges
    intro p q hp _ hpq
    obtain ⟨entry, hentry, rfl⟩ := List.mem_map.mp hp
    obtain ⟨j, _, rfl⟩ := mem_entriesOf hentry
    have hpositive := hsize.1
    simp only [RangeLe, PackIndexEntry.range, entryOf] at hpq ⊢
    omega
  set out := packOf digest pageSize pages.entries with hout
  have hword : 64 + pages.entries.length * 64 < wordSize := by omega
  unfold decodePackIndex
  rw [ok_bind (orRefuse_eq_ok.mpr (getRange?_eq_some.mpr ⟨by omega, by omega, rfl⟩)),
    ok_bind hheader, ok_bind (mulOrPanic_eq (by dsimp only; omega)),
    ok_bind (orRefuse_eq_ok.mpr (checkedAdd_eq_some.mpr ⟨hword, rfl⟩)),
    ok_bind (sliceOrPanic_eq (by omega) (by omega)),
    ok_bind (orRefuse_eq_ok.mpr (getRange?_eq_some.mpr
      ⟨Nat.le_add_right _ _, show 64 + pages.entries.length * 64 ≤ _ by omega, rfl⟩))]
  unfold decodePackIndexParts
  rw [ok_bind hheader,
    ok_bind (orRefuse_eq_ok.mpr (checkedMul_eq_some.mpr ⟨by dsimp only; omega, rfl⟩)),
    passed_bind (not_not.mpr (by rw [Nat.add_sub_cancel_left]; exact length_slice (by omega)))]
  dsimp only
  rw [Nat.add_sub_cancel_left, ok_bind hentries, List.map_map, List.map_map]
  have hoverlap : ¬ overlapping (List.insertionSort RangeLe
      ((entriesOf digest pageSize (payloadOf pages.entries.length) pages.entries 0).map
        PackIndexEntry.range)) = true := by
    rw [hsorted.insertionSort_eq, not_overlapping hranges]
    decide
  refine (passed_bind hoverlap).trans ?_
  change Except.ok (PackIndex.mk pageSize (List.map id _)) = _
  rw [List.map_id]
  rfl

end Reading

section Packs

variable {digest : Digest} {pageSize : ℕ} {pages : Pages} {out : Bytes}

/-- Pages that can be packed are packed. -/
theorem Packable.encode (digest : Digest) (h : Packable pageSize pages) :
    encodePagePack digest pageSize pages = .ok (packOf digest pageSize pages.entries) := by
  rcases encodePagePack_eq digest pageSize pages with ⟨-, heq⟩ | ⟨hnot, -⟩
  · exact heq
  · exact absurd h hnot

/-- A pack that the encoder returns comes from packable pages and is the pack of these pages. -/
theorem encodePagePack_eq_ok (h : encodePagePack digest pageSize pages = .ok out) :
    Packable pageSize pages ∧ out = packOf digest pageSize pages.entries := by
  rcases encodePagePack_eq digest pageSize pages with ⟨hpackable, heq⟩ | ⟨-, e, heq⟩
  · exact ⟨hpackable, Except.ok.inj (h.symm.trans heq)⟩
  · cases h.symm.trans heq

/-- The encoder panics on no input: its checks come before each slice and each product. -/
theorem safe_encodePagePack (digest : Digest) (pageSize : ℕ) (pages : Pages) :
    Safe (encodePagePack digest pageSize pages) := by
  rcases encodePagePack_eq digest pageSize pages with ⟨-, heq⟩ | ⟨-, e, heq⟩
  · rw [heq]
    exact safe_ok _
  · rw [heq]
    exact safe_refused e

/-- The payload of an entry of a pack is the page, and its hash is recorded. -/
theorem payload_packOf (digest : Digest) (h : Packable pageSize pages) {entry : PackIndexEntry}
    (hentry : entry ∈ entriesOf digest pageSize (payloadOf pages.entries.length) pages.entries 0) :
    ∃ page, (entry.pageNumber, page) ∈ pages.entries ∧
      entry.offset + entry.storedLength ≤ (packOf digest pageSize pages.entries).length ∧
      slice (packOf digest pageSize pages.entries) entry.offset entry.storedLength = page ∧
      entry.pageSha256 = digest page := by
  obtain ⟨j, hj, rfl⟩ := mem_entriesOf hentry
  have hpage := h.lengths _ (List.getElem_mem hj)
  have hsub := entryWrites_subset digest pageSize (payloadOf pages.entries.length) 0 hj
  have hwrite : (payloadOf pages.entries.length + (0 + j) * pageSize, pages.entries[j].2) ∈
      packWrites digest pageSize pages.entries :=
    List.mem_append_right _ (hsub (by simp [entryWrites]))
  have hinside := packWrites_inside h hwrite
  have hread := packOf_reads digest h hwrite
  dsimp only at hinside hread
  rw [hpage] at hinside hread
  exact ⟨pages.entries[j].2, List.getElem_mem hj, length_packOf digest h ▸ hinside, hread, rfl⟩

/-- What an accepted header and index say: the index is well formed, and no payload touches
the header or the index. -/
def Accepted (header : Bytes) (fullLength : ℕ) (index : PackIndex) : Prop :=
  ∃ result, decodePackHeader header fullLength = .ok result ∧
    index.WellFormed result fullLength ∧ ∀ entry ∈ index.entries,
      Apart (0, 64) entry.range ∧
      Apart (result.indexOffset, result.indexOffset + result.entryCount * 64) entry.range

/-- Well-formed indexes under a header that decodes are the ones that the check accepts. -/
theorem accepted_of_wellFormed {header : Bytes} {fullLength : ℕ} {index : PackIndex}
    (h : ∃ result, decodePackHeader header fullLength = .ok result ∧
      index.WellFormed result fullLength) : Accepted header fullLength index := by
  obtain ⟨result, hresult, hindex⟩ := h
  refine ⟨result, hresult, hindex, fun entry hentry => ?_⟩
  have hbehind := (hindex.inside entry hentry).behind
  have hfirst := hindex.consistent.indexOffset
  have hlast := hindex.consistent.indexEnd
  unfold Apart PackIndexEntry.range
  omega

/-- **Page packs.** Of a pack that the encoder makes, the index reader lists exactly the pages
in ascending order, with their payloads and hashes; whatever the index readers accept, whole or
in parts, lists payloads that lie apart inside the pack; and nothing makes them panic. -/
theorem packs_read_back (digest : Digest) :
    (∀ pageSize pages out, encodePagePack digest pageSize pages = .ok out →
      ∃ index, decodePackIndex out = .ok index ∧
        index.entries.map PackIndexEntry.pageNumber = pages.entries.map Prod.fst ∧
        ∀ entry ∈ index.entries, ∃ page, (entry.pageNumber, page) ∈ pages.entries ∧
          entry.offset + entry.storedLength ≤ out.length ∧
          slice out entry.offset entry.storedLength = page ∧ entry.pageSha256 = digest page) ∧
      (∀ header indexBytes fullLength index,
        decodePackIndexParts header indexBytes fullLength = .ok index →
        Accepted header fullLength index) ∧
      (∀ bytes index, decodePackIndex bytes = .ok index →
        Accepted (slice bytes 0 64) bytes.length index) ∧
      (∀ header fullLength, Safe (decodePackHeader header fullLength)) ∧
      (∀ header indexBytes fullLength, indexBytes.length < wordSize →
        Safe (decodePackIndexParts header indexBytes fullLength)) ∧
      (∀ bytes, bytes.length < wordSize → Safe (decodePackIndex bytes)) ∧
      ∀ pageSize pages, Safe (encodePagePack digest pageSize pages) := by
  refine ⟨fun pageSize pages out h => ?_,
    fun header indexBytes fullLength index h =>
      accepted_of_wellFormed (decodePackIndexParts_wellFormed h),
    fun bytes index h => accepted_of_wellFormed (decodePackIndex_wellFormed h),
    safe_decodePackHeader, fun header indexBytes fullLength => safe_decodePackIndexParts,
    fun bytes => safe_decodePackIndex, safe_encodePagePack digest⟩
  obtain ⟨hpackable, rfl⟩ := encodePagePack_eq_ok h
  exact ⟨_, decodePackIndex_packOf digest hpackable, map_pageNumber_entriesOf _ _ _ _ _,
    fun entry hentry => payload_packOf digest hpackable hentry⟩

/-- A page that repeats one byte, of the smallest size that packs may have. -/
def plainPage (byte : UInt8) : Bytes := List.replicate 512 byte

/-- Three pages that do not follow each other, so that the index has gaps. -/
def samplePages : Pages where
  entries := [(2, plainPage 3), (5, plainPage 4), (7, plainPage 5)]
  sorted := by simp
  fits := by decide

/-- A hash that shows the first byte, so that pages can be told apart. -/
def sampleDigest : Digest := fun bytes => ⟨List.replicate 32 (bytes.headD 0), List.length_replicate⟩

/-- The three pages can be packed. -/
theorem packable_samplePages : Packable 512 samplePages where
  nonempty := by decide
  isPageSize := by decide
  positive := by simp [samplePages]
  lengths := List.forall_mem_cons.mpr ⟨List.length_replicate,
    List.forall_mem_cons.mpr ⟨List.length_replicate,
      List.forall_mem_singleton.mpr List.length_replicate⟩⟩
  count := by decide
  total := by decide

/-- A pack of three pages is read back, with the payload and the hash of each. -/
theorem packs_read_back_three :
    ∃ out index, encodePagePack sampleDigest 512 samplePages = .ok out ∧
      decodePackIndex out = .ok index ∧
      index.entries.map PackIndexEntry.pageNumber = [2, 5, 7] ∧
      ∀ entry ∈ index.entries, ∃ page, (entry.pageNumber, page) ∈ samplePages.entries ∧
        entry.offset + entry.storedLength ≤ out.length ∧
        slice out entry.offset entry.storedLength = page ∧
        entry.pageSha256 = sampleDigest page := by
  have hencode := packable_samplePages.encode sampleDigest
  obtain ⟨index, hindex, hnumbers, hentries⟩ := (packs_read_back sampleDigest).1 _ _ _ hencode
  exact ⟨_, index, hencode, hindex, hnumbers, hentries⟩

end Packs

end PagePack

end Otmp
