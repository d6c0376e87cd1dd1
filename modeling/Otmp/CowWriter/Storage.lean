import Otmp.CowWriter.Overlay

/-!
# Storage calls of the overlay

The SQL engine reads, writes and truncates through these calls. Each one returns
its completion value together with the overlay it leaves behind, since a failed
call still changes the overlay: it marks the candidate as failed, and a failed
`writePages` keeps the pages written before the error.
-/

namespace Otmp.CowWriter

open Foundation

namespace Overlay

/-- Store one page and extend the image to cover it. -/
def insertPage (o : Overlay) (index : ℕ) (page : Page) : Overlay :=
  { o with
    pages := o.pages.insert index page
    length := max o.length (4096 * (index + 1))
    limit_le_length := by
      have := o.limit_le_length
      omega }

/-- The page write behind `writePage`. Page indices of the engine start at one. -/
def writePageInner (o : Overlay) (pageIdx : ℕ) (buffer : Bytes) :
    Except LimboError ℕ × Overlay :=
  if h : buffer.length ≠ 4096 ∨ pageIdx = 0 then
    (.error (.invalidArgument "expected 4 KiB page"), o)
  else if 4096 * pageIdx > usizeMax then
    (.error .integerOverflow, o)
  else
    (.ok 4096, o.insertPage (pageIdx - 1) ⟨buffer, by tauto⟩)

/-- Record a failed call in the sticky mark, which is never taken back and refuses the freeze. -/
def capture : Except LimboError ℕ × Overlay → Except LimboError ℕ × Overlay
  | (.error e, o) => (.error e, { o with failed := true })
  | (.ok n, o) => (.ok n, o)

/-- `write_page`: write one page of the candidate, with the failure recorded in the sticky mark. -/
def writePage (o : Overlay) (pageIdx : ℕ) (buffer : Bytes) : Except LimboError ℕ × Overlay :=
  capture (o.writePageInner pageIdx buffer)

/-- The write loop of `writePages`: the buffer at position `index` goes to page
`first + index`, and the first error stops the loop. -/
def writePagesLoop (o : Overlay) (first index : ℕ) : List Bytes → Except LimboError ℕ × Overlay
  | [] => (.ok 0, o)
  | buffer :: buffers =>
    if first + index > usizeMax then
      (.error .integerOverflow, o)
    else
      match o.writePage (first + index) buffer with
      | (.error e, o') => (.error e, o')
      | (.ok _, o') => writePagesLoop o' first (index + 1) buffers

/-- The write behind `writePages`. The completion count is converted only after all
pages have been written. -/
def writePagesInner (o : Overlay) (first pageSize : ℕ) (buffers : List Bytes) :
    Except LimboError ℕ × Overlay :=
  if pageSize ≠ 4096 then
    (.error (.invalidArgument "expected 4 KiB page"), o)
  else if 4096 * buffers.length > usizeMax then
    (.error .integerOverflow, o)
  else
    match o.writePagesLoop first 0 buffers with
    | (.error e, o') => (.error e, o')
    | (.ok _, o') =>
      if 4096 * buffers.length > i32Max then
        (.error .integerOverflow, o')
      else
        (.ok (4096 * buffers.length), o')

/-- `write_pages`: write consecutive pages of one size, the first failure ending the call. -/
def writePages (o : Overlay) (first pageSize : ℕ) (buffers : List Bytes) :
    Except LimboError ℕ × Overlay :=
  capture (o.writePagesInner first pageSize buffers)

/-- Read into a buffer; the byte count has to fit the completion. -/
def read (o : Overlay) (offset : ℕ) (buffer : Bytes) : Except LimboError (ℕ × Bytes) :=
  let result := o.readAt offset buffer
  if result.1 > i32Max then .error .integerOverflow else .ok result

/-- The page read behind `readPage`. -/
def readPageInner (o : Overlay) (pageIdx : ℕ) (buffer : Bytes) :
    Except LimboError (ℕ × Bytes) :=
  if pageIdx = 0 ∨ 4096 * (pageIdx - 1) > usizeMax then
    .error .integerOverflow
  else
    o.read (4096 * (pageIdx - 1)) buffer

/-- Read one page; only the completion count and the sticky mark are kept here. -/
def readPage (o : Overlay) (pageIdx : ℕ) (buffer : Bytes) : Except LimboError ℕ × Overlay :=
  capture ((o.readPageInner pageIdx buffer).map Prod.fst, o)

/-- `read_header`: read from the start of the candidate into the buffer. -/
def readHeader (o : Overlay) (buffer : Bytes) : Except LimboError ℕ × Overlay :=
  capture ((o.read 0 buffer).map Prod.fst, o)

/-- The last page of a cut image: what the overlay shows, cleared from the cut on. -/
def cutPage (o : Overlay) (len : ℕ) : Page :=
  ⟨overwrite (o.readAt (4096 * (len / 4096)) (List.replicate 4096 0)).2 (len % 4096)
      (List.replicate (4096 - len % 4096) 0), by
    have hread := o.length_readAt (4096 * (len / 4096)) (List.replicate 4096 0)
    rw [List.length_replicate] at hread
    rw [length_overwrite (by rw [List.length_replicate]; omega), hread]⟩

/-- The pages that survive a cut to `len` bytes. An unaligned cut stores the partial
last page first. -/
def cutPages (o : Overlay) (len : ℕ) : Std.ExtTreeMap ℕ Page compare :=
  (if len % 4096 ≠ 0 then o.pages.insert (len / 4096) (o.cutPage len) else o.pages).filter
    fun index _ => index < (len + 4095) / 4096

/-- Set the length of the image. A cut drops the pages and the part of the parent
behind it; a later extension must not show them again. -/
def truncate (o : Overlay) (len : ℕ) : Except LimboError ℕ × Overlay :=
  if h : len < o.length then
    capture (.ok 0,
      { o with
        pages := o.cutPages len
        parentLimit := min o.parentLimit len
        length := len
        limit_le_parent := by
          have := o.limit_le_parent
          omega
        limit_le_length := by omega })
  else
    capture (.ok 0,
      { o with
        length := len
        limit_le_length := by
          have := o.limit_le_length
          omega })

/-- `sync`: flush the image; there is nothing to flush, as all of it is in memory. -/
def sync (o : Overlay) : Except LimboError ℕ × Overlay := capture (.ok 0, o)

/-- Reading the overlay's content depends on its parent, its visible prefix and its pages. -/
theorem byteAt_congr {o o' : Overlay} {pos : ℕ} (hparent : o'.parent = o.parent)
    (hlimit : o'.parentLimit = o.parentLimit)
    (hpages : o'.pages[pos / 4096]? = o.pages[pos / 4096]?) : o'.byteAt pos = o.byteAt pos := by
  rw [byteAt, byteAt, hparent, hlimit, hpages]

/-- A stored page covers its own positions and no others. -/
theorem byteAt_insertPage (o : Overlay) (index : ℕ) (page : Page) (pos : ℕ) :
    (o.insertPage index page).byteAt pos =
      if 4096 * index ≤ pos ∧ pos < 4096 * index + 4096 then
        page.val.getD (pos - 4096 * index) 0
      else
        o.byteAt pos := by
  by_cases hpage : pos / 4096 = index
  · rw [if_pos (by omega), byteAt]
    simp only [insertPage, hpage, Std.ExtTreeMap.getElem?_insert_self]
    congr 1
    omega
  · rw [if_neg (by omega)]
    refine @byteAt_congr o (o.insertPage index page) pos rfl rfl ?_
    simp only [insertPage, Std.ExtTreeMap.getElem?_insert, compare_eq_iff_eq]
    rw [if_neg (by omega)]

/-- The partial page stored by a cut shows the old content below the cut and zeros above it. -/
theorem getD_cutPage {o : Overlay} {len i : ℕ} (hlen : len < o.length) :
    (o.cutPage len).val.getD i 0 =
      if i < len % 4096 then o.byteAt (4096 * (len / 4096) + i) else 0 := by
  have hread := o.length_readAt (4096 * (len / 4096)) (List.replicate 4096 0)
  rw [List.length_replicate] at hread
  simp only [cutPage]
  rw [getD_overwrite (by rw [List.length_replicate]; omega), List.length_replicate, getD_readAt,
    List.length_replicate]
  by_cases hi : i < len % 4096
  · rw [if_pos hi, if_neg (by omega), if_pos (by omega)]
  · rw [if_neg hi]
    by_cases hend : i < 4096
    · rw [if_pos (by omega), List.getD_eq_getElem?_getD, List.getElem?_replicate]
      split <;> rfl
    · rw [if_neg (by omega), if_neg (by omega)]

/-- A cut keeps the content below it and leaves zeros above it, at every position. -/
theorem byteAt_truncate_of_lt {o : Overlay} {len : ℕ} (hlen : len < o.length) (pos : ℕ) :
    (o.truncate len).2.byteAt pos = if pos < len then o.byteAt pos else 0 := by
  simp only [truncate, dif_pos hlen, capture, byteAt, cutPages, Std.ExtTreeMap.getElem?_filter']
  by_cases hlast : len % 4096 ≠ 0 ∧ pos / 4096 = len / 4096
  · rw [if_pos hlast.1, hlast.2, Std.ExtTreeMap.getElem?_insert_self, Option.filter_some,
      if_pos (by simpa using (by omega : len / 4096 < (len + 4095) / 4096))]
    simp only [getD_cutPage hlen]
    by_cases hpos : pos < len
    · rw [if_pos (by omega), if_pos hpos, byteAt]
      have hsame : 4096 * (len / 4096) + pos % 4096 = pos := by omega
      rw [hsame, hlast.2]
    · rw [if_neg (by omega), if_neg hpos]
  · have hother : (if len % 4096 ≠ 0 then o.pages.insert (len / 4096) (o.cutPage len)
        else o.pages)[pos / 4096]? = o.pages[pos / 4096]? := by
      split
      · rename_i hcut
        rw [Std.ExtTreeMap.getElem?_insert, if_neg]
        rw [compare_eq_iff_eq]
        exact fun heq => hlast ⟨hcut, heq.symm⟩
      · rfl
    rw [hother]
    by_cases hpos : pos < len
    · have hkeep : decide (pos / 4096 < (len + 4095) / 4096) = true := by
        simpa using (by omega : pos / 4096 < (len + 4095) / 4096)
      rw [if_pos hpos]
      cases hfound : o.pages[pos / 4096]? with
      | none =>
        simp only [Option.filter_none]
        by_cases hvisible : pos < o.parentLimit
        · rw [if_pos (by omega), if_pos hvisible]
        · rw [if_neg (by omega), if_neg hvisible]
      | some page => simp only [Option.filter_some, hkeep, if_true]
    · have hdrop : decide (pos / 4096 < (len + 4095) / 4096) = false := by
        simpa using (by omega : (len + 4095) / 4096 ≤ pos / 4096)
      rw [if_neg hpos]
      cases o.pages[pos / 4096]? with
      | none =>
        simp only [Option.filter_none]
        rw [if_neg (by omega)]
      | some page =>
        simp only [Option.filter_some, hdrop, Bool.false_eq_true, if_false]
        rw [if_neg (by omega)]

end Overlay

end Otmp.CowWriter
