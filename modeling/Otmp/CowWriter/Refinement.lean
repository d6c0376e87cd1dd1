import Otmp.Foundation.Run
import Otmp.CowWriter.Freeze

/-!
# The overlay refines a flat byte array

The purpose of the overlay is to behave like a plain array of bytes that grows
with zeros. The array has no parent, no page map and no visible prefix. A run of
successful storage calls keeps the two in step, reads agree at every offset, and
a frozen overlay materializes to the array.
-/

namespace Otmp.CowWriter

open Foundation

/-- A storage call of the SQL engine, with its arguments. -/
inductive Call where
  | readHeader (buffer : Bytes)
  | readPage (pageIdx : ℕ) (buffer : Bytes)
  | writePage (pageIdx : ℕ) (buffer : Bytes)
  | writePages (first pageSize : ℕ) (buffers : List Bytes)
  | sync
  | truncate (len : ℕ)

/-- Dispatch a storage call to the overlay, and keep the overlay also when the call fails. -/
def Overlay.call (o : Overlay) : Call → Except LimboError ℕ × Overlay
  | .readHeader buffer => o.readHeader buffer
  | .readPage pageIdx buffer => o.readPage pageIdx buffer
  | .writePage pageIdx buffer => o.writePage pageIdx buffer
  | .writePages first pageSize buffers => o.writePages first pageSize buffers
  | .sync => o.sync
  | .truncate len => o.truncate len

/-- A successful storage call; a failed one ends the run, as the database gives up after it. -/
def Overlay.step (o : Overlay) (c : Call) : Except LimboError Overlay :=
  match o.call c with
  | (.error e, _) => .error e
  | (.ok _, o') => .ok o'

/-- A change of length always succeeds, also when it extends the image. -/
theorem Overlay.step_truncate (o : Overlay) (len : ℕ) :
    o.step (.truncate len) = .ok (o.truncate len).2 := by
  simp only [Overlay.step, Overlay.call, Overlay.truncate]
  by_cases hcut : len < o.length
  · rw [dif_pos hcut]
    rfl
  · rw [dif_neg hcut]
    rfl

/-- A write of one whole page at an index in range succeeds. -/
theorem Overlay.step_writePage (o : Overlay) {index : ℕ} (page : Page)
    (hindex : 4096 * (index + 1) ≤ usizeMax) :
    o.step (.writePage (index + 1) page.val) = .ok (o.insertPage index page) := by
  simp only [Overlay.step, Overlay.call, Overlay.writePage, Overlay.writePageInner]
  rw [dif_neg (not_or.mpr ⟨not_not.mpr page.property, Nat.succ_ne_zero index⟩),
    if_neg (Nat.not_lt.mpr hindex)]
  rfl

namespace Flat

/-- Extend the array to hold a page, then put the page there. -/
def writePage (a : Bytes) (pageIdx : ℕ) (buffer : Bytes) : Bytes :=
  overwrite (resize a (max a.length (4096 * pageIdx)) 0) (4096 * (pageIdx - 1)) buffer

/-- Write consecutive pages of a flat file, each as if it were written alone. -/
def writePages (a : Bytes) (first : ℕ) : List Bytes → Bytes
  | [] => a
  | buffer :: buffers => writePages (writePage a first buffer) (first + 1) buffers

/-- Cut the flat file at a length, or extend it with zeros up to that length. -/
def truncate (a : Bytes) (len : ℕ) : Bytes := resize a len 0

/-- A change of length gives the requested length. -/
theorem length_truncate (a : Bytes) (len : ℕ) : (truncate a len).length = len :=
  length_resize a len 0

/-- Read into a buffer, clearing what the array does not cover. -/
def readAt (a : Bytes) (offset : ℕ) (bytes : Bytes) : ℕ × Bytes :=
  (min bytes.length (a.length - offset), resize (slice a offset bytes.length) bytes.length 0)

/-- The effect of a storage call on the array. -/
def step (a : Bytes) : Call → Bytes
  | .readHeader _ => a
  | .readPage _ _ => a
  | .writePage pageIdx buffer => writePage a pageIdx buffer
  | .writePages first _ buffers => writePages a first buffers
  | .sync => a
  | .truncate len => truncate a len

end Flat

/-- An unfailed overlay over `parent` that shows the bytes of the array `a`, and zeros
behind its end. -/
structure Represents (parent : Bytes) (o : Overlay) (a : Bytes) : Prop where
  parent_eq : o.parent = parent
  not_failed : o.failed = false
  length_eq : a.length = o.length
  byte_eq : ∀ pos, o.byteAt pos = a.getD pos 0

namespace Represents

variable {parent : Bytes} {o : Overlay} {a : Bytes}

/-- A fresh overlay represents its parent, the flat file that the calls start from. -/
theorem init (parent : Bytes) : Represents parent (Overlay.new parent) parent where
  parent_eq := rfl
  not_failed := rfl
  length_eq := rfl
  byte_eq := by
    intro pos
    have hpages : (Overlay.new parent).pages[pos / 4096]? = none := Std.ExtTreeMap.getElem?_empty
    rw [Overlay.byteAt, hpages]
    change (if pos < parent.length then parent.getD pos 0 else 0) = parent.getD pos 0
    by_cases hpos : pos < parent.length
    · rw [if_pos hpos]
    · rw [if_neg hpos, List.getD_eq_default _ _ (by omega)]

/-- Storing a page keeps the overlay in step with the array. -/
theorem insertPage (h : Represents parent o a) (index : ℕ) (page : Page) :
    Represents parent (o.insertPage index page) (Flat.writePage a (index + 1) page.val) := by
  have hpage : page.val.length = 4096 := page.property
  have hlength := h.length_eq
  have hroom : 4096 * index + page.val.length ≤
      (resize a (max a.length (4096 * (index + 1))) 0).length := by
    rw [length_resize]
    omega
  refine ⟨h.parent_eq, h.not_failed, ?_, ?_⟩
  · rw [Flat.writePage, Nat.add_sub_cancel, length_overwrite hroom, length_resize, hlength]
    rfl
  · intro pos
    rw [Overlay.byteAt_insertPage, Flat.writePage, Nat.add_sub_cancel, getD_overwrite hroom, hpage,
      getD_resize, h.byte_eq]
    split
    · rfl
    · split
      · rfl
      · rw [List.getD_eq_default _ _ (by omega)]

/-- A successful page write keeps the overlay in step with the array. -/
theorem writePage (h : Represents parent o a) {pageIdx n : ℕ} {buffer : Bytes} {o' : Overlay}
    (hok : o.writePage pageIdx buffer = (.ok n, o')) :
    Represents parent o' (Flat.writePage a pageIdx buffer) := by
  simp only [Overlay.writePage, Overlay.writePageInner] at hok
  split at hok
  · cases hok
  · rename_i hvalid
    split at hok
    · cases hok
    · obtain ⟨hbuffer, hpos⟩ := not_or.mp hvalid
      have hidx : pageIdx - 1 + 1 = pageIdx := by omega
      have hnext := h.insertPage (pageIdx - 1) ⟨buffer, not_not.mp hbuffer⟩
      rw [hidx] at hnext
      cases hok
      exact hnext

/-- A successful write loop keeps the overlay in step with the array. -/
theorem writePagesLoop (h : Represents parent o a) {first index n : ℕ} {buffers : List Bytes}
    {o' : Overlay} (hok : o.writePagesLoop first index buffers = (.ok n, o')) :
    Represents parent o' (Flat.writePages a (first + index) buffers) := by
  induction buffers generalizing o a index with
  | nil =>
    cases hok
    exact h
  | cons buffer buffers ih =>
    rw [Overlay.writePagesLoop] at hok
    split at hok
    · cases hok
    · split at hok
      · cases hok
      · rename_i m next hwrite
        exact ih (h.writePage hwrite) hok

/-- A successful write of consecutive pages keeps the overlay in step with the array. -/
theorem writePages (h : Represents parent o a) {first pageSize n : ℕ} {buffers : List Bytes}
    {o' : Overlay} (hok : o.writePages first pageSize buffers = (.ok n, o')) :
    Represents parent o' (Flat.writePages a first buffers) := by
  simp only [Overlay.writePages, Overlay.writePagesInner] at hok
  split at hok
  · cases hok
  · split at hok
    · cases hok
    · split at hok
      · cases hok
      · rename_i m next hloop
        have hnext := h.writePagesLoop hloop
        split at hok
        · cases hok
        · cases hok
          exact hnext

/-- A change of length keeps the overlay in step with the array. -/
theorem truncate (h : Represents parent o a) (len : ℕ) :
    Represents parent (o.truncate len).2 (Flat.truncate a len) := by
  have hlength := h.length_eq
  by_cases hcut : len < o.length
  · have hbyte := Overlay.byteAt_truncate_of_lt hcut
    refine ⟨?_, ?_, ?_, ?_⟩
    · simp only [Overlay.truncate, dif_pos hcut, Overlay.capture, h.parent_eq]
    · simp only [Overlay.truncate, dif_pos hcut, Overlay.capture, h.not_failed]
    · simp only [Overlay.truncate, dif_pos hcut, Overlay.capture, Flat.truncate, length_resize]
    · intro pos
      rw [hbyte pos, Flat.truncate, getD_resize, h.byte_eq]
  · simp only [Overlay.truncate, dif_neg hcut, Overlay.capture, Flat.truncate]
    refine ⟨h.parent_eq, h.not_failed, length_resize _ _ _, ?_⟩
    intro pos
    rw [getD_resize]
    have hsame := h.byte_eq pos
    split
    · exact hsame
    · rw [List.getD_eq_default _ _ (by omega)] at hsame
      exact hsame

/-- A capture that succeeds leaves the represented file as it was, since it only adds what is read.
-/
private theorem of_capture_ok {r : Except LimboError ℕ} {n : ℕ} {o' : Overlay}
    (h : Represents parent o a) (hok : Overlay.capture (r, o) = (.ok n, o')) :
    Represents parent o' a := by
  cases r with
  | error e => cases hok
  | ok m =>
    cases hok
    exact h

/-- Every successful storage call keeps the overlay in step with the array. -/
theorem step (h : Represents parent o a) {c : Call} {o' : Overlay} (hok : o.step c = .ok o') :
    Represents parent o' (Flat.step a c) := by
  have hcall : ∃ n, o.call c = (.ok n, o') := by
    unfold Overlay.step at hok
    split at hok
    · cases hok
    · rename_i n next hcall
      cases hok
      exact ⟨n, hcall⟩
  obtain ⟨n, hcall⟩ := hcall
  cases c with
  | readHeader buffer => exact of_capture_ok h hcall
  | readPage pageIdx buffer => exact of_capture_ok h hcall
  | writePage pageIdx buffer => exact h.writePage hcall
  | writePages first pageSize buffers => exact h.writePages hcall
  | sync => exact of_capture_ok (r := .ok 0) h hcall
  | truncate len =>
    have hnext := h.truncate len
    rw [show o.truncate len = (.ok n, o') from hcall] at hnext
    exact hnext

/-- Every successful run of storage calls keeps the overlay in step with the array. -/
theorem run {calls : List Call} {o' : Overlay}
    (hrun : runAll Overlay.step (Overlay.new parent) calls = .ok o') :
    Represents parent o' (calls.foldl Flat.step parent) :=
  runAll_simulation (fun h hok => h.step hok) (init parent) hrun

/-- Reads of the overlay are reads of the array. -/
theorem readAt_eq (h : Represents parent o a) (offset : ℕ) (bytes : Bytes) :
    o.readAt offset bytes = Flat.readAt a offset bytes := by
  have hlength := h.length_eq
  have hbytes : (o.readAt offset bytes).2 = (Flat.readAt a offset bytes).2 := by
    apply eq_of_getD 0 (by simp only [Overlay.length_readAt, Flat.readAt, length_resize])
    intro i hi
    rw [Overlay.length_readAt] at hi
    simp only [Overlay.getD_readAt, Flat.readAt, getD_resize, getD_slice, if_pos hi, h.byte_eq]
    by_cases hin : i < a.length - offset
    · rw [if_pos (by omega)]
    · rw [if_neg (by omega), List.getD_eq_default _ _ (by omega)]
  have hcount : (o.readAt offset bytes).1 = (Flat.readAt a offset bytes).1 := by
    simp only [Overlay.readAt, Flat.readAt, hlength]
  exact Prod.ext hcount hbytes

/-- A whole page of the overlay is a slice of the array. -/
theorem pageAt_eq (h : Represents parent o a) {index : ℕ}
    (hinside : 4096 * (index + 1) ≤ a.length) :
    (o.pageAt index).val = slice a (4096 * index) 4096 := by
  have hlength := h.length_eq
  have hpage : (o.pageAt index).val.length = 4096 := (o.pageAt index).property
  have hslice : (slice a (4096 * index) 4096).length = 4096 := length_slice (by omega)
  apply eq_of_getD 0 (by rw [hpage, hslice])
  intro i hi
  rw [hpage] at hi
  rw [Overlay.getD_pageAt hi (by omega), getD_slice, if_pos hi, h.byte_eq]

/-- A frozen overlay materializes to the array, with the changed pages on record. -/
theorem freeze (h : Represents parent o a) (haligned : a.length % 4096 = 0) :
    ∃ f, o.closeAndFreeze = .ok f ∧ f.parent = parent ∧ f.length = a.length ∧
      f.changed = o.changedPages ∧ f.materialize = a := by
  have hlength := h.length_eq
  have hfreeze : ∃ f, o.closeAndFreeze = .ok f ∧ f.parent = o.parent ∧ f.length = o.length ∧
      f.changed = o.changedPages := by
    unfold Overlay.closeAndFreeze
    rw [h.not_failed]
    simp only [Bool.false_eq_true, if_false]
    rw [dif_neg (by omega)]
    exact ⟨_, rfl, rfl, rfl, rfl⟩
  obtain ⟨f, hok, hparent, hflen, hchanged⟩ := hfreeze
  refine ⟨f, hok, by rw [hparent, h.parent_eq], by rw [hflen, hlength], hchanged, ?_⟩
  apply eq_of_getD 0 (by rw [f.length_materialize, hflen, hlength])
  intro pos hpos
  rw [f.length_materialize] at hpos
  rw [f.getD_materialize hpos, hchanged, hparent]
  have hsplit : 4096 * (pos / 4096) + pos % 4096 = pos := Nat.div_add_mod pos 4096
  cases hfound : o.changedPages[pos / 4096 + 1]? with
  | some page =>
    obtain ⟨-, -, hpage⟩ := o.changedPages_eq_some.mp hfound
    rw [Nat.add_sub_cancel] at hpage
    obtain ⟨-, rfl, -⟩ := Overlay.changedPage_eq_some.mp hpage
    simp only []
    rw [Overlay.getD_pageAt (by omega) (by omega), hsplit, h.byte_eq]
  | none =>
    have hsame := Overlay.changedPages_eq_none (by omega) (by omega) hfound
    rw [Nat.add_sub_cancel] at hsame
    obtain ⟨-, -, hslice⟩ := getRange?_eq_some.mp hsame
    have hbyte := @Overlay.getD_pageAt o (pos / 4096) (pos % 4096) (by omega)
      (by omega)
    rw [← hslice, getD_slice, if_pos (by omega), hsplit, h.byte_eq] at hbyte
    exact hbyte

/-- The changed pages are those of the array that the parent lacks or has differently. -/
theorem changedPages_iff (h : Represents parent o a) (haligned : a.length % 4096 = 0) {n : ℕ}
    {page : Page} :
    o.changedPages[n]? = some page ↔
      1 ≤ n ∧ 4096 * n ≤ a.length ∧ page.val = slice a (4096 * (n - 1)) 4096 ∧
        getRange? parent (4096 * (n - 1)) (4096 * n) ≠ some page.val := by
  have hlength := h.length_eq
  have hparent := h.parent_eq
  constructor
  · intro hfound
    obtain ⟨hlow, -, hpage⟩ := o.changedPages_eq_some.mp hfound
    obtain ⟨hinside, rfl, hdiff⟩ := Overlay.changedPage_eq_some.mp hpage
    have hn : n - 1 + 1 = n := by omega
    rw [hn, hparent] at hdiff
    exact ⟨hlow, by omega, h.pageAt_eq (by omega), hdiff⟩
  · rintro ⟨hlow, hhigh, hslice, hdiff⟩
    have hpage : page = o.pageAt (n - 1) := by
      apply Subtype.ext
      rw [hslice, h.pageAt_eq (by omega)]
    cases hfound : o.changedPages[n]? with
    | none =>
      have hsame := Overlay.changedPages_eq_none hlow (by omega) hfound
      rw [hparent, ← hpage] at hsame
      exact absurd hsame hdiff
    | some page' =>
      obtain ⟨-, -, hpage'⟩ := o.changedPages_eq_some.mp hfound
      obtain ⟨-, rfl, -⟩ := Overlay.changedPage_eq_some.mp hpage'
      rw [hpage]

end Represents

/-- Over every parent and every run of successful storage calls, the overlay reads as the
flat array does. When the final length is aligned, freezing succeeds, the frozen image
materializes to the array, and its changed pages are exactly the pages that are absent
from the parent or differ from it. -/
theorem overlay_refines_flat (parent : Bytes) (calls : List Call) (o : Overlay)
    (hrun : runAll Overlay.step (Overlay.new parent) calls = .ok o) :
    (∀ offset bytes,
      o.readAt offset bytes = Flat.readAt (calls.foldl Flat.step parent) offset bytes) ∧
    ((calls.foldl Flat.step parent).length % 4096 = 0 →
      ∃ f, o.closeAndFreeze = .ok f ∧ f.materialize = calls.foldl Flat.step parent ∧
        ∀ n page, f.changed[n]? = some page ↔
          1 ≤ n ∧ 4096 * n ≤ (calls.foldl Flat.step parent).length ∧
            page.val = slice (calls.foldl Flat.step parent) (4096 * (n - 1)) 4096 ∧
            getRange? parent (4096 * (n - 1)) (4096 * n) ≠ some page.val) := by
  have hrep := Represents.run hrun
  refine ⟨hrep.readAt_eq, ?_⟩
  intro haligned
  obtain ⟨f, hok, -, -, hchanged, hbytes⟩ := hrep.freeze haligned
  refine ⟨f, hok, hbytes, ?_⟩
  intro n page
  rw [hchanged]
  exact hrep.changedPages_iff haligned

/-- A parent of three bytes, cut to one byte, written at page two and cut back to a
page, ends in a one-page image. -/
theorem overlay_refines_flat_cut :
    ∃ o f, runAll Overlay.step (Overlay.new [1, 2, 3])
        [.truncate 1, .writePage 2 (List.replicate 4096 7), .truncate 4096] = .ok o ∧
      o.closeAndFreeze = .ok f ∧
      f.materialize = [.truncate 1, .writePage 2 (List.replicate 4096 7),
        .truncate 4096].foldl Flat.step [1, 2, 3] := by
  have hrun : ∃ o, runAll Overlay.step (Overlay.new [1, 2, 3])
      [.truncate 1, .writePage 2 (List.replicate 4096 7), .truncate 4096] = .ok o := by
    have hwrite := fun o : Overlay =>
      @Overlay.step_writePage o 1 ⟨List.replicate 4096 7, List.length_replicate⟩ (by decide)
    simp only [runAll, Overlay.step_truncate, hwrite, Except.ok.injEq, exists_eq']
  obtain ⟨o, hrun⟩ := hrun
  obtain ⟨-, hfreeze⟩ := overlay_refines_flat [1, 2, 3] _ o hrun
  have hlength : ([.truncate 1, .writePage 2 (List.replicate 4096 7),
      .truncate 4096].foldl Flat.step [1, 2, 3]).length = 4096 := Flat.length_truncate _ 4096
  obtain ⟨f, hok, hbytes, -⟩ := hfreeze (by rw [hlength])
  exact ⟨o, f, hrun, hok, hbytes⟩

end Otmp.CowWriter
