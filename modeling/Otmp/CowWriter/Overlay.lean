import Mathlib.Algebra.Order.Group.Nat
import Std.Data.ExtTreeMap
import Otmp.Foundation.Bytes
import Otmp.Basic

/-!
# The copy-on-write overlay

Candidate images are built over an immutable parent. The overlay keeps the pages
written so far, the current length and the part of the parent that is still
visible. Every storage call of the SQL engine goes through it. A failed call
leaves a sticky mark, since the engine may swallow the error on shutdown.
-/

namespace Otmp

namespace CowWriter

open Foundation

/-- The errors that the overlay reports to the SQL engine. -/
inductive LimboError where
  | invalidArgument (message : String)
  | integerOverflow
  | internalError (message : String)
  deriving DecidableEq, Repr

/-- A copy-on-write view of a parent image: the parent's bytes show through wherever no chunk was
written and the image was not cut. -/
structure Overlay where
  /-- The immutable parent image. -/
  parent : Bytes
  /-- The current length of the candidate image. -/
  length : ℕ
  /-- The prefix of the parent that later operations have not cut off. -/
  parentLimit : ℕ
  /-- The pages written so far, by zero-based page index. -/
  pages : Std.ExtTreeMap ℕ Page compare
  /-- Set once a storage call has failed. -/
  failed : Bool
  limit_le_parent : parentLimit ≤ parent.length
  limit_le_length : parentLimit ≤ length

namespace Overlay

/-- A fresh overlay shows exactly its parent, since it has no chunk of its own and the parent's
length. -/
def new (parent : Bytes) : Overlay where
  parent := parent
  length := parent.length
  parentLimit := parent.length
  pages := ∅
  failed := false
  limit_le_parent := le_refl _
  limit_le_length := le_refl _

/-- The copy made for one chunk of a read: from a written page, from the visible
part of the parent, or nothing. -/
def copyChunk (o : Overlay) (pos chunk copied : ℕ) (bytes : Bytes) : Bytes :=
  match o.pages[pos / 4096]? with
  | some page => overwrite bytes copied (slice page.val (pos % 4096) chunk)
  | none =>
    if pos < o.parentLimit then
      overwrite bytes copied (slice o.parent pos (min chunk (o.parentLimit - pos)))
    else
      bytes

/-- The copy loop of `readAt`; a chunk never crosses a page boundary. -/
def readLoop (o : Overlay) (offset count copied : ℕ) (bytes : Bytes) : Bytes :=
  if copied < count then
    let pos := offset + copied
    let chunk := min (4096 - pos % 4096) (count - copied)
    readLoop o offset count (copied + chunk) (o.copyChunk pos chunk copied bytes)
  else
    bytes
termination_by count - copied
decreasing_by omega

/-- Fill a buffer from position `offset`; returns the number of bytes available
and the buffer, which is cleared first. -/
def readAt (o : Overlay) (offset : ℕ) (bytes : Bytes) : ℕ × Bytes :=
  let count := min bytes.length (o.length - offset)
  (count, o.readLoop offset count 0 (List.replicate bytes.length 0))

/-- The byte that the overlay shows at a position, whatever its length. -/
def byteAt (o : Overlay) (pos : ℕ) : UInt8 :=
  match o.pages[pos / 4096]? with
  | some page => page.val.getD (pos % 4096) 0
  | none => if pos < o.parentLimit then o.parent.getD pos 0 else 0

/-- One chunk keeps the buffer's length, since it is copied into room that is there. -/
theorem length_copyChunk (o : Overlay) (pos chunk copied : ℕ) (bytes : Bytes)
    (hpage : pos % 4096 + chunk ≤ 4096) (hroom : copied + chunk ≤ bytes.length) :
    (o.copyChunk pos chunk copied bytes).length = bytes.length := by
  have hparent := o.limit_le_parent
  unfold copyChunk
  split
  · rename_i page _
    have hslice : (slice page.val (pos % 4096) chunk).length = chunk :=
      length_slice (by rw [page.property]; exact hpage)
    exact length_overwrite (by omega)
  · split
    · have hslice : (slice o.parent pos (min chunk (o.parentLimit - pos))).length =
          min chunk (o.parentLimit - pos) := length_slice (by omega)
      exact length_overwrite (by omega)
    · rfl

/-- One chunk puts the overlay's bytes at the positions it covers, on a buffer that
is still clear there, and leaves the other positions alone. -/
theorem getD_copyChunk (o : Overlay) (offset copied chunk : ℕ) (bytes : Bytes)
    (hpage : (offset + copied) % 4096 + chunk ≤ 4096) (hroom : copied + chunk ≤ bytes.length)
    (hclear : ∀ i, copied ≤ i → bytes.getD i 0 = 0) (i : ℕ) :
    (o.copyChunk (offset + copied) chunk copied bytes).getD i 0 =
      if copied ≤ i ∧ i < copied + chunk then o.byteAt (offset + i) else bytes.getD i 0 := by
  have hparent := o.limit_le_parent
  have hindex : copied ≤ i → i < copied + chunk →
      (offset + i) / 4096 = (offset + copied) / 4096 := by
    intro hlow hhigh
    omega
  unfold copyChunk
  split
  · rename_i page hfound
    have hslice : (slice page.val ((offset + copied) % 4096) chunk).length = chunk :=
      length_slice (by rw [page.property]; exact hpage)
    rw [getD_overwrite (by omega), hslice]
    by_cases hin : copied ≤ i ∧ i < copied + chunk
    · rw [if_pos hin, if_pos hin, getD_slice, if_pos (by omega), byteAt, hindex hin.1 hin.2, hfound]
      congr 1
      omega
    · rw [if_neg hin, if_neg hin]
  · rename_i hfound
    have hbyte : copied ≤ i → i < copied + chunk → o.byteAt (offset + i) =
        if offset + i < o.parentLimit then o.parent.getD (offset + i) 0 else 0 := by
      intro hlow hhigh
      rw [byteAt, hindex hlow hhigh, hfound]
    split
    · have hslice : (slice o.parent (offset + copied)
          (min chunk (o.parentLimit - (offset + copied)))).length =
          min chunk (o.parentLimit - (offset + copied)) := length_slice (by omega)
      rw [getD_overwrite (by omega), hslice]
      by_cases hin : copied ≤ i ∧ i < copied + chunk
      · rw [if_pos hin, hbyte hin.1 hin.2]
        by_cases hvisible : offset + i < o.parentLimit
        · rw [if_pos (by omega), if_pos hvisible, getD_slice, if_pos (by omega)]
          congr 1
          omega
        · rw [if_neg (by omega), if_neg hvisible]
          exact hclear i hin.1
      · rw [if_neg hin, if_neg (by omega)]
    · by_cases hin : copied ≤ i ∧ i < copied + chunk
      · rw [if_pos hin, hbyte hin.1 hin.2, if_neg (by omega)]
        exact hclear i hin.1
      · rw [if_neg hin]

/-- The copy loop keeps the buffer's length. -/
theorem length_readLoop (o : Overlay) {offset count copied : ℕ} {bytes : Bytes}
    (hroom : count ≤ bytes.length) :
    (o.readLoop offset count copied bytes).length = bytes.length := by
  fun_induction readLoop o offset count copied bytes with
  | case1 copied bytes hlt pos chunk ih =>
    have hchunk := length_copyChunk o pos chunk copied bytes (by omega) (by omega)
    rw [ih (by omega), hchunk]
  | case2 => rfl

/-- The loop invariant of the copy loop: the positions still to be copied are clear,
and afterwards they hold the overlay's bytes. -/
theorem getD_readLoop (o : Overlay) {offset count copied : ℕ} {bytes : Bytes}
    (hroom : count ≤ bytes.length) (hclear : ∀ i, copied ≤ i → bytes.getD i 0 = 0) (i : ℕ) :
    (o.readLoop offset count copied bytes).getD i 0 =
      if copied ≤ i ∧ i < count then o.byteAt (offset + i) else bytes.getD i 0 := by
  fun_induction readLoop o offset count copied bytes with
  | case1 copied bytes hlt pos chunk ih =>
    have hstep := getD_copyChunk o offset copied chunk bytes (by omega) (by omega) hclear
    have hlength := length_copyChunk o pos chunk copied bytes (by omega) (by omega)
    have hrest : ∀ j, copied + chunk ≤ j → (o.copyChunk pos chunk copied bytes).getD j 0 = 0 := by
      intro j hj
      rw [hstep j, if_neg (by omega)]
      exact hclear j (by omega)
    rw [ih (by omega) hrest, hstep i]
    by_cases hlow : copied ≤ i
    · by_cases hchunk : i < copied + chunk
      · rw [if_neg (by omega), if_pos ⟨hlow, hchunk⟩, if_pos (by omega)]
      · rw [if_neg (show ¬(copied ≤ i ∧ i < copied + chunk) by omega)]
        by_cases hcount : i < count
        · rw [if_pos (by omega), if_pos (by omega)]
        · rw [if_neg (by omega), if_neg (by omega)]
    · rw [if_neg (by omega), if_neg (by omega), if_neg (by omega)]
  | case2 copied bytes hge => rw [if_neg (by omega)]

/-- A read returns as many bytes as the buffer has. -/
@[simp] theorem length_readAt (o : Overlay) (offset : ℕ) (bytes : Bytes) :
    (o.readAt offset bytes).2.length = bytes.length := by
  simp only [readAt]
  rw [length_readLoop o (by rw [List.length_replicate]; omega), List.length_replicate]

/-- A read puts the overlay's bytes into the available part of the buffer. -/
theorem getD_readAt (o : Overlay) (offset : ℕ) (bytes : Bytes) (i : ℕ) :
    (o.readAt offset bytes).2.getD i 0 =
      if i < min bytes.length (o.length - offset) then o.byteAt (offset + i) else 0 := by
  simp only [readAt]
  have hclear : ∀ j : ℕ, (List.replicate bytes.length (0 : UInt8)).getD j 0 = 0 := by
    intro j
    rw [List.getD_eq_getElem?_getD, List.getElem?_replicate]
    split <;> rfl
  rw [getD_readLoop o (by rw [List.length_replicate]; omega) (fun j _ => hclear j), hclear i]
  simp only [Nat.zero_le, true_and]

end Overlay

end CowWriter

end Otmp
