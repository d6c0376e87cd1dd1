import Mathlib.Algebra.Order.Ring.Int
import Mathlib.Data.List.Basic
import Mathlib.Data.List.GetD

/-!
# Slices, overwrites and zero extension of lists

A fixed-size buffer is a list. Reading past its end is made total by a filler
element, so that two buffers of one length are equal as soon as they agree at
every position. The three operations of this file are described by what they
leave at each position, and every later proof about buffers uses only that.
-/

namespace Foundation

variable {α : Type*}

/-- The `count` elements that start at position `start`, or as many of them as the list has. -/
def slice (xs : List α) (start count : ℕ) : List α := (xs.drop start).take count

/-- Replace the elements that start at position `start` by `ys`. -/
def overwrite (xs : List α) (start : ℕ) (ys : List α) : List α :=
  xs.take start ++ ys ++ xs.drop (start + ys.length)

/-- Cut a list to length `n`, or extend it to length `n` by the filler `z`. -/
def resize (xs : List α) (n : ℕ) (z : α) : List α :=
  xs.take n ++ List.replicate (n - xs.length) z

/-- The checked slice `[start, stop)`, absent when it does not lie inside the list. -/
def getRange? (xs : List α) (start stop : ℕ) : Option (List α) :=
  if start ≤ stop ∧ stop ≤ xs.length then some (slice xs start (stop - start)) else none

/-- A slice that lies inside the list has the requested length. -/
theorem length_slice {xs : List α} {start count : ℕ} (h : start + count ≤ xs.length) :
    (slice xs start count).length = count := by
  simp only [slice, List.length_take, List.length_drop]
  omega

/-- Overwriting inside a list keeps its length. -/
theorem length_overwrite {xs ys : List α} {start : ℕ} (h : start + ys.length ≤ xs.length) :
    (overwrite xs start ys).length = xs.length := by
  simp only [overwrite, List.length_append, List.length_take, List.length_drop]
  omega

/-- Resizing gives the requested length. -/
@[simp] theorem length_resize (xs : List α) (n : ℕ) (z : α) : (resize xs n z).length = n := by
  simp only [resize, List.length_append, List.length_take, List.length_replicate]
  omega

/-- A slice reads the list at a shifted position. -/
theorem getD_slice (xs : List α) (start count i : ℕ) (z : α) :
    (slice xs start count).getD i z = if i < count then xs.getD (start + i) z else z := by
  simp only [List.getD_eq_getElem?_getD, slice, List.getElem?_take, List.getElem?_drop]
  split <;> rfl

/-- An overwrite changes exactly the positions that it covers. -/
theorem getD_overwrite {xs ys : List α} {start : ℕ} (h : start + ys.length ≤ xs.length)
    (i : ℕ) (z : α) :
    (overwrite xs start ys).getD i z =
      if start ≤ i ∧ i < start + ys.length then ys.getD (i - start) z else xs.getD i z := by
  have htake : (xs.take start).length = start := by
    rw [List.length_take]
    omega
  simp only [overwrite, List.append_assoc, List.getD_eq_getElem?_getD]
  by_cases hlow : i < start
  · rw [List.getElem?_append_left (by omega), List.getElem?_take_of_lt hlow,
      if_neg (by omega)]
  · rw [List.getElem?_append_right (by omega), htake]
    by_cases hmid : i < start + ys.length
    · rw [List.getElem?_append_left (by omega), if_pos (by omega)]
    · rw [List.getElem?_append_right (by omega), if_neg (by omega), List.getElem?_drop]
      congr 2
      omega

/-- Resizing keeps the elements below the new length and fills the rest. -/
theorem getD_resize (xs : List α) (n i : ℕ) (z : α) :
    (resize xs n z).getD i z = if i < n then xs.getD i z else z := by
  simp only [resize, List.getD_eq_getElem?_getD]
  by_cases hi : i < (xs.take n).length
  · have hn : i < n := by
      rw [List.length_take] at hi
      omega
    rw [List.getElem?_append_left hi, List.getElem?_take_of_lt hn, if_pos hn]
  · rw [List.getElem?_append_right (by omega), List.getElem?_replicate]
    rw [List.length_take] at hi ⊢
    by_cases hn : i < n
    · rw [if_pos hn, List.getElem?_eq_none (show xs.length ≤ i by omega)]
      split <;> rfl
    · rw [if_neg hn, if_neg (by omega)]
      rfl

/-- Lists of one length that agree at every position are equal. -/
theorem eq_of_getD {xs ys : List α} (z : α) (hlength : xs.length = ys.length)
    (h : ∀ i < xs.length, xs.getD i z = ys.getD i z) : xs = ys := by
  apply List.ext_getElem hlength
  intro i hx hy
  have hi := h i hx
  rwa [List.getD_eq_getElem _ _ hx, List.getD_eq_getElem _ _ hy] at hi

/-- A checked slice succeeds exactly on ranges inside the list. -/
theorem getRange?_eq_some {xs : List α} {start stop : ℕ} {ys : List α} :
    getRange? xs start stop = some ys ↔
      start ≤ stop ∧ stop ≤ xs.length ∧ slice xs start (stop - start) = ys := by
  unfold getRange?
  split
  · rename_i h
    simp only [Option.some.injEq, h, true_and]
  · rename_i h
    simp only [reduceCtorEq, false_iff]
    tauto

/-- Two slices of one range agree when the lists agree on it. -/
theorem slice_eq_slice {xs ys : List α} (z : α) {start count : ℕ}
    (hx : start + count ≤ xs.length) (hy : start + count ≤ ys.length)
    (h : ∀ i, start ≤ i → i < start + count → xs.getD i z = ys.getD i z) :
    slice xs start count = slice ys start count := by
  apply eq_of_getD z (by rw [length_slice hx, length_slice hy])
  intro i hi
  rw [length_slice hx] at hi
  simp only [getD_slice, if_pos hi]
  exact h _ (by omega) (by omega)

/-- A slice of a slice is a slice of the list, when it stays within the first slice. -/
theorem slice_slice {xs : List α} {start count i n : ℕ} (h : i + n ≤ count) :
    slice (slice xs start count) i n = slice xs (start + i) n := by
  rw [slice, slice, slice, List.drop_take, List.take_take, List.drop_drop]
  congr 1
  omega

/-- What was written last is read back. -/
theorem slice_overwrite_self {xs ys : List α} {start : ℕ} (h : start ≤ xs.length) :
    slice (overwrite xs start ys) start ys.length = ys := by
  have htake : (xs.take start).length = start := by
    rw [List.length_take]
    omega
  have hdrop : (xs.take start ++ (ys ++ xs.drop (start + ys.length))).drop start =
      ys ++ xs.drop (start + ys.length) := by
    rw [List.drop_append, htake, Nat.sub_self, List.drop_eq_nil_of_le (Nat.le_of_eq htake)]
    rfl
  rw [slice, overwrite, List.append_assoc, hdrop, List.take_left]

/-- A slice in two parts, the second one starting where the first one ends. -/
theorem slice_add (xs : List α) (start m n : ℕ) :
    slice xs start (m + n) = slice xs start m ++ slice xs (start + m) n := by
  rw [slice, slice, slice, List.take_add, List.drop_drop]

/-- An element of a slice is the element of the list that is as far behind the start of the slice.
-/
theorem getElem?_slice {xs : List α} {start count i : ℕ} (h : i < count) :
    (slice xs start count)[i]? = xs[start + i]? := by
  rw [slice, List.getElem?_take_of_lt h, List.getElem?_drop]

/-- A slice of a constant list is a shorter constant list, as long as it stays inside. -/
theorem slice_replicate {n start count : ℕ} (z : α) (h : start + count ≤ n) :
    slice (List.replicate n z) start count = List.replicate count z := by
  rw [slice, List.drop_replicate, List.take_replicate, Nat.min_eq_left (by omega)]

section Writes

/-- Overwrite several places, one after the other, each time with the elements given for it. -/
def overwriteAll (xs : List α) (writes : List (ℕ × List α)) : List α :=
  writes.foldl (fun xs w => overwrite xs w.1 w.2) xs

/-- A place of a write and a range of positions have nothing in common. -/
def ApartFrom (start count : ℕ) (w : ℕ × List α) : Prop :=
  start + count ≤ w.1 ∨ w.1 + w.2.length ≤ start

/-- Two writes touch different places, so that their order does not matter. -/
def WritesApart (v w : ℕ × List α) : Prop := ApartFrom v.1 v.2.length w

variable {xs : List α} {writes : List (ℕ × List α)} {start count : ℕ}

/-- Writes that are made in two portions are made one portion after the other. -/
theorem overwriteAll_append (xs : List α) (writes rest : List (ℕ × List α)) :
    overwriteAll xs (writes ++ rest) = overwriteAll (overwriteAll xs writes) rest :=
  List.foldl_append

/-- Writes inside a buffer keep its length. -/
theorem length_overwriteAll (h : ∀ w ∈ writes, w.1 + w.2.length ≤ xs.length) :
    (overwriteAll xs writes).length = xs.length := by
  induction writes generalizing xs with
  | nil => rfl
  | cons w writes ih =>
    obtain ⟨hw, hwrites⟩ := List.forall_mem_cons.mp h
    have hlength := length_overwrite hw
    rw [overwriteAll, List.foldl_cons, ← hlength]
    exact ih (hlength.symm ▸ hwrites)

/-- A write leaves what is apart from it. -/
theorem slice_overwrite_of_apart {w : ℕ × List α} (hw : w.1 + w.2.length ≤ xs.length)
    (hinside : start + count ≤ xs.length) (h : ApartFrom start count w) :
    slice (overwrite xs w.1 w.2) start count = slice xs start count := by
  cases xs with
  | nil =>
    have hzero : count = 0 := by
      rw [List.length_nil] at hinside
      omega
    subst hzero
    rfl
  | cons z xs =>
    refine slice_eq_slice z (by rwa [length_overwrite hw]) hinside fun i hlow hhigh => ?_
    rw [getD_overwrite hw, if_neg]
    rcases h with h | h <;> omega

/-- Writes leave what is apart from all of them. -/
theorem slice_overwriteAll_of_apart (h : ∀ w ∈ writes, w.1 + w.2.length ≤ xs.length)
    (hinside : start + count ≤ xs.length) (hapart : ∀ w ∈ writes, ApartFrom start count w) :
    slice (overwriteAll xs writes) start count = slice xs start count := by
  induction writes generalizing xs with
  | nil => rfl
  | cons w writes ih =>
    obtain ⟨hw, hwrites⟩ := List.forall_mem_cons.mp h
    obtain ⟨hfirst, hrest⟩ := List.forall_mem_cons.mp hapart
    have hlength := length_overwrite hw
    rw [overwriteAll, List.foldl_cons]
    refine (ih (hlength.symm ▸ hwrites) (hlength.symm ▸ hinside) hrest).trans ?_
    exact slice_overwrite_of_apart hw hinside hfirst

/-- Writes to different places are all read back. -/
theorem slice_overwriteAll_of_mem (h : ∀ w ∈ writes, w.1 + w.2.length ≤ xs.length)
    (hapart : writes.Pairwise WritesApart) {w : ℕ × List α} (hmem : w ∈ writes) :
    slice (overwriteAll xs writes) w.1 w.2.length = w.2 := by
  induction writes generalizing xs with
  | nil => cases hmem
  | cons v writes ih =>
    obtain ⟨hv, hwrites⟩ := List.forall_mem_cons.mp h
    obtain ⟨hfirst, hrest⟩ := List.pairwise_cons.mp hapart
    have hlength := length_overwrite hv
    rw [overwriteAll, List.foldl_cons]
    rcases List.mem_cons.mp hmem with rfl | hmem
    · refine (slice_overwriteAll_of_apart (hlength.symm ▸ hwrites) (hlength.symm ▸ hv) hfirst).trans
        ?_
      exact slice_overwrite_self (by omega)
    · exact ih (hlength.symm ▸ hwrites) hrest hmem

end Writes

end Foundation
