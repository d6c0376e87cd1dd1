import Mathlib.Algebra.Order.Ring.Int
import Mathlib.Data.List.Basic
import Mathlib.Tactic.Common

/-!
# Chunks of a list

A list is cut into parts of a fixed size, of which the last one may be shorter. Cutting large parts
into smaller ones that fit them evenly is the same as cutting the list into the smaller ones.
-/

namespace Foundation

variable {α : Type*}

/-- The parts of a list of a fixed size. There are no parts of size zero. -/
def chunks (size : ℕ) (xs : List α) : List (List α) :=
  if _h : size = 0 ∨ xs = [] then []
  else xs.take size :: chunks size (xs.drop size)
termination_by xs.length
decreasing_by
  obtain ⟨hsize, hempty⟩ := not_or.mp _h
  have hpos := List.length_pos_iff.mpr hempty
  rw [List.length_drop]
  omega

variable {size : ℕ} {xs ys : List α}

/-- Nothing is cut into no chunks. -/
@[simp] theorem chunks_nil : chunks size ([] : List α) = [] := by
  rw [chunks, dif_pos (.inr rfl)]

/-- A list that is not empty is cut into its front and the chunks of what is behind it. -/
theorem chunks_of_ne_nil (hsize : 0 < size) (hxs : xs ≠ []) :
    chunks size xs = xs.take size :: chunks size (xs.drop size) := by
  rw [chunks, dif_neg (not_or.mpr ⟨by omega, hxs⟩)]

/-- A list that fits one part is one part. -/
theorem chunks_of_length_le (hsize : 0 < size) (hxs : xs ≠ []) (hle : xs.length ≤ size) :
    chunks size xs = [xs] := by
  rw [chunks_of_ne_nil hsize hxs, List.take_of_length_le hle, List.drop_eq_nil_of_le hle,
    chunks_nil]

/-- Induction on the parts of a list. -/
theorem chunks_induction (hsize : 0 < size) {P : List α → Prop} (nil : P [])
    (cons : ∀ xs, xs ≠ [] → P (xs.drop size) → P xs) (xs : List α) : P xs := by
  induction hn : xs.length using Nat.strongRecOn generalizing xs with
  | ind n ih =>
    by_cases hxs : xs = []
    · exact hxs ▸ nil
    · have hpos := List.length_pos_iff.mpr hxs
      exact cons xs hxs (ih _ (by rw [List.length_drop]; omega) _ rfl)

/-- The parts make up the list. -/
theorem flatten_chunks (hsize : 0 < size) (xs : List α) : (chunks size xs).flatten = xs := by
  induction xs using chunks_induction hsize with
  | nil => rw [chunks_nil, List.flatten_nil]
  | cons xs hxs ih =>
    rw [chunks_of_ne_nil hsize hxs, List.flatten_cons, ih, List.take_append_drop]

/-- A chunk is a part of the list. -/
theorem sublist_of_mem_chunks (hsize : 0 < size) {part : List α} (h : part ∈ chunks size xs) :
    part.Sublist xs := by
  have hpart := List.sublist_flatten_of_mem h
  rwa [flatten_chunks hsize] at hpart

/-- The count of the parts. -/
theorem length_chunks (hsize : 0 < size) (xs : List α) :
    (chunks size xs).length = (xs.length + (size - 1)) / size := by
  induction xs using chunks_induction hsize with
  | nil =>
    rw [chunks_nil]
    exact (Nat.div_eq_of_lt (by simpa using by omega)).symm
  | cons xs hxs ih =>
    have hpos := List.length_pos_iff.mpr hxs
    rw [chunks_of_ne_nil hsize hxs, List.length_cons, ih, List.length_drop]
    by_cases hle : xs.length ≤ size
    · have hsum : xs.length + (size - 1) = (xs.length - 1) + size := by omega
      have hfirst : (xs.length - size + (size - 1)) / size = 0 := Nat.div_eq_of_lt (by omega)
      have hlast : (xs.length - 1) / size = 0 := Nat.div_eq_of_lt (by omega)
      rw [hsum, Nat.add_div_right _ hsize, hfirst, hlast]
    · have hsum : xs.length + (size - 1) = (xs.length - size + (size - 1)) + size := by omega
      rw [hsum, Nat.add_div_right _ hsize]

/-- A part by its position. -/
theorem getElem?_chunks (hsize : 0 < size) (xs : List α) (i : ℕ) :
    (chunks size xs)[i]? = if i * size < xs.length then some ((xs.drop (i * size)).take size)
      else none := by
  induction xs using chunks_induction hsize generalizing i with
  | nil => simp
  | cons xs hxs ih =>
    have hpos := List.length_pos_iff.mpr hxs
    rw [chunks_of_ne_nil hsize hxs]
    cases i with
    | zero => simp [hpos]
    | succ i =>
      have hmul : (i + 1) * size = size + i * size := by rw [Nat.succ_mul, Nat.add_comm]
      rw [List.getElem?_cons_succ, ih i, List.length_drop, List.drop_drop, hmul]
      by_cases hlt : i * size < xs.length - size
      · rw [if_pos hlt, if_pos (by omega)]
      · rw [if_neg hlt, if_neg (by omega)]

/-- Whole parts in front are cut off by themselves. -/
theorem chunks_append (hsize : 0 < size) (hdvd : size ∣ xs.length) :
    chunks size (xs ++ ys) = chunks size xs ++ chunks size ys := by
  induction xs using chunks_induction hsize with
  | nil => rw [chunks_nil, List.nil_append, List.nil_append]
  | cons xs hxs ih =>
    have hle : size ≤ xs.length := Nat.le_of_dvd (List.length_pos_iff.mpr hxs) hdvd
    have hdrop : size ∣ (xs.drop size).length := by
      rw [List.length_drop]
      exact Nat.dvd_sub hdvd (Nat.dvd_refl size)
    rw [chunks_of_ne_nil hsize hxs, chunks_of_ne_nil hsize (by simp [hxs]),
      List.take_append_of_le_length hle, List.drop_append_of_le_length hle, ih hdrop,
      List.cons_append]

/-- Parts that fit evenly in a front of the list are those of the front and of the rest. -/
theorem chunks_take_drop (hsize : 0 < size) (count : ℕ) (xs : List α) :
    chunks size xs =
      chunks size (xs.take (size * count)) ++ chunks size (xs.drop (size * count)) := by
  by_cases hle : xs.length ≤ size * count
  · rw [List.take_of_length_le hle, List.drop_eq_nil_of_le hle, chunks_nil, List.append_nil]
  · have htake : (xs.take (size * count)).length = size * count := by
      rw [List.length_take]
      omega
    have hdvd : size ∣ (xs.take (size * count)).length := by
      rw [htake]
      exact Nat.dvd_mul_right size count
    rw [← chunks_append hsize hdvd, List.take_append_drop]

/-- A front that the parts fit evenly has no more parts than fit, and as many when the list goes
on. -/
theorem length_chunks_take (hsize : 0 < size) (count : ℕ) (xs : List α) :
    (chunks size (xs.take (size * count))).length ≤ count ∧
      (xs.drop (size * count) ≠ [] → (chunks size (xs.take (size * count))).length = count) := by
  rw [length_chunks hsize, List.length_take]
  constructor
  · refine Nat.lt_succ_iff.mp ((Nat.div_lt_iff_lt_mul hsize).mpr ?_)
    rw [Nat.succ_mul, Nat.mul_comm count]
    omega
  · intro hne
    have hlt := List.length_pos_iff.mpr hne
    rw [List.length_drop] at hlt
    have hmin : min (size * count) xs.length + (size - 1) = (size - 1) + size * count := by omega
    rw [hmin, Nat.add_mul_div_left _ _ hsize, Nat.div_eq_of_lt (by omega), Nat.zero_add]

end Foundation
