import Otmp.Foundation.TwosComplement
import Otmp.Protocol.ScalarCbor

/-!
# The order of scalars

Scalars of one type are compared by value. Decimals of one precision and scale are compared
by the sign, the length and the bytes of their unscaled integers, which is the order of the
integers because a decimal holds the shortest bytes of its integer.
-/

namespace Otmp

open Foundation Foundation.Cbor

/-- The comparison of unscaled integers by their signs, then their lengths, then their bytes. -/
def signedBytesCmp (left right : Bytes) : Option Ordering :=
  match left, right with
  | l :: _, r :: _ =>
    some (match decide (128 ≤ l.toNat), decide (128 ≤ r.toNat) with
      | true, false => .lt
      | false, true => .gt
      | false, false => (compare left.length right.length).then (compareOfLessAndEq left right)
      | true, true => (compare right.length left.length).then (compareOfLessAndEq left right))
  | _, _ => none

/-- The checked byte strings are the minimal ones. -/
theorem minimalTwosComplement_iff {bytes : Bytes} :
    minimalTwosComplement bytes = true ↔ IsMinimal bytes := by
  match bytes with
  | [] => exact iff_of_false Bool.false_ne_true id
  | [_] => exact iff_of_true rfl trivial
  | first :: second :: rest =>
    rw [minimalTwosComplement, IsMinimal]
    simp [imp_iff_not_or]

/-- A comparison is known by when it answers less and when it answers greater. -/
theorem eq_compare {α : Type} [LinearOrder α] {o : Ordering} {x y : α} (hlt : o = .lt ↔ x < y)
    (hgt : o = .gt ↔ y < x) : o = compare x y := by
  rcases lt_trichotomy x y with h | h | h
  · rw [hlt.mpr h, compare_lt_iff_lt.mpr h]
  · subst h
    cases o with
    | lt => exact absurd (hlt.mp rfl) (lt_irrefl _)
    | eq => exact (compare_eq_iff_eq.mpr rfl).symm
    | gt => exact absurd (hgt.mp rfl) (lt_irrefl _)
  · rw [hgt.mpr h, compare_gt_iff_gt.mpr h]

/-- One byte string compares greater than another when it is lexicographically behind it. -/
theorem compareBytes_gt {left right : Bytes} :
    compareOfLessAndEq left right = .gt ↔ right < left :=
  compareOfLessAndEq_eq_gt List.le_antisymm List.le_total List.not_le left right

/-- Lengths first, then bytes: the comparison of two integers of one sign. -/
theorem compare_then_bytes {m n : ℕ} {left right : Bytes} :
    ((compare m n).then (compareOfLessAndEq left right) = .lt ↔
      m < n ∨ m = n ∧ left < right) ∧
    ((compare m n).then (compareOfLessAndEq left right) = .gt ↔
      n < m ∨ m = n ∧ right < left) := by
  constructor
  · rw [Ordering.then_eq_lt, compare_lt_iff_lt, compare_eq_iff_eq, compareOfLessAndEq_eq_lt]
  · rw [Ordering.then_eq_gt, compare_gt_iff_gt, compare_eq_iff_eq, compareBytes_gt]

/-- The comparison of minimal byte strings is that of their integers. -/
theorem signedBytesCmp_eq {left right : Bytes} (hleft : IsMinimal left) (hright : IsMinimal right) :
    signedBytesCmp left right = some (compare (signedValue left) (signedValue right)) := by
  have hlt := signedValue_lt_iff hleft hright
  have hgt := signedValue_lt_iff hright hleft
  obtain ⟨l, lefts, rfl⟩ := List.exists_cons_of_ne_nil hleft.ne_nil
  obtain ⟨r, rights, rfl⟩ := List.exists_cons_of_ne_nil hright.ne_nil
  rw [signedBytesCmp]
  refine congrArg some (eq_compare ?_ ?_)
  · rw [hlt, negative, negative]
    cases decide (128 ≤ l.toNat) <;> cases decide (128 ≤ r.toNat)
    · exact compare_then_bytes.1
    · exact iff_of_false (fun h => by cases h) id
    · exact iff_of_true rfl trivial
    · rw [eq_comm (a := (l :: lefts).length)]
      exact compare_then_bytes.1
  · rw [hgt, negative, negative]
    cases decide (128 ≤ l.toNat) <;> cases decide (128 ≤ r.toNat)
    · rw [eq_comm (a := (r :: rights).length)]
      exact compare_then_bytes.2
    · exact iff_of_true rfl trivial
    · exact iff_of_false (fun h => by cases h) id
    · exact compare_then_bytes.2

namespace TypedScalar

/-- The comparison of scalars of one type; floating-point values compare by sign and magnitude
unless one is a NaN. -/
def partialCmpSameType : TypedScalar → TypedScalar → Option Ordering
  | .boolean left, .boolean right => some (compare left right)
  | .int32 left, .int32 right | .date left, .date right => some (compare left.toInt right.toInt)
  | .int64 left, .int64 right | .timeMicros left, .timeMicros right
  | .timestampMicros left, .timestampMicros right
  | .timestamptzMicros left, .timestamptzMicros right => some (compare left.toInt right.toInt)
  | .float32 left, .float32 right =>
    if f32IsNan left || f32IsNan right then none
    else some (compare (f32Magnitude left) (f32Magnitude right))
  | .float64 left, .float64 right =>
    if f64IsNan left || f64IsNan right then none
    else some (compare (f64Magnitude left) (f64Magnitude right))
  | .string left, .string right => some (compareOfLessAndEq left right)
  | .binary left, .binary right | .fixed left, .fixed right =>
    some (compareOfLessAndEq left right)
  | .uuid left, .uuid right => some (compareOfLessAndEq left.val right.val)
  | .decimal leftPrecision leftScale left, .decimal rightPrecision rightScale right =>
    if leftPrecision = rightPrecision ∧ leftScale = rightScale then signedBytesCmp left right
    else none
  | _, _ => none

end TypedScalar

end Otmp
