import Mathlib.Algebra.Order.Field.Rat
import Otmp.DataFusion.Pruning

/-!
# What scalars mean

A stored scalar and a scalar of the query engine are two carriers of one value: a number, a text,
some bytes or a point in time. The value that each of them means is defined without the other, and
the conversion between them is shown to keep it. Among the scalars of one column at most one means
a given value.
-/

namespace Otmp.DataFusion

open Foundation Foundation.Cbor

/-- The values that scalars mean, whatever carries them. A floating-point number is given by its
bits, a decimal by the rational number it stands for, a point in time by its microseconds from the
epoch. -/
inductive Meaning where
  | null
  | boolean (value : Bool)
  | integer (value : ℤ)
  | float32 (bits : UInt32)
  | float64 (bits : UInt64)
  | decimal (value : ℚ)
  | day (count : ℤ)
  | timeOfDay (micros : ℤ)
  | instant (micros : ℤ)
  | text (value : String)
  | bytes (value : Bytes)
  deriving DecidableEq

/-- The number of some units of a power of ten. -/
def unscaledBy (unscaled scale : ℤ) : ℚ := unscaled * 10 ^ (-scale)

/-- The value that a stored scalar means. The unscaled bytes of a decimal spell an integer in two's
complement. -/
def meaningOf : TypedScalar → Meaning
  | .null => .null
  | .boolean value => .boolean value
  | .int32 value => .integer value.toInt
  | .int64 value => .integer value.toInt
  | .float32 bits => .float32 bits
  | .float64 bits => .float64 bits
  | .decimal _ scale unscaled => .decimal (unscaledBy (signedValue unscaled) scale.toNat)
  | .date value => .day value.toInt
  | .timeMicros value => .timeOfDay value.toInt
  | .timestampMicros value => .instant value.toInt
  | .timestamptzMicros value => .instant value.toInt
  | .string value => .text value
  | .binary value => .bytes value
  | .fixed value => .bytes value
  | .uuid value => .bytes value.val

namespace ScalarValue

/-- A scalar of the engine that holds no value. -/
def isNull : ScalarValue → Bool
  | .null _ => true
  | _ => false

/-- The type of the column that a scalar belongs to. -/
def dataType : ScalarValue → DataType
  | .boolean _ => .boolean
  | .int32 _ => .int32
  | .int64 _ => .int64
  | .float32 _ => .float32
  | .float64 _ => .float64
  | .date32 _ => .date32
  | .time64Microsecond _ => .time64Microsecond
  | .timestampMicrosecond _ timezone => .timestampMicrosecond timezone
  | .utf8 _ => .utf8
  | .utf8View _ => .utf8View
  | .binary _ => .binary
  | .binaryView _ => .binaryView
  | .fixedSizeBinary length _ => .fixedSizeBinary length
  | .decimal128 _ precision scale => .decimal128 precision scale
  | .decimal256 _ precision scale => .decimal256 precision scale
  | .null dataType => dataType

/-- The value that a scalar of the engine means. A decimal of the engine holds its unscaled integer
as it is. -/
def meaning : ScalarValue → Meaning
  | .boolean value => .boolean value
  | .int32 value => .integer value.toInt
  | .int64 value => .integer value.toInt
  | .float32 bits => .float32 bits
  | .float64 bits => .float64 bits
  | .date32 value => .day value.toInt
  | .time64Microsecond value => .timeOfDay value.toInt
  | .timestampMicrosecond value _ => .instant value.toInt
  | .utf8 value => .text value
  | .utf8View value => .text value
  | .binary value => .bytes value
  | .binaryView value => .bytes value
  | .fixedSizeBinary _ value => .bytes value
  | .decimal128 value _ scale => .decimal (unscaledBy value.toInt scale.toInt)
  | .decimal256 value _ scale => .decimal (unscaledBy value.toInt scale.toInt)
  | .null _ => .null

end ScalarValue

/-- A scalar of a column means what a stored scalar means: it is a scalar of the column's type, and
both have one value. -/
structure Means (ty : DataType) (v : TypedScalar) (s : ScalarValue) : Prop where
  dataType : s.dataType = ty
  meaning : s.meaning = meaningOf v

/-- The null scalars of the engine: one for each type that a schema's columns have. -/
structure NullScalars (nullOf : DataType → Option ScalarValue) : Prop where
  null : ∀ {d s}, nullOf d = some s → s = .null d
  total : ∀ {t d}, LogicalType.toArrow t = .ok d → nullOf d ≠ none

section Unique

variable {s s' : ScalarValue} {v : TypedScalar} {ty : DataType}

/-- Decimals of one scale that mean one number have one unscaled integer. -/
theorem unscaledBy_injective (scale : ℤ) : Function.Injective (unscaledBy · scale) := by
  intro m n h
  have hpos : (10 : ℚ) ^ (-scale) ≠ 0 := zpow_ne_zero _ (by norm_num)
  exact_mod_cast mul_right_cancel₀ hpos h

/-- Two scalars of one type that mean one value are the same scalar. -/
theorem ScalarValue.eq_of_meaning (htype : s.dataType = s'.dataType)
    (hmeaning : s.meaning = s'.meaning) : s = s' := by
  cases s with
  | decimal128 value precision scale =>
    cases s' <;> simp_all [dataType, meaning]
    exact BitVec.toInt_inj.mp (unscaledBy_injective _ hmeaning)
  | decimal256 value precision scale =>
    cases s' <;> simp_all [dataType, meaning]
    exact BitVec.toInt_inj.mp (unscaledBy_injective _ hmeaning)
  | _ => cases s' <;> simp_all [dataType, meaning, Int32.toInt_inj, Int64.toInt_inj]

/-- A stored scalar is meant by at most one scalar of a column. -/
theorem Means.unique (h : Means ty v s) (h' : Means ty v s') : s = s' :=
  ScalarValue.eq_of_meaning (h.dataType.trans h'.dataType.symm) (h.meaning.trans h'.meaning.symm)

/-- Only the null scalars of the engine mean no value. -/
theorem ScalarValue.meaning_eq_null : s.meaning = .null ↔ s.isNull = true := by
  cases s <;> simp [meaning, isNull]

/-- Only the stored null means no value. -/
theorem meaningOf_eq_null : meaningOf v = .null ↔ v = .null := by
  cases v <;> simp [meaningOf]

/-- A scalar is a null exactly when it means a stored null. -/
theorem Means.isNull_iff (h : Means ty v s) : s.isNull = true ↔ v = .null := by
  rw [← ScalarValue.meaning_eq_null, h.meaning, meaningOf_eq_null]

end Unique

section Convert

variable {nullOf : DataType → Option ScalarValue} {v : TypedScalar} {ty : DataType}
  {s : ScalarValue}

/-- The null converts to the engine's null of the column. -/
theorem scalar_null (nullOf : DataType → Option ScalarValue) (ty : DataType) :
    scalar nullOf .null ty = nullOf ty := by
  cases ty <;> rfl

/-- **The conversion of scalars keeps what they mean.** A stored scalar that becomes a scalar of a
column is a scalar of the column's type with the same value. -/
theorem means_of_scalar (hnull : NullScalars nullOf) (h : scalar nullOf v ty = some s) :
    Means ty v s := by
  cases v with
  | null =>
    rw [scalar_null] at h
    obtain rfl := hnull.null h
    exact ⟨rfl, rfl⟩
  | fixed bytes =>
    cases ty with
    | fixedSizeBinary length =>
      obtain ⟨-, h⟩ := Option.ite_none_right_eq_some.mp h
      cases h
      exact ⟨rfl, rfl⟩
    | _ => cases h
  | uuid bytes =>
    cases ty with
    | fixedSizeBinary length =>
      obtain ⟨hlength, h⟩ := Option.ite_none_right_eq_some.mp h
      cases h
      exact ⟨hlength ▸ rfl, rfl⟩
    | _ => cases h
  | decimal precision scale unscaled =>
    cases ty with
    | decimal128 p s =>
      obtain ⟨⟨-, hscale, hlength⟩, h⟩ := Option.ite_none_right_eq_some.mp h
      cases h
      refine ⟨rfl, ?_⟩
      rw [ScalarValue.meaning, meaningOf, hscale, toInt_signExtended (by decide) hlength]
    | decimal256 p s =>
      obtain ⟨⟨-, -, hscale, hlength⟩, h⟩ := Option.ite_none_right_eq_some.mp h
      cases h
      refine ⟨rfl, ?_⟩
      rw [ScalarValue.meaning, meaningOf, hscale, toInt_signExtended (by decide) hlength]
    | _ => cases h
  | timestampMicros value =>
    cases ty with
    | timestampMicrosecond timezone =>
      cases timezone with
      | none =>
        cases h
        exact ⟨rfl, rfl⟩
      | some timezone => cases h
    | _ => cases h
  | _ => cases ty <;> cases h <;> exact ⟨rfl, rfl⟩

end Convert

end Otmp.DataFusion
