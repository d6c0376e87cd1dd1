import Mathlib.Data.BitVec
import Otmp.DataFusion.Arrow
import Otmp.Protocol.ScalarOrder

/-!
# Bounds for pruning

Bounds of metrics become scalars of the query engine, which prunes files by comparing them.
A decimal fits a fixed-width integer when its unscaled bytes do, and is extended by its
sign.
-/

namespace Otmp.DataFusion

open Foundation Foundation.Cbor

/-- The scalars of the query engine that bounds become. -/
inductive ScalarValue where
  | boolean (value : Bool)
  | int32 (value : Int32)
  | int64 (value : Int64)
  | float32 (bits : UInt32)
  | float64 (bits : UInt64)
  | date32 (value : Int32)
  | time64Microsecond (value : Int64)
  | timestampMicrosecond (value : Int64) (timezone : Option String)
  | utf8 (value : String)
  | utf8View (value : String)
  | binary (value : Bytes)
  | binaryView (value : Bytes)
  | fixedSizeBinary (length : Int32) (value : Bytes)
  | decimal128 (value : BitVec 128) (precision : UInt8) (scale : Int8)
  | decimal256 (value : BitVec 256) (precision : UInt8) (scale : Int8)
  | null (dataType : DataType)
  deriving DecidableEq

/-- The sign extension of unscaled bytes to a width. -/
def signExtended (width : ℕ) (unscaled : Bytes) : Bytes :=
  List.replicate (width - unscaled.length) (if negative unscaled then 0xff else 0) ++ unscaled

/-- The fixed-width integer of some bytes, most significant first. -/
def fromBeBytes (width : ℕ) (bytes : Bytes) : BitVec width := BitVec.ofNat width (beNat bytes)

/-- A scalar as a scalar of a column's type. The engine's null of a type is a parameter. -/
def scalar (nullOf : DataType → Option ScalarValue) : TypedScalar → DataType → Option ScalarValue
  | .null, dataType => nullOf dataType
  | .boolean v, .boolean => some (.boolean v)
  | .int32 v, .int32 => some (.int32 v)
  | .int64 v, .int64 => some (.int64 v)
  | .float32 v, .float32 => some (.float32 v)
  | .float64 v, .float64 => some (.float64 v)
  | .date v, .date32 => some (.date32 v)
  | .timeMicros v, .time64Microsecond => some (.time64Microsecond v)
  | .timestampMicros v, .timestampMicrosecond none => some (.timestampMicrosecond v none)
  | .timestamptzMicros v, .timestampMicrosecond tz => some (.timestampMicrosecond v tz)
  | .string v, .utf8 => some (.utf8 v)
  | .string v, .utf8View => some (.utf8View v)
  | .binary v, .binary => some (.binary v)
  | .binary v, .binaryView => some (.binaryView v)
  | .fixed v, .fixedSizeBinary length =>
    if (v.length : ℤ) = length.toInt then some (.fixedSizeBinary length v) else none
  | .uuid v, .fixedSizeBinary length =>
    if length = 16 then some (.fixedSizeBinary 16 v.val) else none
  | .decimal precision scale unscaled, .decimal128 p s =>
    if precision.toNat = p.toNat ∧ (scale.toNat : ℤ) = s.toInt ∧ unscaled.length ≤ 16 then
      some (.decimal128 (fromBeBytes 128 (signExtended 16 unscaled)) p s)
    else none
  | .decimal precision scale unscaled, .decimal256 p s =>
    if precision.toNat ≤ 76 ∧ precision.toNat = p.toNat ∧ (scale.toNat : ℤ) = s.toInt ∧
        unscaled.length ≤ 32 then
      some (.decimal256 (fromBeBytes 256 (signExtended 32 unscaled)) p s)
    else none
  | _, _ => none

/-- The integer that a decimal scalar of the engine holds. -/
def ScalarValue.unscaled? : ScalarValue → Option ℤ
  | .decimal128 value _ _ => some value.toInt
  | .decimal256 value _ _ => some value.toInt
  | _ => none

/-- A fixed-width integer is the one that its bytes spell in two's complement. -/
theorem toInt_fromBeBytes {count : ℕ} {bytes : Bytes} (hne : bytes ≠ [])
    (hlength : bytes.length = count) :
    (fromBeBytes (8 * count) bytes).toInt = signedValue bytes := by
  have hwidth : 2 ^ (8 * count) = 256 ^ count := by rw [pow_mul]; norm_num
  obtain ⟨first, rest, rfl⟩ := List.exists_cons_of_ne_nil hne
  obtain ⟨hfalse, htrue⟩ := signedValue_bounds first rest
  have hhalf : (256 : ℤ) ^ count = 2 * (128 * 256 ^ rest.length) := by
    rw [← hlength, List.length_cons, pow_succ]
    ring
  have hlt := beNat_lt (first :: rest)
  rw [hlength] at hlt
  rw [fromBeBytes, BitVec.toInt_eq_toNat_cond, BitVec.toNat_ofNat, hwidth, Nat.mod_eq_of_lt hlt]
  rw [signedValue, hlength] at hfalse htrue ⊢
  cases hsign : negative (first :: rest) with
  | false =>
    have hbound := (hfalse hsign).2
    rw [hsign] at hbound
    simp only [Bool.false_eq_true, if_false] at hbound ⊢
    rw [if_pos (by zify; linarith)]
    ring
  | true =>
    have hbound := (htrue hsign).1
    rw [hsign] at hbound
    simp only [if_true] at hbound ⊢
    rw [if_neg (by zify; linarith)]
    push_cast
    ring

/-- The sign extension of bytes to a width keeps their integer, also when there are no bytes. -/
theorem toInt_signExtended {count : ℕ} (hpos : 0 < count) {unscaled : Bytes}
    (hlength : unscaled.length ≤ count) :
    (fromBeBytes (8 * count) (signExtended count unscaled)).toInt = signedValue unscaled := by
  have hsize : (signExtended count unscaled).length = count := by
    rw [signExtended, List.length_append, List.length_replicate]
    omega
  have hfilled : signExtended count unscaled ≠ [] := List.ne_nil_of_length_pos (by omega)
  rw [toInt_fromBeBytes hfilled hsize, signExtended, signedValue_extend]

/-- A decimal that is converted keeps its integer. -/
theorem scalar_decimal {nullOf : DataType → Option ScalarValue} {precision scale : UInt32}
    {unscaled : Bytes} {dataType : DataType} {value : ScalarValue}
    (h : scalar nullOf (.decimal precision scale unscaled) dataType = some value) :
    value.unscaled? = some (signedValue unscaled) := by
  cases dataType with
  | decimal128 p s =>
    obtain ⟨⟨-, -, hlength⟩, h⟩ := Option.ite_none_right_eq_some.mp h
    cases h
    exact congrArg some (toInt_signExtended (by decide) hlength)
  | decimal256 p s =>
    obtain ⟨⟨-, -, -, hlength⟩, h⟩ := Option.ite_none_right_eq_some.mp h
    cases h
    exact congrArg some (toInt_signExtended (by decide) hlength)
  | _ => cases h

/-- Decimals are in order. Every integer has exactly one accepted byte string; decimals of one
precision and scale compare as their integers, which makes the comparison a total order on them;
and a decimal that becomes a scalar of the engine keeps its integer, so the conversion preserves
and reflects the order. -/
theorem decimal_order :
    (∀ n : ℤ, ∃! bytes, minimalTwosComplement bytes = true ∧ signedValue bytes = n) ∧
    (∀ (p s : UInt32) (a b : Bytes), minimalTwosComplement a = true →
      minimalTwosComplement b = true →
      (TypedScalar.decimal p s a).partialCmpSameType (.decimal p s b) =
          some (compare (signedValue a) (signedValue b)) ∧
        signedBytesCmp a b = some (compare (signedValue a) (signedValue b)) ∧
        (signedBytesCmp b a = (signedBytesCmp a b).map Ordering.swap) ∧
        (signedBytesCmp a b = some .eq ↔ a = b)) ∧
    (∀ a b c : Bytes, minimalTwosComplement a = true → minimalTwosComplement b = true →
      minimalTwosComplement c = true → signedBytesCmp a b ≠ some .gt →
      signedBytesCmp b c ≠ some .gt → signedBytesCmp a c ≠ some .gt) ∧
    ∀ (nullOf : DataType → Option ScalarValue) (p s : UInt32) (a b : Bytes) (dataType : DataType)
      (v w : ScalarValue), minimalTwosComplement a = true → minimalTwosComplement b = true →
      scalar nullOf (.decimal p s a) dataType = some v →
      scalar nullOf (.decimal p s b) dataType = some w →
      ∃ x y, v.unscaled? = some x ∧ w.unscaled? = some y ∧ x = signedValue a ∧
        y = signedValue b ∧
        (TypedScalar.decimal p s a).partialCmpSameType (.decimal p s b) = some (compare x y) := by
  have hcmp : ∀ {a b : Bytes}, minimalTwosComplement a = true → minimalTwosComplement b = true →
      signedBytesCmp a b = some (compare (signedValue a) (signedValue b)) := fun ha hb =>
    signedBytesCmp_eq (minimalTwosComplement_iff.mp ha) (minimalTwosComplement_iff.mp hb)
  have hcompare : ∀ (p s : UInt32) (a b : Bytes),
      (TypedScalar.decimal p s a).partialCmpSameType (.decimal p s b) = signedBytesCmp a b :=
    fun p s a b => if_pos ⟨rfl, rfl⟩
  refine ⟨fun n => ?_, fun p s a b ha hb => ⟨?_, hcmp ha hb, ?_, ?_⟩,
    fun a b c ha hb hc hab hbc => ?_, fun nullOf p s a b dataType v w ha hb hv hw => ?_⟩
  · obtain ⟨bytes, hminimal, hvalue⟩ := exists_minimal n
    refine ⟨bytes, ⟨minimalTwosComplement_iff.mpr hminimal, hvalue⟩, fun other hother => ?_⟩
    have hother' := minimalTwosComplement_iff.mp hother.1
    exact hother'.eq_of_signedValue hminimal (hother.2.trans hvalue.symm)
  · rw [hcompare, hcmp ha hb]
  · rw [hcmp ha hb, hcmp hb ha, Option.map_some, Int.compare_swap]
  · rw [hcmp ha hb, Option.some.injEq, compare_eq_iff_eq]
    have ha := minimalTwosComplement_iff.mp ha
    have hb := minimalTwosComplement_iff.mp hb
    exact ⟨ha.eq_of_signedValue hb, congrArg signedValue⟩
  · rw [hcmp ha hb, ne_eq, Option.some.injEq, compare_gt_iff_gt, not_lt] at hab
    rw [hcmp hb hc, ne_eq, Option.some.injEq, compare_gt_iff_gt, not_lt] at hbc
    rw [hcmp ha hc, ne_eq, Option.some.injEq, compare_gt_iff_gt, not_lt]
    exact hab.trans hbc
  · have hv := scalar_decimal hv
    have hw := scalar_decimal hw
    exact ⟨_, _, hv, hw, rfl, rfl, (hcompare p s a b).trans (hcmp ha hb)⟩

/-- Of two negative decimals the one with more bytes is smaller, also after the conversion. -/
theorem decimal_order_negative : ∃ x y,
    (ScalarValue.decimal128 (fromBeBytes 128 (signExtended 16 [0xff, 0x7f])) 9 2).unscaled? =
      some x ∧
    (ScalarValue.decimal128 (fromBeBytes 128 (signExtended 16 [0x80])) 9 2).unscaled? = some y ∧
    x = -129 ∧ y = -128 ∧
    (TypedScalar.decimal 9 2 [0xff, 0x7f]).partialCmpSameType (.decimal 9 2 [0x80]) =
      some (compare x y) :=
  decimal_order.2.2.2 (fun _ => none) 9 2 [0xff, 0x7f] [0x80] (.decimal128 9 2) _ _ rfl rfl rfl rfl

end Otmp.DataFusion
