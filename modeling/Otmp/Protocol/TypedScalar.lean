import Otmp.Protocol.Value

/-!
# Typed scalars

Defaults of fields and bounds of metrics are typed scalars. Their JSON form
spells 64-bit integers as decimal strings, floating-point values as their bits
and byte strings in hexadecimal. Serialization maps every NaN to one bit pattern;
up to that, the form reads back.
-/

namespace Otmp

open Foundation CanonicalValue

/-- A scalar value together with its type. Floating-point values are bit patterns. -/
inductive TypedScalar where
  | null
  | boolean (value : Bool)
  | int32 (value : Int32)
  | int64 (value : Int64)
  | float32 (bits : UInt32)
  | float64 (bits : UInt64)
  | decimal (precision scale : UInt32) (unscaled : Bytes)
  | date (value : Int32)
  | timeMicros (value : Int64)
  | timestampMicros (value : Int64)
  | timestamptzMicros (value : Int64)
  | string (value : String)
  | binary (value : Bytes)
  | fixed (value : Bytes)
  | uuid (value : UuidValue)
  deriving DecidableEq, Repr

/-- A 32-bit pattern with all exponent bits set and a nonzero fraction. -/
def f32IsNan (bits : UInt32) : Bool := bits.toNat % 2 ^ 31 > 0x7f800000

/-- A 64-bit pattern with all exponent bits set and a nonzero fraction. -/
def f64IsNan (bits : UInt64) : Bool := bits.toNat % 2 ^ 63 > 0x7ff0000000000000

/-- Equality of 32-bit floats: NaN differs from everything, the two zeros are equal. -/
def f32Eq (a b : UInt32) : Bool :=
  !f32IsNan a && !f32IsNan b && (a == b || (a.toNat % 2 ^ 31 == 0 && b.toNat % 2 ^ 31 == 0))

/-- Equality of 64-bit floats: NaN differs from everything, the two zeros are equal. -/
def f64Eq (a b : UInt64) : Bool :=
  !f64IsNan a && !f64IsNan b && (a == b || (a.toNat % 2 ^ 63 == 0 && b.toNat % 2 ^ 63 == 0))

/-- A byte string is the shortest two's complement form of its integer. -/
def minimalTwosComplement : Bytes → Bool
  | [] => false
  | [_] => true
  | first :: second :: _ =>
    !(first.toNat == 0 && second.toNat < 128) && !(first.toNat == 255 && second.toNat ≥ 128)

/-- The check of a decimal string for a redundant sign or leading zero. -/
def redundantDecimal (cs : List Char) : Bool :=
  match cs with
  | '+' :: _ => true
  | '0' :: _ :: _ => true
  | '-' :: '0' :: _ => true
  | _ => false

namespace TypedScalar

/-- Equality of scalars as the source derives it, with floating-point equality. -/
def eq : TypedScalar → TypedScalar → Bool
  | .float32 a, .float32 b => f32Eq a b
  | .float64 a, .float64 b => f64Eq a b
  | a, b => a == b

/-- A scalar that holds a NaN, whichever of the bit patterns it has. -/
def isNan : TypedScalar → Bool
  | .float32 bits => f32IsNan bits
  | .float64 bits => f64IsNan bits
  | _ => false

/-- Replace a NaN by the canonical one; any other scalar stays as it is. -/
def canonNan : TypedScalar → TypedScalar
  | .float32 bits => .float32 (if f32IsNan bits then 0x7fc00000 else bits)
  | .float64 bits => .float64 (if f64IsNan bits then 0x7ff8000000000000 else bits)
  | value => value

/-- The range checks of scalars: a decimal's digits and shortest bytes, and a time within one day.
-/
def validate : TypedScalar → Except ProtocolError Unit
  | .decimal precision scale unscaled =>
    if precision = 0 ∨ scale > precision ∨ !minimalTwosComplement unscaled then
      .error (.invalidObject "invalid decimal scalar")
    else
      .ok ()
  | .timeMicros value =>
    if 0 ≤ value.toInt ∧ value.toInt < 86400000000 then .ok ()
    else .error (.invalidObject "time_micros is outside one day")
  | _ => .ok ()

/-- The name of a scalar's type, which its JSON form carries. -/
def typeName : TypedScalar → String
  | .null => "null"
  | .boolean _ => "boolean"
  | .int32 _ => "int32"
  | .int64 _ => "int64"
  | .float32 _ => "float32"
  | .float64 _ => "float64"
  | .decimal _ _ _ => "decimal"
  | .date _ => "date"
  | .timeMicros _ => "time_micros"
  | .timestampMicros _ => "timestamp_micros"
  | .timestamptzMicros _ => "timestamptz_micros"
  | .string _ => "string"
  | .binary _ => "binary"
  | .fixed _ => "fixed"
  | .uuid _ => "uuid"

/-- A 64-bit integer as a decimal string, as JSON numbers are not exact there. -/
def int64Value (value : Int64) : CanonicalValue := .string (String.ofList (decimalInt value.toInt))

/-- A bit pattern as `0x` and a fixed count of hexadecimal digits. -/
def bitsValue (digits bits : ℕ) : CanonicalValue :=
  .string (String.ofList ('0' :: 'x' :: hexFixed digits bits))

/-- A byte string in lower-case hexadecimal. -/
def bytesValue (bytes : Bytes) : CanonicalValue := .string (String.ofList (hexEncode bytes))

/-- The `value` member of a scalar; a null has none. -/
def payload : TypedScalar → Option CanonicalValue
  | .null => none
  | .boolean value => some (.bool value)
  | .int32 value | .date value => some (.integer value.toInt)
  | .int64 value | .timeMicros value | .timestampMicros value | .timestamptzMicros value =>
    some (int64Value value)
  | .float32 bits => some (bitsValue 8 (if f32IsNan bits then 0x7fc00000 else bits.toNat))
  | .float64 bits => some (bitsValue 16 (if f64IsNan bits then 0x7ff8000000000000 else bits.toNat))
  | .decimal precision scale unscaled =>
    some (.object [("precision", .integer precision.toNat), ("scale", .integer scale.toNat),
      ("unscaled_hex", bytesValue unscaled)])
  | .string value => some (.string value)
  | .binary value | .fixed value => some (bytesValue value)
  | .uuid value => some (.string value.format)

/-- The JSON form of a scalar: its type, and its value unless it is null. -/
def toValue (scalar : TypedScalar) : CanonicalValue :=
  .object (members
    [("type", some (.string scalar.typeName)), ("value", scalar.payload)])

/-- A required string; an absent member and one of another kind are errors. -/
def takeString : Option CanonicalValue → Except ProtocolError String
  | some (.string value) => .ok value
  | _ => deError "expected string"

/-- A required boolean; an absent member and one of another kind are errors. -/
def takeBool : Option CanonicalValue → Except ProtocolError Bool
  | some (.bool value) => .ok value
  | _ => deError "expected boolean"

/-- A required integer of 32 bits, written as a JSON integer. -/
def takeI32 : Option CanonicalValue → Except ProtocolError Int32
  | some (.integer value) =>
    if -2147483648 ≤ value ∧ value < 2147483648 then .ok (Int32.ofInt value)
    else deError "int32 out of range"
  | _ => deError "expected integer"

/-- A required decimal string of 64 bits, without redundant sign or zeros. -/
def takeI64 : Option CanonicalValue → Except ProtocolError Int64
  | some (.string text) =>
    if redundantDecimal text.toList then deError "expected decimal string"
    else
      match decimalInt? text.toList with
      | some value =>
        if -9223372036854775808 ≤ value ∧ value < 9223372036854775808 then .ok (Int64.ofInt value)
        else deError "invalid int64 decimal string"
      | none => deError "invalid int64 decimal string"
  | _ => deError "expected decimal string"

/-- A required unsigned integer of 32 bits, written as a JSON integer. -/
def takeU32 (key : String) : Option CanonicalValue → Except ProtocolError UInt32
  | some (.integer value) =>
    if 0 ≤ value ∧ value < 4294967296 then .ok (UInt32.ofNat value.toNat)
    else deError (key ++ " out of range")
  | _ => deError ("missing integer " ++ key)

/-- A required bit pattern of fixed width in lower-case hexadecimal. -/
def takeHex (digits : ℕ) (value : Option CanonicalValue) : Except ProtocolError ℕ := do
  let text ← takeString value
  match text.toList with
  | '0' :: 'x' :: hex =>
    if hex.length ≠ digits ∨ !hex.all isLowerHex then
      deError "float bits must be fixed-width lowercase hex"
    else
      match hexNat? hex with
      | some bits => .ok bits
      | none => deError "invalid digit found in string"
  | _ => deError "float bits require 0x prefix"

/-- A required byte string in hexadecimal, of either case. -/
def takeBytes (value : Option CanonicalValue) : Except ProtocolError Bytes := do
  let text ← takeString value
  match hexDecode? text.toList with
  | some bytes => .ok bytes
  | none => deError "invalid hexadecimal text"

/-- The value of a decimal scalar: an object of precision, scale and unscaled bytes. -/
def takeDecimal : Option CanonicalValue → Except ProtocolError TypedScalar
  | some (.object ms) => do
    let precision ← takeU32 "precision" (get? "precision" ms)
    let scale ← takeU32 "scale" (get? "scale" ms)
    let unscaled ← takeBytes (get? "unscaled_hex" ms)
    if knownKeys ["precision", "scale", "unscaled_hex"] ms then
      .ok (.decimal precision scale unscaled)
    else
      deError "unknown decimal field"
  | _ => deError "decimal value must be an object"

/-- Read the value of a scalar of the named type. -/
def ofPayload (typeName : String) (value : Option CanonicalValue) :
    Except ProtocolError TypedScalar :=
  if typeName = "null" ∧ value.isNone then .ok .null
  else if typeName = "boolean" then (takeBool value).map .boolean
  else if typeName = "int32" then (takeI32 value).map .int32
  else if typeName = "int64" then (takeI64 value).map .int64
  else if typeName = "float32" then (takeHex 8 value).map fun bits => .float32 (UInt32.ofNat bits)
  else if typeName = "float64" then (takeHex 16 value).map fun bits => .float64 (UInt64.ofNat bits)
  else if typeName = "decimal" then takeDecimal value
  else if typeName = "date" then (takeI32 value).map .date
  else if typeName = "time_micros" then (takeI64 value).map .timeMicros
  else if typeName = "timestamp_micros" then (takeI64 value).map .timestampMicros
  else if typeName = "timestamptz_micros" then (takeI64 value).map .timestamptzMicros
  else if typeName = "string" then (takeString value).map .string
  else if typeName = "binary" then (takeBytes value).map .binary
  else if typeName = "fixed" then (takeBytes value).map .fixed
  else if typeName = "uuid" then do
    let text ← takeString value
    let id ← UuidValue.parse text
    return .uuid id
  else deError "invalid typed scalar shape"

/-- Read a scalar; unknown members and values out of range are refused. -/
def ofValue : CanonicalValue → Except ProtocolError TypedScalar
  | .object ms => do
    let typeName ← takeString (get? "type" ms)
    if knownKeys ["type", "value"] ms then
      let scalar ← ofPayload typeName (get? "value" ms)
      scalar.validate
      return scalar
    else
      deError "unknown typed scalar field"
  | _ => deError "typed scalar must be an object"

/-- A 32-bit integer reads back. -/
theorem takeI32_toInt (value : Int32) : takeI32 (some (.integer value.toInt)) = .ok value := by
  have hlow := value.le_toInt
  have hhigh := value.toInt_lt
  rw [takeI32, if_pos ⟨hlow, hhigh⟩, Int32.ofInt_toInt]

/-- The decimal text of an integer has no redundant sign or zeros. -/
theorem redundantDecimal_decimalInt (n : ℤ) : redundantDecimal (decimalInt n) = false := by
  unfold decimalInt
  split
  · rename_i hneg
    obtain ⟨c, cs, hcons, -⟩ := toDigits_eq_cons n.natAbs
    rw [hcons]
    have hzero : c ≠ '0' := by
      rintro rfl
      have := toDigits_head_zero hcons
      omega
    simp [redundantDecimal, hzero]
  · obtain ⟨c, cs, hcons, hdigit⟩ := toDigits_eq_cons n.natAbs
    rw [hcons]
    by_cases hzero : c = '0'
    · subst hzero
      have hn := toDigits_head_zero hcons
      rw [hn, Nat.toDigits_zero] at hcons
      cases hcons
      rfl
    · have hplus : c ≠ '+' := by
        rintro rfl
        exact absurd hdigit (by decide)
      have hminus : c ≠ '-' := by
        rintro rfl
        exact absurd hdigit (by decide)
      unfold redundantDecimal
      split <;> simp_all

/-- A 64-bit integer reads back. -/
theorem takeI64_int64Value (value : Int64) : takeI64 (some (int64Value value)) = .ok value := by
  have hlow := value.le_toInt
  have hhigh := value.toInt_lt
  simp only [int64Value, takeI64, String.toList_ofList, redundantDecimal_decimalInt,
    Bool.false_eq_true, if_false, decimalInt?_decimalInt]
  rw [if_pos ⟨hlow, hhigh⟩, Int64.ofInt_toInt]

/-- An unsigned 32-bit integer reads back. -/
theorem takeU32_toNat (key : String) (value : UInt32) :
    takeU32 key (some (.integer value.toNat)) = .ok value := by
  have hvalue := value.toNat_lt
  rw [takeU32, if_pos (by omega), Int.toNat_natCast, UInt32.ofNat_toNat]

/-- A bit pattern reads back. -/
theorem takeHex_bitsValue {digits bits : ℕ} (hbits : bits < 16 ^ digits) :
    takeHex digits (some (bitsValue digits bits)) = .ok bits := by
  have hlower : (hexFixed digits bits).all isLowerHex = true := by
    rw [List.all_eq_true]
    exact fun c hc => isLowerHex_of_mem_hexFixed hc
  simp [takeHex, takeString, bitsValue, String.toList_ofList, hlower, hexNat?_hexFixed hbits,
    Bind.bind, Except.bind]

/-- A byte string reads back. -/
theorem takeBytes_bytesValue (bytes : Bytes) : takeBytes (some (bytesValue bytes)) = .ok bytes := by
  simp [takeBytes, takeString, bytesValue, String.toList_ofList, hexDecode?_hexEncode,
    Bind.bind, Except.bind]

/-- A 32-bit float is read from eight hexadecimal digits. -/
private theorem ofPayload_float32 (value : Option CanonicalValue) :
    ofPayload "float32" value =
      (takeHex 8 value).map fun bits => .float32 (UInt32.ofNat bits) := by
  simp [ofPayload]

/-- A 64-bit float is read from sixteen hexadecimal digits. -/
private theorem ofPayload_float64 (value : Option CanonicalValue) :
    ofPayload "float64" value =
      (takeHex 16 value).map fun bits => .float64 (UInt64.ofNat bits) := by
  simp [ofPayload]

/-- The value of a decimal scalar reads back. -/
theorem takeDecimal_object (precision scale : UInt32) (unscaled : Bytes) :
    takeDecimal (some (.object [("precision", .integer precision.toNat),
      ("scale", .integer scale.toNat), ("unscaled_hex", bytesValue unscaled)])) =
      .ok (.decimal precision scale unscaled) := by
  have hprecision : ("precision" : String) ≠ "scale" := by decide
  have hhex : ("precision" : String) ≠ "unscaled_hex" := by decide
  have hscale : ("scale" : String) ≠ "unscaled_hex" := by decide
  rw [takeDecimal, get?_cons_self, get?_cons_ne hprecision, get?_cons_self, get?_cons_ne hhex,
    get?_cons_ne hscale, get?_cons_self, takeU32_toNat, takeU32_toNat, takeBytes_bytesValue]
  simp [Bind.bind, Except.bind, knownKeys]

/-- The value of a scalar reads back, up to the choice of the NaN. -/
theorem ofPayload_payload (scalar : TypedScalar) :
    ofPayload scalar.typeName scalar.payload = .ok scalar.canonNan := by
  cases scalar with
  | null => simp [ofPayload, payload, typeName, canonNan]
  | boolean value => simp [ofPayload, payload, typeName, takeBool, Except.map, canonNan]
  | int32 value =>
    simp [ofPayload, payload, typeName, takeI32_toInt, Except.map, canonNan]
  | int64 value =>
    simp [ofPayload, payload, typeName, takeI64_int64Value, Except.map, canonNan]
  | float32 bits =>
    have hbits : (if f32IsNan bits then 0x7fc00000 else bits.toNat) < 16 ^ 8 := by
      have := bits.toNat_lt
      split <;> omega
    rw [typeName, payload, ofPayload_float32, takeHex_bitsValue hbits, Except.map, canonNan]
    by_cases hnan : f32IsNan bits = true
    · rw [if_pos hnan, if_pos hnan]
      rfl
    · rw [if_neg hnan, if_neg hnan, UInt32.ofNat_toNat]
  | float64 bits =>
    have hbits : (if f64IsNan bits then 0x7ff8000000000000 else bits.toNat) < 16 ^ 16 := by
      have := bits.toNat_lt
      split <;> omega
    rw [typeName, payload, ofPayload_float64, takeHex_bitsValue hbits, Except.map, canonNan]
    by_cases hnan : f64IsNan bits = true
    · rw [if_pos hnan, if_pos hnan]
      rfl
    · rw [if_neg hnan, if_neg hnan, UInt64.ofNat_toNat]
  | decimal precision scale unscaled =>
    simp [ofPayload, payload, typeName, takeDecimal_object, canonNan]
  | date value =>
    simp [ofPayload, payload, typeName, takeI32_toInt, Except.map, canonNan]
  | timeMicros value =>
    simp [ofPayload, payload, typeName, takeI64_int64Value, Except.map, canonNan]
  | timestampMicros value =>
    simp [ofPayload, payload, typeName, takeI64_int64Value, Except.map, canonNan]
  | timestamptzMicros value =>
    simp [ofPayload, payload, typeName, takeI64_int64Value, Except.map, canonNan]
  | string value => simp [ofPayload, payload, typeName, takeString, Except.map, canonNan]
  | binary value =>
    simp [ofPayload, payload, typeName, takeBytes_bytesValue, Except.map, canonNan]
  | fixed value =>
    simp [ofPayload, payload, typeName, takeBytes_bytesValue, Except.map, canonNan]
  | uuid value =>
    simp [ofPayload, payload, typeName, takeString, UuidValue.parse_format, canonNan,
      Bind.bind, Except.bind, Pure.pure, Except.pure]

/-- The canonical NaN passes the same checks. -/
@[simp] theorem validate_canonNan (scalar : TypedScalar) :
    scalar.canonNan.validate = scalar.validate := by
  cases scalar <;> rfl

/-- A valid scalar reads back, up to the choice of the NaN. -/
theorem ofValue_toValue {scalar : TypedScalar} (hvalid : scalar.validate = .ok ()) :
    ofValue scalar.toValue = .ok scalar.canonNan := by
  have hpayload := ofPayload_payload scalar
  unfold toValue ofValue members
  cases hvalue : scalar.payload with
  | none =>
    rw [hvalue] at hpayload
    simp [get?, takeString, knownKeys, hpayload, hvalid,
      Bind.bind, Except.bind, Pure.pure, Except.pure]
  | some value =>
    rw [hvalue] at hpayload
    simp [get?, takeString, knownKeys, hpayload, hvalid,
      Bind.bind, Except.bind, Pure.pure, Except.pure]

/-- The canonical NaN is a NaN. -/
@[simp] theorem isNan_canonNan (scalar : TypedScalar) : scalar.canonNan.isNan = scalar.isNan := by
  cases scalar with
  | float32 bits =>
    simp only [canonNan, isNan]
    split
    · rename_i h
      rw [h]
      decide
    · rfl
  | float64 bits =>
    simp only [canonNan, isNan]
    split
    · rename_i h
      rw [h]
      decide
    · rfl
  | _ => rfl

/-- A scalar without NaN is unchanged. -/
theorem canonNan_eq_self {scalar : TypedScalar} (h : scalar.isNan = false) :
    scalar.canonNan = scalar := by
  cases scalar with
  | float32 bits =>
    simp only [isNan] at h
    simp [canonNan, h]
  | float64 bits =>
    simp only [isNan] at h
    simp [canonNan, h]
  | _ => rfl

/-- The NaN choice is made once: writing a scalar and choosing its NaN first is writing it. -/
@[simp] theorem toValue_canonNan (scalar : TypedScalar) :
    scalar.canonNan.toValue = scalar.toValue := by
  by_cases h : scalar.isNan = false
  · rw [canonNan_eq_self h]
  · cases scalar with
    | float32 bits =>
      simp only [isNan, Bool.not_eq_false] at h
      simp only [canonNan, h, if_true]
      simp only [toValue, typeName, payload, h, if_true]
      rfl
    | float64 bits =>
      simp only [isNan, Bool.not_eq_false] at h
      simp only [canonNan, h, if_true]
      simp only [toValue, typeName, payload, h, if_true]
      rfl
    | _ => rfl

/-- A scalar equals itself exactly when it is not a NaN. -/
theorem eq_self (scalar : TypedScalar) : scalar.eq scalar = !scalar.isNan := by
  cases scalar with
  | float32 bits =>
    simp [eq, isNan, f32Eq]
  | float64 bits =>
    simp [eq, isNan, f64Eq]
  | _ => simp [eq, isNan]

end TypedScalar

end Otmp
