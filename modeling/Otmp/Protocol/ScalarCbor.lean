import Otmp.Foundation.Cbor
import Otmp.Protocol.Objects
import Otmp.Protocol.TypedScalar

/-!
# Scalars in CBOR, and their order

Metric bounds and partition tuples are stored in CBOR. Bounds of one type are
compared; floating-point values compare by sign and magnitude of their bits.
-/

namespace Otmp

open Foundation Foundation.Cbor

/-- Whether a shortest two's complement integer is greater than another. -/
def signedBytesExceed (left right : Bytes) : Bool :=
  match left, right with
  | l :: _, r :: _ =>
    match decide (128 ≤ l.toNat), decide (128 ≤ r.toNat) with
    | true, false => false
    | false, true => true
    | false, false => decide (left.length > right.length) ||
        (left.length == right.length && decide (left > right))
    | true, true => decide (right.length > left.length) ||
        (left.length == right.length && decide (left > right))
  | _, _ => false

/-- The signed magnitude of a 32-bit float, which orders floats as numbers, with both zeros equal.
-/
def f32Magnitude (bits : UInt32) : ℤ :=
  if bits.toNat < 2147483648 then bits.toNat else -((bits.toNat : ℤ) - 2147483648)

/-- The signed magnitude of a 64-bit float, which orders floats as numbers, with both zeros equal.
-/
def f64Magnitude (bits : UInt64) : ℤ :=
  if bits.toNat < 9223372036854775808 then bits.toNat
  else -((bits.toNat : ℤ) - 9223372036854775808)

namespace TypedScalar

/-- The codes and payloads of scalars; a NaN is written as the canonical one. -/
def cborPayload : TypedScalar → ℕ × Bytes
  | .null => (0, [0xf6])
  | .boolean value => (1, [if value then 0xf5 else 0xf4])
  | .int32 value => (2, integer value.toInt)
  | .int64 value => (3, integer value.toInt)
  | .float32 bits =>
    (4, byteString (beBytes 4 (if f32IsNan bits then 0x7fc00000 else bits.toNat)))
  | .float64 bits =>
    (5, byteString (beBytes 8 (if f64IsNan bits then 0x7ff8000000000000 else bits.toNat)))
  | .decimal precision scale unscaled =>
    (6, arrayLen 3 ++ unsigned precision.toNat ++ unsigned scale.toNat ++ byteString unscaled)
  | .date value => (7, integer value.toInt)
  | .timeMicros value => (8, integer value.toInt)
  | .timestampMicros value => (9, integer value.toInt)
  | .timestamptzMicros value => (10, integer value.toInt)
  | .string value => (11, text value)
  | .binary value => (12, byteString value)
  | .fixed value => (13, byteString value)
  | .uuid value => (14, byteString value.val)

/-- Whether a scalar is greater than another of its type. -/
def exceeds : TypedScalar → TypedScalar → Bool
  | .boolean left, .boolean right => left && !right
  | .int32 left, .int32 right | .date left, .date right => left.toInt > right.toInt
  | .int64 left, .int64 right | .timeMicros left, .timeMicros right
  | .timestampMicros left, .timestampMicros right
  | .timestamptzMicros left, .timestamptzMicros right => left.toInt > right.toInt
  | .float32 left, .float32 right =>
    !f32IsNan left && !f32IsNan right && decide (f32Magnitude left > f32Magnitude right)
  | .float64 left, .float64 right =>
    !f64IsNan left && !f64IsNan right && decide (f64Magnitude left > f64Magnitude right)
  | .string left, .string right => left > right
  | .binary left, .binary right | .fixed left, .fixed right => left > right
  | .uuid left, .uuid right => left.val > right.val
  | .decimal leftPrecision leftScale left, .decimal rightPrecision rightScale right =>
    leftPrecision == rightPrecision && leftScale == rightScale &&
      signedBytesExceed left right
  | _, _ => false

end TypedScalar

/-- `encode_typed_scalar`: a pair of the type's code and the payload. -/
def encodeTypedScalar (value : TypedScalar) : Bytes :=
  arrayLen 2 ++ unsigned value.cborPayload.1 ++ value.cborPayload.2

/-- `encode_partition_tuple`: a map from field identifiers to scalars, in the order given. -/
def encodePartitionTuple (values : List (UInt32 × TypedScalar)) : Bytes :=
  mapLen values.length ++
    values.flatMap fun entry => unsigned entry.1.toNat ++ encodeTypedScalar entry.2

/-- The hash of a partition tuple, over its label, the partition spec and the tuple's bytes. -/
def partitionHash (digest : Digest) (partitionSpecId : UInt32) (tupleCbor : Bytes) : Sha256 :=
  digest (label "OTMP-PARTITION" ++ beBytes 4 partitionSpecId.toNat ++ tupleCbor)

end Otmp
