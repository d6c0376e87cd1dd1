import Otmp.Basic
import Otmp.Foundation.CompactThrift
import Otmp.Foundation.Recognizers

/-!
# The bounds check of Parquet footers

Before a footer is decoded, a recursive walk checks that it is one compact-Thrift struct of
limited nesting. The walk compares each declared length or count with the bytes that remain
before it reads what was declared; this refuses nothing that the grammar admits.
-/

namespace Otmp.DataFusion

open Foundation

/-- An error of the Parquet library, which carries nothing but its text. -/
inductive ParquetError where
  | general (message : String)
  deriving DecidableEq

/-- A slice of bytes; the language bounds its length. -/
abbrev ByteSlice := {bytes : Bytes // bytes.length < 2 ^ 63}

namespace FooterBounds

/-- The error that every refused footer is reported with. -/
def invalid : ParquetError := .general "invalid or excessive Parquet footer container bounds"

section Input

variable (bytes : Bytes)

/-- Read a byte and move behind it; a footer that ends here is refused. -/
def byte (start : ℕ) : Except (Fault ParquetError) (UInt8 × ℕ) := do
  let value ← orRefuse invalid bytes[start]?
  let next ← addOrPanic start 1
  return (value, next)

/-- Move over bytes without looking at them, as long as the footer has that many. -/
def skip (count start : ℕ) : Except (Fault ParquetError) ℕ :=
  orRefuse invalid ((checkedAdd start count).filter fun stop => stop ≤ bytes.length)

/-- Read the groups of a number; a shift is that of the next group. -/
def integerFrom : ℕ → ℕ → UInt64 → ℕ → Except (Fault ParquetError) (UInt64 × ℕ)
  | 0, _, _, _ => .error (.refused invalid)
  | groups + 1, shift, value, start => do
    let (byte, next) ← byte bytes start
    refuseIf (shift = 63 ∧ byte > 1) invalid
    let value := value ||| ((byte &&& 127).toUInt64 <<< UInt64.ofNat shift)
    if byte < 128 then return (value, next)
    else integerFrom groups (shift + 7) value next

/-- Read a number of at most ten groups of seven bits, the least significant group first. -/
def integer (start : ℕ) : Except (Fault ParquetError) (UInt64 × ℕ) := integerFrom bytes 10 0 0 start

/-- A count has to fit the bytes that remain. -/
def count (count start : ℕ) : Except (Fault ParquetError) ℕ := do
  let remaining ← subOrPanic bytes.length start
  refuseIf (remaining < count) invalid
  return count

/-- Move over the identifier of a field, which a header without a difference leaves to a number. -/
def fieldId (header : UInt8) (start : ℕ) : Except (Fault ParquetError) ℕ :=
  if header >>> 4 = 0 then (integer bytes start).map Prod.snd else .ok start

/-- Read the number of elements of a list, from the head or, when it says fifteen, from behind it.
-/
def listSize (header : UInt8) (start : ℕ) : Except (Fault ParquetError) (UInt64 × ℕ) :=
  if header >>> 4 = 15 then integer bytes start else .ok ((header >>> 4).toUInt64, start)

/-- The fields of a struct, for a bounded number of passes. A walk that runs out of passes counts
as a panic. -/
def fields (value : UInt8 → ℕ → Except (Fault ParquetError) ℕ) :
    ℕ → ℕ → Except (Fault ParquetError) ℕ
  | 0, _ => .error .panicked
  | passes + 1, start => do
    let (header, next) ← byte bytes start
    if header = 0 then return next
    else do
      let next ← fieldId bytes header next
      let next ← value header next
      fields value passes next

/-- Move over a value of a kind, with everything nested in it, to a depth of at most 64. -/
def value (kind : ℕ) (field : Bool) (depth start : ℕ) : Except (Fault ParquetError) ℕ :=
  if _ : depth > 64 then .error (.refused invalid)
  else
    match kind with
    | 1 | 2 =>
      if field then .ok start
      else do
        let (byte, next) ← byte bytes start
        refuseIf (¬(byte = 1 ∨ byte = 2)) invalid
        return next
    | 3 => skip bytes 1 start
    | 4 | 5 | 6 => (integer bytes start).map Prod.snd
    | 7 => skip bytes 8 start
    | 8 => do
      let (length, next) ← integer bytes start
      let length ← count bytes length.toNat next
      skip bytes length next
    | 9 | 10 => do
      let (header, next) ← byte bytes start
      let (declared, next) ← listSize bytes header next
      let declared ← count bytes declared.toNat next
      repeatFrom (fun start => value (header &&& 15).toNat false (depth + 1) start) declared next
    | 11 => do
      let (declared, next) ← integer bytes start
      if declared = 0 then return next
      else do
        let (kinds, next) ← byte bytes next
        let doubled ← orRefuse invalid (checkedMul declared.toNat 2)
        let declared ← count bytes doubled next
        repeatFrom (fun start => do
          let next ← value (kinds >>> 4).toNat false (depth + 1) start
          value (kinds &&& 15).toNat false (depth + 1) next) (declared / 2) next
    | 12 =>
      fields bytes (fun header start => value (header &&& 15).toNat true (depth + 1) start)
        (bytes.length - start + 1) start
    | 13 => skip bytes 16 start
    | _ => .error (.refused invalid)
termination_by 65 - depth

end Input

/-- `validate`: a footer is one struct and nothing else, so its stop byte is the last one. -/
def validate (bytes : ByteSlice) : Except (Fault ParquetError) Unit := do
  let stop ← value bytes.val 12 true 0 0
  refuseIf (stop ≠ bytes.val.length) invalid

end FooterBounds

end Otmp.DataFusion
