import Mathlib.Data.List.Perm.Subperm
import Otmp.Foundation.CborReaders
import Otmp.Protocol.ScalarCbor

/-!
# Reading scalars and partition tuples from CBOR

The decoders invert the encoders: a scalar is read back with every NaN replaced by the
canonical one, and only encodings of valid scalars are accepted. An encoding says where
it ends, so no strict prefix and no extension of one is accepted.
-/

namespace Otmp

open Foundation Foundation.Cbor

variable {message : String}

/-- An integer payload of 32 bits; one that does not fit is refused with the message. -/
def readInt32 (message : String) : Decoder ProtocolError Int32 := do
  let value ← readInteger .invalidCbor
  if ¬(-2147483648 ≤ value ∧ value < 2147483648) then throw (.invalidCbor message)
  else return Int32.ofInt value

/-- An integer payload of 64 bits; one that does not fit is refused. -/
def readInt64 : Decoder ProtocolError Int64 := do
  let value ← readInteger .invalidCbor
  return Int64.ofInt value

/-- An unsigned integer of 32 bits; one that does not fit is refused with the message. -/
def readUInt32 (message : String) : Decoder ProtocolError UInt32 := do
  let value ← readUnsigned .invalidCbor
  if 4294967296 ≤ value then throw (.invalidCbor message)
  else return UInt32.ofNat value

/-- A byte string of a given length; any other length is refused with the message. -/
def readFixedBytes (length : ℕ) (message : String) : Decoder ProtocolError Bytes := do
  let bytes ← readByteString .invalidCbor
  if bytes.length ≠ length then throw (.invalidCbor message)
  else return bytes

/-- Reading a signed 32-bit integer inverts writing it in the shortest form. -/
theorem readInt32_inverts :
    Inverts (readInt32 message) (fun value => integer value.toInt) (fun _ => True) where
  reads {value} _ size tail := by
    have hlow := value.le_toInt
    have hhigh := value.toInt_lt
    have hread : readInteger ProtocolError.invalidCbor size (integer value.toInt ++ tail) =
        .ok (value.toInt, tail) := readInteger_reads (by omega) (by omega) _ tail
    refine Decoder.bind_eq_ok.mpr ⟨_, _, hread, ?_⟩
    refine Decoder.guard_eq_ok.mpr ⟨fun h => h ⟨by omega, by omega⟩, ?_⟩
    exact Decoder.pure_eq_ok.mpr ⟨(Int32.ofInt_toInt value).symm, rfl⟩
  accepts {size bytes value rest} h := by
    obtain ⟨n, mid, hread, hlast⟩ := Decoder.bind_eq_ok.mp h
    obtain ⟨hfits, hvalue⟩ := Decoder.guard_eq_ok.mp hlast
    obtain ⟨rfl, rfl⟩ := Decoder.pure_eq_ok.mp hvalue
    obtain ⟨hbytes, -, -⟩ := readInteger_inv hread
    rw [not_not] at hfits
    rw [Int32.toInt_ofInt_of_le (by omega) (by omega)]
    exact ⟨hbytes, trivial⟩

/-- Reading a signed 64-bit integer inverts writing it in the shortest form. -/
theorem readInt64_inverts :
    Inverts readInt64 (fun value => integer value.toInt) (fun _ => True) where
  reads {value} _ size tail := by
    have hlow := value.le_toInt
    have hhigh := value.toInt_lt
    have hread : readInteger ProtocolError.invalidCbor size (integer value.toInt ++ tail) =
        .ok (value.toInt, tail) := readInteger_reads (by omega) (by omega) _ tail
    exact Decoder.map_eq_ok.mpr ⟨_, hread, (Int64.ofInt_toInt value).symm⟩
  accepts {size bytes value rest} h := by
    obtain ⟨n, hread, rfl⟩ := Decoder.map_eq_ok.mp h
    obtain ⟨hbytes, hlow, hhigh⟩ := readInteger_inv hread
    rw [Int64.toInt_ofInt_of_le (by omega) (by omega)]
    exact ⟨hbytes, trivial⟩

/-- Reading an unsigned 32-bit integer inverts writing it in the shortest form. -/
theorem readUInt32_inverts :
    Inverts (readUInt32 message) (fun value => unsigned value.toNat) (fun _ => True) where
  reads {value} _ size tail := by
    have hvalue := value.toNat_lt
    have hread : readUnsigned ProtocolError.invalidCbor size (unsigned value.toNat ++ tail) =
        .ok (value.toNat, tail) := readUnsigned_reads (by omega) _ tail
    refine Decoder.bind_eq_ok.mpr ⟨_, _, hread, ?_⟩
    refine Decoder.guard_eq_ok.mpr ⟨by omega, ?_⟩
    exact Decoder.pure_eq_ok.mpr ⟨UInt32.ofNat_toNat.symm, rfl⟩
  accepts {size bytes value rest} h := by
    obtain ⟨n, mid, hread, hlast⟩ := Decoder.bind_eq_ok.mp h
    obtain ⟨hfits, hvalue⟩ := Decoder.guard_eq_ok.mp hlast
    obtain ⟨rfl, rfl⟩ := Decoder.pure_eq_ok.mp hvalue
    obtain ⟨hbytes, -⟩ := readUnsigned_inv hread
    rw [UInt32.toNat_ofNat_of_lt' (Nat.lt_of_not_le hfits)]
    exact ⟨hbytes, trivial⟩

/-- Reading a byte string of a fixed length inverts writing one of that length. -/
theorem readFixedBytes_inverts {length : ℕ} (hlength : length < 18446744073709551616) :
    Inverts (readFixedBytes length message) byteString (·.length = length) where
  reads {value} hvalue size tail := by
    have hread : readByteString ProtocolError.invalidCbor size (byteString value ++ tail) =
        .ok (value, tail) := readByteString_reads (by omega) _ tail
    refine Decoder.bind_eq_ok.mpr ⟨_, _, hread, ?_⟩
    exact Decoder.guard_eq_ok.mpr ⟨not_not.mpr hvalue, rfl⟩
  accepts {size bytes value rest} h := by
    obtain ⟨value', mid, hread, hlast⟩ := Decoder.bind_eq_ok.mp h
    obtain ⟨hfits, hvalue⟩ := Decoder.guard_eq_ok.mp hlast
    obtain ⟨rfl, rfl⟩ := Decoder.pure_eq_ok.mp hvalue
    exact ⟨(readByteString_inv hread).1, not_not.mp hfits⟩

namespace TypedScalar

/-- Read the payload of a scalar of the given code. -/
def readPayload : ℕ → Decoder ProtocolError TypedScalar
  | 0 => do
    let head ← byte .invalidCbor
    if head ≠ 0xf6 then throw (.invalidCbor "null scalar payload must be CBOR null")
    else return .null
  | 1 => do
    let head ← byte .invalidCbor
    if head = 0xf4 then return .boolean false
    else if head = 0xf5 then return .boolean true
    else throw (.invalidCbor "boolean scalar payload is invalid")
  | 2 => do return .int32 (← readInt32 "int32 scalar is out of range")
  | 3 => do return .int64 (← readInt64)
  | 4 => do
    let bytes ← readFixedBytes 4 "float32 payload must have four bytes"
    let bits := UInt32.ofNat (beNat bytes)
    if f32IsNan bits ∧ bits ≠ 0x7fc00000 then
      throw (.invalidCbor "float32 NaN is not canonical")
    else return .float32 bits
  | 5 => do
    let bytes ← readFixedBytes 8 "float64 payload must have eight bytes"
    let bits := UInt64.ofNat (beNat bytes)
    if f64IsNan bits ∧ bits ≠ 0x7ff8000000000000 then
      throw (.invalidCbor "float64 NaN is not canonical")
    else return .float64 bits
  | 6 => do
    let count ← readLength .invalidCbor 4
    if count ≠ 3 then throw (.invalidCbor "decimal payload must be a three-element array")
    else
      let precision ← readUInt32 "decimal precision overflow"
      let scale ← readUInt32 "decimal scale overflow"
      let unscaled ← readByteString .invalidCbor
      if precision = 0 ∨ scale > precision ∨ !minimalTwosComplement unscaled then
        throw (.invalidCbor "invalid decimal payload")
      else return .decimal precision scale unscaled
  | 7 => do return .date (← readInt32 "date scalar is out of range")
  | 8 => do return .timeMicros (← readInt64)
  | 9 => do return .timestampMicros (← readInt64)
  | 10 => do return .timestamptzMicros (← readInt64)
  | 11 => do return .string (← readText .invalidCbor)
  | 12 => do return .binary (← readByteString .invalidCbor)
  | 13 => do return .fixed (← readByteString .invalidCbor)
  | 14 => do
    let bytes ← readByteString .invalidCbor
    if h : bytes.length = 16 then return .uuid ⟨bytes, h⟩
    else throw (.invalidCbor "UUID payload must have 16 bytes")
  | _ => throw (.invalidCbor "unknown typed scalar code")

/-- Read a scalar: a pair of a known code and the payload of that code. -/
def read : Decoder ProtocolError TypedScalar := do
  let count ← readLength .invalidCbor 4
  if count ≠ 2 then throw (.invalidCbor "typed scalar must be a two-element array")
  else
    let code ← readUnsigned .invalidCbor
    let scalar ← readPayload code
    match scalar.validate with
    | .ok _ => return scalar
    | .error e => throw e

/-- The strings and byte strings of a scalar have 64-bit lengths, as all in memory do. -/
def Addressable : TypedScalar → Prop
  | .decimal _ _ unscaled => unscaled.length < 18446744073709551616
  | .string value => (utf8 value).length < 18446744073709551616
  | .binary value => value.length < 18446744073709551616
  | .fixed value => value.length < 18446744073709551616
  | _ => True

/-- The scalars of the source that pass their check. -/
structure Valid (scalar : TypedScalar) : Prop where
  valid : scalar.validate = .ok ()
  addressable : scalar.Addressable

/-- A 32-bit pattern is canonical unless it is another NaN. -/
theorem canonNan_float32 {bits : UInt32} : (float32 bits).canonNan = float32 bits ↔
    ¬(f32IsNan bits ∧ bits ≠ 0x7fc00000) := by
  by_cases h : f32IsNan bits = true
  · simp [canonNan, h, eq_comm]
  · simp [canonNan, h]

/-- A 64-bit pattern is canonical unless it is another NaN. -/
theorem canonNan_float64 {bits : UInt64} : (float64 bits).canonNan = float64 bits ↔
    ¬(f64IsNan bits ∧ bits ≠ 0x7ff8000000000000) := by
  by_cases h : f64IsNan bits = true
  · simp [canonNan, h, eq_comm]
  · simp [canonNan, h]

/-- The payload of a 32-bit float that is no unusual NaN is its own bits. -/
theorem cborPayload_float32 {bits : UInt32} (h : (float32 bits).canonNan = float32 bits) :
    (float32 bits).cborPayload = (4, byteString (beBytes 4 bits.toNat)) := by
  rw [canonNan_float32] at h
  by_cases hnan : f32IsNan bits = true
  · have hbits : bits = 0x7fc00000 := not_not.mp fun hne => h ⟨hnan, hne⟩
    rw [hbits]
    rfl
  · rw [cborPayload, if_neg hnan]

/-- The payload of a 64-bit float that is no unusual NaN is its own bits. -/
theorem cborPayload_float64 {bits : UInt64} (h : (float64 bits).canonNan = float64 bits) :
    (float64 bits).cborPayload = (5, byteString (beBytes 8 bits.toNat)) := by
  rw [canonNan_float64] at h
  by_cases hnan : f64IsNan bits = true
  · have hbits : bits = 0x7ff8000000000000 := not_not.mp fun hne => h ⟨hnan, hne⟩
    rw [hbits]
    rfl
  · rw [cborPayload, if_neg hnan]

/-- A payload is read back, when the scalar is valid and its NaN, if any, is the canonical one. -/
theorem readPayload_reads {scalar : TypedScalar} (h : scalar.Valid)
    (hcanon : scalar.canonNan = scalar) :
    Reads (readPayload scalar.cborPayload.1) scalar.cborPayload.2 scalar := by
  intro size tail
  cases scalar with
  | null =>
    refine Decoder.bind_eq_ok.mpr ⟨_, _, byte_reads _ _ tail, ?_⟩
    exact Decoder.guard_eq_ok.mpr ⟨by decide, rfl⟩
  | boolean value =>
    refine Decoder.bind_eq_ok.mpr ⟨_, _, byte_reads _ _ tail, ?_⟩
    cases value <;> rfl
  | int32 value =>
    exact Decoder.map_eq_ok.mpr ⟨_, readInt32_inverts.reads trivial _ tail, rfl⟩
  | int64 value =>
    exact Decoder.map_eq_ok.mpr ⟨_, readInt64_inverts.reads trivial _ tail, rfl⟩
  | float32 bits =>
    have hbits := bits.toNat_lt
    rw [cborPayload_float32 hcanon]
    refine Decoder.bind_eq_ok.mpr
      ⟨_, _, (readFixedBytes_inverts (by decide)).reads (length_beBytes 4 bits.toNat) _ tail, ?_⟩
    rw [beNat_beBytes (by omega), UInt32.ofNat_toNat]
    exact Decoder.guard_eq_ok.mpr ⟨canonNan_float32.mp hcanon, rfl⟩
  | float64 bits =>
    have hbits := bits.toNat_lt
    rw [cborPayload_float64 hcanon]
    refine Decoder.bind_eq_ok.mpr
      ⟨_, _, (readFixedBytes_inverts (by decide)).reads (length_beBytes 8 bits.toNat) _ tail, ?_⟩
    rw [beNat_beBytes (by omega), UInt64.ofNat_toNat]
    exact Decoder.guard_eq_ok.mpr ⟨canonNan_float64.mp hcanon, rfl⟩
  | decimal precision scale unscaled =>
    have hvalid := (ite_error_eq_ok.mp h.valid).1
    simp only [cborPayload, List.append_assoc]
    refine Decoder.bind_eq_ok.mpr ⟨_, _, readLength_reads (by decide) (by decide) _ _, ?_⟩
    refine Decoder.guard_eq_ok.mpr ⟨by decide, ?_⟩
    refine Decoder.bind_eq_ok.mpr ⟨_, _, readUInt32_inverts.reads trivial _ _, ?_⟩
    refine Decoder.bind_eq_ok.mpr ⟨_, _, readUInt32_inverts.reads trivial _ _, ?_⟩
    refine Decoder.bind_eq_ok.mpr ⟨_, _, readByteString_reads h.addressable _ tail, ?_⟩
    exact Decoder.guard_eq_ok.mpr ⟨hvalid, rfl⟩
  | date value =>
    exact Decoder.map_eq_ok.mpr ⟨_, readInt32_inverts.reads trivial _ tail, rfl⟩
  | timeMicros value =>
    exact Decoder.map_eq_ok.mpr ⟨_, readInt64_inverts.reads trivial _ tail, rfl⟩
  | timestampMicros value =>
    exact Decoder.map_eq_ok.mpr ⟨_, readInt64_inverts.reads trivial _ tail, rfl⟩
  | timestamptzMicros value =>
    exact Decoder.map_eq_ok.mpr ⟨_, readInt64_inverts.reads trivial _ tail, rfl⟩
  | string value =>
    exact Decoder.map_eq_ok.mpr ⟨_, readText_reads h.addressable _ tail, rfl⟩
  | binary value =>
    exact Decoder.map_eq_ok.mpr ⟨_, readByteString_reads h.addressable _ tail, rfl⟩
  | fixed value =>
    exact Decoder.map_eq_ok.mpr ⟨_, readByteString_reads h.addressable _ tail, rfl⟩
  | uuid value =>
    have hlength := value.property
    refine Decoder.bind_eq_ok.mpr ⟨_, _, readByteString_reads (by omega) _ tail, ?_⟩
    rw [dif_pos hlength]
    rfl

/-- The bytes before the rest are the payload of a scalar of the given code, which is read back. -/
structure Accepted (code : ℕ) (bytes : Bytes) (scalar : TypedScalar) (rest : Bytes) : Prop where
  code : scalar.cborPayload.1 = code
  payload : bytes = scalar.cborPayload.2 ++ rest
  addressable : scalar.Addressable
  canonical : scalar.canonNan = scalar

section Payloads

variable {α : Type} {code size : ℕ} {bytes rest : Bytes} {scalar : TypedScalar}

/-- A payload that is one value of a reader. -/
theorem Accepted.plain {d : Decoder ProtocolError α} {encode : α → Bytes} {Good : α → Prop}
    (make : α → TypedScalar) (hd : Inverts d encode Good)
    (hpayload : ∀ x, (make x).cborPayload = (code, encode x))
    (haddressable : ∀ x, Good x → (make x).Addressable)
    (hcanonical : ∀ x, (make x).canonNan = make x)
    (h : (d >>= fun x => pure (make x)) size bytes = .ok (scalar, rest)) :
    Accepted code bytes scalar rest := by
  obtain ⟨value, hread, rfl⟩ := Decoder.map_eq_ok.mp h
  obtain ⟨hbytes, hgood⟩ := hd.accepts hread
  exact ⟨by rw [hpayload], by rw [hpayload, hbytes], haddressable value hgood, hcanonical value⟩

/-- The payload of null is the one byte of CBOR's null. -/
theorem Accepted.null (h : readPayload 0 size bytes = .ok (scalar, rest)) :
    Accepted 0 bytes scalar rest := by
  obtain ⟨head, mid, hbyte, hlast⟩ := Decoder.bind_eq_ok.mp h
  obtain ⟨hhead, hvalue⟩ := Decoder.guard_eq_ok.mp hlast
  obtain ⟨rfl, rfl⟩ := Decoder.pure_eq_ok.mp hvalue
  rw [not_not] at hhead
  subst hhead
  exact ⟨rfl, byte_inv hbyte, trivial, rfl⟩

/-- The payload of a boolean is one of the two bytes of CBOR's booleans. -/
theorem Accepted.boolean (h : readPayload 1 size bytes = .ok (scalar, rest)) :
    Accepted 1 bytes scalar rest := by
  obtain ⟨head, mid, hbyte, hlast⟩ := Decoder.bind_eq_ok.mp h
  have hbytes := byte_inv hbyte
  by_cases hfalse : head = 0xf4
  · rw [if_pos hfalse] at hlast
    obtain ⟨rfl, rfl⟩ := Decoder.pure_eq_ok.mp hlast
    subst hfalse
    exact ⟨rfl, hbytes, trivial, rfl⟩
  · rw [if_neg hfalse] at hlast
    by_cases htrue : head = 0xf5
    · rw [if_pos htrue] at hlast
      obtain ⟨rfl, rfl⟩ := Decoder.pure_eq_ok.mp hlast
      subst htrue
      exact ⟨rfl, hbytes, trivial, rfl⟩
    · rw [if_neg htrue] at hlast
      cases hlast

/-- A payload of bits in a byte string of a fixed width, of which some are refused. -/
theorem Accepted.bits {width : ℕ} {message : String} {e : ProtocolError} {Refused : ℕ → Prop}
    [DecidablePred Refused] (make : ℕ → TypedScalar) (hwidth : width < 18446744073709551616)
    (hcanonical : ∀ n, ¬Refused n → (make n).canonNan = make n)
    (hpayload : ∀ n < 256 ^ width, (make n).canonNan = make n →
      (make n).cborPayload = (code, byteString (beBytes width n)))
    (haddressable : ∀ n, (make n).Addressable)
    (h : (do
      let bytes ← readFixedBytes width message
      if Refused (beNat bytes) then throw e else return make (beNat bytes)) size bytes =
        .ok (scalar, rest)) :
    Accepted code bytes scalar rest := by
  obtain ⟨taken, mid, hread, hlast⟩ := Decoder.bind_eq_ok.mp h
  obtain ⟨hfine, hvalue⟩ := Decoder.guard_eq_ok.mp hlast
  obtain ⟨rfl, rfl⟩ := Decoder.pure_eq_ok.mp hvalue
  obtain ⟨hbytes, hlength⟩ := (readFixedBytes_inverts hwidth).accepts hread
  have hlt := beNat_lt taken
  have hback := beBytes_beNat taken
  rw [hlength] at hlt hback
  have hcanon := hcanonical _ hfine
  have hpair := hpayload _ hlt hcanon
  rw [hback] at hpair
  exact ⟨by rw [hpair], by rw [hpair, hbytes], haddressable _, hcanon⟩

/-- The payload of a 32-bit float is four bytes, and an unusual NaN is refused. -/
theorem Accepted.float32 (h : readPayload 4 size bytes = .ok (scalar, rest)) :
    Accepted 4 bytes scalar rest := by
  refine .bits (fun n => .float32 (UInt32.ofNat n)) (by decide) (fun _ => canonNan_float32.mpr)
    (fun n hn hcanon => ?_) (fun _ => trivial) h
  rw [cborPayload_float32 hcanon, UInt32.toNat_ofNat_of_lt' hn]

/-- The payload of a 64-bit float is eight bytes, and an unusual NaN is refused. -/
theorem Accepted.float64 (h : readPayload 5 size bytes = .ok (scalar, rest)) :
    Accepted 5 bytes scalar rest := by
  refine .bits (fun n => .float64 (UInt64.ofNat n)) (by decide) (fun _ => canonNan_float64.mpr)
    (fun n hn hcanon => ?_) (fun _ => trivial) h
  rw [cborPayload_float64 hcanon, UInt64.toNat_ofNat_of_lt' hn]

/-- The payload of a decimal is its precision, its scale and its unscaled bytes. -/
theorem Accepted.decimal (h : readPayload 6 size bytes = .ok (scalar, rest)) :
    Accepted 6 bytes scalar rest := by
  obtain ⟨count, mid, hcount, hlast⟩ := Decoder.bind_eq_ok.mp h
  obtain ⟨hthree, hparts⟩ := Decoder.guard_eq_ok.mp hlast
  obtain ⟨precision, mid', hprecision, hparts'⟩ := Decoder.bind_eq_ok.mp hparts
  obtain ⟨scale, mid'', hscale, hparts''⟩ := Decoder.bind_eq_ok.mp hparts'
  obtain ⟨unscaled, rest', hunscaled, hend⟩ := Decoder.bind_eq_ok.mp hparts''
  obtain ⟨-, hvalue⟩ := Decoder.guard_eq_ok.mp hend
  obtain ⟨rfl, rfl⟩ := Decoder.pure_eq_ok.mp hvalue
  obtain ⟨hbytes, -⟩ := readLength_inv hcount
  rw [not_not] at hthree
  subst hthree
  rw [(readUInt32_inverts.accepts hprecision).1, (readUInt32_inverts.accepts hscale).1,
    (readByteString_inv hunscaled).1] at hbytes
  refine ⟨rfl, ?_, (readByteString_inv hunscaled).2, rfl⟩
  simp only [cborPayload, arrayLen, List.append_assoc]
  exact hbytes

/-- The payload of an identifier is sixteen bytes. -/
theorem Accepted.uuid (h : readPayload 14 size bytes = .ok (scalar, rest)) :
    Accepted 14 bytes scalar rest := by
  obtain ⟨value, mid, hread, hlast⟩ := Decoder.bind_eq_ok.mp h
  by_cases hlength : value.length = 16
  · rw [dif_pos hlength] at hlast
    obtain ⟨rfl, rfl⟩ := Decoder.pure_eq_ok.mp hlast
    exact ⟨rfl, (readByteString_inv hread).1, trivial, rfl⟩
  · rw [dif_neg hlength] at hlast
    cases hlast

/-- An accepted payload is the payload of the scalar read. -/
theorem readPayload_accepts (h : readPayload code size bytes = .ok (scalar, rest)) :
    Accepted code bytes scalar rest := by
  match code, h with
  | 0, h => exact .null h
  | 1, h => exact .boolean h
  | 2, h =>
    exact .plain .int32 readInt32_inverts (fun _ => rfl) (fun _ _ => trivial) (fun _ => rfl) h
  | 3, h =>
    exact .plain .int64 readInt64_inverts (fun _ => rfl) (fun _ _ => trivial) (fun _ => rfl) h
  | 4, h => exact .float32 h
  | 5, h => exact .float64 h
  | 6, h => exact .decimal h
  | 7, h =>
    exact .plain .date readInt32_inverts (fun _ => rfl) (fun _ _ => trivial) (fun _ => rfl) h
  | 8, h =>
    exact .plain .timeMicros readInt64_inverts (fun _ => rfl) (fun _ _ => trivial) (fun _ => rfl) h
  | 9, h =>
    exact .plain .timestampMicros readInt64_inverts (fun _ => rfl) (fun _ _ => trivial)
      (fun _ => rfl) h
  | 10, h =>
    exact .plain .timestamptzMicros readInt64_inverts (fun _ => rfl) (fun _ _ => trivial)
      (fun _ => rfl) h
  | 11, h => exact .plain .string readText_inverts (fun _ => rfl) (fun _ hx => hx) (fun _ => rfl) h
  | 12, h =>
    exact .plain .binary readByteString_inverts (fun _ => rfl) (fun _ hx => hx) (fun _ => rfl) h
  | 13, h =>
    exact .plain .fixed readByteString_inverts (fun _ => rfl) (fun _ hx => hx) (fun _ => rfl) h
  | 14, h => exact .uuid h

end Payloads

/-- Reading a scalar inverts its encoding, for the valid scalars with canonical NaNs. -/
theorem read_inverts :
    Inverts read encodeTypedScalar fun scalar => scalar.Valid ∧ scalar.canonNan = scalar where
  reads {scalar} h size tail := by
    obtain ⟨hvalid, hcanon⟩ := h
    have hcode : scalar.cborPayload.1 < 18446744073709551616 := by
      cases scalar <;> simp [cborPayload]
    simp only [encodeTypedScalar, List.append_assoc]
    refine Decoder.bind_eq_ok.mpr ⟨_, _, readLength_reads (by decide) (by decide) _ _, ?_⟩
    refine Decoder.guard_eq_ok.mpr ⟨by decide, ?_⟩
    refine Decoder.bind_eq_ok.mpr ⟨_, _, readUnsigned_reads hcode _ _, ?_⟩
    refine Decoder.bind_eq_ok.mpr ⟨_, _, readPayload_reads hvalid hcanon _ tail, ?_⟩
    rw [hvalid.valid]
    rfl
  accepts {size bytes scalar rest} h := by
    obtain ⟨count, mid, hcount, hbody⟩ := Decoder.bind_eq_ok.mp h
    obtain ⟨htwo, hparts⟩ := Decoder.guard_eq_ok.mp hbody
    obtain ⟨code, mid', hcode, hparts'⟩ := Decoder.bind_eq_ok.mp hparts
    obtain ⟨scalar', rest', hpayload, hlast⟩ := Decoder.bind_eq_ok.mp hparts'
    cases hvalid : scalar'.validate with
    | error e =>
      rw [hvalid] at hlast
      cases hlast
    | ok _ =>
      rw [hvalid] at hlast
      obtain ⟨rfl, rfl⟩ := Decoder.pure_eq_ok.mp hlast
      obtain ⟨hcodes, hpayloads, haddressable, hcanon⟩ := readPayload_accepts hpayload
      rw [not_not] at htwo
      have hbytes := (readLength_inv hcount).1
      rw [htwo, (readUnsigned_inv hcode).1, hpayloads, ← hcodes] at hbytes
      refine ⟨?_, ⟨hvalid, haddressable⟩, hcanon⟩
      simp only [encodeTypedScalar, List.append_assoc]
      exact hbytes

/-- Making a scalar's NaN the canonical one keeps the scalar valid. -/
theorem Valid.canonNan {scalar : TypedScalar} (h : scalar.Valid) : scalar.canonNan.Valid := by
  refine ⟨by rw [validate_canonNan, h.valid], ?_⟩
  cases scalar with
  | float32 bits => trivial
  | float64 bits => trivial
  | _ => exact h.addressable

/-- The representative of a scalar is chosen once. -/
theorem canonNan_canonNan (scalar : TypedScalar) : scalar.canonNan.canonNan = scalar.canonNan := by
  cases scalar with
  | float32 bits =>
    by_cases hnan : f32IsNan bits = true
    · simp [TypedScalar.canonNan, hnan]
    · simp [TypedScalar.canonNan, hnan]
  | float64 bits =>
    by_cases hnan : f64IsNan bits = true
    · simp [TypedScalar.canonNan, hnan]
    · simp [TypedScalar.canonNan, hnan]
  | _ => rfl

/-- All NaNs have one encoding, that of the canonical one. -/
theorem encode_canonNan (scalar : TypedScalar) :
    encodeTypedScalar scalar.canonNan = encodeTypedScalar scalar := by
  have hpayload : scalar.canonNan.cborPayload = scalar.cborPayload := by
    cases scalar with
    | float32 bits =>
      by_cases hnan : f32IsNan bits = true
      · rw [TypedScalar.canonNan, if_pos hnan, cborPayload, cborPayload, if_pos hnan]
        rfl
      · rw [TypedScalar.canonNan, if_neg hnan]
    | float64 bits =>
      by_cases hnan : f64IsNan bits = true
      · rw [TypedScalar.canonNan, if_pos hnan, cborPayload, cborPayload, if_pos hnan]
        rfl
      · rw [TypedScalar.canonNan, if_neg hnan]
    | _ => rfl
  rw [encodeTypedScalar, encodeTypedScalar, hpayload]

end TypedScalar

/-- `decode_typed_scalar`: read a whole byte string as a scalar, with nothing behind it. -/
def decodeTypedScalar (bytes : Bytes) : Except ProtocolError TypedScalar :=
  run .invalidCbor TypedScalar.read bytes

/-- Read the entries of a partition tuple after a given field. -/
def readEntries : ℕ → Option UInt32 → Decoder ProtocolError (List (UInt32 × TypedScalar))
  | 0, _ => return []
  | count + 1, previous => do
    let fieldId ← readUInt32 "partition field ID overflow"
    if fieldId = 0 ∨ previous.any (· ≥ fieldId) then
      throw (.invalidCbor "partition field IDs must be positive and sorted")
    else
      let scalar ← TypedScalar.read
      let entries ← readEntries count (some fieldId)
      return (fieldId, scalar) :: entries

/-- Read a partition tuple: a map whose keys ascend, with a scalar under each. -/
def readPartitionTuple : Decoder ProtocolError (List (UInt32 × TypedScalar)) := do
  let count ← readLength .invalidCbor 5
  readEntries count none

/-- Read a whole byte string as a partition tuple. -/
def decodePartitionTuple (bytes : Bytes) : Except ProtocolError (List (UInt32 × TypedScalar)) :=
  run .invalidCbor readPartitionTuple bytes

/-- The partition tuples: maps from positive fields to valid scalars, in the order of the
fields. -/
structure PartitionTuple (entries : List (UInt32 × TypedScalar)) : Prop where
  ascending : (entries.map Prod.fst).Pairwise (· < ·)
  positive : ∀ entry ∈ entries, entry.1 ≠ 0
  valid : ∀ entry ∈ entries, entry.2.Valid

/-- The encoding of one entry of a tuple: the field identifier and the scalar. -/
def encodeEntry (entry : UInt32 × TypedScalar) : Bytes :=
  unsigned entry.1.toNat ++ encodeTypedScalar entry.2

/-- The entries after a given field that are read back. -/
structure EntriesAfter (previous : Option UInt32) (entries : List (UInt32 × TypedScalar)) :
    Prop where
  tuple : PartitionTuple entries
  after : ∀ prior ∈ previous, ∀ entry ∈ entries, prior < entry.1
  canonical : ∀ entry ∈ entries, entry.2.canonNan = entry.2

/-- A tuple that starts with an entry ascends and is valid when the entry is fit to follow and the
others follow it. -/
theorem EntriesAfter.cons {previous : Option UInt32} {entry : UInt32 × TypedScalar}
    {entries : List (UInt32 × TypedScalar)} :
    EntriesAfter previous (entry :: entries) ↔
      ¬(entry.1 = 0 ∨ previous.any (· ≥ entry.1)) ∧ (entry.2.Valid ∧ entry.2.canonNan = entry.2) ∧
        EntriesAfter (some entry.1) entries := by
  have hany : ¬(previous.any (· ≥ entry.1)) ↔ ∀ prior ∈ previous, prior < entry.1 := by
    cases previous with
    | none => simp
    | some prior => simp
  rw [not_or, hany]
  constructor
  · rintro ⟨⟨hasc, hpos, hvalid⟩, hafter, hcanon⟩
    rw [List.map_cons, List.pairwise_cons] at hasc
    rw [List.forall_mem_cons] at hpos hvalid hcanon
    refine ⟨⟨hpos.1, fun prior hprior => hafter prior hprior entry List.mem_cons_self⟩,
      ⟨hvalid.1, hcanon.1⟩, ⟨hasc.2, hpos.2, hvalid.2⟩, ?_, hcanon.2⟩
    rintro prior hprior later hlater
    cases hprior
    exact hasc.1 later.1 (List.mem_map_of_mem hlater)
  · rintro ⟨⟨hpos, hprior⟩, ⟨hvalid, hcanon⟩, ⟨hasc, hposs, hvalids⟩, hafter, hcanons⟩
    refine ⟨⟨?_, List.forall_mem_cons.mpr ⟨hpos, hposs⟩,
      List.forall_mem_cons.mpr ⟨hvalid, hvalids⟩⟩, ?_, List.forall_mem_cons.mpr ⟨hcanon, hcanons⟩⟩
    · rw [List.map_cons, List.pairwise_cons]
      refine ⟨fun key hkey => ?_, hasc⟩
      obtain ⟨later, hlater, rfl⟩ := List.mem_map.mp hkey
      exact hafter entry.1 rfl later hlater
    · intro prior hmem
      have hlt := hprior prior hmem
      exact List.forall_mem_cons.mpr
        ⟨hlt, fun later hlater => UInt32.lt_trans hlt (hafter entry.1 rfl later hlater)⟩

/-- Entries are read back one after the other. -/
theorem readEntries_reads {entries : List (UInt32 × TypedScalar)} {previous : Option UInt32}
    (h : EntriesAfter previous entries) :
    Reads (readEntries entries.length previous) (entries.flatMap encodeEntry) entries := by
  induction entries generalizing previous with
  | nil => exact Reads.pure _
  | cons entry entries ih =>
    intro size tail
    obtain ⟨hfield, hscalar, hrest⟩ := EntriesAfter.cons.mp h
    simp only [List.flatMap_cons, encodeEntry, List.append_assoc]
    refine Decoder.bind_eq_ok.mpr ⟨_, _, readUInt32_inverts.reads trivial _ _, ?_⟩
    refine Decoder.guard_eq_ok.mpr ⟨hfield, ?_⟩
    refine Decoder.bind_eq_ok.mpr ⟨_, _, TypedScalar.read_inverts.reads hscalar _ _, ?_⟩
    exact Decoder.map_eq_ok.mpr ⟨entries, ih hrest _ tail, rfl⟩

/-- Entries that are read are the encodings of what is returned. -/
theorem readEntries_accepts {count : ℕ} {previous : Option UInt32} {bytes rest : Bytes}
    {entries : List (UInt32 × TypedScalar)}
    {size : ℕ} (h : readEntries count previous size bytes = .ok (entries, rest)) :
    entries.length = count ∧ bytes = entries.flatMap encodeEntry ++ rest ∧
      EntriesAfter previous entries := by
  induction count generalizing previous bytes entries with
  | zero =>
    obtain ⟨rfl, rfl⟩ := Decoder.pure_eq_ok.mp h
    exact ⟨rfl, rfl, ⟨List.Pairwise.nil, by simp, by simp⟩, by simp, by simp⟩
  | succ count ih =>
    obtain ⟨fieldId, mid, hfield, hbody⟩ := Decoder.bind_eq_ok.mp h
    obtain ⟨hguard, hparts⟩ := Decoder.guard_eq_ok.mp hbody
    obtain ⟨scalar, mid', hscalar, hparts'⟩ := Decoder.bind_eq_ok.mp hparts
    obtain ⟨entries', hentries, rfl⟩ := Decoder.map_eq_ok.mp hparts'
    obtain ⟨hlength, hrest, hafter⟩ := ih hentries
    obtain ⟨hmid, hgood⟩ := TypedScalar.read_inverts.accepts hscalar
    refine ⟨by rw [List.length_cons, hlength], ?_, EntriesAfter.cons.mpr ⟨hguard, hgood, hafter⟩⟩
    rw [(readUInt32_inverts.accepts hfield).1, hmid, hrest]
    simp only [List.flatMap_cons, encodeEntry, List.append_assoc]

/-- A tuple has no more entries than there are fields. -/
theorem PartitionTuple.length_lt {entries : List (UInt32 × TypedScalar)}
    (h : PartitionTuple entries) : entries.length < 18446744073709551616 := by
  have hnodup : (entries.map fun entry => entry.1.toNat).Nodup := by
    have hmap : entries.map (fun entry => entry.1.toNat) =
        (entries.map Prod.fst).map UInt32.toNat := by
      rw [List.map_map]
      rfl
    rw [hmap]
    refine List.Pairwise.map _ (fun a b hab heq => ?_) h.ascending
    have := UInt32.lt_iff_toNat_lt.mp hab
    omega
  have hsub : entries.map (fun entry => entry.1.toNat) ⊆ List.range 4294967296 := by
    intro n hn
    obtain ⟨entry, -, rfl⟩ := List.mem_map.mp hn
    exact List.mem_range.mpr entry.1.toNat_lt
  have hle := (List.subperm_of_subset hnodup hsub).length_le
  rw [List.length_map, List.length_range] at hle
  omega

/-- The tuple with the canonical NaN in place of every NaN. -/
def canonTuple (entries : List (UInt32 × TypedScalar)) : List (UInt32 × TypedScalar) :=
  entries.map fun entry => (entry.1, entry.2.canonNan)

/-- A tuple has only canonical NaNs exactly when each of its scalars has. -/
theorem canonTuple_eq_self {entries : List (UInt32 × TypedScalar)} :
    canonTuple entries = entries ↔ ∀ entry ∈ entries, entry.2.canonNan = entry.2 := by
  induction entries with
  | nil => simp [canonTuple]
  | cons entry entries ih =>
    obtain ⟨fieldId, scalar⟩ := entry
    rw [List.forall_mem_cons, ← ih]
    simp [canonTuple]

/-- Reading a partition tuple inverts its encoding. -/
theorem readPartitionTuple_inverts : Inverts readPartitionTuple encodePartitionTuple
    fun entries => PartitionTuple entries ∧ canonTuple entries = entries where
  reads {entries} h size tail := by
    obtain ⟨htuple, hcanon⟩ := h
    have hafter : EntriesAfter none entries :=
      ⟨htuple, by simp, canonTuple_eq_self.mp hcanon⟩
    simp only [encodePartitionTuple, List.append_assoc]
    exact Decoder.bind_eq_ok.mpr ⟨_, _, readLength_reads (by decide) htuple.length_lt _ _,
      readEntries_reads hafter _ tail⟩
  accepts {size bytes entries rest} h := by
    obtain ⟨count, mid, hcount, hentries⟩ := Decoder.bind_eq_ok.mp h
    obtain ⟨hlength, hmid, hafter⟩ := readEntries_accepts hentries
    have hbytes := (readLength_inv hcount).1
    refine ⟨?_, hafter.tuple, canonTuple_eq_self.mpr hafter.canonical⟩
    simp only [encodePartitionTuple, List.append_assoc, hlength]
    rw [hbytes, hmid]
    rfl

/-- Making the NaNs of a tuple canonical keeps it a partition tuple. -/
theorem PartitionTuple.canonTuple {entries : List (UInt32 × TypedScalar)}
    (h : PartitionTuple entries) : PartitionTuple (canonTuple entries) := by
  refine ⟨?_, ?_, ?_⟩
  · rw [Otmp.canonTuple, List.map_map]
    exact h.ascending
  · intro entry hentry
    obtain ⟨entry', hentry', rfl⟩ := List.mem_map.mp hentry
    exact h.positive entry' hentry'
  · intro entry hentry
    obtain ⟨entry', hentry', rfl⟩ := List.mem_map.mp hentry
    exact (h.valid entry' hentry').canonNan

/-- Scalars and partition tuples have one encoding each, and every accepted byte string is
the encoding of a valid value. -/
theorem scalar_cbor_bijection :
    Bijects encodeTypedScalar decodeTypedScalar TypedScalar.Valid TypedScalar.canonNan ∧
      Bijects encodePartitionTuple decodePartitionTuple PartitionTuple canonTuple := by
  refine ⟨.of_inverts TypedScalar.read_inverts ?_ TypedScalar.encode_canonNan,
    .of_inverts readPartitionTuple_inverts ?_ ?_⟩
  · exact fun scalar h => ⟨h.canonNan, scalar.canonNan_canonNan⟩
  · intro entries h
    refine ⟨h.canonTuple, ?_⟩
    simp only [canonTuple, List.map_map]
    refine List.map_congr_left fun entry _ => ?_
    simp [TypedScalar.canonNan_canonNan]
  · intro entries
    simp only [encodePartitionTuple, canonTuple, List.length_map, List.flatMap_map,
      TypedScalar.encode_canonNan]

end Otmp
