import Mathlib.Algebra.Order.Ring.Int
import Mathlib.Data.List.Basic
import Mathlib.Tactic.Common

/-!
# Deterministic CBOR

Encoders produce byte strings; a decoder consumes a front part of its input and
leaves the rest. A decoder reads a byte string back when it returns the encoded value
whatever follows, and decoders that read their parts back compose. Integers use the
shortest form, and longer forms are refused.
-/

namespace Foundation

/-- A decoder over a byte string, which knows the size of the whole buffer. -/
abbrev Decoder (ε α : Type) := ReaderT ℕ (StateT (List UInt8) (Except ε)) α

variable {ε α β : Type}

/-- A decoder returns a value from a byte string and leaves whatever follows it. -/
def Reads (d : Decoder ε α) (bytes : List UInt8) (a : α) : Prop :=
  ∀ size rest, d size (bytes ++ rest) = .ok (a, rest)

namespace Reads

/-- A decoder that consumes nothing. -/
theorem pure (a : α) : Reads (pure a : Decoder ε α) [] a := fun _ _ => rfl

/-- Decoders read a concatenation back one after the other. -/
theorem bind {d : Decoder ε α} {k : α → Decoder ε β} {p q : List UInt8} {a : α} {b : β}
    (hd : Reads d p a) (hk : Reads (k a) q b) : Reads (d >>= k) (p ++ q) b := by
  intro size rest
  change (d size (p ++ q ++ rest) >>= fun r => k r.1 size r.2) = _
  rw [List.append_assoc, hd]
  exact hk size rest

/-- A check that passes does not change what is read. -/
theorem guard {c : Prop} [Decidable c] {e : ε} {d : Decoder ε α} {bytes : List UInt8} {a : α}
    (hc : ¬c) (hd : Reads d bytes a) : Reads (if c then throw e else d) bytes a := by
  rwa [if_neg hc]

end Reads

namespace Cbor

/-- A number in a fixed count of bytes, most significant first. -/
def beBytes : ℕ → ℕ → List UInt8
  | 0, _ => []
  | width + 1, n => beBytes width (n / 256) ++ [UInt8.ofNat (n % 256)]

/-- The number that bytes spell in base 256, the most significant byte first. -/
def beNat (bytes : List UInt8) : ℕ := bytes.foldl (fun acc b => 256 * acc + b.toNat) 0

/-- A number in a fixed count of bytes has that count of bytes, also when it does not fit. -/
@[simp] theorem length_beBytes (width n : ℕ) : (beBytes width n).length = width := by
  induction width generalizing n with
  | zero => rfl
  | succ width ih => rw [beBytes, List.length_append, ih, List.length_singleton]

/-- Fixed-width bytes spell their number, when the width has room for it. -/
theorem beNat_beBytes {width n : ℕ} (h : n < 256 ^ width) : beNat (beBytes width n) = n := by
  induction width generalizing n with
  | zero =>
    have hn : n = 0 := by simpa using h
    subst hn
    rfl
  | succ width ih =>
    have hquot : n / 256 < 256 ^ width := by
      rw [Nat.div_lt_iff_lt_mul (by decide)]
      rwa [Nat.pow_succ] at h
    have hrest := ih hquot
    have hbyte : (UInt8.ofNat (n % 256)).toNat = n % 256 :=
      UInt8.toNat_ofNat_of_lt (Nat.mod_lt n (by decide))
    unfold beNat at hrest ⊢
    rw [beBytes, List.foldl_append, hrest, List.foldl_cons, List.foldl_nil, hbyte]
    omega

/-- A head: a kind and a value in the shortest form. -/
def major (kind value : ℕ) : List UInt8 :=
  if value ≤ 23 then [UInt8.ofNat (32 * kind + value)]
  else if value ≤ 255 then [UInt8.ofNat (32 * kind + 24), UInt8.ofNat value]
  else if value ≤ 65535 then UInt8.ofNat (32 * kind + 25) :: beBytes 2 value
  else if value ≤ 4294967295 then UInt8.ofNat (32 * kind + 26) :: beBytes 4 value
  else UInt8.ofNat (32 * kind + 27) :: beBytes 8 value

/-- An unsigned integer is a head of the first kind. -/
def unsigned (value : ℕ) : List UInt8 := major 0 value

/-- A signed integer: a negative one is the second kind and counts down from minus one. -/
def integer (value : ℤ) : List UInt8 :=
  if 0 ≤ value then unsigned value.natAbs else major 1 (value.natAbs - 1)

/-- A byte string is its length and then its bytes. -/
def byteString (value : List UInt8) : List UInt8 := major 2 value.length ++ value

/-- The bytes of a text in UTF-8, which is how texts are encoded and measured. -/
def utf8 (value : String) : List UInt8 := value.toByteArray.data.toList

/-- A text is the length of its bytes and then the bytes. -/
def text (value : String) : List UInt8 := major 3 (utf8 value).length ++ utf8 value

/-- The head of an array of that many items. -/
def arrayLen (value : ℕ) : List UInt8 := major 4 value

/-- The head of a map of that many entries. -/
def mapLen (value : ℕ) : List UInt8 := major 5 value

section Decode

variable (invalid : String → ε)

/-- The next byte of the input; input that ends here is refused. -/
def byte : Decoder ε UInt8 := fun _ bytes =>
  match bytes with
  | [] => .error (invalid "unexpected end of CBOR")
  | b :: rest => .ok (b, rest)

/-- The next bytes. A length that takes the offset out of its 64 bits is refused as such. -/
def take (length : ℕ) : Decoder ε (List UInt8) := fun size bytes =>
  if length ≤ bytes.length then .ok (bytes.take length, bytes.drop length)
  else if size - bytes.length + length < 18446744073709551616 then
    .error (invalid "unexpected end of CBOR")
  else .error (invalid "CBOR offset overflow")

/-- A value in a wider form has to exceed what the next shorter form holds. -/
def wider (kind floor value : ℕ) : Decoder ε (ℕ × ℕ) :=
  if value ≤ floor then throw (invalid "non-shortest CBOR integer") else return (kind, value)

/-- A value in a form of several bytes, which is refused when a shorter form has room for it. -/
def wide (kind width floor : ℕ) : Decoder ε (ℕ × ℕ) := do
  let bytes ← take invalid width
  wider invalid kind floor (beNat bytes)

/-- Read a head: the major type and the value, in the shortest form that has room for it. -/
def head : Decoder ε (ℕ × ℕ) := do
  let head ← byte invalid
  let kind := head.toNat / 32
  match head.toNat % 32 with
  | 24 => do
    let value ← byte invalid
    wider invalid kind 23 value.toNat
  | 25 => wide invalid kind 2 255
  | 26 => wide invalid kind 4 65535
  | 27 => wide invalid kind 8 4294967295
  | additional =>
    if 23 < additional then throw (invalid "indefinite or reserved CBOR form")
    else return (kind, additional)

/-- Read an unsigned integer; a head of any other kind is refused. -/
def readUnsigned : Decoder ε ℕ := do
  let (kind, value) ← head invalid
  if kind ≠ 0 then throw (invalid "expected unsigned integer") else return value

/-- Read a signed integer of 64 bits; what does not fit is refused with a text for each sign. -/
def readInteger : Decoder ε ℤ := do
  let (kind, value) ← head invalid
  match kind with
  | 0 =>
    if 9223372036854775807 < value then throw (invalid "positive integer overflow")
    else return (value : ℤ)
  | 1 =>
    if 9223372036854775807 < value then throw (invalid "negative integer overflow")
    else return (-1 - value : ℤ)
  | _ => throw (invalid "expected signed integer")

/-- Read the length of a value of the expected kind. -/
def readLength (expected : ℕ) : Decoder ε ℕ := do
  let (kind, value) ← head invalid
  if kind ≠ expected then throw (invalid "unexpected CBOR major type") else return value

/-- Read a byte string: its length, and then as many bytes. -/
def readByteString : Decoder ε (List UInt8) := do
  let length ← readLength invalid 2
  take invalid length

/-- Read a text: its length, and then as many bytes, which have to be UTF-8. -/
def readText : Decoder ε String := do
  let length ← readLength invalid 3
  let bytes ← take invalid length
  match String.fromUTF8? ⟨bytes.toArray⟩ with
  | some value => return value
  | none => throw (invalid "CBOR text is not UTF-8")

/-- Run a decoder on a whole input, behind which nothing may follow. -/
def run (d : Decoder ε α) (bytes : List UInt8) : Except ε α := do
  let (a, rest) ← d bytes.length bytes
  if rest ≠ [] then .error (invalid "trailing CBOR bytes") else .ok a

end Decode

section RoundTrip

variable {invalid : String → ε}

/-- A single byte is read back. -/
theorem byte_reads (b : UInt8) : Reads (byte invalid) [b] b := fun _ _ => rfl

/-- Bytes are read back when as many are taken as there are. -/
theorem take_reads (bytes : List UInt8) : Reads (take invalid bytes.length) bytes bytes := by
  intro size rest
  rw [take, if_pos (by rw [List.length_append]; omega), List.take_left, List.drop_left]

/-- A value passes when it exceeds what the next shorter form holds; nothing more is consumed. -/
theorem wider_reads {kind floor value : ℕ} (hfloor : floor < value) :
    Reads (wider invalid kind floor value) [] (kind, value) :=
  .guard (by omega) (.pure _)

/-- A value in a form of several bytes is read back when it fits the form and exceeds the shorter
one. -/
theorem wide_reads {kind width floor value : ℕ} (hfloor : floor < value)
    (hfits : value < 256 ^ width) :
    Reads (wide invalid kind width floor) (beBytes width value) (kind, value) := by
  have hnat := beNat_beBytes hfits
  have htake : Reads (take invalid (beBytes width value).length) (beBytes width value)
      (beBytes width value) := take_reads _
  rw [length_beBytes] at htake
  have h := htake.bind (k := fun bytes => wider invalid kind floor (beNat bytes)) (q := [])
    (b := (kind, value)) ?_
  · rwa [List.append_nil] at h
  · rw [hnat]
    exact wider_reads hfloor

/-- A head in the shortest form reads back. -/
theorem head_reads {kind value : ℕ} (hkind : kind < 8) (hvalue : value < 18446744073709551616) :
    Reads (head invalid) (major kind value) (kind, value) := by
  have hbyte : ∀ n < 256, (UInt8.ofNat n).toNat = n := fun n hn => UInt8.toNat_ofNat_of_lt hn
  have hfirst : ∀ (additional : ℕ) (tail : List UInt8), additional < 28 →
      Reads (match additional with
        | 24 => do
          let value ← byte invalid
          wider invalid kind 23 value.toNat
        | 25 => wide invalid kind 2 255
        | 26 => wide invalid kind 4 65535
        | 27 => wide invalid kind 8 4294967295
        | additional =>
          if 23 < additional then throw (invalid "indefinite or reserved CBOR form")
          else return (kind, additional)) tail (kind, value) →
      Reads (head invalid) (UInt8.ofNat (32 * kind + additional) :: tail) (kind, value) := by
    intro additional tail hadd htail
    have hhead : Reads (byte invalid) [UInt8.ofNat (32 * kind + additional)]
        (UInt8.ofNat (32 * kind + additional)) := byte_reads _
    have h := hhead.bind
      (k := fun head => match head.toNat % 32 with
        | 24 => do
          let value ← byte invalid
          wider invalid (head.toNat / 32) 23 value.toNat
        | 25 => wide invalid (head.toNat / 32) 2 255
        | 26 => wide invalid (head.toNat / 32) 4 65535
        | 27 => wide invalid (head.toNat / 32) 8 4294967295
        | additional =>
          if 23 < additional then throw (invalid "indefinite or reserved CBOR form")
          else return (head.toNat / 32, additional)) (q := tail) (b := (kind, value)) ?_
    · exact h
    · have hmod : (32 * kind + additional) % 32 = additional := by omega
      have hdiv : (32 * kind + additional) / 32 = kind := by omega
      rw [hbyte _ (by omega), hmod, hdiv]
      exact htail
  unfold major
  split
  · rename_i hsmall
    refine hfirst value [] (by omega) ?_
    split
    · omega
    · omega
    · omega
    · omega
    · exact .guard (by omega) (.pure _)
  · split
    · refine hfirst 24 _ (by decide) ?_
      have hvalue : Reads (byte invalid) [UInt8.ofNat value] (UInt8.ofNat value) := byte_reads _
      have h := hvalue.bind (k := fun b => wider invalid kind 23 b.toNat) (q := [])
        (b := (kind, value)) ?_
      · exact h
      · rw [hbyte _ (by omega)]
        exact wider_reads (by omega)
    · split
      · exact hfirst 25 _ (by decide) (wide_reads (by omega) (by omega))
      · split
        · exact hfirst 26 _ (by decide) (wide_reads (by omega) (by omega))
        · exact hfirst 27 _ (by decide) (wide_reads (by omega) (by omega))

end RoundTrip

end Cbor

end Foundation
