import Otmp.Foundation.Run
import Otmp.Foundation.TextReaders
import Otmp.Protocol.Members
import Otmp.Protocol.TypedScalar

/-!
# The spellings of scalars in JSON

The readers of booleans, integers, strings and UUIDs accept one spelling for each value.
The readers of byte strings also accept upper-case digits, and the readers of
floating-point bits accept every NaN, which is written as the canonical one.
-/

namespace Otmp

open Foundation CanonicalValue

namespace UuidValue

/-- A text with dashes at the positions of a UUID consists of five groups. -/
theorem dash_split {cs : List Char} (hlength : cs.length = 36)
    (hdash : ∀ i (hi : i < cs.length), dashAt i = true → cs[i] = '-') :
    cs = (cs.drop 0).take 8 ++ '-' :: ((cs.drop 9).take 4 ++ '-' :: ((cs.drop 14).take 4 ++
      '-' :: ((cs.drop 19).take 4 ++ '-' :: (cs.drop 24).take 12))) := by
  have hgroup : ∀ start count, start + count < cs.length → dashAt (start + count) = true →
      (cs.drop start).take count ++ '-' :: cs.drop (start + count + 1) = cs.drop start := by
    intro start count hlt hat
    rw [← hdash (start + count) hlt hat, ← List.drop_eq_getElem_cons hlt, ← List.drop_drop,
      List.take_append_drop]
  have hlast : (cs.drop 24).take 12 = cs.drop 24 :=
    List.take_of_length_le (by rw [List.length_drop]; omega)
  rw [hlast, hgroup 19 4 (by omega) (by decide), hgroup 14 4 (by omega) (by decide),
    hgroup 9 4 (by omega) (by decide), hgroup 0 8 (by omega) (by decide), List.drop_zero]

/-- The five groups of a UUID joined by dashes. -/
theorem format_groups (id : UuidValue) {a b c d e : List Char}
    (hid : hexEncode id.val = a ++ (b ++ (c ++ (d ++ e)))) (ha : a.length = 8)
    (hb : b.length = 4) (hc : c.length = 4) (hd : d.length = 4) (he : e.length = 12) :
    id.format = String.ofList (a ++ '-' :: (b ++ '-' :: (c ++ '-' :: (d ++ '-' :: e)))) := by
  have h8 : (hexEncode id.val).drop 8 = b ++ (c ++ (d ++ e)) := by
    rw [hid, List.drop_left' ha]
  have hdrop : ∀ k m, (hexEncode id.val).drop (k + m) = ((hexEncode id.val).drop k).drop m :=
    fun k m => List.drop_drop.symm
  have h12 : (hexEncode id.val).drop 12 = c ++ (d ++ e) :=
    (hdrop 8 4).trans (by rw [h8, List.drop_left' hb])
  have h16 : (hexEncode id.val).drop 16 = d ++ e :=
    (hdrop 12 4).trans (by rw [h12, List.drop_left' hc])
  have h20 : (hexEncode id.val).drop 20 = e :=
    (hdrop 16 4).trans (by rw [h16, List.drop_left' hd])
  unfold format
  dsimp only
  rw [h8, h12, h16, h20, hid, List.take_left' ha, List.take_left' hb, List.take_left' hc,
    List.take_left' hd, List.take_of_length_le (le_of_eq he)]
  simp only [List.append_assoc, List.cons_append, List.nil_append]

/-- Only the printed form of a UUID is read. -/
theorem parse_eq_ok {text : String} {id : UuidValue} (h : parse text = .ok id) :
    text = id.format := by
  unfold parse at h
  dsimp only at h
  obtain ⟨⟨hlength, hall⟩, h⟩ := ite_ok_eq_ok.mp h
  have hat : ∀ i (hi : i < text.toList.length),
      (if dashAt i then text.toList[i] = '-' else isLowerHex text.toList[i]) := by
    intro i hi
    have hmem : (text.toList[i], i) ∈ text.toList.zipIdx := by
      rw [List.mk_mem_zipIdx_iff_getElem?, List.getElem?_eq_getElem hi]
    have h := List.all_eq_true.mp hall _ hmem
    simpa using h
  have hgroup : ∀ start count, (∀ i, start ≤ i → i < start + count → dashAt i = false) →
      ∀ c ∈ (text.toList.drop start).take count, isLowerHex c = true := by
    intro start count hno c hc
    obtain ⟨i, hi, rfl⟩ := List.getElem_of_mem hc
    rw [List.length_take, List.length_drop] at hi
    have h := hat (start + i) (by omega)
    rw [hno (start + i) (by omega) (by omega)] at h
    rw [List.getElem_take, List.getElem_drop]
    simpa using h
  have hsplit := dash_split hlength fun i hi hdash => by
    have h := hat i hi
    rwa [if_pos hdash] at h
  have hlengths : ∀ start count, start + count ≤ 36 →
      ((text.toList.drop start).take count).length = count := by
    intro start count hle
    rw [List.length_take, List.length_drop]
    omega
  have hdashes : ∀ i, i ≠ 8 → i ≠ 13 → i ≠ 18 → i ≠ 23 → dashAt i = false := by
    intro i h8 h13 h18 h23
    simp [dashAt, h8, h13, h18, h23]
  have h0 := hgroup 0 8 fun i _ _ => hdashes i (by omega) (by omega) (by omega) (by omega)
  have h9 := hgroup 9 4 fun i _ _ => hdashes i (by omega) (by omega) (by omega) (by omega)
  have h14 := hgroup 14 4 fun i _ _ => hdashes i (by omega) (by omega) (by omega) (by omega)
  have h19 := hgroup 19 4 fun i _ _ => hdashes i (by omega) (by omega) (by omega) (by omega)
  have h24 := hgroup 24 12 fun i _ _ => hdashes i (by omega) (by omega) (by omega) (by omega)
  have hfilter : text.toList.filter (· ≠ '-') = (text.toList.drop 0).take 8 ++
      ((text.toList.drop 9).take 4 ++ ((text.toList.drop 14).take 4 ++
        ((text.toList.drop 19).take 4 ++ (text.toList.drop 24).take 12))) := by
    have hcons : ∀ cs : List Char, ('-' :: cs).filter (· ≠ '-') = cs.filter (· ≠ '-') :=
      fun cs => rfl
    have hparts := congrArg (List.filter (· ≠ '-')) hsplit
    simp only [List.filter_append, hcons, filter_dash h0, filter_dash h9, filter_dash h14,
      filter_dash h19, filter_dash h24] at hparts
    exact hparts
  rw [hfilter] at h
  split at h
  · rename_i bytes hbytes
    split at h
    · rename_i hsixteen
      cases h
      have hhex := (hexEncode_of_hexDecode? hbytes).mpr (by
        simp only [List.all_append, Bool.and_eq_true, List.all_eq_true]
        exact ⟨h0, h9, h14, h19, h24⟩)
      have hformat := format_groups ⟨bytes, hsixteen⟩ hhex
        (hlengths 0 8 (by decide)) (hlengths 9 4 (by decide)) (hlengths 14 4 (by decide))
        (hlengths 19 4 (by decide)) (hlengths 24 12 (by decide))
      rw [hformat, ← hsplit, String.ofList_toList]
    · cases h
  · cases h

end UuidValue

namespace TypedScalar

/-- Text that is taken from a member is the whole member. -/
theorem takeString_eq_ok {value : Option CanonicalValue} {text : String}
    (h : takeString value = .ok text) : value = some (.string text) := by
  unfold takeString at h
  split at h
  · cases h
    rfl
  · cases h

/-- A boolean that is taken from a member is the whole member. -/
theorem takeBool_eq_ok {value : Option CanonicalValue} {b : Bool}
    (h : takeBool value = .ok b) : value = some (.bool b) := by
  unfold takeBool at h
  split at h
  · cases h
    rfl
  · cases h

/-- A signed 32-bit integer that is taken from a member is the number in it. -/
theorem takeI32_eq_ok {value : Option CanonicalValue} {n : Int32}
    (h : takeI32 value = .ok n) : value = some (.integer n.toInt) := by
  unfold takeI32 at h
  split at h
  · obtain ⟨hfits, h⟩ := ite_ok_eq_ok.mp h
    cases h
    rw [Int32.toInt_ofInt_of_le (by omega) (by omega)]
  · cases h

/-- Decimal text without redundant sign or zeros is the printed form of its integer. -/
theorem decimalInt_of_decimalInt? {cs : List Char} {n : ℤ}
    (hredundant : redundantDecimal cs = false) (h : decimalInt? cs = some n) :
    decimalInt n = cs := by
  have hnat : ∀ {ds : List Char} {m : ℕ}, (∀ c tail, ds ≠ '0' :: c :: tail) →
      decimalNat? ds = some m → Nat.toDigits 10 m = ds := by
    intro ds m hzero hm
    rw [decimalNat?] at hm
    split at hm
    · rename_i hds
      cases hm
      exact toDigits_ofDigitChars hds.1 hds.2 hzero
    · cases hm
  unfold decimalInt? at h
  split at h
  · rename_i ds
    obtain ⟨m, hm, rfl⟩ := Option.map_eq_some_iff.mp h
    have hzero : ∀ tail, ds ≠ '0' :: tail := by
      rintro tail rfl
      exact Bool.noConfusion hredundant
    have hprinted := hnat (fun c tail => hzero (c :: tail)) hm
    have hpos : m ≠ 0 := by
      rintro rfl
      exact hzero [] (by rw [← hprinted]; rfl)
    rw [decimalInt, if_pos (by omega), Int.natAbs_neg, Int.natAbs_natCast, hprinted]
  · exact Bool.noConfusion hredundant
  · obtain ⟨m, hm, rfl⟩ := Option.map_eq_some_iff.mp h
    have hzero : ∀ c tail, cs ≠ '0' :: c :: tail := by
      rintro c tail rfl
      exact Bool.noConfusion hredundant
    rw [decimalInt, if_neg (by omega), Int.natAbs_natCast, hnat hzero hm]

/-- A signed 64-bit integer that is taken from a member is the number in it, in the form it is
written. -/
theorem takeI64_eq_ok {value : Option CanonicalValue} {n : Int64}
    (h : takeI64 value = .ok n) : value = some (int64Value n) := by
  unfold takeI64 at h
  split at h
  · rename_i text
    obtain ⟨hredundant, h⟩ := ite_error_eq_ok.mp h
    split at h
    · rename_i m hm
      obtain ⟨hfits, h⟩ := ite_ok_eq_ok.mp h
      cases h
      rw [Bool.not_eq_true] at hredundant
      rw [int64Value, Int64.toInt_ofInt_of_le (by omega) (by omega),
        decimalInt_of_decimalInt? hredundant hm, String.ofList_toList]
    · cases h
  · cases h

/-- An unsigned 32-bit integer that is taken from a member is the number in it. -/
theorem takeU32_eq_ok {key : String} {value : Option CanonicalValue} {n : UInt32}
    (h : takeU32 key value = .ok n) : value = some (.integer n.toNat) := by
  unfold takeU32 at h
  split at h
  · rename_i m
    obtain ⟨hfits, h⟩ := ite_ok_eq_ok.mp h
    cases h
    have hlt : m.toNat < UInt32.size := by
      rw [UInt32.size]
      omega
    rw [UInt32.toNat_ofNat_of_lt' hlt, Int.toNat_of_nonneg hfits.1]
  · cases h

/-- Floating-point bits that are taken from a member are the digits in it, which have one spelling.
-/
theorem takeHex_eq_ok {digits bits : ℕ} {value : Option CanonicalValue}
    (h : takeHex digits value = .ok bits) :
    value = some (bitsValue digits bits) ∧ bits < 16 ^ digits := by
  obtain ⟨text, htext, h⟩ := bind_eq_ok.mp h
  rw [takeString_eq_ok htext]
  split at h
  · rename_i hex hlist
    obtain ⟨hform, h⟩ := ite_error_eq_ok.mp h
    rw [not_or, not_not] at hform
    split at h
    · rename_i n hn
      cases h
      have hlower : hex.all isLowerHex = true := by simpa using hform.2
      obtain ⟨hprinted, hlt⟩ := hexFixed_of_hexNat? hlower hn
      rw [hform.1] at hprinted hlt
      rw [bitsValue, hprinted, ← hlist, String.ofList_toList]
      exact ⟨rfl, hlt⟩
    · cases h
  · cases h

/-- Whether hexadecimal text, if there is any, is in lower case. -/
def lowerHex : Option CanonicalValue → Bool
  | some (.string text) => text.toList.all isLowerHex
  | _ => true

/-- Bytes that are taken from a member are written again as they were exactly when the digits were
in lower case. -/
theorem takeBytes_eq_ok {value : Option CanonicalValue} {bytes : Bytes}
    (h : takeBytes value = .ok bytes) :
    some (bytesValue bytes) = value ↔ lowerHex value = true := by
  obtain ⟨text, htext, h⟩ := bind_eq_ok.mp h
  rw [takeString_eq_ok htext, lowerHex]
  split at h
  · rename_i bytes' hbytes
    cases h
    rw [← hexEncode_of_hexDecode? hbytes, bytesValue, Option.some.injEq,
      CanonicalValue.string.injEq,
      ← String.toList_inj, String.toList_ofList]
  · cases h

/-- Whether floating-point bits, if there are any, are not those of a NaN that is written
differently. -/
def canonicalBits (isNan : ℕ → Bool) (canonical : ℕ) : Option CanonicalValue → Bool
  | some (.string text) =>
    match hexNat? (text.toList.drop 2) with
    | some bits => !isNan bits || bits == canonical
    | none => true
  | _ => true

/-- Whether the value of a scalar of the named type is spelled as it is written. -/
def canonicalPayload (typeName : String) (value : Option CanonicalValue) : Bool :=
  if typeName = "float32" then
    canonicalBits (fun bits => f32IsNan (UInt32.ofNat bits)) 0x7fc00000 value
  else if typeName = "float64" then
    canonicalBits (fun bits => f64IsNan (UInt64.ofNat bits)) 0x7ff8000000000000 value
  else if typeName = "decimal" then
    match value with
    | some (.object ms) => lowerHex (get? "unscaled_hex" ms)
    | _ => true
  else if typeName = "binary" ∨ typeName = "fixed" then lowerHex value
  else true

/-- Whether the JSON of a scalar is spelled as it is written: byte strings in lower case,
and no NaN but the canonical one. -/
def canonicalSpelling : CanonicalValue → Bool
  | .object ms =>
    match get? "type" ms with
    | some (.string typeName) => canonicalPayload typeName (get? "value" ms)
    | _ => true
  | _ => true

/-- Fixed-width bits determine their number. -/
theorem bitsValue_inj {digits a b : ℕ} (ha : a < 16 ^ digits) (hb : b < 16 ^ digits) :
    bitsValue digits a = bitsValue digits b ↔ a = b := by
  constructor
  · intro h
    have hread := takeHex_bitsValue ha
    rw [h, takeHex_bitsValue hb] at hread
    cases hread
    rfl
  · rintro rfl
    rfl

/-- Bits that are read are written again unless they are another NaN. -/
theorem takeHex_canonicalBits {digits bits canonical : ℕ} (isNan : ℕ → Bool)
    {value : Option CanonicalValue} (hcanonical : canonical < 16 ^ digits)
    (h : takeHex digits value = .ok bits) :
    some (bitsValue digits (if isNan bits then canonical else bits)) = value ↔
      canonicalBits isNan canonical value = true := by
  obtain ⟨rfl, hlt⟩ := takeHex_eq_ok h
  have hbits : canonicalBits isNan canonical (some (bitsValue digits bits)) =
      (!isNan bits || bits == canonical) := by
    rw [bitsValue, canonicalBits, String.toList_ofList]
    change (match hexNat? (hexFixed digits bits) with
      | some bits => !isNan bits || bits == canonical
      | none => true) = _
    rw [hexNat?_hexFixed hlt]
  rw [hbits, Option.some.injEq]
  by_cases hnan : isNan bits = true
  · rw [if_pos hnan, bitsValue_inj hcanonical hlt, hnan]
    rw [Bool.not_true, Bool.false_or, beq_iff_eq, eq_comm]
  · rw [if_neg hnan]
    rw [Bool.not_eq_true] at hnan
    rw [hnan]
    exact iff_of_true rfl rfl

/-- The written bits of a 32-bit float: its own, or the canonical ones for a NaN. -/
theorem payload_float32 {digits : ℕ} (hlt : digits < 16 ^ 8) :
    (float32 (UInt32.ofNat digits)).payload = some (bitsValue 8
      (if f32IsNan (UInt32.ofNat digits) then 0x7fc00000 else digits)) := by
  rw [payload, UInt32.toNat_ofNat_of_lt' hlt]

/-- The written bits of a 64-bit float: its own, or the canonical ones for a NaN. -/
theorem payload_float64 {digits : ℕ} (hlt : digits < 16 ^ 16) :
    (float64 (UInt64.ofNat digits)).payload = some (bitsValue 16
      (if f64IsNan (UInt64.ofNat digits) then 0x7ff8000000000000 else digits)) := by
  rw [payload, UInt64.toNat_ofNat_of_lt' hlt]

/-- A scalar of the named type is written as it was read exactly under the condition. -/
def SpelledAs (typeName : String) (value : Option CanonicalValue) (scalar : TypedScalar) : Prop :=
  scalar.typeName = typeName ∧
    (scalar.payload = value ↔ canonicalPayload typeName value = true)

section Branches

variable {α : Type} {name typeName : String} {value : Option CanonicalValue} {scalar : TypedScalar}
  {take : Except ProtocolError α} {make : α → TypedScalar}

/-- Reading chooses a branch by the name of the type. -/
theorem SpelledAs.branch {first rest : Except ProtocolError TypedScalar}
    (hfirst : first = .ok scalar → SpelledAs name value scalar)
    (hrest : rest = .ok scalar → SpelledAs typeName value scalar)
    (h : (if typeName = name then first else rest) = .ok scalar) :
    SpelledAs typeName value scalar := by
  split at h
  · next hname => exact hname ▸ hfirst h
  · exact hrest h

/-- A value with one spelling is written as it was read. -/
theorem SpelledAs.plain (hname : ∀ x, (make x).typeName = name)
    (htake : ∀ x, take = .ok x → value = (make x).payload)
    (hcanonical : canonicalPayload name value = true) (h : take.map make = .ok scalar) :
    SpelledAs name value scalar := by
  obtain ⟨x, hx, rfl⟩ := map_eq_ok.mp h
  exact ⟨hname x, iff_of_true (htake x hx).symm hcanonical⟩

/-- A byte string is written in lower case. -/
theorem SpelledAs.bytes {make : Bytes → TypedScalar} (hname : ∀ x, (make x).typeName = name)
    (hpayload : ∀ x, (make x).payload = some (bytesValue x))
    (hcanonical : canonicalPayload name value = lowerHex value)
    (h : (takeBytes value).map make = .ok scalar) : SpelledAs name value scalar := by
  obtain ⟨bytes, hbytes, rfl⟩ := map_eq_ok.mp h
  refine ⟨hname bytes, ?_⟩
  rw [hpayload, hcanonical]
  exact takeBytes_eq_ok hbytes

/-- The value of a decimal is written as it was read when its digits are in lower case. -/
theorem SpelledAs.decimal (hsorted : ∀ v ∈ value, v.sorted = true)
    (h : takeDecimal value = .ok scalar) : SpelledAs "decimal" value scalar := by
  unfold takeDecimal at h
  split at h
  · rename_i ms
    obtain ⟨precision, hprecision, h⟩ := bind_eq_ok.mp h
    obtain ⟨scale, hscale, h⟩ := bind_eq_ok.mp h
    obtain ⟨unscaled, hunscaled, h⟩ := bind_eq_ok.mp h
    obtain ⟨hknown, h⟩ := ite_ok_eq_ok.mp h
    cases h
    refine ⟨rfl, ?_⟩
    have hms := (sorted_object.mp (hsorted _ rfl)).1
    have hmembers := members_get? (by decide) hms hknown
    obtain ⟨text, htext, -⟩ := bind_eq_ok.mp hunscaled
    have hhex := takeBytes_eq_ok hunscaled
    rw [takeString_eq_ok htext] at hhex
    simp only [List.map_cons, List.map_nil, takeU32_eq_ok hprecision, takeU32_eq_ok hscale,
      takeString_eq_ok htext] at hmembers
    have hcanonical : canonicalPayload "decimal" (some (.object ms)) =
        lowerHex (some (.string text)) := by
      simp [canonicalPayload, takeString_eq_ok htext]
    rw [hcanonical, ← hhex, payload, ← hmembers]
    simp [members]
  · cases h

/-- A 32-bit float is written as it was read unless it was an unusual NaN. -/
theorem SpelledAs.float32
    (h : (takeHex 8 value).map (fun bits => .float32 (UInt32.ofNat bits)) = .ok scalar) :
    SpelledAs "float32" value scalar := by
  obtain ⟨bits, hbits, rfl⟩ := map_eq_ok.mp h
  refine ⟨rfl, ?_⟩
  rw [payload_float32 (takeHex_eq_ok hbits).2]
  exact takeHex_canonicalBits (fun bits => f32IsNan (UInt32.ofNat bits)) (by decide) hbits

/-- A 64-bit float is written as it was read unless it was an unusual NaN. -/
theorem SpelledAs.float64
    (h : (takeHex 16 value).map (fun bits => .float64 (UInt64.ofNat bits)) = .ok scalar) :
    SpelledAs "float64" value scalar := by
  obtain ⟨bits, hbits, rfl⟩ := map_eq_ok.mp h
  refine ⟨rfl, ?_⟩
  rw [payload_float64 (takeHex_eq_ok hbits).2]
  exact takeHex_canonicalBits (fun bits => f64IsNan (UInt64.ofNat bits)) (by decide) hbits

/-- An identifier has one spelling, since its parser accepts only the form that is written. -/
theorem SpelledAs.uuid
    (h : (do
      let text ← takeString value
      let id ← UuidValue.parse text
      return TypedScalar.uuid id) = .ok scalar) : SpelledAs "uuid" value scalar := by
  obtain ⟨text, htext, h⟩ := bind_eq_ok.mp h
  obtain ⟨id, hid, h⟩ := bind_eq_ok.mp h
  cases h
  rw [takeString_eq_ok htext, UuidValue.parse_eq_ok hid]
  exact ⟨rfl, iff_of_true rfl rfl⟩

/-- The value of a scalar is written as it was read exactly under the condition. -/
theorem spelledAs_of_ofPayload (hsorted : ∀ v ∈ value, v.sorted = true)
    (h : ofPayload typeName value = .ok scalar) : SpelledAs typeName value scalar := by
  unfold ofPayload at h
  by_cases hnull : typeName = "null" ∧ value.isNone
  · rw [if_pos hnull] at h
    cases h
    obtain ⟨rfl, hnone⟩ := hnull
    exact ⟨rfl, iff_of_true (Option.isNone_iff_eq_none.mp hnone).symm rfl⟩
  · rw [if_neg hnull] at h
    revert h
    refine SpelledAs.branch ?boolean <| SpelledAs.branch ?int32 <| SpelledAs.branch ?int64 <|
      SpelledAs.branch .float32 <| SpelledAs.branch .float64 <|
      SpelledAs.branch (.decimal hsorted) <| SpelledAs.branch ?date <|
      SpelledAs.branch ?timeMicros <| SpelledAs.branch ?timestampMicros <|
      SpelledAs.branch ?timestamptzMicros <| SpelledAs.branch ?string <|
      SpelledAs.branch ?binary <| SpelledAs.branch ?fixed <|
      SpelledAs.branch .uuid fun hnone => nomatch hnone
    case boolean => exact .plain (fun _ => rfl) (fun _ => takeBool_eq_ok) rfl
    case int32 => exact .plain (fun _ => rfl) (fun _ => takeI32_eq_ok) rfl
    case int64 => exact .plain (fun _ => rfl) (fun _ => takeI64_eq_ok) rfl
    case date => exact .plain (fun _ => rfl) (fun _ => takeI32_eq_ok) rfl
    case timeMicros => exact .plain (fun _ => rfl) (fun _ => takeI64_eq_ok) rfl
    case timestampMicros => exact .plain (fun _ => rfl) (fun _ => takeI64_eq_ok) rfl
    case timestamptzMicros => exact .plain (fun _ => rfl) (fun _ => takeI64_eq_ok) rfl
    case string => exact .plain (fun _ => rfl) (fun _ => takeString_eq_ok) rfl
    case binary => exact .bytes (fun _ => rfl) (fun _ => rfl) rfl
    case fixed => exact .bytes (fun _ => rfl) (fun _ => rfl) rfl

end Branches

/-- A scalar is written as it was read exactly when its JSON is spelled canonically. -/
theorem toValue_eq_iff {value : CanonicalValue} {scalar : TypedScalar}
    (hsorted : value.sorted = true) (h : ofValue value = .ok scalar) :
    scalar.toValue = value ↔ canonicalSpelling value = true := by
  unfold ofValue at h
  split at h
  · rename_i ms
    obtain ⟨typeName, htype, hrest⟩ := bind_eq_ok.mp h
    obtain ⟨hknown, hbody⟩ := ite_ok_eq_ok.mp hrest
    obtain ⟨scalar', hpayload, hlast⟩ := bind_eq_ok.mp hbody
    obtain ⟨-, hscalar⟩ := check_eq_ok.mp hlast
    cases hscalar
    obtain ⟨hms, hvalues⟩ := sorted_object.mp hsorted
    have hvalue : ∀ v ∈ get? "value" ms, v.sorted = true := fun v hv =>
      hvalues ("value", v) (get?_mem hv)
    obtain ⟨hname, hiff⟩ := spelledAs_of_ofPayload hvalue hpayload
    have htypeName := takeString_eq_ok htype
    have hmembers := members_get? (by decide) hms hknown
    rw [List.map_cons, List.map_cons, List.map_nil, htypeName] at hmembers
    rw [canonicalSpelling, htypeName, ← hiff, toValue, hname]
    constructor
    · intro heq
      rw [CanonicalValue.object.injEq] at heq
      rw [← heq]
      cases scalar.payload with
      | none => simp [members, get?]
      | some v => simp [members, get?]
    · intro heq
      rw [heq, hmembers]
  · cases h

/-- The JSON of a scalar is what is written for it exactly when its byte strings are in
lower case and its bits are not those of another NaN; within these spellings a scalar has
one; and every valid scalar is read back from what is written for it, with the canonical
NaN in place of every NaN. -/
theorem scalar_json_spelling {value : CanonicalValue} {scalar : TypedScalar}
    (hsorted : value.sorted = true) (h : ofValue value = .ok scalar) :
    (scalar.toValue = value ↔ canonicalSpelling value = true) ∧
      (∀ value', value'.sorted = true → ofValue value' = .ok scalar →
        canonicalSpelling value = true → canonicalSpelling value' = true → value = value') ∧
      ∀ valid : TypedScalar, valid.validate = .ok () →
        ofValue valid.toValue = .ok valid.canonNan := by
  refine ⟨toValue_eq_iff hsorted h, ?_, fun valid hvalid => ofValue_toValue hvalid⟩
  intro value' hsorted' h' hspelling hspelling'
  rw [← (toValue_eq_iff hsorted h).mpr hspelling, (toValue_eq_iff hsorted' h').mpr hspelling']

/-- Lower-case digits are what is written. -/
theorem scalar_json_spelling_lower : (TypedScalar.binary [0xab]).toValue =
    .object [("type", .string "binary"), ("value", .string "ab")] :=
  (scalar_json_spelling (by decide +kernel) (by decide +kernel)).1.mpr (by decide +kernel)

/-- Two spellings of one byte string are accepted, and only one of them is written. -/
theorem scalar_json_two_spellings :
    ofValue (.object [("type", .string "binary"), ("value", .string "AB")]) =
        .ok (.binary [0xab]) ∧
      ofValue (.object [("type", .string "binary"), ("value", .string "ab")]) =
        .ok (.binary [0xab]) ∧
      ((TypedScalar.binary [0xab]).toValue ≠
        .object [("type", .string "binary"), ("value", .string "AB")]) := by
  decide +kernel

end TypedScalar

end Otmp
