import Mathlib.Algebra.Order.Ring.Int
import Mathlib.Data.List.Basic

/-!
# Decimal and hexadecimal text

Numbers and byte strings travel as text. Every printer of this file has a parser
that reads its output back. The parsers accept more than the printers write, as
the usual library parsers do: upper-case hexadecimal digits, leading zeros and
explicit signs.
-/

namespace Foundation

/-- The value of a hexadecimal digit in either case. -/
def hexValue? (c : Char) : Option ℕ :=
  if '0' ≤ c ∧ c ≤ '9' then some (c.toNat - 48)
  else if 'a' ≤ c ∧ c ≤ 'f' then some (c.toNat - 87)
  else if 'A' ≤ c ∧ c ≤ 'F' then some (c.toNat - 55)
  else none

/-- A lower-case hexadecimal digit, the only spelling that is ever written. -/
def isLowerHex (c : Char) : Bool := ('0' ≤ c ∧ c ≤ '9') ∨ ('a' ≤ c ∧ c ≤ 'f')

/-- Two lower-case hexadecimal digits for each byte, the upper half first. -/
def hexEncode : List UInt8 → List Char
  | [] => []
  | b :: bs => (b.toNat / 16).digitChar :: (b.toNat % 16).digitChar :: hexEncode bs

/-- Read pairs of hexadecimal digits of either case; a digit without a partner is refused. -/
def hexDecode? : List Char → Option (List UInt8)
  | [] => some []
  | [_] => none
  | high :: low :: rest => do
    let h ← hexValue? high
    let l ← hexValue? low
    let bs ← hexDecode? rest
    return UInt8.ofNat (16 * h + l) :: bs

/-- A number in a fixed count of lower-case hexadecimal digits. -/
def hexFixed : ℕ → ℕ → List Char
  | 0, _ => []
  | width + 1, n => hexFixed width (n / 16) ++ [(n % 16).digitChar]

/-- Read a hexadecimal number of any length, most significant digit first. -/
def hexNat? (cs : List Char) : Option ℕ :=
  cs.foldlM (fun acc c => (hexValue? c).map (16 * acc + ·)) 0

/-- Read a nonempty string of decimal digits, with leading zeros allowed. -/
def decimalNat? (cs : List Char) : Option ℕ :=
  if cs ≠ [] ∧ cs.all Char.isDigit then some (Nat.ofDigitChars 10 cs 0) else none

/-- The decimal text of an integer, with a sign only if it is negative. -/
def decimalInt (n : ℤ) : List Char :=
  if n < 0 then '-' :: Nat.toDigits 10 n.natAbs else Nat.toDigits 10 n.natAbs

/-- Read a decimal integer with an optional sign of either kind. -/
def decimalInt? : List Char → Option ℤ
  | '-' :: cs => (decimalNat? cs).map fun n : ℕ => -(n : ℤ)
  | '+' :: cs => (decimalNat? cs).map fun n : ℕ => (n : ℤ)
  | cs => (decimalNat? cs).map fun n : ℕ => (n : ℤ)

/-- Read an unsigned number below a bound, as the usual library does: a plus sign may lead. -/
def unsigned? (bound : ℕ) : List Char → Option ℕ
  | '+' :: cs => (decimalNat? cs).filter (· < bound)
  | cs => (decimalNat? cs).filter (· < bound)

/-- A hexadecimal digit is one of sixteen. -/
private theorem digit_cases {P : ℕ → Prop} {d : ℕ} (hd : d < 16)
    (h : ∀ i : Fin 16, P i) : P d := h ⟨d, hd⟩

/-- A hexadecimal digit reads back as its value. -/
theorem hexValue?_digitChar {d : ℕ} (hd : d < 16) : hexValue? d.digitChar = some d :=
  digit_cases (P := fun d => hexValue? d.digitChar = some d) hd (by decide)

/-- The digits written for a number are lower-case. -/
theorem isLowerHex_digitChar {d : ℕ} (hd : d < 16) : isLowerHex d.digitChar = true :=
  digit_cases (P := fun d => isLowerHex d.digitChar = true) hd (by decide)

/-- Hexadecimal text of bytes reads back. -/
theorem hexDecode?_hexEncode (bs : List UInt8) : hexDecode? (hexEncode bs) = some bs := by
  induction bs with
  | nil => rfl
  | cons b bs ih =>
    have hb := b.toNat_lt
    have hbyte : 16 * (b.toNat / 16) + b.toNat % 16 = b.toNat := Nat.div_add_mod b.toNat 16
    simp only [hexEncode, hexDecode?, hexValue?_digitChar (show b.toNat / 16 < 16 by omega),
      hexValue?_digitChar (show b.toNat % 16 < 16 by omega), ih, Option.pure_def,
      Option.bind_eq_bind, Option.bind_some, hbyte, UInt8.ofNat_toNat]

/-- Hexadecimal text has two digits for each byte. -/
theorem length_hexEncode (bs : List UInt8) : (hexEncode bs).length = 2 * bs.length := by
  induction bs with
  | nil => rfl
  | cons b bs ih =>
    simp only [hexEncode, List.length_cons, ih]
    omega

/-- Hexadecimal text of bytes consists of lower-case digits. -/
theorem isLowerHex_of_mem_hexEncode {bs : List UInt8} {c : Char} (h : c ∈ hexEncode bs) :
    isLowerHex c = true := by
  induction bs with
  | nil => cases h
  | cons b bs ih =>
    have hb := b.toNat_lt
    simp only [hexEncode, List.mem_cons] at h
    obtain rfl | rfl | h := h
    · exact isLowerHex_digitChar (by omega)
    · exact isLowerHex_digitChar (by omega)
    · exact ih h

/-- Fixed-width text has the requested width. -/
@[simp] theorem length_hexFixed (width n : ℕ) : (hexFixed width n).length = width := by
  induction width generalizing n with
  | zero => rfl
  | succ width ih => simp only [hexFixed, List.length_append, ih, List.length_singleton]

/-- Fixed-width text consists of lower-case digits. -/
theorem isLowerHex_of_mem_hexFixed {width n : ℕ} {c : Char} (h : c ∈ hexFixed width n) :
    isLowerHex c = true := by
  induction width generalizing n with
  | zero => cases h
  | succ width ih =>
    simp only [hexFixed, List.mem_append, List.mem_singleton] at h
    obtain h | rfl := h
    · exact ih h
    · exact isLowerHex_digitChar (Nat.mod_lt n (by decide))

/-- Fixed-width text reads back as the number, when it fits. -/
theorem hexNat?_hexFixed {width n : ℕ} (hn : n < 16 ^ width) :
    hexNat? (hexFixed width n) = some n := by
  induction width generalizing n with
  | zero =>
    have : n = 0 := by simpa using hn
    subst this
    rfl
  | succ width ih =>
    have hquot : n / 16 < 16 ^ width := by
      rw [Nat.div_lt_iff_lt_mul (by decide)]
      rwa [Nat.pow_succ] at hn
    have hrest := ih hquot
    unfold hexNat? at hrest ⊢
    rw [hexFixed, List.foldlM_append, hrest]
    simp only [Option.bind_eq_bind, Option.bind_some, List.foldlM_cons, List.foldlM_nil,
      hexValue?_digitChar (Nat.mod_lt n (by decide)), Option.map_some, Option.pure_def]
    rw [Nat.div_add_mod]

/-- Decimal text reads back. -/
theorem decimalNat?_toDigits (n : ℕ) : decimalNat? (Nat.toDigits 10 n) = some n := by
  have hdigits : (Nat.toDigits 10 n).all Char.isDigit = true := by
    rw [List.all_eq_true]
    exact fun c hc => Nat.isDigit_of_mem_toDigits (by decide) (by decide) hc
  rw [decimalNat?, if_pos ⟨Nat.toDigits_ne_nil, hdigits⟩,
    Nat.ofDigitChars_toDigits (by decide) (by decide)]

/-- A nonempty decimal text starts with a digit. -/
theorem toDigits_eq_cons (n : ℕ) :
    ∃ c cs, Nat.toDigits 10 n = c :: cs ∧ c.isDigit = true := by
  cases h : Nat.toDigits 10 n with
  | nil => exact absurd h Nat.toDigits_ne_nil
  | cons c cs =>
    have hmem : c ∈ Nat.toDigits 10 n := by
      rw [h]
      exact List.mem_cons_self
    exact ⟨c, cs, rfl, Nat.isDigit_of_mem_toDigits (by decide) (by decide) hmem⟩

/-- The decimal text of a number below the bound reads back as an unsigned number. -/
theorem unsigned?_toDigits {bound n : ℕ} (hn : n < bound) :
    unsigned? bound (Nat.toDigits 10 n) = some n := by
  obtain ⟨c, cs, hcons, hdigit⟩ := toDigits_eq_cons n
  have hplus : c ≠ '+' := by
    rintro rfl
    exact absurd hdigit (by decide)
  rw [unsigned?.eq_2 _ _ (by rw [hcons]; simp [hplus]), decimalNat?_toDigits,
    Option.filter_some, if_pos (decide_eq_true hn)]

/-- The decimal text of an integer reads back. -/
theorem decimalInt?_decimalInt (n : ℤ) : decimalInt? (decimalInt n) = some n := by
  unfold decimalInt
  split
  · rw [decimalInt?, decimalNat?_toDigits, Option.map_some]
    congr 1
    omega
  · obtain ⟨c, cs, hcons, hdigit⟩ := toDigits_eq_cons n.natAbs
    have hminus : c ≠ '-' := by
      rintro rfl
      exact absurd hdigit (by decide)
    have hplus : c ≠ '+' := by
      rintro rfl
      exact absurd hdigit (by decide)
    rw [decimalInt?.eq_3 _ (by rw [hcons]; simp [hminus]) (by rw [hcons]; simp [hplus]),
      decimalNat?_toDigits, Option.map_some]
    congr 1
    omega

/-- A decimal text starts with a zero only when it is the number zero. -/
theorem toDigits_head_zero {n : ℕ} {cs : List Char} (h : Nat.toDigits 10 n = '0' :: cs) :
    n = 0 := by
  induction n using Nat.strongRecOn generalizing cs with
  | _ n ih =>
    by_cases hn : n < 10
    · rw [Nat.toDigits_of_lt_base hn] at h
      have hzero : ∀ d : Fin 10, (d : ℕ).digitChar = '0' → (d : ℕ) = 0 := by decide
      exact hzero ⟨n, hn⟩ (List.cons.inj h).1
    · rw [Nat.toDigits_of_base_le (by decide) (by omega)] at h
      obtain ⟨c, cs', hcons, -⟩ := toDigits_eq_cons (n / 10)
      rw [hcons, List.cons_append] at h
      have hc := (List.cons.inj h).1
      subst hc
      have := ih (n / 10) (by omega) hcons
      omega

end Foundation
