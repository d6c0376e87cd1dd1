import Mathlib.Data.List.Induction
import Otmp.Foundation.Text

/-!
# The readers of decimal and hexadecimal text

What a reader accepts is what the printer writes for the value read, once the spelling
is canonical: lower-case hexadecimal digits, and decimal digits without redundant signs
or leading zeros.
-/

namespace Foundation

/-- A decimal digit is the printed form of its value. -/
theorem digitChar_of_isDigit {c : Char} (h : c.isDigit = true) :
    c.toNat - 48 < 10 ∧ (c.toNat - 48).digitChar = c := by
  have hrange : 48 ≤ c.toNat ∧ c.toNat ≤ 57 := by
    rw [Char.isDigit, Bool.and_eq_true, decide_eq_true_eq, decide_eq_true_eq] at h
    exact h
  have hdigits : ∀ d : Fin 10, (d : ℕ).digitChar = Char.ofNat (d + 48) := by decide
  refine ⟨by omega, ?_⟩
  have hd := hdigits ⟨c.toNat - 48, by omega⟩
  rw [hd]
  have hsum : c.toNat - 48 + 48 = c.toNat := by omega
  rw [hsum, Char.ofNat_toNat]

/-- Characters are ordered as their code points. -/
private theorem char_le {c d : Char} : c ≤ d ↔ c.toNat ≤ d.toNat := by
  rw [Char.le_def, UInt32.le_iff_toNat_le]
  rfl

/-- A lower-case hexadecimal digit is the printed form of its value. -/
theorem digitChar_of_isLowerHex {c : Char} {d : ℕ} (h : isLowerHex c = true)
    (hd : hexValue? c = some d) : d < 16 ∧ d.digitChar = c := by
  have hletters : ∀ d : Fin 6, ((d : ℕ) + 10).digitChar = Char.ofNat (d + 97) := by decide
  have hnine : '0' ≤ c ∧ c ≤ '9' ↔ 48 ≤ c.toNat ∧ c.toNat ≤ 57 := by
    rw [char_le, char_le]
    rfl
  have hf : 'a' ≤ c ∧ c ≤ 'f' ↔ 97 ≤ c.toNat ∧ c.toNat ≤ 102 := by
    rw [char_le, char_le]
    rfl
  rw [isLowerHex, decide_eq_true_eq] at h
  rw [hexValue?] at hd
  by_cases hdigit : '0' ≤ c ∧ c ≤ '9'
  · rw [if_pos hdigit, Option.some.injEq] at hd
    subst hd
    have hisDigit : c.isDigit = true := by
      rw [Char.isDigit, Bool.and_eq_true, decide_eq_true_eq, decide_eq_true_eq]
      exact hdigit
    rw [hnine] at hdigit
    exact ⟨by omega, (digitChar_of_isDigit hisDigit).2⟩
  · have hletter := h.resolve_left hdigit
    rw [if_neg hdigit, if_pos hletter, Option.some.injEq] at hd
    rw [hf] at hletter
    have hd' := hletters ⟨c.toNat - 97, by omega⟩
    have hlow : c.toNat - 97 + 10 = d := by omega
    have hback : c.toNat - 97 + 97 = c.toNat := by omega
    dsimp only at hd'
    rw [hlow, hback, Char.ofNat_toNat] at hd'
    exact ⟨by omega, hd'⟩

/-- Lower-case hexadecimal text is the printed form of the bytes read from it. -/
theorem hexEncode_of_hexDecode? {cs : List Char} {bs : List UInt8}
    (h : hexDecode? cs = some bs) : hexEncode bs = cs ↔ cs.all isLowerHex = true := by
  constructor
  · intro heq
    rw [List.all_eq_true, ← heq]
    exact fun c hc => isLowerHex_of_mem_hexEncode hc
  · intro hlower
    induction cs using hexDecode?.induct generalizing bs with
    | case1 =>
      cases h
      rfl
    | case2 c => cases h
    | case3 high low cs ih =>
      rw [hexDecode?] at h
      obtain ⟨hi, hhigh, h⟩ := Option.bind_eq_some_iff.mp h
      obtain ⟨lo, hlow, h⟩ := Option.bind_eq_some_iff.mp h
      obtain ⟨bs', hbs, h⟩ := Option.bind_eq_some_iff.mp h
      cases h
      rw [List.all_cons, List.all_cons, Bool.and_eq_true, Bool.and_eq_true] at hlower
      obtain ⟨hhi, hdigit⟩ := digitChar_of_isLowerHex hlower.1 hhigh
      obtain ⟨hlo, hdigit'⟩ := digitChar_of_isLowerHex hlower.2.1 hlow
      have hbyte : (UInt8.ofNat (16 * hi + lo)).toNat = 16 * hi + lo :=
        UInt8.toNat_ofNat_of_lt' (by rw [UInt8.size]; omega)
      have hquot : (16 * hi + lo) / 16 = hi := by omega
      have hrem : (16 * hi + lo) % 16 = lo := by omega
      rw [hexEncode, hbyte, hquot, hrem, hdigit, hdigit', ih hbs hlower.2.2]

/-- Fixed-width hexadecimal text is the printed form of the number read from it. -/
theorem hexFixed_of_hexNat? {cs : List Char} {n : ℕ} (hlower : cs.all isLowerHex = true)
    (h : hexNat? cs = some n) : hexFixed cs.length n = cs ∧ n < 16 ^ cs.length := by
  induction cs using List.reverseRecOn generalizing n with
  | nil =>
    cases h
    exact ⟨rfl, by decide⟩
  | append_singleton cs c ih =>
    rw [List.all_append, Bool.and_eq_true, List.all_cons, List.all_nil, Bool.and_true] at hlower
    rw [hexNat?, List.foldlM_append] at h
    obtain ⟨m, hm, h⟩ := Option.bind_eq_some_iff.mp h
    obtain ⟨hprinted, hlt⟩ := ih hlower.1 hm
    rw [List.foldlM_cons] at h
    obtain ⟨n', hn, h⟩ := Option.bind_eq_some_iff.mp h
    cases h
    obtain ⟨d, hd, rfl⟩ := Option.map_eq_some_iff.mp hn
    obtain ⟨hdlt, hdigit⟩ := digitChar_of_isLowerHex hlower.2 hd
    have hquot : (16 * m + d) / 16 = m := by omega
    have hrem : (16 * m + d) % 16 = d := by omega
    rw [List.length_append, List.length_singleton]
    refine ⟨by rw [hexFixed, hquot, hrem, hprinted, hdigit], ?_⟩
    rw [Nat.pow_succ]
    omega

/-- Decimal digits without a leading zero are the printed form of their number. -/
theorem toDigits_ofDigitChars {cs : List Char} (hne : cs ≠ [])
    (hdigits : cs.all Char.isDigit = true) (hzero : ∀ c tail, cs ≠ '0' :: c :: tail) :
    Nat.toDigits 10 (Nat.ofDigitChars 10 cs 0) = cs := by
  induction cs using List.reverseRecOn with
  | nil => exact absurd rfl hne
  | append_singleton cs c ih =>
    rw [List.all_append, Bool.and_eq_true, List.all_cons, List.all_nil, Bool.and_true] at hdigits
    obtain ⟨hlt, hdigit⟩ := digitChar_of_isDigit hdigits.2
    have hnat : ('0' : Char).toNat = 48 := rfl
    rw [Nat.ofDigitChars_append, Nat.ofDigitChars_cons, Nat.ofDigitChars_nil, hnat]
    cases cs with
    | nil =>
      rw [Nat.ofDigitChars_nil, Nat.mul_zero, Nat.zero_add, Nat.toDigits_of_lt_base hlt, hdigit]
      rfl
    | cons first cs =>
      have hrest := ih (List.cons_ne_nil _ _) hdigits.1 fun c' tail heq =>
        hzero c' (tail ++ [c]) (by rw [heq]; rfl)
      have hpos : 0 < Nat.ofDigitChars 10 (first :: cs) 0 := by
        rw [Nat.pos_iff_ne_zero]
        intro hz
        rw [hz, Nat.toDigits_zero] at hrest
        cases hrest
        exact hzero c [] rfl
      rw [← Nat.toDigits_append_toDigits (by decide) hpos hlt, hrest,
        Nat.toDigits_of_lt_base hlt, hdigit]

end Foundation
