import Mathlib.Algebra.Order.Ring.Int
import Mathlib.Tactic.Ring
import Mathlib.Tactic.Linarith
import Otmp.Foundation.CborReaders

/-!
# Two's complement of any length

A byte string, most significant byte first, spells an integer in two's complement. Among
the byte strings of one integer exactly one is minimal: its first byte is not a mere copy
of the sign. IsMinimal byte strings of one sign are ordered by length and then by bytes.
-/

namespace Foundation

open Cbor

/-- The first bit of a byte string is set. -/
def negative : List UInt8 → Bool
  | [] => false
  | first :: _ => decide (128 ≤ first.toNat)

/-- The integer that a byte string spells in two's complement, of any length. -/
def signedValue (bytes : List UInt8) : ℤ :=
  beNat bytes - if negative bytes then 256 ^ bytes.length else 0

/-- A byte string that no shorter one spells: it is not empty and its first byte is not the sign
of the second. -/
def IsMinimal : List UInt8 → Prop
  | [] => False
  | [_] => True
  | first :: second :: _ =>
    ¬(first.toNat = 0 ∧ second.toNat < 128) ∧ ¬(first.toNat = 255 ∧ 128 ≤ second.toNat)

/-- One more byte at the end multiplies by 256 and adds the byte. -/
theorem beNat_concat (bytes : List UInt8) (b : UInt8) :
    beNat (bytes ++ [b]) = 256 * beNat bytes + b.toNat := by
  rw [beNat, List.foldl_append]
  rfl

/-- Bytes in front of others count for as many powers of 256. -/
theorem beNat_append (bytes rest : List UInt8) :
    beNat (bytes ++ rest) = beNat bytes * 256 ^ rest.length + beNat rest := by
  induction rest using List.reverseRecOn with
  | nil => simp [beNat]
  | append_singleton rest b ih =>
    rw [← List.append_assoc, beNat_concat, beNat_concat, ih, List.length_append,
      List.length_singleton, pow_succ]
    ring

/-- The first byte is the most significant one. -/
theorem beNat_cons (b : UInt8) (bytes : List UInt8) :
    beNat (b :: bytes) = b.toNat * 256 ^ bytes.length + beNat bytes := by
  have h := beNat_append [b] bytes
  rwa [List.singleton_append, show beNat [b] = b.toNat by simp [beNat]] at h

/-- The sign of a number is in its first byte, so a byte at the end does not change it. -/
theorem negative_concat {bytes : List UInt8} (hne : bytes ≠ []) (b : UInt8) :
    negative (bytes ++ [b]) = negative bytes := by
  obtain ⟨first, rest, rfl⟩ := List.exists_cons_of_ne_nil hne
  rfl

/-- A byte at the end shifts the number and is added to it, also below zero. -/
theorem signedValue_concat {bytes : List UInt8} (hne : bytes ≠ []) (b : UInt8) :
    signedValue (bytes ++ [b]) = 256 * signedValue bytes + b.toNat := by
  rw [signedValue, signedValue, negative_concat hne, beNat_concat, List.length_append,
    List.length_singleton, pow_succ]
  push_cast
  split
  · ring
  · ring

/-- The integers that byte strings of one length and sign spell. -/
theorem signedValue_bounds (first : UInt8) (rest : List UInt8) :
    (negative (first :: rest) = false →
      0 ≤ signedValue (first :: rest) ∧ signedValue (first :: rest) < 128 * 256 ^ rest.length) ∧
    (negative (first :: rest) = true →
      -(128 * 256 ^ rest.length) ≤ signedValue (first :: rest) ∧
        signedValue (first :: rest) < 0) := by
  have hrest : (beNat rest : ℤ) < 256 ^ rest.length := by exact_mod_cast beNat_lt rest
  have hnonneg : (0 : ℤ) ≤ beNat rest := Int.natCast_nonneg _
  have hpow : (0 : ℤ) < 256 ^ rest.length := by positivity
  have hfirst : (first.toNat : ℤ) < 256 := by exact_mod_cast first.toNat_lt
  have hcons : (beNat (first :: rest) : ℤ) = first.toNat * 256 ^ rest.length + beNat rest := by
    exact_mod_cast beNat_cons first rest
  simp only [signedValue, negative, hcons, List.length_cons, pow_succ]
  constructor
  · intro hsign
    have hlt : (first.toNat : ℤ) ≤ 127 := by
      have := of_decide_eq_false hsign
      omega
    rw [hsign]
    constructor
    · simp only [Bool.false_eq_true, if_false, sub_zero]
      positivity
    · simp only [Bool.false_eq_true, if_false]
      nlinarith
  · intro hsign
    have hge : (128 : ℤ) ≤ first.toNat := by exact_mod_cast of_decide_eq_true hsign
    rw [hsign]
    constructor
    · simp only [if_true]
      nlinarith
    · simp only [if_true]
      nlinarith

/-- The integers of minimal byte strings are not spelled with fewer bytes. -/
theorem signedValue_minimal {first second : UInt8} {rest : List UInt8}
    (h : IsMinimal (first :: second :: rest)) :
    (negative (first :: second :: rest) = false →
      128 * 256 ^ rest.length ≤ signedValue (first :: second :: rest)) ∧
    (negative (first :: second :: rest) = true →
      signedValue (first :: second :: rest) < -(128 * 256 ^ rest.length)) := by
  have hrest : (beNat rest : ℤ) < 256 ^ rest.length := by exact_mod_cast beNat_lt rest
  have hnonneg : (0 : ℤ) ≤ beNat rest := Int.natCast_nonneg _
  have hpow : (0 : ℤ) < 256 ^ rest.length := by positivity
  have hsecond : (second.toNat : ℤ) < 256 := by exact_mod_cast second.toNat_lt
  have hsecond' : (0 : ℤ) ≤ second.toNat := Int.natCast_nonneg _
  have hcons : (beNat (first :: second :: rest) : ℤ) =
      first.toNat * (256 ^ rest.length * 256) + (second.toNat * 256 ^ rest.length +
        beNat rest) := by
    have hbytes := beNat_cons first (second :: rest)
    rw [beNat_cons second rest, List.length_cons, pow_succ] at hbytes
    exact_mod_cast hbytes
  simp only [IsMinimal] at h
  simp only [signedValue, negative, hcons, List.length_cons, pow_succ]
  constructor
  · intro hsign
    have hpair : 1 ≤ (first.toNat : ℤ) ∨ (first.toNat : ℤ) = 0 ∧ 128 ≤ (second.toNat : ℤ) := by
      omega
    rw [hsign]
    simp only [Bool.false_eq_true, if_false]
    rcases hpair with hfirst | ⟨hfirst, hlarge⟩
    · nlinarith [mul_nonneg hsecond' hpow.le]
    · rw [hfirst]
      nlinarith
  · intro hsign
    have hge := of_decide_eq_true hsign
    have hlt : first.toNat < 256 := first.toNat_lt
    have hpair : (first.toNat : ℤ) ≤ 254 ∨
        (first.toNat : ℤ) = 255 ∧ (second.toNat : ℤ) ≤ 127 := by
      omega
    rw [hsign]
    simp only [if_true]
    rcases hpair with hfirst | ⟨hfirst, hsmall⟩
    · nlinarith
    · rw [hfirst]
      nlinarith

/-- Byte strings of one length are ordered as their numbers. -/
theorem lt_iff_beNat_lt {left right : List UInt8} (h : left.length = right.length) :
    left < right ↔ beNat left < beNat right := by
  induction left generalizing right with
  | nil =>
    cases right with
    | nil => simp
    | cons b right => cases h
  | cons a left ih =>
    cases right with
    | nil => cases h
    | cons b right =>
      have hlength : left.length = right.length := Nat.succ.inj h
      have hleft := beNat_lt left
      have hright := beNat_lt right
      rw [List.cons_lt_cons_iff, beNat_cons, beNat_cons, ih hlength, ← hlength,
        UInt8.lt_iff_toNat_lt, ← UInt8.toNat_inj]
      rw [← hlength] at hright
      constructor
      · rintro (hlt | ⟨heq, hlt⟩)
        · calc a.toNat * 256 ^ left.length + beNat left
              < (a.toNat + 1) * 256 ^ left.length := by rw [Nat.succ_mul]; omega
            _ ≤ b.toNat * 256 ^ left.length := Nat.mul_le_mul_right _ hlt
            _ ≤ b.toNat * 256 ^ left.length + beNat right := Nat.le_add_right _ _
        · rw [heq]
          omega
      · intro hlt
        rcases Nat.lt_trichotomy a.toNat b.toNat with hab | hab | hab
        · exact .inl hab
        · rw [hab] at hlt
          exact .inr ⟨hab, by omega⟩
        · have hle : (b.toNat + 1) * 256 ^ left.length ≤ a.toNat * 256 ^ left.length :=
            Nat.mul_le_mul_right _ hab
          rw [Nat.succ_mul] at hle
          omega

/-- Byte strings of one length with one number are equal. -/
theorem eq_of_beNat {left right : List UInt8} (hlength : left.length = right.length)
    (h : beNat left = beNat right) : left = right := by
  rw [← beBytes_beNat left, ← beBytes_beNat right, hlength, h]

/-- A longer minimal byte string of the same sign is further from zero. -/
theorem signedValue_lt_of_length {left right : List UInt8} (hleft : left ≠ [])
    (hright : IsMinimal right) (hlength : left.length < right.length) :
    (negative left = false → negative right = false → signedValue left < signedValue right) ∧
    (negative left = true → negative right = true → signedValue right < signedValue left) := by
  obtain ⟨first, rest, rfl⟩ := List.exists_cons_of_ne_nil hleft
  match right with
  | [] => cases hright
  | [_] => simp at hlength
  | r :: second :: more =>
    have hpow : (256 : ℤ) ^ rest.length ≤ 256 ^ more.length := by
      apply pow_le_pow_right₀ (by norm_num)
      simp only [List.length_cons] at hlength
      omega
    obtain ⟨hfalse, htrue⟩ := signedValue_bounds first rest
    obtain ⟨hfalse', htrue'⟩ := signedValue_minimal hright
    constructor
    · intro hl hr
      have h := (hfalse hl).2
      have h' := hfalse' hr
      linarith
    · intro hl hr
      have h := (htrue hl).1
      have h' := htrue' hr
      linarith

/-- Negative byte strings spell negative integers. -/
theorem negative_eq_decide {bytes : List UInt8} (hne : bytes ≠ []) :
    negative bytes = decide (signedValue bytes < 0) := by
  obtain ⟨first, rest, rfl⟩ := List.exists_cons_of_ne_nil hne
  obtain ⟨hfalse, htrue⟩ := signedValue_bounds first rest
  cases hsign : negative (first :: rest) with
  | false => exact (decide_eq_false (not_lt.mpr (hfalse hsign).1)).symm
  | true => exact (decide_eq_true (htrue hsign).2).symm

/-- The minimal form of a number has at least one byte. -/
theorem IsMinimal.ne_nil {bytes : List UInt8} (h : IsMinimal bytes) : bytes ≠ [] := by
  rintro rfl
  exact h

/-- The order of minimal byte strings: by sign, then by length, then by bytes. -/
theorem signedValue_lt_iff {left right : List UInt8} (hleft : IsMinimal left)
    (hright : IsMinimal right) :
    signedValue left < signedValue right ↔
      match negative left, negative right with
      | true, false => True
      | false, true => False
      | false, false => left.length < right.length ∨
          left.length = right.length ∧ left < right
      | true, true => right.length < left.length ∨
          left.length = right.length ∧ left < right := by
  have hsame : negative left = negative right → left.length = right.length →
      (left < right ↔ signedValue left < signedValue right) := by
    intro hsign hlength
    rw [lt_iff_beNat_lt hlength, signedValue, signedValue, hsign, hlength]
    omega
  have hl := negative_eq_decide hleft.ne_nil
  have hr := negative_eq_decide hright.ne_nil
  have hlt := signedValue_lt_of_length hleft.ne_nil hright
  have hgt := signedValue_lt_of_length hright.ne_nil hleft
  have hcases := Nat.lt_trichotomy left.length right.length
  cases hnl : negative left with
  | false =>
    rw [hnl] at hl hsame hlt hgt
    cases hnr : negative right with
    | false =>
      rw [hnr] at hsame hlt hgt
      constructor
      · intro hvalue
        rcases hcases with hlength | hlength | hlength
        · exact .inl hlength
        · exact .inr ⟨hlength, (hsame rfl hlength).mpr hvalue⟩
        · exact absurd hvalue (hgt hlength |>.1 rfl rfl).le.not_gt
      · rintro (hlength | ⟨hlength, hbytes⟩)
        · exact (hlt hlength).1 rfl rfl
        · exact (hsame rfl hlength).mp hbytes
    | true =>
      rw [hnr] at hr
      have h := of_decide_eq_false hl.symm
      have h' := of_decide_eq_true hr.symm
      exact iff_of_false (by omega) id
  | true =>
    rw [hnl] at hl hsame hlt hgt
    cases hnr : negative right with
    | false =>
      rw [hnr] at hr
      have h := of_decide_eq_true hl.symm
      have h' := of_decide_eq_false hr.symm
      exact iff_of_true (by omega) trivial
    | true =>
      rw [hnr] at hsame hlt hgt
      constructor
      · intro hvalue
        rcases hcases with hlength | hlength | hlength
        · exact absurd hvalue (hlt hlength |>.2 rfl rfl).le.not_gt
        · exact .inr ⟨hlength, (hsame rfl hlength).mpr hvalue⟩
        · exact .inl hlength
      · rintro (hlength | ⟨hlength, hbytes⟩)
        · exact (hgt hlength).2 rfl rfl
        · exact (hsame rfl hlength).mp hbytes

/-- An integer has one minimal byte string. -/
theorem IsMinimal.eq_of_signedValue {left right : List UInt8} (hleft : IsMinimal left)
    (hright : IsMinimal right) (h : signedValue left = signedValue right) : left = right := by
  have hsign : negative left = negative right := by
    rw [negative_eq_decide hleft.ne_nil, negative_eq_decide hright.ne_nil, h]
  have hlength : left.length = right.length := by
    rcases Nat.lt_trichotomy left.length right.length with hlt | heq | hlt
    · have hvalue := signedValue_lt_of_length hleft.ne_nil hright hlt
      cases hn : negative right <;> rw [hn] at hsign <;> simp [hsign, hn, h] at hvalue
    · exact heq
    · have hvalue := signedValue_lt_of_length hright.ne_nil hleft hlt
      cases hn : negative right <;> rw [hn] at hsign <;> simp [hsign, hn, h] at hvalue
  refine eq_of_beNat hlength ?_
  rw [signedValue, signedValue, hsign, hlength] at h
  omega

/-- Every integer has a minimal byte string. -/
theorem exists_minimal (n : ℤ) : ∃ bytes, IsMinimal bytes ∧ signedValue bytes = n := by
  induction hsize : n.natAbs using Nat.strong_induction_on generalizing n with
  | _ size ih =>
    subst hsize
    have hlt : (n % 256).toNat < 256 := by omega
    have hbyte : (UInt8.ofNat (n % 256).toNat).toNat = (n % 256).toNat :=
      UInt8.toNat_ofNat_of_lt hlt
    by_cases hsmall : -128 ≤ n ∧ n < 128
    · refine ⟨[UInt8.ofNat (n % 256).toNat], trivial, ?_⟩
      simp only [signedValue, negative, beNat, List.foldl_cons, List.foldl_nil, hbyte,
        List.length_singleton, pow_one, decide_eq_true_eq]
      split <;> omega
    · obtain ⟨front, hminimal, hvalue⟩ := ih (n / 256).natAbs (by omega) (n / 256) rfl
      refine ⟨front ++ [UInt8.ofNat (n % 256).toNat], ?_, ?_⟩
      · match front with
        | [first] =>
          simp only [signedValue, negative, beNat, List.foldl_cons, List.foldl_nil,
            List.length_singleton, pow_one, decide_eq_true_eq] at hvalue
          have hfirst := first.toNat_lt
          simp only [List.singleton_append, IsMinimal, hbyte]
          push_cast at hvalue
          constructor
          · rintro ⟨hzero, hlow⟩
            split at hvalue
            · omega
            · omega
          · rintro ⟨hones, hhigh⟩
            split at hvalue
            · omega
            · omega
        | first :: second :: rest => exact hminimal
      · rw [signedValue_concat hminimal.ne_nil, hvalue, hbyte]
        omega

/-- Copies of the sign in front of a byte string do not change its integer. -/
theorem signedValue_extend (bytes : List UInt8) (count : ℕ) :
    signedValue (List.replicate count (if negative bytes then 255 else 0) ++ bytes) =
      signedValue bytes := by
  induction count with
  | zero => rfl
  | succ count ih =>
    rw [← ih, List.replicate_succ, List.cons_append]
    have hsign : negative (List.replicate count (if negative bytes then 255 else 0) ++ bytes) =
        negative bytes := by
      cases count with
      | zero => rfl
      | succ count =>
        rw [List.replicate_succ, List.cons_append, negative]
        cases negative bytes <;> rfl
    rw [signedValue, signedValue, hsign, beNat_cons, List.length_cons, pow_succ, negative]
    push_cast
    cases negative bytes with
    | false => simp
    | true =>
      simp only [if_true, UInt8.reduceToNat, Nat.reduceLeDiff, decide_true]
      ring

end Foundation
