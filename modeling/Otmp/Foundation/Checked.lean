import Otmp.Foundation.Bytes
import Otmp.Foundation.Run

/-!
# Machine arithmetic, slices and panics

A computation over bytes returns a value, refuses its input with an error, or panics: its
arithmetic leaves the word, or it slices a buffer outside its bounds. A safe computation
never panics.
-/

namespace Foundation

/-- Why a computation returns no value: the input was refused with an error, or the program
panicked. -/
inductive Fault (ε : Type*) where
  | refused (e : ε)
  | panicked
  deriving DecidableEq

/-- The number of values of a machine word, which indices and lengths have to stay below. -/
def wordSize : ℕ := 18446744073709551616

variable {ε : Type*} {α β : Type}

/-- Refuse the input when a condition holds, and go on with it otherwise. -/
def refuseIf (c : Prop) [Decidable c] (e : ε) : Except (Fault ε) Unit :=
  if c then .error (.refused e) else .ok ()

/-- Refuse the input when there is no value, and go on with the value otherwise. -/
def orRefuse (e : ε) : Option α → Except (Fault ε) α
  | none => .error (.refused e)
  | some a => .ok a

/-- The sum of two words, if it is a word. -/
def checkedAdd (a b : ℕ) : Option ℕ := if a + b < wordSize then some (a + b) else none

/-- The product of two words, if it is a word. -/
def checkedMul (a b : ℕ) : Option ℕ := if a * b < wordSize then some (a * b) else none

/-- The sum of two words, where leaving the word is a panic. -/
def addOrPanic (a b : ℕ) : Except (Fault ε) ℕ :=
  if a + b < wordSize then .ok (a + b) else .error .panicked

/-- The product of two words, where leaving the word is a panic. -/
def mulOrPanic (a b : ℕ) : Except (Fault ε) ℕ :=
  if a * b < wordSize then .ok (a * b) else .error .panicked

/-- The difference of two words, where going below zero is a panic. -/
def subOrPanic (a b : ℕ) : Except (Fault ε) ℕ :=
  if b ≤ a then .ok (a - b) else .error .panicked

/-- An element of a buffer; an index behind the end panics. -/
def indexOrPanic (xs : List α) (i : ℕ) : Except (Fault ε) α :=
  match xs[i]? with
  | none => .error .panicked
  | some a => .ok a

/-- The elements `[start, stop)` of a buffer; a range that is reversed or ends behind it panics. -/
def sliceOrPanic (xs : List α) (start stop : ℕ) : Except (Fault ε) (List α) :=
  match getRange? xs start stop with
  | none => .error .panicked
  | some ys => .ok ys

/-- Copy a slice over the elements of a buffer that start at a position. -/
def copyOrPanic (xs : List α) (start : ℕ) (ys : List α) : Except (Fault ε) (List α) :=
  if start + ys.length ≤ xs.length then .ok (overwrite xs start ys) else .error .panicked

/-- The computation does not panic: it returns a value or refuses the input. -/
def Safe (x : Except (Fault ε) α) : Prop := x ≠ .error .panicked

section Safe

variable {x : Except (Fault ε) α} {f : α → Except (Fault ε) β} {a b : ℕ} {e : ε}

/-- A value is no panic. -/
@[simp] theorem safe_ok (a : α) : Safe (.ok a : Except (Fault ε) α) := nofun

/-- Returning a value is no panic. -/
@[simp] theorem safe_pure (a : α) : Safe (pure a : Except (Fault ε) α) := nofun

/-- Refusing the input is no panic. -/
@[simp] theorem safe_refused (e : ε) : Safe (.error (.refused e) : Except (Fault ε) α) := nofun

/-- A sequence is safe when each part is, where the second one runs. -/
theorem Safe.bind (hx : Safe x) (hf : ∀ a, x = .ok a → Safe (f a)) : Safe (x >>= f) := by
  cases h : x with
  | error fault =>
    cases fault with
    | refused e => exact safe_refused e
    | panicked => exact absurd h hx
  | ok a => exact hf a h

/-- A check refuses the input or lets it pass; it does not panic. -/
@[simp] theorem safe_refuseIf (c : Prop) [Decidable c] : Safe (refuseIf c e) := by
  unfold refuseIf
  split
  · exact safe_refused e
  · exact safe_ok ()

/-- Requiring a value refuses the input when there is none; it does not panic. -/
@[simp] theorem safe_orRefuse (a : Option α) : Safe (orRefuse e a) := by
  cases a with
  | none => exact safe_refused e
  | some a => exact safe_ok a

/-- A check is passed when its condition does not hold. -/
theorem refuseIf_eq_ok {c : Prop} [Decidable c] {u : Unit} : refuseIf c e = .ok u ↔ ¬c := by
  unfold refuseIf
  split <;> simp_all

/-- A refused input ends the computation, whatever would have come after it. -/
theorem refuseIf_bind {c : Prop} [Decidable c] {f : Unit → Except (Fault ε) β} (h : c) :
    (refuseIf c e >>= f) = .error (.refused e) := by
  rw [refuseIf, if_pos h]
  rfl

/-- A check that is passed hands over to what follows. -/
theorem passed_bind {c : Prop} [Decidable c] {f : Unit → Except (Fault ε) β} (h : ¬c) :
    (refuseIf c e >>= f) = f () := by
  rw [refuseIf, if_neg h]
  rfl

/-- A required value is there when the computation goes on, and it is that value. -/
theorem orRefuse_eq_ok {a : Option α} {v : α} : orRefuse e a = .ok v ↔ a = some v := by
  cases a <;> simp [orRefuse]

/-- A checked sum is there when it is a word, and then it is the sum. -/
theorem checkedAdd_eq_some {n : ℕ} : checkedAdd a b = some n ↔ a + b < wordSize ∧ n = a + b := by
  unfold checkedAdd
  split
  · next h => simp [h, eq_comm]
  · next h => simp [h]

/-- A checked sum is missing when the sum leaves the word. -/
theorem checkedAdd_eq_none : checkedAdd a b = none ↔ ¬a + b < wordSize := by
  unfold checkedAdd
  split
  · next h => exact iff_of_false nofun fun h' => h' h
  · next h => exact iff_of_true rfl h

/-- A checked product is there when it is a word, and then it is the product. -/
theorem checkedMul_eq_some {n : ℕ} : checkedMul a b = some n ↔ a * b < wordSize ∧ n = a * b := by
  unfold checkedMul
  split
  · next h => simp [h, eq_comm]
  · next h => simp [h]

/-- A checked sum of a product and a number. -/
theorem checkedMulAdd (a b n : ℕ) : ((checkedMul a b).bind fun m => checkedAdd m n) =
    if a * b + n < wordSize then some (a * b + n) else none := by
  by_cases hmul : a * b < wordSize
  · rw [checkedMul, if_pos hmul]
    rfl
  · rw [checkedMul, if_neg hmul, if_neg (by omega)]
    rfl

/-- A sum that is a word does not panic. -/
theorem addOrPanic_eq (h : a + b < wordSize) :
    (addOrPanic a b : Except (Fault ε) ℕ) = .ok (a + b) :=
  if_pos h

/-- A product that is a word does not panic. -/
theorem mulOrPanic_eq (h : a * b < wordSize) :
    (mulOrPanic a b : Except (Fault ε) ℕ) = .ok (a * b) :=
  if_pos h

/-- A difference that does not go below zero does not panic. -/
theorem subOrPanic_eq (h : b ≤ a) : (subOrPanic a b : Except (Fault ε) ℕ) = .ok (a - b) := if_pos h

/-- A sum that is returned is the sum. -/
theorem addOrPanic_eq_ok {n : ℕ} (h : (addOrPanic a b : Except (Fault ε) ℕ) = .ok n) :
    n = a + b := by
  unfold addOrPanic at h
  split at h
  · exact (Except.ok.inj h).symm
  · cases h

/-- A product that is returned is the product. -/
theorem mulOrPanic_eq_ok {n : ℕ} (h : (mulOrPanic a b : Except (Fault ε) ℕ) = .ok n) :
    n = a * b := by
  unfold mulOrPanic at h
  split at h
  · exact (Except.ok.inj h).symm
  · cases h

/-- A difference that is returned did not go below zero, and is the difference. -/
theorem subOrPanic_eq_ok {n : ℕ} (h : (subOrPanic a b : Except (Fault ε) ℕ) = .ok n) :
    b ≤ a ∧ n = a - b := by
  unfold subOrPanic at h
  split at h
  · next hle => exact ⟨hle, (Except.ok.inj h).symm⟩
  · cases h

/-- An element inside a buffer is read without a panic. -/
theorem indexOrPanic_eq {xs : List α} {i : ℕ} (h : i < xs.length) :
    (indexOrPanic xs i : Except (Fault ε) α) = .ok xs[i] := by
  rw [indexOrPanic, List.getElem?_eq_getElem h]

/-- A slice inside a buffer is taken without a panic. -/
theorem sliceOrPanic_eq {xs : List α} {start stop : ℕ} (hle : start ≤ stop)
    (h : stop ≤ xs.length) :
    (sliceOrPanic xs start stop : Except (Fault ε) (List α)) =
      .ok (slice xs start (stop - start)) := by
  rw [sliceOrPanic, getRange?_eq_some.mpr ⟨hle, h, rfl⟩]

/-- A slice that is returned holds the elements between its ends. -/
theorem sliceOrPanic_eq_ok {xs ys : List α} {start stop : ℕ}
    (h : (sliceOrPanic xs start stop : Except (Fault ε) (List α)) = .ok ys) :
    ys = slice xs start (stop - start) := by
  unfold sliceOrPanic at h
  split at h
  · cases h
  · next hrange =>
    cases h
    exact (getRange?_eq_some.mp hrange).2.2.symm

/-- A copy that stays inside a buffer overwrites as many elements as it brings. -/
theorem copyOrPanic_eq {xs ys : List α} {start : ℕ} (h : start + ys.length ≤ xs.length) :
    (copyOrPanic xs start ys : Except (Fault ε) (List α)) = .ok (overwrite xs start ys) :=
  if_pos h

/-- Adding is safe when the sum is a word. -/
theorem safe_add (h : a + b < wordSize) : Safe (addOrPanic a b : Except (Fault ε) ℕ) := by
  rw [addOrPanic_eq h]
  exact safe_ok _

/-- Multiplying is safe when the product is a word. -/
theorem safe_mul (h : a * b < wordSize) : Safe (mulOrPanic a b : Except (Fault ε) ℕ) := by
  rw [mulOrPanic_eq h]
  exact safe_ok _

/-- Subtracting is safe when it does not go below zero. -/
theorem safe_sub (h : b ≤ a) : Safe (subOrPanic a b : Except (Fault ε) ℕ) := by
  rw [subOrPanic_eq h]
  exact safe_ok _

/-- Reading an element is safe inside the buffer. -/
theorem safe_index {xs : List α} {i : ℕ} (h : i < xs.length) :
    Safe (indexOrPanic xs i : Except (Fault ε) α) := by
  rw [indexOrPanic_eq h]
  exact safe_ok _

/-- Taking a slice is safe when its ends are in order and inside the buffer. -/
theorem safe_slice {xs : List α} {start stop : ℕ} (hle : start ≤ stop) (h : stop ≤ xs.length) :
    Safe (sliceOrPanic xs start stop : Except (Fault ε) (List α)) := by
  rw [sliceOrPanic_eq hle h]
  exact safe_ok _

end Safe

end Foundation
