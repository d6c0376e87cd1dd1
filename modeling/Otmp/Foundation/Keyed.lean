import Mathlib.Algebra.Order.Ring.Int
import Mathlib.Data.List.Basic
import Mathlib.Data.List.Nodup
import Mathlib.Algebra.Order.BigOperators.Group.List

/-!
# Lists with keys

A list of pairs with different keys is a finite map. Erasing a key takes away one pair, so
a sum over the pairs is the part of that pair and the sum over the rest.
-/

namespace Foundation

variable {K A : Type*} [DecidableEq K]

/-- The pairs with other keys, in the order in which they stand. -/
def eraseKey (k : K) (l : List (K × A)) : List (K × A) := l.filter fun p => p.1 ≠ k

/-- The value of the first pair with a key, if there is one. -/
def valueOf (k : K) (l : List (K × A)) : Option A := (l.find? (·.1 = k)).map Prod.snd

variable {k : K} {a : A} {l : List (K × A)}

/-- Erasing a key keeps the pairs of the other keys. -/
@[simp] theorem mem_eraseKey {p : K × A} : p ∈ eraseKey k l ↔ p ∈ l ∧ p.1 ≠ k := by
  simp [eraseKey]

/-- The keys after erasing one are the other ones. -/
theorem mem_map_fst_eraseKey {k' : K} :
    k' ∈ (eraseKey k l).map Prod.fst ↔ k' ∈ l.map Prod.fst ∧ k' ≠ k := by
  simp only [List.mem_map, mem_eraseKey]
  constructor
  · rintro ⟨p, ⟨hp, hne⟩, rfl⟩
    exact ⟨⟨p, hp, rfl⟩, hne⟩
  · rintro ⟨⟨p, hp, rfl⟩, hne⟩
    exact ⟨p, ⟨hp, hne⟩, rfl⟩

/-- Different keys stay different when one is erased. -/
theorem nodup_eraseKey (h : (l.map Prod.fst).Nodup) : ((eraseKey k l).map Prod.fst).Nodup :=
  h.sublist (List.filter_sublist.map _)

/-- A key that is not there is not erased. -/
theorem eraseKey_of_notMem (h : k ∉ l.map Prod.fst) : eraseKey k l = l := by
  refine List.filter_eq_self.mpr fun p hp => ?_
  have hne : p.1 ≠ k := fun heq => h (List.mem_map.mpr ⟨p, hp, heq⟩)
  exact decide_eq_true hne

/-- Erasing the first key of different ones leaves the rest. -/
theorem eraseKey_cons_self (h : k ∉ l.map Prod.fst) : eraseKey k ((k, a) :: l) = l := by
  rw [eraseKey, List.filter_cons_of_neg (by simp)]
  exact eraseKey_of_notMem h

/-- The value of a key is found where the key stands. -/
theorem mem_of_valueOf (h : valueOf k l = some a) : (k, a) ∈ l := by
  obtain ⟨p, hfind, rfl⟩ := Option.map_eq_some_iff.mp h
  have hkey : p.1 = k := by simpa using List.find?_some hfind
  subst hkey
  exact List.mem_of_find?_eq_some hfind

/-- A pair of a list with different keys is found under its key. -/
theorem valueOf_of_mem (hnodup : (l.map Prod.fst).Nodup) (h : (k, a) ∈ l) :
    valueOf k l = some a := by
  induction l with
  | nil => cases h
  | cons p l ih =>
    rw [List.map_cons, List.nodup_cons] at hnodup
    rcases List.mem_cons.mp h with rfl | hmem
    · simp [valueOf]
    · have hne : p.1 ≠ k := by
        rintro rfl
        exact hnodup.1 (List.mem_map.mpr ⟨_, hmem, rfl⟩)
      have hrest := ih hnodup.2 hmem
      rw [valueOf] at hrest ⊢
      rwa [List.find?_cons_of_neg (by simpa using hne)]

/-- No value is found for a key that is not there. -/
theorem valueOf_eq_none : valueOf k l = none ↔ k ∉ l.map Prod.fst := by
  rw [valueOf, Option.map_eq_none_iff, List.find?_eq_none]
  constructor
  · intro h hmem
    obtain ⟨p, hp, rfl⟩ := List.mem_map.mp hmem
    exact h p hp (decide_eq_true rfl)
  · intro h p hp heq
    exact h (List.mem_map.mpr ⟨p, hp, of_decide_eq_true heq⟩)

/-- Two values of one key are the same. -/
theorem eq_of_mem_keyed {a' : A} (hnodup : (l.map Prod.fst).Nodup) (h : (k, a) ∈ l)
    (h' : (k, a') ∈ l) : a = a' := by
  have hvalue := valueOf_of_mem hnodup h
  rw [valueOf_of_mem hnodup h'] at hvalue
  exact (Option.some.inj hvalue).symm

/-- A sum without the pair of a key. -/
theorem sum_eraseKey {f : A → ℕ} (hnodup : (l.map Prod.fst).Nodup) (h : (k, a) ∈ l) :
    (l.map fun p => f p.2).sum = f a + ((eraseKey k l).map fun p => f p.2).sum := by
  induction l with
  | nil => cases h
  | cons p l ih =>
    rw [List.map_cons, List.nodup_cons] at hnodup
    rcases List.mem_cons.mp h with rfl | hmem
    · rw [eraseKey_cons_self hnodup.1, List.map_cons, List.sum_cons]
    · have hne : p.1 ≠ k := by
        rintro rfl
        exact hnodup.1 (List.mem_map.mpr ⟨_, hmem, rfl⟩)
      have hkeep : eraseKey k (p :: l) = p :: eraseKey k l := by
        rw [eraseKey, List.filter_cons_of_pos (by simpa using hne)]
        rfl
      rw [hkeep, List.map_cons, List.sum_cons, List.map_cons, List.sum_cons, ih hnodup.2 hmem]
      omega

/-- The pair of a key in front of the others. -/
theorem perm_eraseKey (hnodup : (l.map Prod.fst).Nodup) (h : (k, a) ∈ l) :
    l.Perm ((k, a) :: eraseKey k l) := by
  induction l with
  | nil => cases h
  | cons p l ih =>
    rw [List.map_cons, List.nodup_cons] at hnodup
    rcases List.mem_cons.mp h with rfl | hmem
    · rw [eraseKey_cons_self hnodup.1]
    · have hne : p.1 ≠ k := by
        rintro rfl
        exact hnodup.1 (List.mem_map.mpr ⟨_, hmem, rfl⟩)
      have hkeep : eraseKey k (p :: l) = p :: eraseKey k l := by
        rw [eraseKey, List.filter_cons_of_pos (by simpa using hne)]
        rfl
      rw [hkeep]
      exact ((List.perm_cons p).mpr (ih hnodup.2 hmem)).trans (List.Perm.swap _ _ _)

/-- The first pair is found under its key. -/
@[simp] theorem valueOf_cons_self : valueOf k ((k, a) :: l) = some a := by
  simp [valueOf]

/-- A pair in front does not change what is found under another key. -/
theorem valueOf_cons_of_ne {p : K × A} (h : p.1 ≠ k) : valueOf k (p :: l) = valueOf k l := by
  rw [valueOf, List.find?_cons_of_neg (by simpa using h)]
  rfl

/-- An erased key is not found. -/
@[simp] theorem valueOf_eraseKey_self : valueOf k (eraseKey k l) = none :=
  valueOf_eq_none.mpr fun h => (mem_map_fst_eraseKey.mp h).2 rfl

/-- What is found under a key stays when another one is erased. -/
theorem valueOf_eraseKey_of_ne {k' : K} (h : k' ≠ k) :
    valueOf k' (eraseKey k l) = valueOf k' l := by
  rw [valueOf, valueOf, eraseKey, List.find?_filter]
  congr 2
  funext p
  by_cases hp : p.1 = k'
  · simp [hp, h]
  · simp [hp]

/-- The value of a key after one more pair. -/
theorem valueOf_cons {p : K × A} :
    valueOf k (p :: l) = if p.1 = k then some p.2 else valueOf k l := by
  split
  · next h =>
    subst h
    exact valueOf_cons_self
  · next h => exact valueOf_cons_of_ne h

/-- The value of a key after a key was erased. -/
theorem valueOf_eraseKey {k' : K} :
    valueOf k' (eraseKey k l) = if k = k' then none else valueOf k' l := by
  split
  · next h =>
    subst h
    exact valueOf_eraseKey_self
  · next h => exact valueOf_eraseKey_of_ne (Ne.symm h)

/-- A count without the pair of a key. -/
theorem countP_eraseKey {f : K → Bool} (hnodup : (l.map Prod.fst).Nodup) (h : (k, a) ∈ l) :
    l.countP (fun p => f p.1) = (if f k then 1 else 0) + (eraseKey k l).countP fun p => f p.1 := by
  induction l with
  | nil => cases h
  | cons p l ih =>
    rw [List.map_cons, List.nodup_cons] at hnodup
    rcases List.mem_cons.mp h with rfl | hmem
    · rw [eraseKey_cons_self hnodup.1, List.countP_cons, Nat.add_comm]
    · have hne : p.1 ≠ k := by
        rintro rfl
        exact hnodup.1 (List.mem_map.mpr ⟨_, hmem, rfl⟩)
      have hkeep : eraseKey k (p :: l) = p :: eraseKey k l := by
        rw [eraseKey, List.filter_cons_of_pos (by simpa using hne)]
        rfl
      rw [hkeep, List.countP_cons, List.countP_cons, ih hnodup.2 hmem]
      omega

/-- The keys without one of them. -/
theorem map_fst_eraseKey : (eraseKey k l).map Prod.fst = (l.map Prod.fst).filter (· ≠ k) := by
  rw [eraseKey, List.filter_map]
  rfl

end Foundation
