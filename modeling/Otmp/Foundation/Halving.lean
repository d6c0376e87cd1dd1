import Mathlib.Data.List.Basic
import Mathlib.Tactic.Common

/-!
# Recursion with a bound on its passes

A bounded computation fails, returns or runs out of passes. It gives a result when every large
enough bound does. A list is halved until each part is built whole: this ends when single items
are built or refused, and what is built then covers the list part by part.
-/

namespace Foundation

/-- A computation with a bound on its passes, which returns nothing when they do not suffice. -/
abbrev Bounded (ε : Type) := ExceptT ε Option

variable {ε α β σ : Type}

/-- There are no passes left, so there is neither a value nor an error. -/
def exhausted : Bounded ε α := ExceptT.mk none

/-- The result of a computation that needs no passes. -/
def given (x : Except ε α) : Bounded ε α := ExceptT.mk (some x)

/-- An answer that is given is one answer only. -/
theorem given_injective {x y : Except ε α} (h : given x = given y) : x = y := Option.some.inj h

/-- Returning a value gives it. -/
@[simp] theorem pure_eq_given (a : α) : (pure a : Bounded ε α) = given (.ok a) := rfl

/-- After a value that is given, the computation goes on with it. -/
@[simp] theorem given_ok_bind (a : α) (g : α → Bounded ε β) : given (.ok a) >>= g = g a := rfl

/-- An error that is given ends the computation. -/
@[simp] theorem given_error_bind (e : ε) (g : α → Bounded ε β) :
    given (.error e) >>= g = given (.error e) := rfl

/-- A sequence returns through its first part. -/
theorem bind_eq_given_ok {x : Bounded ε α} {g : α → Bounded ε β} {b : β} :
    x >>= g = given (.ok b) ↔ ∃ a, x = given (.ok a) ∧ g a = given (.ok b) := by
  constructor
  · intro h
    match x, h with
    | some (.ok a), h => exact ⟨a, rfl, h⟩
    | some (.error _), h => cases h
    | none, h => cases h
  · rintro ⟨a, rfl, h⟩
    exact h

/-- What a computation gives under every large enough bound. -/
def Gives (f : ℕ → Bounded ε α) (r : Except ε α) : Prop := ∃ n, ∀ m, n ≤ m → f m = given r

/-- The computation ends: from some number of passes on, it gives the same result. -/
def Ends (f : ℕ → Bounded ε α) : Prop := ∃ r, Gives f r

section Gives

variable {f : ℕ → Bounded ε α} {g : ℕ → α → Bounded ε β} {r r' : Except ε α}

/-- A computation gives one answer, whatever the number of passes that it took. -/
theorem Gives.unique (h : Gives f r) (h' : Gives f r') : r = r' := by
  obtain ⟨n, hn⟩ := h
  obtain ⟨m, hm⟩ := h'
  have hleft := hn (max n m) (Nat.le_max_left n m)
  have hright := hm (max n m) (Nat.le_max_right n m)
  exact given_injective (hleft.symm.trans hright)

/-- What is given without passes is given. -/
theorem gives_given (r : Except ε α) : Gives (fun _ => given r) r := ⟨0, fun _ _ => rfl⟩

/-- What is given without passes ends at once. -/
theorem ends_given (r : Except ε α) : Ends fun _ => given r := ⟨r, gives_given r⟩

/-- A pass more does not change what is given. -/
theorem Gives.succ (h : Gives (fun n => f (n + 1)) r) : Gives f r := by
  obtain ⟨n, hn⟩ := h
  refine ⟨n + 1, fun m hm => ?_⟩
  obtain ⟨k, rfl⟩ : ∃ k, m = k + 1 := ⟨m - 1, by omega⟩
  exact hn k (by omega)

/-- A computation that ends after one pass more ends. -/
theorem Ends.succ (h : Ends fun n => f (n + 1)) : Ends f := by
  obtain ⟨r, hr⟩ := h
  exact ⟨r, hr.succ⟩

/-- A sequence gives what its second part gives. -/
theorem Gives.bind {a : α} {r : Except ε β} (hf : Gives f (.ok a)) (hg : Gives (g · a) r) :
    Gives (fun n => f n >>= g n) r := by
  obtain ⟨n, hn⟩ := hf
  obtain ⟨m, hm⟩ := hg
  refine ⟨max n m, fun k hk => ?_⟩
  dsimp only
  rw [hn k (by omega), given_ok_bind]
  exact hm k (by omega)

/-- A first part that gives an error ends the whole with it. -/
theorem Gives.bind_error {e : ε} (hf : Gives f (.error e)) :
    Gives (fun n => f n >>= g n) (.error e) := by
  obtain ⟨n, hn⟩ := hf
  refine ⟨n, fun k hk => ?_⟩
  dsimp only
  rw [hn k hk, given_error_bind]

/-- A sequence ends when its second part ends wherever it runs. -/
theorem Ends.bind (hf : Ends f) (hg : ∀ a, Gives f (.ok a) → Ends (g · a)) :
    Ends fun n => f n >>= g n := by
  obtain ⟨r, hr⟩ := hf
  cases r with
  | error e => exact ⟨.error e, hr.bind_error⟩
  | ok a =>
    obtain ⟨r, hr'⟩ := hg a hr
    exact ⟨r, hr.bind hr'⟩

end Gives

/-- Build the parts of a list: the whole list when it can be built so, else its halves. -/
def halve (whole : List α → σ → Except ε (Option (β × σ))) :
    ℕ → List α → σ → Bounded ε (List β × σ)
  | 0, _, _ => exhausted
  | passes + 1, items, s =>
    if items.isEmpty then pure ([], s)
    else do
      match ← given (whole items s) with
      | some (b, s) => pure ([b], s)
      | none =>
        let (left, s) ← halve whole passes (items.take (items.length / 2)) s
        let (right, s) ← halve whole passes (items.drop (items.length / 2)) s
        pure (left ++ right, s)

/-- The parts of a list are built in order. -/
inductive Builds (whole : List α → σ → Except ε (Option (β × σ))) :
    List α → σ → List β → σ → Prop
  | nil {s : σ} : Builds whole [] s [] s
  | cons {part items : List α} {b : β} {bs : List β} {s s' s'' : σ} : part ≠ [] →
      whole part s = .ok (some (b, s')) → Builds whole items s' bs s'' →
      Builds whole (part ++ items) s (b :: bs) s''

section Halve

variable {whole : List α → σ → Except ε (Option (β × σ))} {items : List α} {bs : List β}
  {s s' : σ} {passes : ℕ}

/-- Items that are built in two portions are built one portion after the other. -/
theorem Builds.append {items' : List α} {bs' : List β} {s'' : σ} (h : Builds whole items s bs s')
    (h' : Builds whole items' s' bs' s'') : Builds whole (items ++ items') s (bs ++ bs') s'' := by
  induction h with
  | nil => exact h'
  | cons hne hpart _ ih =>
    rw [List.append_assoc, List.cons_append]
    exact .cons hne hpart (ih h')

/-- One pass of the halving: nothing is left, or the items are taken whole, or both halves are. -/
theorem halve_cases (h : halve whole (passes + 1) items s = given (.ok (bs, s'))) :
    (items = [] ∧ bs = [] ∧ s' = s) ∨
      (items ≠ [] ∧ ∃ b, whole items s = .ok (some (b, s')) ∧ bs = [b]) ∨
      (items ≠ [] ∧ whole items s = .ok none ∧ ∃ left right mid,
        halve whole passes (items.take (items.length / 2)) s = given (.ok (left, mid)) ∧
        halve whole passes (items.drop (items.length / 2)) mid = given (.ok (right, s')) ∧
        bs = left ++ right) := by
  rw [halve] at h
  split at h
  · next hempty =>
    cases h
    exact .inl ⟨List.isEmpty_iff.mp hempty, rfl, rfl⟩
  · next hempty =>
    have hne : items ≠ [] := fun heq => hempty (List.isEmpty_iff.mpr heq)
    obtain ⟨built, hwhole, h⟩ := bind_eq_given_ok.mp h
    have hwhole := given_injective hwhole
    cases built with
    | some p =>
      obtain ⟨b, mid⟩ := p
      cases h
      exact .inr (.inl ⟨hne, b, hwhole, rfl⟩)
    | none =>
      obtain ⟨⟨left, mid⟩, hleft, h⟩ := bind_eq_given_ok.mp h
      obtain ⟨⟨right, last⟩, hright, h⟩ := bind_eq_given_ok.mp h
      cases h
      exact .inr (.inr ⟨hne, hwhole, left, right, mid, hleft, hright, rfl⟩)

/-- What is built covers the list part by part. -/
theorem builds_of_halve (h : halve whole passes items s = given (.ok (bs, s'))) :
    Builds whole items s bs s' := by
  induction passes generalizing items s bs s' with
  | zero => cases h
  | succ passes ih =>
    obtain ⟨rfl, rfl, rfl⟩ | ⟨hne, b, hwhole, rfl⟩ | ⟨-, -, left, right, mid, hleft, hright, rfl⟩ :=
      halve_cases h
    · exact .nil
    · have hone := Builds.cons hne hwhole .nil
      rwa [List.append_nil] at hone
    · have happend := (ih hleft).append (ih hright)
      rwa [List.take_append_drop] at happend

/-- Parts are built only where the list has items. -/
theorem Builds.length_le (h : Builds whole items s bs s') : bs.length ≤ items.length := by
  induction h with
  | nil => exact Nat.le_refl _
  | cons hne _ _ ih =>
    have hpos := List.length_pos_iff.mpr hne
    rw [List.length_cons, List.length_append]
    omega

/-- When every list of at most `capacity` items is built whole, more than one item gives fewer
parts than items. -/
theorem length_lt_of_halve (capacity : ℕ) (hcapacity : 2 < capacity)
    (hwhole : ∀ part s, part.length ≤ capacity → (∀ a ∈ part, a ∈ items) → whole part s ≠ .ok none)
    (hlength : 1 < items.length) (h : halve whole passes items s = given (.ok (bs, s'))) :
    bs.length < items.length := by
  induction passes generalizing items s bs s' with
  | zero => cases h
  | succ passes ih =>
    obtain ⟨rfl, -, -⟩ | ⟨-, b, -, rfl⟩ | ⟨-, hnone, left, right, mid, hleft, hright, rfl⟩ :=
      halve_cases h
    · cases hlength
    · exact hlength
    · have hmany : capacity < items.length := by
        by_contra hle
        exact hwhole items s (by omega) (fun a ha => ha) hnone
      have hright' := (builds_of_halve hright).length_le
      have hleft' := ih (fun part s hpart hsub =>
        hwhole part s hpart fun a ha => List.mem_of_mem_take (hsub a ha))
        (by rw [List.length_take]; omega) hleft
      rw [List.length_take] at hleft'
      rw [List.length_drop] at hright'
      rw [List.length_append]
      omega

/-- The halving ends when no single item is given back. -/
theorem ends_halve (hsingle : ∀ a s, whole [a] s ≠ .ok none) (items : List α) (s : σ) :
    Ends fun passes => halve whole passes items s := by
  induction hn : items.length using Nat.strongRecOn generalizing items s with
  | ind n ih =>
    refine Ends.succ ?_
    simp only [halve]
    split
    · exact ends_given _
    · next hempty =>
      refine (ends_given _).bind fun built hbuilt => ?_
      have hwhole := (gives_given (whole items s)).unique hbuilt
      cases built with
      | some p => exact ends_given _
      | none =>
        have hlength : 1 < items.length := by
          match items, hempty, hwhole with
          | [a], _, hwhole => exact absurd hwhole (hsingle a s)
          | _ :: _ :: _, _, _ => simp
        refine (ih _ ?_ _ _ rfl).bind fun left _ =>
          (ih _ ?_ _ _ rfl).bind fun right _ => ends_given _
        · rw [List.length_take]
          omega
        · rw [List.length_drop]
          omega

end Halve

end Foundation
