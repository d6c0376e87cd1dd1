import Mathlib.Data.List.Basic

/-!
# Loops without a structural measure

The body of a loop fails, ends the loop or gives the state of the next pass. A loop runs with a
bound on its passes, and it returns what it returns under some bound. A measure that falls with
each pass makes it return, and loops whose bodies have the same passes return the same states.
-/

namespace Foundation

variable {σ ε δ : Type*} {body : σ → Except ε (Option σ)} {s s' : σ} {r r' : Except ε σ}

/-- Run a loop for a bounded number of passes. -/
def loop (body : σ → Except ε (Option σ)) : ℕ → σ → Option (Except ε σ)
  | 0, _ => none
  | passes + 1, s =>
    match body s with
    | .error e => some (.error e)
    | .ok none => some (.ok s)
    | .ok (some next) => loop body passes next

/-- What a loop returns, after however many passes it takes. -/
def Returns (body : σ → Except ε (Option σ)) (s : σ) (r : Except ε σ) : Prop :=
  ∃ passes, loop body passes s = some r

/-- A loop that returned returns the same with more passes. -/
theorem loop_of_le {n m : ℕ} (hle : n ≤ m) (h : loop body n s = some r) :
    loop body m s = some r := by
  induction n generalizing m s with
  | zero => cases h
  | succ n ih =>
    obtain ⟨m, rfl⟩ : ∃ k, m = k + 1 := ⟨m - 1, by omega⟩
    rw [loop] at h ⊢
    cases hbody : body s with
    | error e => rwa [hbody] at h
    | ok next =>
      rw [hbody] at h
      cases next with
      | none => exact h
      | some next => exact ih (by omega) h

namespace Returns

/-- A loop returns one result, since more passes do not change it. -/
theorem unique (h : Returns body s r) (h' : Returns body s r') : r = r' := by
  obtain ⟨n, hn⟩ := h
  obtain ⟨m, hm⟩ := h'
  have hleft := loop_of_le (Nat.le_max_left n m) hn
  have hright := loop_of_le (Nat.le_max_right n m) hm
  exact Option.some.inj (hleft.symm.trans hright)

/-- A body that fails ends the loop with its error. -/
theorem of_error {e : ε} (h : body s = .error e) : Returns body s (.error e) :=
  ⟨1, by rw [loop, h]⟩

/-- A body that asks for no further pass ends the loop with the state. -/
theorem of_end (h : body s = .ok none) : Returns body s (.ok s) := ⟨1, by rw [loop, h]⟩

/-- A pass does not change what a loop returns. -/
theorem pass_iff (h : body s = .ok (some s')) : Returns body s r ↔ Returns body s' r := by
  constructor
  · rintro ⟨n, hn⟩
    cases n with
    | zero => cases hn
    | succ n =>
      rw [loop, h] at hn
      exact ⟨n, hn⟩
  · rintro ⟨n, hn⟩
    exact ⟨n + 1, by rw [loop, h]; exact hn⟩

/-- A measure that falls with each pass bounds the passes. -/
theorem exists_of_measure (measure : σ → ℕ)
    (hfalls : ∀ s s', body s = .ok (some s') → measure s' < measure s) (s : σ) :
    ∃ r, Returns body s r := by
  induction hn : measure s using Nat.strongRecOn generalizing s with
  | ind n ih =>
    cases hbody : body s with
    | error e => exact ⟨_, of_error hbody⟩
    | ok next =>
      cases next with
      | none => exact ⟨_, of_end hbody⟩
      | some next =>
        obtain ⟨r, hr⟩ := ih _ (hn ▸ hfalls s next hbody) next rfl
        exact ⟨r, (pass_iff hbody).mpr hr⟩

/-- A relation that each pass carries from its end to its start, and that holds where a loop ends,
holds from the start to the result. -/
theorem induct {P : σ → σ → Prop} (hend : ∀ s, body s = .ok none → P s s)
    (hpass : ∀ s next last, body s = .ok (some next) → P next last → P s last)
    (h : Returns body s (.ok s')) : P s s' := by
  obtain ⟨n, hn⟩ := h
  induction n generalizing s with
  | zero => cases hn
  | succ n ih =>
    rw [loop] at hn
    cases hbody : body s with
    | error e =>
      rw [hbody] at hn
      cases hn
    | ok next =>
      rw [hbody] at hn
      cases next with
      | none =>
        cases hn
        exact hend _ hbody
      | some next => exact hpass s next s' hbody (ih hn)

/-- Loops whose bodies succeed alike return alike. -/
theorem congr {other : σ → Except δ (Option σ)}
    (h : ∀ s next, body s = .ok next ↔ other s = .ok next) (hr : Returns body s (.ok s')) :
    Returns other s (.ok s') := by
  refine induct (P := fun s s' => Returns other s (.ok s')) (fun s hend => ?_)
    (fun s next last hpass hlast => ?_) hr
  · exact of_end ((h s none).mp hend)
  · exact (pass_iff ((h s (some next)).mp hpass)).mpr hlast

end Returns

end Foundation
