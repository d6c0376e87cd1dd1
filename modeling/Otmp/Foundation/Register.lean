import Mathlib.Data.List.Infix
import Mathlib.Data.List.Basic

/-!
# Registers with conditional writes

A conditional write names the version token that it expects and replaces the value of a
register while that token is current. Its answer may be lost; the write was then applied,
was dropped, or stays in flight and is applied later, should its token be current again.
-/

namespace Foundation

/-- The answer to a conditional write: it was applied, it met another token, or nothing is known. -/
inductive ConditionalWriteOutcome where
  | applied
  | conflict
  | indeterminate
  deriving DecidableEq, Repr

/-- A write that expects a token, or that no value has been written. -/
structure ConditionalWrite (T V : Type*) where
  expected : Option T
  value : V

/-- The values that were written, the latest first, and the writes in flight. -/
structure Register (T V : Type*) where
  values : List V
  inFlight : List (ConditionalWrite T V)

namespace Register

variable {T V : Type*} {token : V → T} {exact : Prop} {r r' : Register T V}
  {w : ConditionalWrite T V} {outcome : ConditionalWriteOutcome}

/-- Nothing is written and nothing is in flight, as before the first write. -/
def empty : Register T V := ⟨[], []⟩

/-- The token that a write expects is that of the current value, or the register is still empty as
the write expects. -/
def Matches (token : V → T) (r : Register T V) (w : ConditionalWrite T V) : Prop :=
  r.values.head?.map token = w.expected

/-- The effect of a write that is applied: its value is the newest one. -/
def write (r : Register T V) (w : ConditionalWrite T V) : Register T V :=
  { r with values := w.value :: r.values }

/-- A write is answered. When conflicts are exact, one says that the token is not current. -/
inductive Answers (token : V → T) (exact : Prop) (r : Register T V) (w : ConditionalWrite T V) :
    ConditionalWriteOutcome → Register T V → Prop
  | applied : r.Matches token w → Answers token exact r w .applied (r.write w)
  | conflict : (exact → ¬ r.Matches token w) → Answers token exact r w .conflict r
  | lostAfter : r.Matches token w → Answers token exact r w .indeterminate (r.write w)
  | lostBefore : Answers token exact r w .indeterminate r
  | delayed : Answers token exact r w .indeterminate { r with inFlight := w :: r.inFlight }

/-- A write in flight is applied, at whatever time its token still matches. -/
inductive Lands (token : V → T) (r : Register T V) : Register T V → Prop
  | intro {w : ConditionalWrite T V} : w ∈ r.inFlight → r.Matches token w →
      Lands token r (r.write w)

/-- An answer with exact conflicts is an answer without that promise. -/
theorem Answers.weaken (h : Answers token exact r w outcome r') :
    Answers token False r w outcome r' := by
  cases h with
  | applied hmatch => exact .applied hmatch
  | conflict _ => exact .conflict False.elim
  | lostAfter hmatch => exact .lostAfter hmatch
  | lostBefore => exact .lostBefore
  | delayed => exact .delayed

/-- What an answered write may have done. -/
theorem Answers.effect (h : Answers token exact r w outcome r') :
    (r'.values = r.values ∨ r.Matches token w ∧ r'.values = w.value :: r.values) ∧
      ∀ v ∈ r'.inFlight, v = w ∨ v ∈ r.inFlight := by
  cases h with
  | applied hmatch => exact ⟨.inr ⟨hmatch, rfl⟩, fun v hv => .inr hv⟩
  | conflict _ => exact ⟨.inl rfl, fun v hv => .inr hv⟩
  | lostAfter hmatch => exact ⟨.inr ⟨hmatch, rfl⟩, fun v hv => .inr hv⟩
  | lostBefore => exact ⟨.inl rfl, fun v hv => .inr hv⟩
  | delayed => exact ⟨.inl rfl, fun v hv => List.mem_cons.mp hv⟩

/-- The values written so far remain below those that follow. -/
theorem Answers.suffix (h : Answers token exact r w outcome r') : r.values <:+ r'.values := by
  rcases h.effect.1 with heq | ⟨-, heq⟩
  · exact heq ▸ List.suffix_refl _
  · exact heq ▸ List.suffix_cons _ _

/-- What lands on a register is written behind what was there. -/
theorem Lands.suffix (h : Lands token r r') : r.values <:+ r'.values := by
  cases h
  exact List.suffix_cons _ _

/-- A property of the values, and one of the writes in flight that later values keep, hold after a
write with the property is answered, if an applied write that matches keeps the first. -/
theorem Answers.invariant {P : List V → Prop} {Q : List V → ConditionalWrite T V → Prop}
    (hwrite : Q r.values w → r.Matches token w → P r.values → P (w.value :: r.values))
    (hmono : ∀ v value, Q r.values v → Q (value :: r.values) v)
    (h : Answers token exact r w outcome r') (hw : Q r.values w) (hvalues : P r.values)
    (hflight : ∀ v ∈ r.inFlight, Q r.values v) :
    P r'.values ∧ ∀ v ∈ r'.inFlight, Q r'.values v := by
  obtain ⟨hafter, hmem⟩ := h.effect
  have hall : ∀ v ∈ r'.inFlight, Q r.values v := by
    intro v hv
    rcases hmem v hv with rfl | hv
    · exact hw
    · exact hflight v hv
  rcases hafter with heq | ⟨hmatch, heq⟩
  · exact heq ▸ ⟨hvalues, hall⟩
  · exact heq ▸ ⟨hwrite hw hmatch hvalues, fun v hv => hmono v w.value (hall v hv)⟩

/-- The same when a write in flight is applied. -/
theorem Lands.invariant {P : List V → Prop} {Q : List V → ConditionalWrite T V → Prop}
    (hwrite : ∀ w, Q r.values w → r.Matches token w → P r.values → P (w.value :: r.values))
    (hmono : ∀ v value, Q r.values v → Q (value :: r.values) v)
    (h : Lands token r r') (hvalues : P r.values) (hflight : ∀ v ∈ r.inFlight, Q r.values v) :
    P r'.values ∧ ∀ v ∈ r'.inFlight, Q r'.values v := by
  cases h with
  | @intro w hw hmatch =>
    exact ⟨hwrite w (hflight w hw) hmatch hvalues, fun v hv => hmono v w.value (hflight v hv)⟩

end Register

end Foundation
