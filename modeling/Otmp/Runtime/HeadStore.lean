import Otmp.Foundation.Register
import Otmp.Protocol.Generations
import Otmp.Protocol.WrittenForms

/-!
# The store of the head

The head of a table is an object that is only written conditionally: it is created when
there is none, and replaced when its version token is the one that a writer has read. The
store in memory is such a register, with answers that a test may ask for.
-/

namespace Otmp

open Foundation CanonicalValue

/-- What a read of the head may fail with; other failures are told by their message. -/
inductive StorageError where
  | notFound (key : String)
  | failed (message : String)
  deriving DecidableEq, Repr

/-- The text that a storage error is reported with. -/
def StorageError.message : StorageError → String
  | .notFound key => s!"object not found: {key}"
  | .failed message => message

namespace Head

/-- The bytes of a head, as they are stored under its key. -/
def bytes (h : Head) : Bytes := h.toValue.bytes

/-- Heads with the same document are the same, so the bytes of HEAD determine it. -/
theorem toValue_injective : Function.Injective Head.toValue := by
  intro g h heq
  have hentries := members_injective heq ["metadata_generation", "protocol", "protocol_version",
    "required_reader_features", "required_writer_features", "root_revision", "semantic_commit",
    "semantic_state_sha256", "table_id", "table_version"] rfl rfl (by decide)
  simp only [entries, List.cons.injEq, Prod.mk.injEq, true_and, and_true,
    Option.some.injEq, CanonicalValue.string.injEq, Sha256.format_injective.eq_iff,
    UuidValue.format_injective.eq_iff, decimalString_injective.eq_iff,
    ObjectReference.toValue_injective.eq_iff, CanonicalValue.array.injEq,
    (List.map_injective_iff.mpr string_injective).eq_iff] at hentries
  cases g
  cases h
  simp_all only

/-- Different heads have different bytes, so that comparing bytes compares heads. -/
theorem bytes_injective : Function.Injective Head.bytes := fun _ _ h =>
  toValue_injective (CanonicalValue.bytes_injective h)

end Head

/-- An answer that a test asks the store in memory for. -/
inductive InjectedConditional where
  | conflict
  | indeterminateBefore
  | indeterminateAfter
  deriving DecidableEq

/-- The part of the store in memory that conditional writes use. -/
structure InMemoryObjectStore where
  head : Option Bytes
  conditionalOutcomes : List InjectedConditional

/-- A conditional write of the head: it is applied when the stored bytes have the expected hash,
unless another answer was injected. -/
def InMemoryObjectStore.conditional (digest : Digest) (state : InMemoryObjectStore)
    (expected : Option Sha256) (bytes : Bytes) : ConditionalWriteOutcome × InMemoryObjectStore :=
  let injected := state.conditionalOutcomes.head?
  let state := { state with conditionalOutcomes := state.conditionalOutcomes.tail }
  if injected = some .indeterminateBefore then (.indeterminate, state)
  else if state.head.map digest ≠ expected then (.conflict, state)
  else if injected = some .conflict then (.conflict, state)
  else
    let state := { state with head := some bytes }
    if injected = some .indeterminateAfter then (.indeterminate, state) else (.applied, state)

/-- The store in memory has the latest value of a register, and no write is in flight. -/
structure InMemoryObjectStore.Holds {V : Type} (encode : V → Bytes) (state : InMemoryObjectStore)
    (r : Register Sha256 V) : Prop where
  head : r.values.head?.map encode = state.head
  inFlight : r.inFlight = []

/-- The store in memory answers as a register; without injected answers its conflicts are
exact. -/
theorem InMemoryObjectStore.conditional_answers {V : Type} {digest : Digest} {encode : V → Bytes}
    {state : InMemoryObjectStore} {r : Register Sha256 V} {expected : Option Sha256} {value : V}
    (h : state.Holds encode r) :
    ∃ r', r.Answers (digest ∘ encode) (state.conditionalOutcomes = []) ⟨expected, value⟩
        (state.conditional digest expected (encode value)).1 r' ∧
      (state.conditional digest expected (encode value)).2.Holds encode r' := by
  obtain ⟨hhead, hflight⟩ := h
  have hmatches : r.Matches (digest ∘ encode) ⟨expected, value⟩ ↔
      state.head.map digest = expected := by
    rw [Register.Matches, ← hhead, Option.map_map]
  by_cases hbefore : state.conditionalOutcomes.head? = some .indeterminateBefore
  · simp only [conditional, hbefore, if_true]
    exact ⟨r, .lostBefore, hhead, hflight⟩
  by_cases hexpected : state.head.map digest = expected
  · have hmatch := hmatches.mpr hexpected
    by_cases hconflict : state.conditionalOutcomes.head? = some .conflict
    · simp only [conditional, hexpected, hconflict, if_true, if_false, ne_eq,
        not_true_eq_false]
      refine ⟨r, .conflict fun hempty => ?_, hhead, hflight⟩
      rw [hempty] at hconflict
      cases hconflict
    by_cases hafter : state.conditionalOutcomes.head? = some .indeterminateAfter
    · simp only [conditional, hexpected, hafter, ne_eq, not_true_eq_false, if_true, if_false]
      exact ⟨_, .lostAfter hmatch, rfl, hflight⟩
    · simp only [conditional, hbefore, hexpected, hconflict, hafter, if_false, ne_eq,
        not_true_eq_false]
      exact ⟨_, .applied hmatch, rfl, hflight⟩
  · simp only [conditional, hbefore, hexpected, if_false, if_true, ne_eq, not_false_eq_true]
    exact ⟨r, .conflict fun _ hmatch => hexpected (hmatches.mp hmatch), hhead, hflight⟩

end Otmp
