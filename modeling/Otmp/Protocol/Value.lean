import Mathlib.Tactic.Common
import Otmp.Foundation.Text
import Otmp.Basic

/-!
# Canonical JSON values and typed scalars

Protocol objects travel as canonical JSON, in which each value has one spelling.
A canonical text is therefore represented here by the value it spells, with the
members of an object in ascending key order. Typed scalars keep floating-point
values as bits, so that equality of scalars can follow the IEEE rules of the
source while the stored form follows the bits.
-/

namespace Otmp

/-- A canonical JSON value. The source's integers are 128 bits wide, wide enough for
every number that the parser admits. -/
inductive CanonicalValue where
  | null
  | bool (value : Bool)
  | integer (value : ℤ)
  | string (value : String)
  | array (values : List CanonicalValue)
  | object (members : List (String × CanonicalValue))
  deriving Repr

namespace CanonicalValue

mutual

/-- The nesting depth of arrays and objects; a value that is neither has depth zero. -/
def depth : CanonicalValue → ℕ
  | .array values => depthList values + 1
  | .object members => depthMembers members + 1
  | _ => 0
termination_by structural value => value

/-- The largest depth in a list, zero for an empty one. -/
def depthList : List CanonicalValue → ℕ
  | [] => 0
  | value :: values => max value.depth (depthList values)
termination_by structural values => values

/-- The largest depth among the members of an object. -/
def depthMembers : List (String × CanonicalValue) → ℕ
  | [] => 0
  | member :: members => max (depthMember member) (depthMembers members)
termination_by structural members => members

/-- The depth of one member, which is that of its value. -/
def depthMember : String × CanonicalValue → ℕ
  | (_, value) => value.depth
termination_by structural member => member

end

mutual

/-- All integers fit 64 bits, signed or unsigned, as the source's numbers do. -/
def integersFit : CanonicalValue → Bool
  | .integer n => -9223372036854775808 ≤ n ∧ n < 18446744073709551616
  | .array values => integersFitList values
  | .object members => integersFitMembers members
  | _ => true
termination_by structural value => value

/-- All integers of a list fit 64 bits, at every depth. -/
def integersFitList : List CanonicalValue → Bool
  | [] => true
  | value :: values => value.integersFit && integersFitList values
termination_by structural values => values

/-- All integers of the members of an object fit. -/
def integersFitMembers : List (String × CanonicalValue) → Bool
  | [] => true
  | member :: members => integersFitMember member && integersFitMembers members
termination_by structural members => members

/-- All integers of one member fit 64 bits, at every depth. -/
def integersFitMember : String × CanonicalValue → Bool
  | (_, value) => value.integersFit
termination_by structural member => member

end

mutual

/-- The comparison of values, which decides their equality. -/
def same : CanonicalValue → CanonicalValue → Bool
  | .null, .null => true
  | .bool a, .bool b => a == b
  | .integer a, .integer b => a == b
  | .string a, .string b => a == b
  | .array as, .array bs => sameList as bs
  | .object as, .object bs => sameMembers as bs
  | _, _ => false
termination_by structural a => a

/-- The comparison of lists of values, position by position. -/
def sameList : List CanonicalValue → List CanonicalValue → Bool
  | [], [] => true
  | a :: as, b :: bs => a.same b && sameList as bs
  | _, _ => false
termination_by structural as => as

/-- The comparison of the members of objects, in their order. -/
def sameMembers : List (String × CanonicalValue) → List (String × CanonicalValue) → Bool
  | [], [] => true
  | a :: as, b :: bs => sameMember a b && sameMembers as bs
  | _, _ => false
termination_by structural as => as

/-- The comparison of two members, key and value. -/
def sameMember : String × CanonicalValue → String × CanonicalValue → Bool
  | (key, value), b => key == b.1 && value.same b.2
termination_by structural a => a

end

mutual

/-- The comparison of values decides their equality. -/
theorem same_iff (a b : CanonicalValue) : a.same b = true ↔ a = b := by
  cases a <;> cases b <;> simp [same, sameList_iff, sameMembers_iff]
termination_by structural a

/-- The comparison of two lists of values decides their equality. -/
theorem sameList_iff (as bs : List CanonicalValue) : sameList as bs = true ↔ as = bs := by
  cases as <;> cases bs <;> simp [sameList, sameList_iff, same_iff]
termination_by structural as

/-- The comparison of two lists of members decides their equality. -/
theorem sameMembers_iff (as bs : List (String × CanonicalValue)) :
    sameMembers as bs = true ↔ as = bs := by
  cases as <;> cases bs <;> simp [sameMembers, sameMembers_iff, sameMember_iff]
termination_by structural as

/-- The comparison of two members decides their equality. -/
theorem sameMember_iff (a b : String × CanonicalValue) : sameMember a b = true ↔ a = b := by
  obtain ⟨key, value⟩ := a
  obtain ⟨key', value'⟩ := b
  simp [sameMember, same_iff]
termination_by structural a

end

/-- Equality of canonical values is decided by comparing them recursively. -/
instance : DecidableEq CanonicalValue := fun a b => decidable_of_iff _ (same_iff a b)

/-- The deepest nesting that the JSON parser accepts; a deeper text is an error. -/
def maxDepth : ℕ := 127

/-- Members that are present, in the order of the entries. -/
def members (entries : List (String × Option CanonicalValue)) : List (String × CanonicalValue) :=
  entries.filterMap fun entry => entry.2.map fun value => (entry.1, value)

/-- The value of a member, if it is present. -/
def get? (key : String) : List (String × CanonicalValue) → Option CanonicalValue
  | [] => none
  | (name, value) :: ms => if name = key then some value else get? key ms

/-- Looking a key up at its own member finds the value. -/
theorem get?_cons_self (key : String) (value : CanonicalValue)
    (ms : List (String × CanonicalValue)) : get? key ((key, value) :: ms) = some value := by
  rw [get?, if_pos rfl]

/-- Looking a key up skips the members of other names. -/
theorem get?_cons_ne {name key : String} (h : name ≠ key) (value : CanonicalValue)
    (ms : List (String × CanonicalValue)) : get? key ((name, value) :: ms) = get? key ms := by
  rw [get?, if_neg h]

/-- An object whose keys are all among the allowed ones. -/
def knownKeys (allowed : List String) (ms : List (String × CanonicalValue)) : Bool :=
  ms.all fun member => member.1 ∈ allowed

end CanonicalValue

/-- The failure of a typed deserialization, which the protocol reports as invalid JSON. -/
def deError {α : Type} (message : String) : Except ProtocolError α := .error (.invalidJson message)

/-- A sixteen-byte UUID, whose length is part of its type. -/
abbrev UuidValue := {bytes : Bytes // bytes.length = 16}

namespace UuidValue

open Foundation

/-- Hexadecimal digits in groups of 8, 4, 4, 4 and 12. -/
def format (id : UuidValue) : String :=
  let hex := hexEncode id.val
  String.ofList (hex.take 8 ++ ['-'] ++ (hex.drop 8).take 4 ++ ['-'] ++ (hex.drop 12).take 4 ++
    ['-'] ++ (hex.drop 16).take 4 ++ ['-'] ++ (hex.drop 20).take 12)

/-- The positions of the dashes in the text of a UUID. -/
def dashAt (index : ℕ) : Bool := index = 8 ∨ index = 13 ∨ index = 18 ∨ index = 23

/-- Read the canonical lower-case form of a UUID; any other spelling is refused. -/
def parse (input : String) : Except ProtocolError UuidValue :=
  let cs := input.toList
  if cs.length = 36 ∧ cs.zipIdx.all (fun c => if dashAt c.2 then c.1 = '-' else isLowerHex c.1) then
    match hexDecode? (cs.filter (· ≠ '-')) with
    | some bytes =>
      if h : bytes.length = 16 then .ok ⟨bytes, h⟩ else .error (.invalidId input)
    | none => .error (.invalidId input)
  else
    .error (.invalidId input)

/-- No dash is dropped from hexadecimal text. -/
theorem filter_dash {cs : List Char} (h : ∀ c ∈ cs, isLowerHex c = true) :
    cs.filter (· ≠ '-') = cs := by
  rw [List.filter_eq_self]
  intro c hc
  have hlower := h c hc
  have hne : c ≠ '-' := by
    rintro rfl
    exact absurd hlower (by decide)
  simpa using hne

/-- A group of hexadecimal digits passes the check of its positions, where no dash belongs. -/
private theorem all_zipIdx_group {cs : List Char} {start : ℕ}
    (hlower : ∀ c ∈ cs, isLowerHex c = true)
    (hgroup : ∀ i, start ≤ i → i < start + cs.length → dashAt i = false) :
    (cs.zipIdx start).all (fun c => if dashAt c.2 then c.1 = '-' else isLowerHex c.1) = true := by
  rw [List.all_eq_true]
  rintro ⟨c, i⟩ hc
  obtain ⟨hlow, hhigh, hget⟩ := List.mem_zipIdx hc
  have hmem : c ∈ cs := by
    rw [hget]
    exact List.getElem_mem _
  simp only [hgroup i hlow hhigh, Bool.false_eq_true, if_false]
  simpa using hlower c hmem

/-- The printed form of a UUID reads back. -/
theorem parse_format (id : UuidValue) : parse id.format = .ok id := by
  have hlen : (hexEncode id.val).length = 32 := by
    rw [length_hexEncode, id.property]
  have hlower : ∀ start count, ∀ c ∈ ((hexEncode id.val).drop start).take count,
      isLowerHex c = true := fun start count c hc =>
    isLowerHex_of_mem_hexEncode (List.mem_of_mem_drop (List.mem_of_mem_take hc))
  have hfirst : ∀ c ∈ (hexEncode id.val).take 8, isLowerHex c = true := fun c hc =>
    isLowerHex_of_mem_hexEncode (List.mem_of_mem_take hc)
  have hdash : ∀ i, i ≠ 8 → i ≠ 13 → i ≠ 18 → i ≠ 23 → dashAt i = false := by
    intro i h8 h13 h18 h23
    simp [dashAt, h8, h13, h18, h23]
  unfold parse format
  rw [String.toList_ofList, if_pos]
  · have hjoin : List.filter (· ≠ '-') ((hexEncode id.val).take 8 ++ ['-'] ++
        ((hexEncode id.val).drop 8).take 4 ++ ['-'] ++ ((hexEncode id.val).drop 12).take 4 ++
        ['-'] ++ ((hexEncode id.val).drop 16).take 4 ++ ['-'] ++
        ((hexEncode id.val).drop 20).take 12) = hexEncode id.val := by
      simp only [List.filter_append, filter_dash (hlower _ _), filter_dash hfirst]
      have hnone : List.filter (· ≠ '-') ['-'] = [] := by decide
      simp only [hnone, List.append_nil]
      have h20 : ((hexEncode id.val).drop 20).take 12 = (hexEncode id.val).drop 20 :=
        List.take_of_length_le (by rw [List.length_drop]; omega)
      rw [h20]
      simp only [List.append_assoc]
      rw [show (hexEncode id.val).drop 20 = ((hexEncode id.val).drop 16).drop 4 by
          rw [List.drop_drop], List.take_append_drop,
        show (hexEncode id.val).drop 16 = ((hexEncode id.val).drop 12).drop 4 by
          rw [List.drop_drop], List.take_append_drop,
        show (hexEncode id.val).drop 12 = ((hexEncode id.val).drop 8).drop 4 by
          rw [List.drop_drop], List.take_append_drop, List.take_append_drop]
    rw [hjoin, hexDecode?_hexEncode]
    simp only []
    rw [dif_pos id.property]
  · refine ⟨by simp [hlen], ?_⟩
    simp only [List.zipIdx_append, List.all_append, List.length_append, List.length_take,
      List.length_drop, hlen, List.length_singleton, Bool.and_eq_true]
    refine ⟨⟨⟨⟨⟨⟨⟨⟨?_, by decide⟩, ?_⟩, by decide⟩, ?_⟩, by decide⟩, ?_⟩, by decide⟩, ?_⟩
    all_goals
      apply all_zipIdx_group (by first | exact hfirst | exact hlower _ _)
      intro i hlow hhigh
      simp only [List.length_take, List.length_drop, hlen] at hhigh
      exact hdash i (by omega) (by omega) (by omega) (by omega)

end UuidValue

end Otmp
