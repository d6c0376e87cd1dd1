import Otmp.Protocol.Value

/-!
# The members of objects

The source keeps the members of an object in a map, sorted by key. An object of which
all keys are known is therefore determined by the values found under these keys, and a
reader that looks every known key up sees the whole object.
-/

namespace Otmp

namespace CanonicalValue

mutual

/-- The keys of every object ascend, at every depth of a value. -/
def sorted : CanonicalValue → Bool
  | .array values => sortedList values
  | .object members => decide ((members.map Prod.fst).Pairwise (· < ·)) && sortedMembers members
  | _ => true
termination_by structural value => value

/-- The keys of every object in a list ascend. -/
def sortedList : List CanonicalValue → Bool
  | [] => true
  | value :: values => value.sorted && sortedList values
termination_by structural values => values

/-- The keys of every object in a list of members ascend. -/
def sortedMembers : List (String × CanonicalValue) → Bool
  | [] => true
  | member :: members => sortedMember member && sortedMembers members
termination_by structural members => members

/-- The keys of every object in one member ascend. -/
def sortedMember : String × CanonicalValue → Bool
  | (_, value) => value.sorted
termination_by structural member => member

end

/-- An array is sorted when all its elements are. -/
theorem sortedList_iff {values : List CanonicalValue} :
    sortedList values = true ↔ ∀ value ∈ values, value.sorted = true := by
  induction values with
  | nil => simp [sortedList]
  | cons value values ih => rw [sortedList, Bool.and_eq_true, ih, List.forall_mem_cons]

/-- The values of members are sorted when each of them is. -/
theorem sortedMembers_iff {ms : List (String × CanonicalValue)} :
    sortedMembers ms = true ↔ ∀ member ∈ ms, member.2.sorted = true := by
  induction ms with
  | nil => simp [sortedMembers]
  | cons member ms ih =>
    obtain ⟨key, value⟩ := member
    rw [sortedMembers, Bool.and_eq_true, ih, List.forall_mem_cons]
    rfl

/-- An object is sorted when its names ascend and its values are sorted. -/
theorem sorted_object {ms : List (String × CanonicalValue)} :
    (object ms).sorted = true ↔
      (ms.map Prod.fst).Pairwise (· < ·) ∧ ∀ member ∈ ms, member.2.sorted = true := by
  rw [sorted, Bool.and_eq_true, decide_eq_true_eq, sortedMembers_iff]

/-- A key below all keys of an object has no member. -/
theorem get?_eq_none {key : String} {ms : List (String × CanonicalValue)}
    (h : ∀ member ∈ ms, key < member.1) : get? key ms = none := by
  induction ms with
  | nil => rfl
  | cons member ms ih =>
    obtain ⟨name, value⟩ := member
    rw [List.forall_mem_cons] at h
    have hne : name ≠ key := fun heq => String.lt_irrefl key (heq ▸ h.1)
    rw [get?_cons_ne hne, ih h.2]

/-- A member is found under its key. -/
theorem get?_mem {key : String} {value : CanonicalValue} {ms : List (String × CanonicalValue)}
    (h : get? key ms = some value) : (key, value) ∈ ms := by
  induction ms with
  | nil => cases h
  | cons member ms ih =>
    obtain ⟨name, value'⟩ := member
    rw [get?] at h
    split at h
    · rename_i heq
      cases h
      rw [heq]
      exact List.mem_cons_self
    · exact List.mem_cons_of_mem _ (ih h)

/-- An object whose keys are all known is what is found under the known keys. -/
theorem members_get? {keys : List String} {ms : List (String × CanonicalValue)}
    (hkeys : keys.Pairwise (· < ·)) (hms : (ms.map Prod.fst).Pairwise (· < ·))
    (hknown : knownKeys keys ms = true) :
    members (keys.map fun key => (key, get? key ms)) = ms := by
  have hmem : ∀ {allowed : List String} {ms : List (String × CanonicalValue)},
      knownKeys allowed ms = true ↔ ∀ member ∈ ms, member.1 ∈ allowed := by
    simp [knownKeys]
  rw [hmem] at hknown
  induction keys generalizing ms with
  | nil =>
    cases ms with
    | nil => rfl
    | cons member ms => exact absurd (hknown member List.mem_cons_self) List.not_mem_nil
  | cons key keys ih =>
    rw [List.pairwise_cons] at hkeys
    cases ms with
    | nil =>
      rw [List.map_cons]
      exact ih hkeys.2 hms (by simp)
    | cons member ms =>
      obtain ⟨name, value⟩ := member
      rw [List.map_cons, List.pairwise_cons] at hms
      have hafter : ∀ member ∈ ms, name < member.1 := fun member hmember =>
        hms.1 member.1 (List.mem_map_of_mem hmember)
      rw [List.map_cons]
      by_cases hname : name = key
      · subst hname
        have hrest : ∀ member ∈ ms, member.1 ∈ keys := fun member hmember => by
          rcases List.mem_cons.mp (hknown member (List.mem_cons_of_mem _ hmember)) with heq | htail
          · exact absurd (heq ▸ hafter member hmember) (String.lt_irrefl _)
          · exact htail
        have hskip : keys.map (fun key => (key, get? key ((name, value) :: ms))) =
            keys.map fun key => (key, get? key ms) :=
          List.map_congr_left fun key hkey => by
            have hne : name ≠ key := fun heq => String.lt_irrefl key (heq ▸ hkeys.1 key hkey)
            rw [get?_cons_ne hne]
        rw [get?_cons_self, hskip]
        change (name, value) :: members _ = _
        rw [ih hkeys.2 hms.2 hrest]
      · have hfirst : name ∈ keys :=
          (List.mem_cons.mp (hknown _ List.mem_cons_self)).resolve_left hname
        have hbelow : ∀ member ∈ (name, value) :: ms, key < member.1 :=
          List.forall_mem_cons.mpr ⟨hkeys.1 name hfirst, fun member hmember =>
            String.lt_trans (hkeys.1 name hfirst) (hafter member hmember)⟩
        have hall : ∀ member ∈ (name, value) :: ms, member.1 ∈ keys := fun member hmember => by
          rcases List.mem_cons.mp (hknown member hmember) with heq | htail
          · exact absurd (heq ▸ hbelow member hmember) (String.lt_irrefl _)
          · exact htail
        rw [get?_eq_none hbelow]
        exact ih hkeys.2 (List.pairwise_cons.mpr hms) hall

end CanonicalValue

end Otmp
