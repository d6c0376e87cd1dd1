import Otmp.Foundation.Run
import Otmp.Protocol.JsonText
import Otmp.Protocol.ScalarSpelling

/-!
# The JSON form of records

A record is read from an object with known keys, or from an array of its members in the
order of their declaration. A member may be required, nullable or skipped when it is
absent; a nullable member may be missing from an object, and a skipped one may be null.
Only one of these spellings is written, and a record is written as it was read exactly
when it was spelled that way.
-/

namespace Otmp

open Foundation CanonicalValue TypedScalar

namespace CanonicalValue

/-- A reader of JSON and a writer, with the spellings that are written and the values that
are read back. -/
structure Spelling {α : Type} (read : CanonicalValue → Except ProtocolError α)
    (write : α → CanonicalValue) (spelled : CanonicalValue → Bool) (Good : α → Prop) : Prop where
  exact : ∀ {value a}, value.sorted = true → read value = .ok a →
    (write a = value ↔ spelled value = true)
  reads : ∀ {a}, Good a → read (write a) = .ok a
  sorted : ∀ {a}, Good a → (write a).sorted = true

/-- The members of a record, and whether they come from an array. -/
structure Fields where
  get : String → Option CanonicalValue
  isSeq : Bool

namespace Fields

/-- The members of a record with the given declared keys. -/
def ofValue (keys : List String) : CanonicalValue → Except ProtocolError Fields
  | .object ms =>
    if knownKeys keys ms then .ok ⟨fun key => get? key ms, false⟩ else deError "unknown field"
  | .array values =>
    if values.length ≤ keys.length then .ok ⟨fun key => get? key (keys.zip values), true⟩
    else deError "trailing characters"
  | _ => deError "invalid type"

variable {α : Type}

/-- A member that has to be present; its absence is an error that names it. -/
def required (fields : Fields) (read : CanonicalValue → Except ProtocolError α) (key : String) :
    Except ProtocolError α :=
  match fields.get key with
  | some value => read value
  | none => deError ("missing field " ++ key)

/-- A member that may be null, or missing from an object. -/
def nullable (fields : Fields) (read : CanonicalValue → Except ProtocolError α) (key : String) :
    Except ProtocolError (Option α) :=
  match fields.get key with
  | some .null => .ok none
  | some value => (read value).map some
  | none => if fields.isSeq then deError "invalid length" else .ok none

/-- A member that is left out when it is absent. -/
def skipped (fields : Fields) (read : CanonicalValue → Except ProtocolError α) (key : String) :
    Except ProtocolError (Option α) :=
  match fields.get key with
  | some .null => .ok none
  | some value => (read value).map some
  | none => .ok none

end Fields

/-- The spelling of a required member: present, and spelled as it is written. -/
def requiredSpelled (spelled : CanonicalValue → Bool) : Option CanonicalValue → Bool
  | some value => spelled value
  | none => false

/-- The spelling of a nullable member: present, and either null or spelled as it is written. -/
def nullableSpelled (spelled : CanonicalValue → Bool) : Option CanonicalValue → Bool
  | some .null => true
  | some value => spelled value
  | none => false

/-- The spelling of a skipped member: absent, or present and spelled as it is written. -/
def skippedSpelled (spelled : CanonicalValue → Bool) : Option CanonicalValue → Bool
  | some .null => false
  | some value => spelled value
  | none => true

section Members

variable {α : Type} {read : CanonicalValue → Except ProtocolError α} {write : α → CanonicalValue}
  {spelled : CanonicalValue → Bool} {Good : α → Prop} {fields : Fields} {key : String}

/-- A required member is spelled as it would be written back exactly when its spelling says so. -/
theorem required_exact (h : Spelling read write spelled Good)
    (hsorted : ∀ value ∈ fields.get key, value.sorted = true) {a : α}
    (hread : fields.required read key = .ok a) :
    some (write a) = fields.get key ↔ requiredSpelled spelled (fields.get key) = true := by
  unfold Fields.required at hread
  split at hread
  · rename_i value hvalue
    rw [hvalue, Option.some.injEq]
    exact h.exact (hsorted value hvalue) hread
  · cases hread

/-- A member that is found and read. -/
theorem required_of_get {value : CanonicalValue} {a : α} (hget : fields.get key = some value)
    (hread : read value = .ok a) : fields.required read key = .ok a := by
  rw [Fields.required, hget]
  exact hread

/-- A member that may be null is spelled as it would be written back exactly when it is present and
its spelling says so. -/
theorem nullable_exact (h : Spelling read write spelled Good)
    (hsorted : ∀ value ∈ fields.get key, value.sorted = true) {a : Option α}
    (hread : fields.nullable read key = .ok a) :
    some (orNull write a) = fields.get key ↔
      nullableSpelled spelled (fields.get key) = true := by
  unfold Fields.nullable at hread
  split at hread
  · rename_i hvalue
    cases hread
    rw [hvalue]
    exact iff_of_true rfl rfl
  · rename_i value hnull hvalue
    obtain ⟨b, hb, rfl⟩ := map_eq_ok.mp hread
    have hspelled : nullableSpelled spelled (some value) = spelled value := by
      unfold nullableSpelled
      split <;> simp_all
    rw [hvalue, hspelled, Option.some.injEq]
    exact h.exact (hsorted value hvalue) hb
  · rename_i hvalue
    rw [hvalue]
    exact iff_of_false nofun nofun

/-- A member that is left out when empty is spelled as it would be written back exactly when it is
absent or its spelling says so. -/
theorem skipped_exact (h : Spelling read write spelled Good)
    (hsorted : ∀ value ∈ fields.get key, value.sorted = true) {a : Option α}
    (hread : fields.skipped read key = .ok a) :
    a.map write = fields.get key ↔ skippedSpelled spelled (fields.get key) = true := by
  unfold Fields.skipped at hread
  split at hread
  · rename_i hvalue
    cases hread
    rw [hvalue]
    exact iff_of_false nofun nofun
  · rename_i value hnull hvalue
    obtain ⟨b, hb, rfl⟩ := map_eq_ok.mp hread
    have hspelled : skippedSpelled spelled (some value) = spelled value := by
      unfold skippedSpelled
      split <;> simp_all
    rw [hvalue, hspelled, Option.map_some, Option.some.injEq]
    exact h.exact (hsorted value hvalue) hb
  · rename_i hvalue
    cases hread
    rw [hvalue]
    exact iff_of_true rfl rfl

/-- A required member that was written reads back. -/
theorem required_reads (h : Spelling read write spelled Good) {a : α} (ha : Good a)
    (hget : fields.get key = some (write a)) : fields.required read key = .ok a := by
  rw [Fields.required, hget]
  exact h.reads ha

/-- A required member is written with sorted keys. -/
theorem required_sorted (h : Spelling read write spelled Good) {a : α} (ha : Good a) :
    ∀ value ∈ some (write a), value.sorted = true := by
  rintro _ ⟨⟩
  exact h.sorted ha

/-- A member that may be null is written with sorted keys. -/
theorem nullable_sorted (h : Spelling read write spelled Good) {a : Option α}
    (ha : ∀ b ∈ a, Good b) : ∀ value ∈ some (orNull write a), value.sorted = true := by
  rintro _ ⟨⟩
  cases a with
  | none => rfl
  | some b => exact h.sorted (ha b rfl)

/-- A member that is left out when empty is written with sorted keys. -/
theorem skipped_sorted (h : Spelling read write spelled Good) {a : Option α}
    (ha : ∀ b ∈ a, Good b) : ∀ value ∈ a.map write, value.sorted = true := by
  intro value hvalue
  obtain ⟨b, hb, rfl⟩ := Option.map_eq_some_iff.mp hvalue
  exact h.sorted (ha b hb)

/-- A member that may be null reads back, as long as no present value is written as null. -/
theorem nullable_reads (h : Spelling read write spelled Good) {a : Option α}
    (ha : ∀ b ∈ a, Good b) (hnull : ∀ b ∈ a, write b ≠ .null)
    (hget : fields.get key = some (orNull write a)) : fields.nullable read key = .ok a := by
  unfold Fields.nullable
  rw [hget]
  cases a with
  | none => rfl
  | some b =>
    have hread := h.reads (ha b rfl)
    cases hwrite : write b with
    | null => exact absurd hwrite (hnull b rfl)
    | _ =>
      rw [hwrite] at hread
      simp only [orNull, hwrite, hread, Except.map]

/-- A member that is left out when empty reads back, as long as no present value is written as null.
-/
theorem skipped_reads (h : Spelling read write spelled Good) {a : Option α}
    (ha : ∀ b ∈ a, Good b) (hnull : ∀ b ∈ a, write b ≠ .null)
    (hget : fields.get key = a.map write) : fields.skipped read key = .ok a := by
  unfold Fields.skipped
  rw [hget]
  cases a with
  | none => rfl
  | some b =>
    have hread := h.reads (ha b rfl)
    cases hwrite : write b with
    | null => exact absurd hwrite (hnull b rfl)
    | _ =>
      rw [hwrite] at hread
      simp only [Option.map_some, hwrite, hread, Except.map]

end Members

/-- The members of a record are its entries that have a value. -/
theorem mem_members {entries : List (String × Option CanonicalValue)} {key : String}
    {value : CanonicalValue} : (key, value) ∈ members entries ↔ (key, some value) ∈ entries := by
  simp only [members, List.mem_filterMap, Option.map_eq_some_iff, Prod.mk.injEq]
  constructor
  · rintro ⟨⟨key', o⟩, hentry, v, ho, rfl, rfl⟩
    cases ho
    exact hentry
  · intro h
    exact ⟨_, h, value, rfl, rfl, rfl⟩

/-- The keys of the members that are present ascend. -/
theorem members_ascending {entries : List (String × Option CanonicalValue)}
    (hkeys : (entries.map Prod.fst).Pairwise (· < ·)) :
    ((members entries).map Prod.fst).Pairwise (· < ·) := by
  induction entries with
  | nil => exact List.Pairwise.nil
  | cons entry entries ih =>
    obtain ⟨key, o⟩ := entry
    rw [List.map_cons, List.pairwise_cons] at hkeys
    cases o with
    | none => exact ih hkeys.2
    | some value =>
      change (key :: (members entries).map Prod.fst).Pairwise (· < ·)
      refine List.pairwise_cons.mpr ⟨fun key' hkey => ?_, ih hkeys.2⟩
      obtain ⟨⟨key'', v⟩, hmember, rfl⟩ := List.mem_map.mp hkey
      exact hkeys.1 key'' (List.mem_map_of_mem (mem_members.mp hmember))

/-- The members that are present are found under their keys, and the others are not. -/
theorem get?_members {entries : List (String × Option CanonicalValue)}
    (hkeys : (entries.map Prod.fst).Pairwise (· < ·)) {entry : String × Option CanonicalValue}
    (hentry : entry ∈ entries) : get? entry.1 (members entries) = entry.2 := by
  induction entries with
  | nil => cases hentry
  | cons first entries ih =>
    obtain ⟨key, o⟩ := first
    rw [List.map_cons, List.pairwise_cons] at hkeys
    rcases List.mem_cons.mp hentry with rfl | htail
    · cases o with
      | none =>
        refine get?_eq_none fun member hmember => ?_
        obtain ⟨key', v⟩ := member
        have hmem : (key', v) ∈ members entries := hmember
        exact hkeys.1 key' (List.mem_map_of_mem (mem_members.mp hmem))
      | some value => exact get?_cons_self key value _
    · have hlt : key < entry.1 := hkeys.1 entry.1 (List.mem_map_of_mem htail)
      have hne : key ≠ entry.1 := fun heq => String.lt_irrefl key (heq ▸ hlt)
      cases o with
      | none => exact ih hkeys.2 htail
      | some value => exact (get?_cons_ne hne value _).trans (ih hkeys.2 htail)

/-- The members that are present determine every entry of records with the same keys. -/
theorem members_injective {entries entries' : List (String × Option CanonicalValue)}
    (h : CanonicalValue.object (members entries) = .object (members entries'))
    (keys : List String) (hentries : entries.map Prod.fst = keys)
    (hentries' : entries'.map Prod.fst = keys) (hkeys : keys.Pairwise (· < ·)) :
    entries = entries' := by
  have hlength : entries.length = entries'.length := by
    simpa using congrArg List.length (hentries.trans hentries'.symm)
  refine List.ext_getElem hlength fun i hi hi' => ?_
  have hkey : entries[i].1 = entries'[i].1 := by
    have hi'' : i < (entries.map Prod.fst).length := by simpa using hi
    have hget := List.getElem_of_eq (hentries.trans hentries'.symm) hi''
    simpa using hget
  have hvalue := get?_members (hentries.symm ▸ hkeys) (List.getElem_mem hi)
  rw [CanonicalValue.object.inj h, hkey,
    get?_members (hentries'.symm ▸ hkeys) (List.getElem_mem hi')] at hvalue
  exact Prod.ext hkey hvalue.symm

/-- The spelling of a record: an object of which the members are spelled as they are
written. -/
def recordSpelled (parts : (String → Option CanonicalValue) → Bool) : CanonicalValue → Bool
  | .object ms => parts fun key => get? key ms
  | _ => false

/-- A written record is offered to its reader by its keys. -/
theorem ofValue_members {declared : List String} {entries : List (String × Option CanonicalValue)}
    (hdeclared : ∀ key ∈ entries.map Prod.fst, key ∈ declared) :
    Fields.ofValue declared (.object (members entries)) =
      .ok ⟨fun key => get? key (members entries), false⟩ := by
  refine if_pos ?_
  rw [knownKeys, List.all_eq_true]
  rintro ⟨key, value⟩ hmember
  exact decide_eq_true (hdeclared key (List.mem_map_of_mem (mem_members.mp hmember)))

/-- A written record is sorted when its keys ascend and its values are sorted. -/
theorem sorted_record (keys : List String) {entries : List (String × Option CanonicalValue)}
    (hkeys : entries.map Prod.fst = keys) (hascending : keys.Pairwise (· < ·))
    (hsorted : ∀ entry ∈ entries, ∀ value ∈ entry.2, value.sorted = true) :
    (CanonicalValue.object (members entries)).sorted = true := by
  refine sorted_object.mpr ⟨members_ascending (hkeys ▸ hascending), ?_⟩
  rintro ⟨key, value⟩ hmember
  exact hsorted _ (mem_members.mp hmember) value rfl

/-- A written record is read when its reader finds every member under its key. -/
theorem record_reads {α : Type} (keys : List String) {declared : List String}
    {entries : List (String × Option CanonicalValue)} {body : Fields → Except ProtocolError α}
    {a : α} (hkeys : entries.map Prod.fst = keys) (hascending : keys.Pairwise (· < ·))
    (hdeclared : ∀ key ∈ keys, key ∈ declared)
    (hreads : ∀ fields : Fields, (∀ entry ∈ entries, fields.get entry.1 = entry.2) →
      body fields = .ok a) :
    (Fields.ofValue declared (.object (members entries)) >>= body) = .ok a := by
  rw [ok_bind (ofValue_members (hkeys ▸ hdeclared))]
  exact hreads _ fun entry hentry => get?_members (hkeys ▸ hascending) hentry

section Record

variable {α : Type} (keys : List String) {declared : List String}
  (entries : α → List (String × Option CanonicalValue)) {body : Fields → Except ProtocolError α}
  {parts : (String → Option CanonicalValue) → Bool} {Good : α → Prop}

/-- A record whose members are written as they were read exactly under a condition on each
of them is written as it was read exactly under all these conditions. -/
theorem record_spelling (hkeys : ∀ a, (entries a).map Prod.fst = keys)
    (hascending : keys.Pairwise (· < ·)) (hdeclared : ∀ key, key ∈ declared ↔ key ∈ keys)
    (hexact : ∀ fields a, (∀ key, ∀ value ∈ fields.get key, value.sorted = true) →
      body fields = .ok a →
      ((∀ entry ∈ entries a, entry.2 = fields.get entry.1) ↔ parts fields.get = true))
    (hreads : ∀ fields a, Good a → (∀ entry ∈ entries a, fields.get entry.1 = entry.2) →
      body fields = .ok a)
    (hsorted : ∀ a, Good a → ∀ entry ∈ entries a, ∀ value ∈ entry.2, value.sorted = true) :
    Spelling (fun value => Fields.ofValue declared value >>= body)
      (fun a => .object (members (entries a))) (recordSpelled parts) Good where
  exact {value a} hvalue hread := by
    obtain ⟨fields, hfields, hbody⟩ := bind_eq_ok.mp hread
    cases value with
    | object ms =>
      obtain ⟨hknown, hfields⟩ := ite_ok_eq_ok.mp hfields
      cases hfields
      obtain ⟨hms, hvalues⟩ := sorted_object.mp hvalue
      have hparts := hexact _ a (fun key v hv => hvalues (key, v) (get?_mem hv)) hbody
      have hknown' : knownKeys keys ms = true := by
        rw [knownKeys, List.all_eq_true] at hknown ⊢
        intro member hmember
        exact decide_eq_true ((hdeclared _).mp (of_decide_eq_true (hknown member hmember)))
      have hmembers : members ((entries a).map fun entry => (entry.1, get? entry.1 ms)) = ms := by
        have h := members_get? hascending hms hknown'
        rw [← hkeys a, List.map_map] at h
        exact h
      rw [recordSpelled, ← hparts, CanonicalValue.object.injEq]
      have hentries : ((entries a).map Prod.fst).Pairwise (· < ·) := by rwa [hkeys a]
      constructor
      · intro heq entry hentry
        subst heq
        exact (get?_members hentries hentry).symm
      · intro hall
        have hself : (entries a).map (fun entry => (entry.1, get? entry.1 ms)) = entries a := by
          conv_rhs => rw [← List.map_id (entries a)]
          exact List.map_congr_left fun entry hentry => Prod.ext rfl (hall entry hentry).symm
        rw [hself] at hmembers
        exact hmembers
    | array values =>
      exact iff_of_false (fun h => by cases h) fun h => by cases h
    | null => cases hfields
    | bool b => cases hfields
    | integer n => cases hfields
    | string text => cases hfields
  reads {a} ha := record_reads keys (hkeys a) hascending
    (fun key hkey => (hdeclared key).mpr hkey) (hreads · a ha)
  sorted {a} ha := sorted_record keys (hkeys a) hascending (hsorted a ha)

end Record

end CanonicalValue

end Otmp
