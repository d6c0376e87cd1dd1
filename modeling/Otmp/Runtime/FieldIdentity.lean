import Otmp.Image.SchemaRows
import Otmp.Runtime.AdditiveEvolution

/-!
# The identity of fields

Schemas that evolve from one root form a tree. A new schema repeats the fields of the schema that
it evolves from and adds identifiers that no schema of the tree has, so that two schemas which both
hold an identifier mean the same field by it, even when neither evolved from the other.
-/

namespace Otmp

open Foundation

namespace Field

/-- A field of which only the identifier counts, with everything else at fixed values. -/
def stub (f : Field) : Field := .mk f.fieldId "" false .boolean none none none

end Field

/-- A type without the fields of structs. Elements and map values keep their identifiers, and the
keys of maps are kept. -/
def LogicalType.head : LogicalType → LogicalType
  | .struct _ => .struct []
  | .list element => .list element.stub
  | .map key value => .map key value.stub
  | t => t

namespace Field

/-- What evolution never changes about a field. Defaults are compared as floating-point numbers. -/
def identity (f : Field) : Field :=
  .mk f.fieldId f.name f.required f.loose.fieldType.head f.doc f.loose.initialDefault
    f.loose.writeDefault

/-- A field keeps another when every part agrees and its type keeps the other's type. -/
theorem keeps_iff {f g : Field} :
    f.Keeps g ↔ f.fieldId = g.fieldId ∧ f.name = g.name ∧ f.required = g.required ∧
      f.doc = g.doc ∧ f.initialDefault = g.initialDefault ∧ f.writeDefault = g.writeDefault ∧
      f.fieldType.Keeps g.fieldType := by
  cases f
  exact Iff.rfl

/-- Kept types have the same head, which is all that identities compare of types. -/
theorem head_eq_of_keeps {t u : LogicalType} (h : t.Keeps u) : t.head = u.head := by
  have hstub : ∀ {f g : Field}, f.Keeps g → f.stub = g.stub := by
    intro f g hkeeps
    rw [stub, stub, (keeps_iff.mp hkeeps).1]
  obtain ⟨olds, news, rfl, rfl, -⟩ | ⟨old, new, rfl, rfl, hkeep⟩ |
    ⟨key, old, new, rfl, rfl, hkeep⟩ | ⟨-, rfl⟩ := h.cases
  · rfl
  · rw [LogicalType.head, LogicalType.head, hstub hkeep]
  · rw [LogicalType.head, LogicalType.head, hstub hkeep]
  · rfl

/-- A kept field has the same identity. -/
theorem identity_eq_of_keeps {f g : Field} (h : f.loose.Keeps g.loose) :
    f.identity = g.identity := by
  obtain ⟨hid, hname, hrequired, hdoc, hinitial, hwrite, htype⟩ := keeps_iff.mp h
  rw [fieldId_mapDefaults, fieldId_mapDefaults] at hid
  rw [name_mapDefaults, name_mapDefaults] at hname
  rw [required_mapDefaults, required_mapDefaults] at hrequired
  rw [doc_mapDefaults, doc_mapDefaults] at hdoc
  rw [identity, identity, hid, hname, hrequired, hdoc, hinitial, hwrite, head_eq_of_keeps htype]

/-- A list of fields keeps itself when each field keeps itself. -/
private theorem keepsList_refl {fields : List Field} (h : ∀ c ∈ fields, c.Keeps c) :
    KeepsList fields fields := by
  induction fields with
  | nil => trivial
  | cons f fs ih =>
    exact ⟨h f List.mem_cons_self, ih fun c hc => h c (List.mem_cons_of_mem _ hc)⟩

/-- A field keeps itself. -/
theorem Keeps.refl (f : Field) : f.Keeps f := by
  induction f using Field.induction with
  | h f ih =>
    refine keeps_iff.mpr ⟨rfl, rfl, rfl, rfl, rfl, rfl, ?_⟩
    unfold children at ih
    cases hf : f.fieldType with
    | struct fields =>
      rw [hf] at ih
      exact keepsList_refl ih
    | list element =>
      rw [hf] at ih
      exact ih element List.mem_cons_self
    | map key value =>
      rw [hf] at ih
      exact ⟨rfl, ih value (List.mem_cons_of_mem _ List.mem_cons_self)⟩
    | _ => rfl

/-- A kept field keeps its nested fields in front. -/
theorem Keeps.children {f g : Field} (h : f.Keeps g) : KeepsList f.children g.children := by
  unfold Field.children
  obtain ⟨olds, news, hf, hg, hkeep⟩ | ⟨old, new, hf, hg, hkeep⟩ |
    ⟨key, old, new, hf, hg, hkeep⟩ | ⟨hprimitive, heq⟩ := (keeps_iff.mp h).2.2.2.2.2.2.cases
  · rw [hf, hg]
    exact hkeep
  · rw [hf, hg]
    exact ⟨hkeep, trivial⟩
  · rw [hf, hg]
    exact ⟨Keeps.refl key, hkeep, trivial⟩
  · rw [← heq]
    exact keepsList_refl fun c _ => Keeps.refl c

end Field

/-- What evolution never changes about a field and its place. -/
def NormalizedField.identity (n : NormalizedField) : NormalizedField :=
  ⟨n.parent, n.ordinal, n.field.identity⟩

namespace Field

/-- Every place of the old fields has a place of the same identity in the new ones. -/
private theorem identity_mem_placesList {olds news : List Field}
    (ih : ∀ c ∈ olds, ∀ (new : Field) (parent : Option UInt32) (ordinal : ℕ),
      c.loose.Keeps new.loose → ∀ n ∈ c.places parent ordinal,
        ∃ m ∈ new.places parent ordinal, m.identity = n.identity)
    (h : KeepsList (olds.map loose) (news.map loose)) (parent : Option UInt32) (ordinal : ℕ) :
    ∀ n ∈ placesList parent ordinal olds,
      ∃ m ∈ placesList parent ordinal news, m.identity = n.identity := by
  induction olds generalizing news ordinal with
  | nil => exact fun n hn => absurd hn List.not_mem_nil
  | cons old olds ihrest =>
    cases news with
    | nil => exact h.elim
    | cons new news =>
      intro n hn
      rw [placesList] at hn ⊢
      obtain hn | hn := List.mem_append.mp hn
      · obtain ⟨m, hm, heq⟩ := ih old List.mem_cons_self new parent ordinal h.1 n hn
        exact ⟨m, List.mem_append_left _ hm, heq⟩
      · obtain ⟨m, hm, heq⟩ := ihrest (fun c hc => ih c (List.mem_cons_of_mem _ hc)) h.2
          (ordinal + 1) n hn
        exact ⟨m, List.mem_append_right _ hm, heq⟩

/-- The fields of a kept tree stay at their places. -/
theorem identity_mem_places (old new : Field) (parent : Option UInt32) (ordinal : ℕ)
    (h : old.loose.Keeps new.loose) : ∀ n ∈ old.places parent ordinal,
      ∃ m ∈ new.places parent ordinal, m.identity = n.identity := by
  induction old using Field.induction generalizing new parent ordinal with
  | h old ih =>
    have hidentity := identity_eq_of_keeps h
    have hid : old.fieldId = new.fieldId := by
      have hloose := (keeps_iff.mp h).1
      rwa [fieldId_mapDefaults, fieldId_mapDefaults] at hloose
    have hchildren := h.children
    rw [children_mapDefaults, children_mapDefaults] at hchildren
    intro n hn
    rw [places_eq] at hn
    rw [places_eq]
    obtain rfl | hn := List.mem_cons.mp hn
    · exact ⟨_, List.mem_cons_self, congrArg (NormalizedField.mk parent ordinal) hidentity.symm⟩
    · rw [hid] at hn
      obtain ⟨m, hm, heq⟩ := identity_mem_placesList ih hchildren _ 0 n hn
      exact ⟨m, List.mem_cons_of_mem _ hm, heq⟩

end Field

/-- The fields of a schema stay at their places in every schema that extends it. -/
theorem AdditiveUpTo.identity_mem_places {old new : Schema}
    (h : AdditiveUpTo TypedScalar.loose old new) {n : NormalizedField} (hn : n ∈ old.places) :
    ∃ m ∈ new.places, m.identity = n.identity :=
  Field.identity_mem_placesList
    (fun c _ new parent ordinal hkeeps => Field.identity_mem_places c new parent ordinal hkeeps)
    h.kept none 0 n hn

/-- Schemas that evolve from one root. A new schema is accepted as an evolution of one of them,
and its new identifiers are in none of them. -/
inductive SchemaFamily : List Schema → Prop where
  | root {s : Schema} (valid : s.validate = .ok ()) : SchemaFamily [s]
  | evolve {ss : List Schema} {old new : Schema} {ids : List UInt32} (family : SchemaFamily ss)
      (mem : old ∈ ss) (additive : additiveSchema old new = .ok ids)
      (fresh : ∀ s ∈ ss, ∀ id ∈ ids, id ∉ s.flatten.map Field.fieldId) : SchemaFamily (new :: ss)

/-- Every field at a place is a field of the schema. -/
theorem Schema.field_mem_flatten {s : Schema} {n : NormalizedField} (hn : n ∈ s.places) :
    n.field ∈ s.flatten :=
  s.map_field_places ▸ List.mem_map_of_mem (f := NormalizedField.field) hn

/-- Every field of a schema has a place. -/
theorem Schema.exists_place {s : Schema} {f : Field} (hf : f ∈ s.flatten) :
    ∃ n ∈ s.places, n.field = f := by
  rw [← s.map_field_places] at hf
  exact List.mem_map.mp hf

/-- An identifier has one place in a valid schema. -/
theorem Schema.place_unique {s : Schema} (h : s.validate = .ok ()) {m n : NormalizedField}
    (hm : m ∈ s.places) (hn : n ∈ s.places) (hid : m.field.fieldId = n.field.fieldId) : m = n := by
  have hnodup := Schema.nodup_of_validate h
  rw [← s.map_field_places, List.map_map] at hnodup
  exact List.inj_on_of_nodup_map hnodup hm hn hid

namespace NormalizedField

variable {m n : NormalizedField} (h : m.identity = n.identity)
include h

/-- Places of the same identity hold fields of the same identity. -/
theorem field_identity_eq : m.field.identity = n.field.identity :=
  congrArg NormalizedField.field h

/-- Places of the same identity hold fields with the same identifier. -/
theorem fieldId_eq_of_identity : m.field.fieldId = n.field.fieldId := by
  have hid := congrArg Field.fieldId (field_identity_eq h)
  exact hid

/-- Places of the same identity hold fields that agree on whether they are required. -/
theorem required_eq_of_identity : m.field.required = n.field.required := by
  have hrequired := congrArg Field.required (field_identity_eq h)
  exact hrequired

end NormalizedField

section Extends

variable {old new : Schema} {ids : List UInt32}

/-- A field of an evolved schema is an old one, at the same place, or its identifier is new and
it is optional. -/
theorem evolved_place (h : additiveSchema old new = .ok ids) {m : NormalizedField}
    (hm : m ∈ new.places) :
    (∃ n ∈ old.places, m.identity = n.identity) ∨
      m.field.fieldId ∈ ids ∧ m.field.required = false := by
  obtain ⟨hadditive, -, hmaps, hids⟩ := additiveSchema_iff.mp h
  have hflatten := Schema.field_mem_flatten hm
  by_cases hold : m.field.fieldId ∈ old.flatten.map Field.fieldId
  · obtain ⟨f, hf, hid⟩ := List.mem_map.mp hold
    obtain ⟨n, hn, rfl⟩ := Schema.exists_place hf
    obtain ⟨m', hm', heq⟩ := hadditive.identity_mem_places hn
    have hsame : m' = m := Schema.place_unique hadditive.valid hm' hm
      ((NormalizedField.fieldId_eq_of_identity heq).trans hid)
    exact .inl ⟨n, hn, hsame ▸ heq⟩
  · have hmem := List.mem_map_of_mem (f := Field.fieldId) hflatten
    refine .inr ⟨(hids.2 _).mpr ⟨hmem, hold⟩, ?_⟩
    have hperm := hadditive.kept.perm
    rw [Field.appendedList_mapDefaults, Field.idsOf_mapDefaults, Field.idsOf_mapDefaults,
      Field.idsOf_mapDefaults] at hperm
    obtain holdId | happended := List.mem_append.mp (hperm.mem_iff.mp hmem)
    · exact absurd holdId hold
    · obtain ⟨g, hg, hid⟩ := List.mem_map.mp happended
      obtain ⟨root, hroot, hgroot⟩ := List.mem_flatMap.mp hg
      obtain ⟨top, htop, hrootTop⟩ :=
        List.mem_flatMap.mp (Field.appendedList_subset old.fields new.fields hroot)
      have hgnew : g ∈ new.flatten :=
        List.mem_flatMap.mpr ⟨top, htop, Field.flatten_trans hgroot hrootTop⟩
      have hsame : g = m.field :=
        List.inj_on_of_nodup_map (Schema.nodup_of_validate hadditive.valid) hgnew hflatten hid
      have hoptional := (AdditiveUpTo.allOptional_iff hadditive.valid).mpr
        ⟨hadditive.optional, hmaps⟩ root hroot
      have hfield := List.all_eq_true.mp hoptional g hgroot
      rw [← hsame]
      simpa using hfield

/-- The identifiers of the old schema stay. -/
theorem evolved_ids (h : additiveSchema old new = .ok ids) {id : UInt32}
    (hid : id ∈ old.flatten.map Field.fieldId) : id ∈ new.flatten.map Field.fieldId := by
  obtain ⟨hadditive, -⟩ := additiveSchema_iff.mp h
  obtain ⟨f, hf, rfl⟩ := List.mem_map.mp hid
  obtain ⟨n, hn, rfl⟩ := Schema.exists_place hf
  obtain ⟨m, hm, heq⟩ := hadditive.identity_mem_places hn
  exact List.mem_map.mpr ⟨m.field, Schema.field_mem_flatten hm,
    NormalizedField.fieldId_eq_of_identity heq⟩

end Extends

namespace SchemaFamily

variable {ss : List Schema}

/-- Every schema of a family is valid. -/
theorem valid (h : SchemaFamily ss) {s : Schema} (hs : s ∈ ss) : s.validate = .ok () := by
  induction h with
  | root valid =>
    obtain rfl := List.mem_singleton.mp hs
    exact valid
  | evolve family mem additive fresh ih =>
    obtain rfl | hs := List.mem_cons.mp hs
    · exact (additiveSchema_iff.mp additive).1.valid
    · exact ih hs

/-- A field of a newly evolved schema that an earlier schema has too is the same there. -/
private theorem evolved_identity {old new : Schema} {ids : List UInt32}
    (additive : additiveSchema old new = .ok ids)
    (fresh : ∀ s ∈ ss, ∀ id ∈ ids, id ∉ s.flatten.map Field.fieldId)
    (ih : ∀ b ∈ ss, ∀ n ∈ old.places, ∀ m ∈ b.places,
      n.field.fieldId = m.field.fieldId → n.identity = m.identity) {b : Schema} (hb : b ∈ ss)
    {m n : NormalizedField} (hm : m ∈ new.places) (hn : n ∈ b.places)
    (hid : m.field.fieldId = n.field.fieldId) : m.identity = n.identity := by
  obtain ⟨k, hk, heq⟩ | ⟨hnew, -⟩ := evolved_place additive hm
  · exact heq.trans
      (ih b hb k hk n hn ((NormalizedField.fieldId_eq_of_identity heq).symm.trans hid))
  · have hmem := List.mem_map_of_mem (f := Field.fieldId) (Schema.field_mem_flatten hn)
    rw [hid] at hnew
    exact absurd hmem (fresh b hb _ hnew)

/-- **An identifier has one meaning in a family.** Two schemas that both hold it have the same
field at the same place. -/
theorem identity_eq (h : SchemaFamily ss) {a b : Schema} (ha : a ∈ ss) (hb : b ∈ ss)
    {m n : NormalizedField} (hm : m ∈ a.places) (hn : n ∈ b.places)
    (hid : m.field.fieldId = n.field.fieldId) : m.identity = n.identity := by
  induction h generalizing a b m n with
  | root valid =>
    obtain rfl := List.mem_singleton.mp ha
    obtain rfl := List.mem_singleton.mp hb
    rw [Schema.place_unique valid hm hn hid]
  | @evolve ss old new ids family mem additive fresh ih =>
    have hearlier : ∀ b ∈ ss, ∀ n ∈ old.places, ∀ m ∈ b.places,
        n.field.fieldId = m.field.fieldId → n.identity = m.identity :=
      fun b hb n hn m hm hid => ih mem hb hn hm hid
    obtain rfl | hafter := List.mem_cons.mp ha
    · obtain rfl | hbefore := List.mem_cons.mp hb
      · rw [Schema.place_unique (additiveSchema_iff.mp additive).1.valid hm hn hid]
      · exact evolved_identity additive fresh hearlier hbefore hm hn hid
    · obtain rfl | hbefore := List.mem_cons.mp hb
      · exact (evolved_identity additive fresh hearlier hafter hn hm hid.symm).symm
      · exact ih hafter hbefore hm hn hid

/-- **A field that some schema of a family lacks is optional.** -/
theorem optional_of_absent (h : SchemaFamily ss) {a b : Schema} (ha : a ∈ ss) (hb : b ∈ ss)
    {m : NormalizedField} (hm : m ∈ a.places)
    (habsent : m.field.fieldId ∉ b.flatten.map Field.fieldId) : m.field.required = false := by
  induction h generalizing a b m with
  | root valid =>
    obtain rfl := List.mem_singleton.mp ha
    obtain rfl := List.mem_singleton.mp hb
    exact absurd (List.mem_map_of_mem (f := Field.fieldId) (Schema.field_mem_flatten hm)) habsent
  | @evolve ss old new ids family mem additive fresh ih =>
    obtain rfl | hafter := List.mem_cons.mp ha
    · obtain rfl | hbefore := List.mem_cons.mp hb
      · exact absurd (List.mem_map_of_mem (f := Field.fieldId) (Schema.field_mem_flatten hm))
          habsent
      · obtain ⟨k, hk, heq⟩ | ⟨-, hoptional⟩ := evolved_place additive hm
        · rw [NormalizedField.required_eq_of_identity heq]
          rw [NormalizedField.fieldId_eq_of_identity heq] at habsent
          exact ih mem hbefore hk habsent
        · exact hoptional
    · obtain rfl | hbefore := List.mem_cons.mp hb
      · exact ih hafter mem hm fun hold => habsent (evolved_ids additive hold)
      · exact ih hafter hbefore hm habsent

end SchemaFamily

end Otmp
