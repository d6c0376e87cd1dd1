import Mathlib.Data.List.Perm.Subperm
import Otmp.Protocol.SchemaValidate

/-!
# Consequences of schema validation

A valid schema has distinct positive field identifiers and sound defaults, so its
fields read back from their JSON form. The choice of the NaN does not matter to
validation: a valid schema stays valid when its defaults are replaced by what the
JSON form stores.
-/

namespace Otmp

open Foundation Visited

/-- The defaults of a field are checked one by one. -/
theorem validateDefaults_eq_ok {field : Field} {values : List TypedScalar} :
    validateDefaults field values = .ok () ↔
      ∀ value ∈ values, validateDefault field value = .ok () := by
  induction values with
  | nil => simp [validateDefaults]
  | cons value values ih => rw [validateDefaults, check_eq_ok, ih, List.forall_mem_cons]

/-- A default fits when it is in range, has the field's type and is not a forbidden null. -/
theorem validateDefault_eq_ok {field : Field} {value : TypedScalar} :
    validateDefault field value = .ok () ↔
      value.validate = .ok () ∧ field.fieldType.accepts value = true ∧
        (field.required = true → value ≠ .null) := by
  rw [validateDefault, check_eq_ok, invalidSchema, ite_error_eq_ok]
  refine and_congr_right fun _ => ?_
  cases haccepts : field.fieldType.accepts value <;> cases hrequired : field.required <;> simp

/-- The acceptance of a schema, in terms of its field tree. -/
theorem Schema.validate_eq_ok {s : Schema} :
    s.validate = .ok () ↔
      s.schemaId ≠ 0 ∧ (s.fields.map Field.name).Nodup ∧ (∀ f ∈ s.fields, f.Shape 1) ∧
        Fresh ⟨∅, ∅⟩ (s.fields.flatMap Field.flatten) ∧
        validateIdentifiers (addAll ⟨∅, ∅⟩ (s.fields.flatMap (Field.visits false))) ∅
          s.identifierFieldIds = .ok () := by
  have hdepth : checkDepth 1 = .ok () := checkDepth_eq_ok.mpr (by decide)
  rw [validate, invalidSchema, ite_error_eq_ok, check_eq_ok, bind_eq_ok]
  have hspec : ∀ c ∈ s.fields, c.ValidateSpec := fun c _ => c.validate_spec
  simp only [hdepth, true_and, Field.validateSiblings_spec hspec,
    Std.ExtTreeSet.not_mem_empty, not_false_eq_true, implies_true, and_true]
  constructor
  · rintro ⟨hid, seen, ⟨hnames, hshape, hfresh, rfl⟩, hident⟩
    exact ⟨hid, hnames, hshape, hfresh, hident⟩
  · rintro ⟨hid, hnames, hshape, hfresh, hident⟩
    exact ⟨hid, _, ⟨hnames, hshape, hfresh, rfl⟩, hident⟩

namespace Schema

/-- All fields of a schema in the order in which they are stored. -/
def flatten (s : Schema) : List Field := s.fields.flatMap Field.flatten

/-- A valid schema has distinct field identifiers. -/
theorem nodup_of_validate {s : Schema} (h : s.validate = .ok ()) :
    (s.flatten.map Field.fieldId).Nodup := (validate_eq_ok.mp h).2.2.2.1.nodup

/-- A valid schema has positive field identifiers. -/
theorem fieldId_ne_zero_of_validate {s : Schema} (h : s.validate = .ok ()) {f : Field}
    (hf : f ∈ s.flatten) : f.fieldId ≠ 0 := (validate_eq_ok.mp h).2.2.2.1.positive f hf

end Schema

/-- Every field of a well-shaped tree is well shaped. -/
theorem Field.Shape.of_mem_flatten {f g : Field} {depth : ℕ} (h : f.Shape depth)
    (hg : g ∈ f.flatten) : ∃ depth, g.Shape depth := by
  induction f using Field.induction generalizing depth with
  | h f ih =>
    rw [flatten_eq, List.mem_cons, List.mem_flatMap] at hg
    rcases hg with rfl | ⟨c, hc, hg⟩
    · exact ⟨depth, h⟩
    · exact ih c hc ((shape_iff.mp h).2.2 c hc) hg

/-- Every field of a valid schema, at any depth, has the shape that validation asks for. -/
theorem Schema.shape_of_mem_flatten {s : Schema} (h : s.validate = .ok ()) {g : Field}
    (hg : g ∈ s.flatten) :
    ∃ depth, g.Shape depth := by
  obtain ⟨f, hf, hg⟩ := List.mem_flatMap.mp hg
  exact ((validate_eq_ok.mp h).2.2.1 f hf).of_mem_flatten hg

/-- The scalars of a well-shaped tree are in range. -/
theorem Field.Shape.scalarOk {depth : ℕ} {f : Field} (h : f.Shape depth) :
    f.allDefaults Otmp.scalarOk = true := by
  induction f using Field.induction generalizing depth with
  | h f ih =>
    obtain ⟨own, -, nested⟩ := h
    rw [allDefaults_eq, Bool.and_eq_true, List.all_eq_true, List.all_eq_true]
    refine ⟨?_, fun c hc => ih c hc (nested c hc)⟩
    intro value hvalue
    have hok :=
      (validateDefault_eq_ok.mp (validateDefaults_eq_ok.mp own.defaults_ok value hvalue)).1
    rw [Otmp.scalarOk, hok]
    rfl

/-- The defaults of a valid schema are in range. -/
theorem Schema.scalarOk_of_validate {s : Schema} (h : s.validate = .ok ()) {f : Field}
    (hf : f ∈ s.fields) : f.allDefaults scalarOk = true :=
  ((validate_eq_ok.mp h).2.2.1 f hf).scalarOk

section CanonNan

/-- The field as its JSON form stores it, where every NaN is the canonical one. -/
abbrev Field.canonNan (f : Field) : Field := f.mapDefaults TypedScalar.canonNan

/-- The schema as its JSON form stores it, where every NaN is the canonical one. -/
abbrev Schema.canonNan (s : Schema) : Schema := s.mapDefaults TypedScalar.canonNan

/-- Replacing defaults commutes with the walk over a field. -/
theorem Field.visits_mapDefaults (g : TypedScalar → TypedScalar) (u : Bool) (f : Field) :
    (f.mapDefaults g).visits u = (f.visits u).map fun v => (v.1.mapDefaults g, v.2) := by
  induction f using Field.induction generalizing u with
  | h f ih =>
    rw [visits_eq, visits_eq, children_mapDefaults, required_mapDefaults, List.map_cons,
      List.flatMap_map, List.map_flatMap]
    congr 1
    exact List.flatMap_congr fun c hc => ih c hc _

/-- Replacing defaults commutes with flattening a field. -/
theorem Field.flatten_mapDefaults (g : TypedScalar → TypedScalar) (f : Field) :
    (f.mapDefaults g).flatten = f.flatten.map (mapDefaults g) := by
  rw [flatten, visits_mapDefaults, List.map_map, flatten, List.map_map]
  rfl

/-- Replacing defaults commutes with flattening a schema. -/
theorem Schema.flatten_mapDefaults (g : TypedScalar → TypedScalar) (s : Schema) :
    (s.mapDefaults g).flatten = s.flatten.map (Field.mapDefaults g) := by
  rw [flatten, mapDefaults, List.flatMap_map, flatten, List.map_flatMap]
  exact List.flatMap_congr fun f _ => f.flatten_mapDefaults g

/-- The check of a type does not look at the defaults inside it. -/
@[simp] theorem validateType_mapDefaults (g : TypedScalar → TypedScalar) (t : LogicalType) :
    validateType (t.mapDefaults g) = validateType t := by
  cases t <;> rfl

/-- Whether a type is primitive does not depend on the defaults inside it. -/
@[simp] theorem isPrimitive_mapDefaults (g : TypedScalar → TypedScalar) (t : LogicalType) :
    (t.mapDefaults g).isPrimitive = t.isPrimitive := by
  cases t <;> rfl

/-- Whether a type may be an identifier does not depend on the defaults inside it. -/
@[simp] theorem isIdentifierPrimitive_mapDefaults (g : TypedScalar → TypedScalar)
    (t : LogicalType) : (t.mapDefaults g).isIdentifierPrimitive = t.isIdentifierPrimitive := by
  cases t <;> rfl

/-- The choice of the NaN does not change the type of a scalar. -/
theorem accepts_canonNan (t : LogicalType) (value : TypedScalar) :
    (t.mapDefaults TypedScalar.canonNan).accepts value.canonNan = t.accepts value := by
  cases t <;> cases value <;> rfl

/-- Only a null is stored as a null. -/
theorem TypedScalar.canonNan_eq_null {value : TypedScalar} :
    value.canonNan = .null ↔ value = .null := by
  cases value <;> simp [TypedScalar.canonNan]

/-- Own checks survive the choice of the NaN. -/
theorem Field.OwnOk.canonNan {f : Field} (h : f.OwnOk) : f.canonNan.OwnOk := by
  refine ⟨?_, ?_, ?_⟩
  · rw [name_mapDefaults]
    exact h.name_ne
  · rw [fieldType_mapDefaults, validateType_mapDefaults]
    exact h.type_ok
  · rw [validateDefaults_eq_ok, defaults_mapDefaults]
    intro value hvalue
    obtain ⟨old, hold, rfl⟩ := List.mem_map.mp hvalue
    obtain ⟨hvalid, haccepts, hnull⟩ :=
      validateDefault_eq_ok.mp (validateDefaults_eq_ok.mp h.defaults_ok old hold)
    rw [validateDefault_eq_ok, TypedScalar.validate_canonNan, fieldType_mapDefaults,
      accepts_canonNan, required_mapDefaults, Ne, TypedScalar.canonNan_eq_null]
    exact ⟨hvalid, haccepts, hnull⟩

/-- The shape of a tree survives the choice of the NaN. -/
theorem Field.Shape.canonNan {depth : ℕ} {f : Field} (h : f.Shape depth) :
    f.canonNan.Shape depth := by
  induction f using Field.induction generalizing depth with
  | h f ih =>
    obtain ⟨own, group, nested⟩ := h
    refine ⟨own.canonNan, ?_, ?_⟩
    · rw [fieldType_mapDefaults]
      cases ht : f.fieldType with
      | struct fields =>
        rw [ht] at group
        refine ⟨group.1, ?_⟩
        rw [mapDefaultsList_eq, List.map_map]
        have hname : name ∘ mapDefaults TypedScalar.canonNan = name :=
          funext fun c => name_mapDefaults _ c
        rw [hname]
        exact group.2
      | list element =>
        rw [ht] at group
        exact group
      | map key value =>
        rw [ht] at group
        refine ⟨?_, ?_, group.2.2⟩
        · rw [required_mapDefaults]
          exact group.1
        · rw [fieldType_mapDefaults, isPrimitive_mapDefaults]
          exact group.2.1
      | _ => trivial
    · intro c hc
      rw [children_mapDefaults] at hc
      obtain ⟨old, hold, rfl⟩ := List.mem_map.mp hc
      exact ih old hold (nested old hold)

/-- The fields that validation records stay the same up to their defaults. -/
private theorem paths_addAll_map (g : TypedScalar → TypedScalar) (vs : List (Field × Bool))
    {seen seen' : Visited} {id : UInt32}
    (h : seen'.paths[id]? = seen.paths[id]?.map fun v => (v.1.mapDefaults g, v.2)) :
    (seen'.addAll (vs.map fun v => (v.1.mapDefaults g, v.2))).paths[id]? =
      (seen.addAll vs).paths[id]?.map fun v => (v.1.mapDefaults g, v.2) := by
  induction vs generalizing seen seen' with
  | nil => exact h
  | cons v vs ih =>
    change ((seen'.add (v.1.mapDefaults g, v.2)).addAll
      (vs.map fun v => (v.1.mapDefaults g, v.2))).paths[id]? = _
    apply ih
    simp only [add, Field.fieldId_mapDefaults, Std.ExtTreeMap.getElem?_insert]
    split
    · rfl
    · exact h

/-- The check of the identifier fields does not look at defaults. -/
private theorem validateIdentifiers_map (g : TypedScalar → TypedScalar) {seen seen' : Visited}
    (h : ∀ id : UInt32, seen'.paths[id]? = seen.paths[id]?.map fun v => (v.1.mapDefaults g, v.2))
    (done : Std.ExtTreeSet UInt32 compare) (ids : List UInt32) :
    Schema.validateIdentifiers seen' done ids = Schema.validateIdentifiers seen done ids := by
  induction ids generalizing done with
  | nil => rfl
  | cons id ids ih =>
    rw [Schema.validateIdentifiers, Schema.validateIdentifiers, h id]
    cases seen.paths[id]? with
    | none => rfl
    | some v =>
      simp only [Option.map_some, Field.required_mapDefaults, Field.fieldType_mapDefaults,
        isIdentifierPrimitive_mapDefaults, ih]

/-- A valid schema stays valid as its JSON form stores it. -/
theorem Schema.validate_canonNan {s : Schema} (h : s.validate = .ok ()) :
    s.canonNan.validate = .ok () := by
  obtain ⟨hid, hnames, hshape, hfresh, hident⟩ := validate_eq_ok.mp h
  have hid_map : ∀ l : List Field,
      (l.map (Field.mapDefaults TypedScalar.canonNan)).map Field.fieldId = l.map Field.fieldId := by
    intro l
    rw [List.map_map]
    exact List.map_congr_left fun f _ => Field.fieldId_mapDefaults _ f
  have hflat : s.canonNan.fields.flatMap Field.flatten =
      (s.fields.flatMap Field.flatten).map (Field.mapDefaults TypedScalar.canonNan) :=
    s.flatten_mapDefaults TypedScalar.canonNan
  refine validate_eq_ok.mpr ⟨hid, ?_, ?_, ⟨?_, ?_, ?_⟩, ?_⟩
  · have hname : s.canonNan.fields.map Field.name = s.fields.map Field.name := by
      simp only [mapDefaults, List.map_map]
      exact List.map_congr_left fun f _ => Field.name_mapDefaults _ f
    rw [hname]
    exact hnames
  · intro f hf
    obtain ⟨old, hold, rfl⟩ := List.mem_map.mp hf
    exact (hshape old hold).canonNan
  · rw [hflat, hid_map]
    exact hfresh.nodup
  · intro f hf
    rw [hflat] at hf
    obtain ⟨old, hold, rfl⟩ := List.mem_map.mp hf
    rw [Field.fieldId_mapDefaults]
    exact hfresh.positive old hold
  · intro f _
    exact Std.ExtTreeSet.not_mem_empty
  · have hvisits : s.canonNan.fields.flatMap (Field.visits false) =
        (s.fields.flatMap (Field.visits false)).map
          fun v => (v.1.mapDefaults TypedScalar.canonNan, v.2) := by
      simp only [mapDefaults, List.flatMap_map, List.map_flatMap]
      exact List.flatMap_congr fun f _ => f.visits_mapDefaults _ _
    rw [hvisits, ← hident]
    apply validateIdentifiers_map TypedScalar.canonNan
    intro id
    exact paths_addAll_map _ _ (by simp)

/-- The JSON form of a schema does not depend on the choice of the NaN. -/
theorem Schema.toValue_canonNan (s : Schema) : s.canonNan.toValue = s.toValue := by
  have hlist : ∀ fields : List Field, (∀ c ∈ fields, c.canonNan.toValue = c.toValue) →
      Field.toValues (fields.map Field.canonNan) = Field.toValues fields := by
    intro fields h
    induction fields with
    | nil => rfl
    | cons c cs ih =>
      rw [List.map_cons, Field.toValues, Field.toValues, h c List.mem_cons_self,
        ih fun d hd => h d (List.mem_cons_of_mem _ hd)]
  have hscalar : ∀ o : Option TypedScalar,
      (o.map TypedScalar.canonNan).map TypedScalar.toValue = o.map TypedScalar.toValue := by
    intro o
    cases o <;> simp
  have htree : ∀ f : Field, f.canonNan.toValue = f.toValue := by
    intro f
    induction f using Field.induction with
    | h f ih =>
      cases f with
      | mk fieldId name required fieldType doc initialDefault writeDefault =>
        have htype : (fieldType.mapDefaults TypedScalar.canonNan).toValue = fieldType.toValue := by
          have hc : ∀ c ∈ fieldType.children, c.canonNan.toValue = c.toValue := ih
          cases fieldType with
          | struct fields =>
            rw [LogicalType.mapDefaults, LogicalType.toValue, LogicalType.toValue,
              Field.mapDefaultsList_eq, hlist fields hc]
          | list element =>
            rw [LogicalType.mapDefaults, LogicalType.toValue, LogicalType.toValue,
              hc element (by simp [LogicalType.children])]
          | map key value =>
            rw [LogicalType.mapDefaults, LogicalType.toValue, LogicalType.toValue,
              hc key (by simp [LogicalType.children]), hc value (by simp [LogicalType.children])]
          | _ => rfl
        rw [Field.canonNan, Field.mapDefaults, Field.toValue, Field.toValue, htype, hscalar,
          hscalar]
  rw [Schema.toValue, Schema.toValue]
  simp only [mapDefaults]
  rw [hlist s.fields fun c _ => htree c]

end CanonNan

/-- The fields recorded after a walk are those recorded before and those that were walked over. -/
private theorem mem_paths_addAll {seen : Visited} {vs : List (Field × Bool)} {id : UInt32} :
    id ∈ (seen.addAll vs).paths ↔ id ∈ seen.paths ∨ id ∈ (vs.map Prod.fst).map Field.fieldId := by
  induction vs generalizing seen with
  | nil => simp [addAll]
  | cons v vs ih =>
    change id ∈ ((seen.add v).addAll vs).paths ↔ _
    rw [ih, add, Std.ExtTreeMap.mem_insert, Std.LawfulEqCmp.compare_eq_iff_eq, List.map_cons,
      List.map_cons, List.mem_cons]
    constructor
    · rintro ((rfl | h) | h)
      · exact .inr (.inl rfl)
      · exact .inl h
      · exact .inr (.inr h)
    · rintro (h | rfl | h)
      · exact .inl (.inr h)
      · exact .inl (.inl rfl)
      · exact .inr h

/-- Identifier fields that pass their check are distinct, new and recorded. -/
private theorem identifiers_ok {seen : Visited} {used : Std.ExtTreeSet UInt32 compare}
    {ids : List UInt32} (h : Schema.validateIdentifiers seen used ids = .ok ()) :
    ids.Nodup ∧ ∀ id ∈ ids, id ∉ used ∧ id ∈ seen.paths := by
  induction ids generalizing used with
  | nil => simp
  | cons id ids ih =>
    rw [Schema.validateIdentifiers, invalidSchema, ite_error_eq_ok] at h
    obtain ⟨hnew, h⟩ := h
    cases hpath : seen.paths[id]? with
    | none => simp [hpath, invalidSchema] at h
    | some visit =>
      simp only [hpath, invalidSchema, ite_error_eq_ok] at h
      obtain ⟨hnodup, hrest⟩ := ih h.2
      have hself : id ∉ ids := fun hmem => (hrest id hmem).1 Std.ExtTreeSet.mem_insert_self
      refine ⟨List.nodup_cons.mpr ⟨hself, hnodup⟩, ?_⟩
      intro other hother
      obtain rfl | hother := List.mem_cons.mp hother
      · exact ⟨hnew, Std.ExtTreeMap.mem_iff_isSome_getElem?.mpr (by rw [hpath]; rfl)⟩
      · obtain ⟨hunused, hmem⟩ := hrest other hother
        exact ⟨fun hold => hunused (Std.ExtTreeSet.mem_insert.mpr (.inr hold)), hmem⟩

/-- The identifier fields of a valid schema are distinct fields of it. -/
theorem Schema.identifiers_of_validate {s : Schema} (h : s.validate = .ok ()) :
    s.identifierFieldIds.Nodup ∧ s.identifierFieldIds ⊆ s.flatten.map Field.fieldId := by
  obtain ⟨hnodup, hmem⟩ := identifiers_ok (validate_eq_ok.mp h).2.2.2.2
  refine ⟨hnodup, fun id hid => ?_⟩
  have hpath := (hmem id hid).2
  rw [mem_paths_addAll, List.map_flatMap] at hpath
  obtain hnone | hpath := hpath
  · exact absurd hnone Std.ExtTreeMap.not_mem_empty
  · simp only [Field.map_fst_visits] at hpath
    exact hpath

/-- A valid schema has no more identifier fields than fields. -/
theorem Schema.length_identifiers_le {s : Schema} (h : s.validate = .ok ()) :
    s.identifierFieldIds.length ≤ s.flatten.length := by
  obtain ⟨hnodup, hsubset⟩ := identifiers_of_validate h
  have hle := (List.subperm_of_subset hnodup hsubset).length_le
  rwa [List.length_map] at hle

end Otmp
