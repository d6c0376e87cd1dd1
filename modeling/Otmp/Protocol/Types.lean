import Otmp.Protocol.TypedScalar

/-!
# Logical types, fields and schemas

A schema is a list of fields, and a field's type may hold further fields. The
functions of this file follow the recursion of the type tree. `children` gives
the nested fields of a type in their stored order, and every tree function has
an equation in terms of it, so that proofs go by one induction over fields.
-/

namespace Otmp

mutual

/-- A logical type; structs, lists and maps hold nested fields. -/
inductive LogicalType where
  | boolean
  | int32
  | int64
  | float32
  | float64
  | decimal (precision scale : UInt32)
  | date
  | timeMicros
  | timestampMicros
  | timestamptzMicros
  | string
  | binary
  | fixed (length : UInt32)
  | uuid
  | struct (fields : List Field)
  | list (element : Field)
  | map (key value : Field)

/-- A field: its identity, name, type, documentation and defaults. -/
inductive Field where
  | mk (fieldId : UInt32) (name : String) (required : Bool) (fieldType : LogicalType)
    (doc : Option String) (initialDefault writeDefault : Option TypedScalar)

end

namespace LogicalType

/-- The nested fields of a type in stored order. -/
def children : LogicalType → List Field
  | .struct fields => fields
  | .list element => [element]
  | .map key value => [key, value]
  | _ => []

/-- A type without nested fields, whose values are scalars. -/
def isPrimitive : LogicalType → Bool
  | .struct _ | .list _ | .map _ _ => false
  | _ => true

/-- A floating-point type, whose values may be NaNs. -/
def isFloat : LogicalType → Bool
  | .float32 | .float64 => true
  | _ => false

/-- A primitive type that may identify rows: none of the floating-point ones. -/
def isIdentifierPrimitive (t : LogicalType) : Bool := t.isPrimitive && !t.isFloat

/-- A scalar fits a type; a null fits every type. -/
def accepts : LogicalType → TypedScalar → Bool
  | _, .null => true
  | .boolean, .boolean _ => true
  | .int32, .int32 _ => true
  | .int64, .int64 _ => true
  | .float32, .float32 _ => true
  | .float64, .float64 _ => true
  | .date, .date _ => true
  | .timeMicros, .timeMicros _ => true
  | .timestampMicros, .timestampMicros _ => true
  | .timestamptzMicros, .timestamptzMicros _ => true
  | .string, .string _ => true
  | .binary, .binary _ => true
  | .uuid, .uuid _ => true
  | .decimal precision scale, .decimal p s _ => precision == p && scale == s
  | .fixed length, .fixed bytes => length.toNat == bytes.length
  | _, _ => false

end LogicalType

namespace Field

/-- The identifier of a field, which schemas never reuse. -/
def fieldId : Field → UInt32
  | .mk fieldId _ _ _ _ _ _ => fieldId

/-- The name of a field, unique among its siblings. -/
def name : Field → String
  | .mk _ name _ _ _ _ _ => name

/-- Whether every row must have a value for the field. -/
def required : Field → Bool
  | .mk _ _ required _ _ _ _ => required

/-- The type of a field, with the nested fields inside it. -/
def fieldType : Field → LogicalType
  | .mk _ _ _ fieldType _ _ _ => fieldType

/-- The documentation of a field, if there is any. -/
def doc : Field → Option String
  | .mk _ _ _ _ doc _ _ => doc

/-- The value that rows without the field are read with. -/
def initialDefault : Field → Option TypedScalar
  | .mk _ _ _ _ _ initialDefault _ => initialDefault

/-- The value that writers put where they are given none. -/
def writeDefault : Field → Option TypedScalar
  | .mk _ _ _ _ _ _ writeDefault => writeDefault

/-- The nested fields of a field, which are those of its type. -/
def children (f : Field) : List Field := f.fieldType.children

/-- The defaults that a field carries itself, the initial one first. -/
def defaults (f : Field) : List TypedScalar := f.initialDefault.toList ++ f.writeDefault.toList

/-- Nested fields are smaller than the field they are in, which makes recursion on them end. -/
private theorem sizeOf_lt_of_mem_children {f c : Field} (h : c ∈ f.children) :
    sizeOf c < sizeOf f := by
  cases f with
  | mk fieldId name required fieldType doc initialDefault writeDefault =>
    cases fieldType with
    | struct fields =>
      have hmem : c ∈ fields := h
      have hlt := List.sizeOf_lt_of_mem hmem
      simp only [Field.mk.sizeOf_spec, LogicalType.struct.sizeOf_spec]
      omega
    | list element =>
      obtain rfl : c = element := List.mem_singleton.mp h
      simp only [Field.mk.sizeOf_spec, LogicalType.list.sizeOf_spec]
      omega
    | map key value =>
      have hcase : c = key ∨ c = value := by
        have hmem : c ∈ [key, value] := h
        simpa using hmem
      simp only [Field.mk.sizeOf_spec, LogicalType.map.sizeOf_spec]
      obtain rfl | rfl := hcase <;> omega
    | _ => cases h

/-- Induction over fields through their nested fields. -/
theorem induction {P : Field → Prop} (h : ∀ f, (∀ c ∈ f.children, P c) → P f) (f : Field) : P f :=
  h f fun c _ => induction h c
termination_by sizeOf f
decreasing_by
  rename_i hc
  exact sizeOf_lt_of_mem_children hc

end Field

mutual

/-- All defaults inside a type's nested fields satisfy a predicate. -/
def LogicalType.allDefaults (p : TypedScalar → Bool) : LogicalType → Bool
  | .struct fields => Field.allDefaultsList p fields
  | .list element => element.allDefaults p
  | .map key value => key.allDefaults p && value.allDefaults p
  | _ => true
termination_by structural t => t

/-- All defaults of a field and of its nested fields satisfy a predicate. -/
def Field.allDefaults (p : TypedScalar → Bool) : Field → Bool
  | .mk _ _ _ fieldType _ initialDefault writeDefault =>
    initialDefault.all p && writeDefault.all p && fieldType.allDefaults p
termination_by structural f => f

/-- All defaults of a list of fields satisfy a predicate. -/
def Field.allDefaultsList (p : TypedScalar → Bool) : List Field → Bool
  | [] => true
  | field :: fields => field.allDefaults p && Field.allDefaultsList p fields
termination_by structural fields => fields

end

mutual

/-- Replace the defaults of nested fields, at every depth. -/
def LogicalType.mapDefaults (g : TypedScalar → TypedScalar) : LogicalType → LogicalType
  | .struct fields => .struct (Field.mapDefaultsList g fields)
  | .list element => .list (element.mapDefaults g)
  | .map key value => .map (key.mapDefaults g) (value.mapDefaults g)
  | t => t
termination_by structural t => t

/-- Replace the defaults of a field and of its nested fields. -/
def Field.mapDefaults (g : TypedScalar → TypedScalar) : Field → Field
  | .mk fieldId name required fieldType doc initialDefault writeDefault =>
    .mk fieldId name required (fieldType.mapDefaults g) doc (initialDefault.map g)
      (writeDefault.map g)
termination_by structural f => f

/-- Replace the defaults of a list of fields, at every depth. -/
def Field.mapDefaultsList (g : TypedScalar → TypedScalar) : List Field → List Field
  | [] => []
  | field :: fields => field.mapDefaults g :: Field.mapDefaultsList g fields
termination_by structural fields => fields

end

/-- Equality of optional defaults, where a NaN equals nothing. -/
def optionEq : Option TypedScalar → Option TypedScalar → Bool
  | none, none => true
  | some a, some b => a.eq b
  | _, _ => false

mutual

/-- Equality of types as the source derives it, with floating-point equality of defaults. -/
def LogicalType.eq : LogicalType → LogicalType → Bool
  | .boolean, .boolean => true
  | .int32, .int32 => true
  | .int64, .int64 => true
  | .float32, .float32 => true
  | .float64, .float64 => true
  | .decimal precision scale, .decimal p s => precision == p && scale == s
  | .date, .date => true
  | .timeMicros, .timeMicros => true
  | .timestampMicros, .timestampMicros => true
  | .timestamptzMicros, .timestamptzMicros => true
  | .string, .string => true
  | .binary, .binary => true
  | .fixed length, .fixed l => length == l
  | .uuid, .uuid => true
  | .struct fields, .struct fs => Field.eqList fields fs
  | .list element, .list e => element.eq e
  | .map key value, .map k v => key.eq k && value.eq v
  | _, _ => false
termination_by structural t => t

/-- Equality of fields as the source derives it, which compares floats as numbers. -/
def Field.eq : Field → Field → Bool
  | .mk fieldId name required fieldType doc initialDefault writeDefault,
    .mk fieldId' name' required' fieldType' doc' initialDefault' writeDefault' =>
    fieldId == fieldId' && name == name' && required == required' && fieldType.eq fieldType' &&
      doc == doc' && optionEq initialDefault initialDefault' && optionEq writeDefault writeDefault'
termination_by structural f => f

/-- Equality of field lists, position by position. -/
def Field.eqList : List Field → List Field → Bool
  | [], [] => true
  | field :: fields, f :: fs => field.eq f && Field.eqList fields fs
  | _, _ => false
termination_by structural fields => fields

end

namespace Field

/-- The list functions are the pointwise ones. -/
@[simp] theorem allDefaultsList_eq (p : TypedScalar → Bool) (fields : List Field) :
    allDefaultsList p fields = fields.all (allDefaults p) := by
  induction fields with
  | nil => rfl
  | cons field fields ih => rw [allDefaultsList, ih, List.all_cons]

/-- Mapping the defaults of a list of fields is mapping those of each field. -/
@[simp] theorem mapDefaultsList_eq (g : TypedScalar → TypedScalar) (fields : List Field) :
    mapDefaultsList g fields = fields.map (mapDefaults g) := by
  induction fields with
  | nil => rfl
  | cons field fields ih => rw [mapDefaultsList, ih, List.map_cons]

/-- The defaults of a field's type are those of its nested fields. -/
theorem allDefaults_fieldType (p : TypedScalar → Bool) (t : LogicalType) :
    t.allDefaults p = t.children.all (allDefaults p) := by
  cases t <;> simp [LogicalType.allDefaults, LogicalType.children]

/-- All defaults of a field are its own and those of its nested fields. -/
theorem allDefaults_eq (p : TypedScalar → Bool) (f : Field) :
    f.allDefaults p = (f.defaults.all p && f.children.all (allDefaults p)) := by
  cases f with
  | mk fieldId name required fieldType doc initialDefault writeDefault =>
    simp only [allDefaults, allDefaults_fieldType, children, Field.fieldType, defaults,
      Field.initialDefault, Field.writeDefault]
    cases initialDefault <;> cases writeDefault <;> simp

section MapDefaults

variable (g : TypedScalar → TypedScalar) (f : Field)

/-- Mapping defaults keeps the identifier of a field. -/
@[simp] theorem fieldId_mapDefaults : (f.mapDefaults g).fieldId = f.fieldId := by
  cases f
  rfl

/-- Mapping defaults keeps the name of a field. -/
@[simp] theorem name_mapDefaults : (f.mapDefaults g).name = f.name := by
  cases f
  rfl

/-- Mapping defaults keeps whether a field is required. -/
@[simp] theorem required_mapDefaults : (f.mapDefaults g).required = f.required := by
  cases f
  rfl

/-- Mapping defaults maps those inside the type of a field. -/
@[simp] theorem fieldType_mapDefaults :
    (f.mapDefaults g).fieldType = f.fieldType.mapDefaults g := by
  cases f
  rfl

/-- Mapping defaults keeps the documentation of a field. -/
@[simp] theorem doc_mapDefaults : (f.mapDefaults g).doc = f.doc := by
  cases f
  rfl

/-- Mapping defaults maps the initial default of a field. -/
@[simp] theorem initialDefault_mapDefaults :
    (f.mapDefaults g).initialDefault = f.initialDefault.map g := by
  cases f
  rfl

/-- Mapping defaults maps the write default of a field. -/
@[simp] theorem writeDefault_mapDefaults :
    (f.mapDefaults g).writeDefault = f.writeDefault.map g := by
  cases f
  rfl

/-- Mapping defaults maps both defaults of a field. -/
@[simp] theorem defaults_mapDefaults : (f.mapDefaults g).defaults = f.defaults.map g := by
  cases f with
  | mk fieldId name required fieldType doc initialDefault writeDefault =>
    cases initialDefault <;> cases writeDefault <;> rfl

/-- Mapping defaults in a type maps them in its nested fields. -/
@[simp] theorem children_type_mapDefaults (t : LogicalType) :
    (t.mapDefaults g).children = t.children.map (mapDefaults g) := by
  cases t <;> simp [LogicalType.mapDefaults, LogicalType.children]

/-- Mapping defaults in a field maps them in its nested fields. -/
@[simp] theorem children_mapDefaults :
    (f.mapDefaults g).children = f.children.map (mapDefaults g) := by
  simp only [children, fieldType_mapDefaults, children_type_mapDefaults]

end MapDefaults

/-- An optional default equals itself exactly when it is not a NaN. -/
theorem optionEq_self (o : Option TypedScalar) : optionEq o o = o.all (!·.isNan) := by
  cases o with
  | none => rfl
  | some s => rw [optionEq, TypedScalar.eq_self, Option.all_some]

/-- A list of fields equals itself exactly when none of its defaults is a NaN, if each field does.
-/
private theorem eqList_self {fields : List Field}
    (h : ∀ c ∈ fields, c.eq c = c.allDefaults (!·.isNan)) :
    eqList fields fields = fields.all (allDefaults (!·.isNan)) := by
  induction fields with
  | nil => rfl
  | cons field fields ih =>
    rw [eqList, h field List.mem_cons_self, ih fun c hc => h c (List.mem_cons_of_mem _ hc),
      List.all_cons]

/-- A field equals itself exactly when no default in its tree is a NaN. -/
theorem eq_self (f : Field) : f.eq f = f.allDefaults (!·.isNan) := by
  induction f using Field.induction with
  | h f ih =>
    have htype : f.fieldType.eq f.fieldType = f.fieldType.allDefaults (!·.isNan) := by
      rw [allDefaults_fieldType]
      unfold children at ih
      cases hf : f.fieldType with
      | struct fields =>
        rw [hf] at ih
        exact eqList_self ih
      | list element =>
        rw [hf] at ih
        rw [LogicalType.eq, ih element (by simp [LogicalType.children])]
        simp [LogicalType.children]
      | map key value =>
        rw [hf] at ih
        rw [LogicalType.eq, ih key (by simp [LogicalType.children]),
          ih value (by simp [LogicalType.children])]
        simp [LogicalType.children]
      | _ => simp [LogicalType.eq, LogicalType.children]
    cases f with
    | mk fieldId name required fieldType doc initialDefault writeDefault =>
      simp only [Field.fieldType] at htype
      simp only [eq, beq_self_eq_true, Bool.true_and, htype, optionEq_self, allDefaults]
      cases fieldType.allDefaults (!·.isNan) <;> simp

end Field

/-- A table schema: its identifier, the schema it evolved from, its fields, and the fields that
identify rows. -/
structure Schema where
  schemaId : UInt32
  parentSchemaId : Option UInt32
  fields : List Field
  identifierFieldIds : List UInt32
  doc : Option String

/-- Replace the defaults of all fields of a schema. -/
def Schema.mapDefaults (g : TypedScalar → TypedScalar) (s : Schema) : Schema :=
  { s with fields := s.fields.map (Field.mapDefaults g) }

end Otmp
