import Otmp.Protocol.Types

/-!
# The JSON form of types, fields and schemas

A type is an object tagged by its name. The members of a nested field or type are
read through the recursion of the value, so each member is offered to every reader
and the tag decides which reading counts. A tag without members ignores what else
the object holds; every other object refuses unknown members. What this file
writes reads back, up to the choice of the NaN in defaults.
-/

namespace Otmp

open CanonicalValue

namespace LogicalType

/-- The tag of a type, by which its JSON form is told. -/
def tag : LogicalType → String
  | .boolean => "boolean"
  | .int32 => "int32"
  | .int64 => "int64"
  | .float32 => "float32"
  | .float64 => "float64"
  | .decimal _ _ => "decimal"
  | .date => "date"
  | .timeMicros => "time_micros"
  | .timestampMicros => "timestamp_micros"
  | .timestamptzMicros => "timestamptz_micros"
  | .string => "string"
  | .binary => "binary"
  | .fixed _ => "fixed"
  | .uuid => "uuid"
  | .struct _ => "struct"
  | .list _ => "list"
  | .map _ _ => "map"

end LogicalType

mutual

/-- The JSON form of a type: its tag, with its parameters or its nested fields. -/
def LogicalType.toValue : LogicalType → CanonicalValue
  | .decimal precision scale => .object [("precision", .integer precision.toNat),
      ("scale", .integer scale.toNat), ("type", .string "decimal")]
  | .fixed length => .object [("length", .integer length.toNat), ("type", .string "fixed")]
  | .struct fields => .object [("fields", .array (Field.toValues fields)),
      ("type", .string "struct")]
  | .list element => .object [("element", element.toValue), ("type", .string "list")]
  | .map key value => .object [("key", key.toValue), ("type", .string "map"),
      ("value", value.toValue)]
  | t => .object [("type", .string t.tag)]
termination_by structural t => t

/-- The JSON form of a field; what is absent is left out. -/
def Field.toValue : Field → CanonicalValue
  | .mk fieldId name required fieldType doc initialDefault writeDefault =>
    .object (members [("doc", doc.map .string), ("field_id", some (.integer fieldId.toNat)),
      ("initial_default", initialDefault.map TypedScalar.toValue), ("name", some (.string name)),
      ("required", some (.bool required)), ("type", some fieldType.toValue),
      ("write_default", writeDefault.map TypedScalar.toValue)])
termination_by structural f => f

/-- The JSON forms of a list of fields, in their order. -/
def Field.toValues : List Field → List CanonicalValue
  | [] => []
  | field :: fields => field.toValue :: Field.toValues fields
termination_by structural fields => fields

end

/-- The JSON form of a schema, with the parent and the documentation left out when there are none.
-/
def Schema.toValue (s : Schema) : CanonicalValue :=
  .object (members [("doc", s.doc.map .string),
    ("fields", some (.array (Field.toValues s.fields))),
    ("identifier_field_ids", some (.array (s.identifierFieldIds.map fun id => .integer id.toNat))),
    ("parent_schema_id", s.parentSchemaId.map fun id => .integer id.toNat),
    ("schema_id", some (.integer s.schemaId.toNat))])

/-- The readings of one member of an object: as a field, as a list of fields and as a type. -/
structure Readings where
  field : Except ProtocolError Field
  fields : Except ProtocolError (List Field)
  fieldType : Except ProtocolError LogicalType

/-- The reading of a member by name, that of the first one if there are several. -/
def reading? (key : String) : List (String × Readings) → Option Readings
  | [] => none
  | (name, r) :: rs => if name = key then some r else reading? key rs

/-- A member that has to be present, under one of its readings. -/
def require {α : Type} (key : String) (rs : List (String × Readings))
    (view : Readings → Except ProtocolError α) : Except ProtocolError α :=
  match reading? key rs with
  | some r => view r
  | none => deError ("missing field " ++ key)

/-- An optional member; an explicit null counts as absent. -/
def optional {α : Type} (read : CanonicalValue → Except ProtocolError α) :
    Option CanonicalValue → Except ProtocolError (Option α)
  | none => .ok none
  | some .null => .ok none
  | some value => (read value).map some

/-- A string, as a member that has to be one. -/
def readString (value : CanonicalValue) : Except ProtocolError String :=
  TypedScalar.takeString (some value)

/-- Accept only the listed members; any other one makes the whole object unreadable. -/
def refuseUnknown (allowed : List String) (ms : List (String × CanonicalValue)) :
    Except ProtocolError Unit :=
  if knownKeys allowed ms then .ok () else deError "unknown field"

/-- The type with the given tag and members; unknown tags and members are refused. -/
def LogicalType.build (tag : String) (ms : List (String × CanonicalValue))
    (rs : List (String × Readings)) : Except ProtocolError LogicalType :=
  if tag = "boolean" then .ok .boolean
  else if tag = "int32" then .ok .int32
  else if tag = "int64" then .ok .int64
  else if tag = "float32" then .ok .float32
  else if tag = "float64" then .ok .float64
  else if tag = "date" then .ok .date
  else if tag = "time_micros" then .ok .timeMicros
  else if tag = "timestamp_micros" then .ok .timestampMicros
  else if tag = "timestamptz_micros" then .ok .timestamptzMicros
  else if tag = "string" then .ok .string
  else if tag = "binary" then .ok .binary
  else if tag = "uuid" then .ok .uuid
  else if tag = "decimal" then do
    refuseUnknown ["precision", "scale", "type"] ms
    let precision ← TypedScalar.takeU32 "precision" (get? "precision" ms)
    let scale ← TypedScalar.takeU32 "scale" (get? "scale" ms)
    return .decimal precision scale
  else if tag = "fixed" then do
    refuseUnknown ["length", "type"] ms
    let length ← TypedScalar.takeU32 "length" (get? "length" ms)
    return .fixed length
  else if tag = "struct" then do
    refuseUnknown ["fields", "type"] ms
    let fields ← require "fields" rs Readings.fields
    return .struct fields
  else if tag = "list" then do
    refuseUnknown ["element", "type"] ms
    let element ← require "element" rs Readings.field
    return .list element
  else if tag = "map" then do
    refuseUnknown ["key", "type", "value"] ms
    let key ← require "key" rs Readings.field
    let value ← require "value" rs Readings.field
    return .map key value
  else deError "unknown variant"

/-- The field with the given members; unknown members are refused. -/
def Field.build (ms : List (String × CanonicalValue)) (rs : List (String × Readings)) :
    Except ProtocolError Field := do
  refuseUnknown ["doc", "field_id", "initial_default", "name", "required", "type",
    "write_default"] ms
  let fieldId ← TypedScalar.takeU32 "field_id" (get? "field_id" ms)
  let name ← TypedScalar.takeString (get? "name" ms)
  let required ← TypedScalar.takeBool (get? "required" ms)
  let fieldType ← require "type" rs Readings.fieldType
  let doc ← optional readString (get? "doc" ms)
  let initialDefault ← optional TypedScalar.ofValue (get? "initial_default" ms)
  let writeDefault ← optional TypedScalar.ofValue (get? "write_default" ms)
  return .mk fieldId name required fieldType doc initialDefault writeDefault

mutual

/-- Read a type from an object with a tag among its members. -/
def LogicalType.ofValue : CanonicalValue → Except ProtocolError LogicalType
  | .object ms => do
    let tag ← TypedScalar.takeString (get? "type" ms)
    LogicalType.build tag ms (readMembers ms)
  | _ => deError "expected a logical type"
termination_by structural value => value

/-- Read a field from an object, with everything nested in it. -/
def Field.ofValue : CanonicalValue → Except ProtocolError Field
  | .object ms => Field.build ms (readMembers ms)
  | _ => deError "expected a field"
termination_by structural value => value

/-- Read a list of fields from an array. -/
def Field.listOfValue : CanonicalValue → Except ProtocolError (List Field)
  | .array values => Field.ofValues values
  | _ => deError "expected a sequence of fields"
termination_by structural value => value

/-- Read fields one by one, up to the first failure. -/
def Field.ofValues : List CanonicalValue → Except ProtocolError (List Field)
  | [] => .ok []
  | value :: values => do
    let field ← Field.ofValue value
    let fields ← Field.ofValues values
    return field :: fields
termination_by structural values => values

/-- The readings of all members of an object, whichever of them are needed. -/
def readMembers : List (String × CanonicalValue) → List (String × Readings)
  | [] => []
  | member :: ms => readMember member :: readMembers ms
termination_by structural ms => ms

/-- The readings of one member: as a field, as a list of fields and as a type. -/
def readMember : String × CanonicalValue → String × Readings
  | (name, value) => (name, ⟨Field.ofValue value, Field.listOfValue value,
      LogicalType.ofValue value⟩)
termination_by structural member => member

end

/-- A text stored in a table: encoding fails beyond the parser's nesting limit. -/
def canonicalString (value : CanonicalValue) : Except ProtocolError CanonicalValue :=
  if value.depth ≤ maxDepth then .ok value
  else .error (.invalidJson "recursion limit exceeded")

/-- Read a stored text under a typed reader; it has to be canonical. -/
def fromCanonical {α : Type} (read : CanonicalValue → Except ProtocolError α)
    (text : CanonicalValue) : Except ProtocolError α :=
  if text.depth ≤ maxDepth then read text
  else .error (.invalidJson "recursion limit exceeded")

/-- The readings of a member are those of its value. -/
theorem reading?_readMembers (key : String) (ms : List (String × CanonicalValue)) :
    reading? key (readMembers ms) = (get? key ms).map fun value =>
      ⟨Field.ofValue value, Field.listOfValue value, LogicalType.ofValue value⟩ := by
  induction ms with
  | nil => rfl
  | cons member ms ih =>
    obtain ⟨name, value⟩ := member
    rw [readMembers, readMember, reading?, get?]
    by_cases h : name = key
    · rw [if_pos h, if_pos h, Option.map_some]
    · rw [if_neg h, if_neg h, ih]

/-- A required member under a reading, by its value. -/
theorem require_readMembers {α : Type} {key : String} {ms : List (String × CanonicalValue)}
    {value : CanonicalValue} (view : Readings → Except ProtocolError α)
    (h : get? key ms = some value) :
    require key (readMembers ms) view =
      view ⟨Field.ofValue value, Field.listOfValue value, LogicalType.ofValue value⟩ := by
  rw [require, reading?_readMembers, h, Option.map_some]

/-- A member of an object written from a list of entries with distinct keys. -/
theorem get?_members {entries : List (String × Option CanonicalValue)}
    (hdistinct : (entries.map Prod.fst).Nodup) {key : String} {value : Option CanonicalValue}
    (h : (key, value) ∈ entries) : get? key (members entries) = value := by
  induction entries with
  | nil => cases h
  | cons entry entries ih =>
    obtain ⟨name, present⟩ := entry
    rw [List.map_cons, List.nodup_cons] at hdistinct
    have habsent : name = key → get? key (members entries) = none := by
      rintro rfl
      have hnone : ∀ es : List (String × Option CanonicalValue), name ∉ es.map Prod.fst →
          get? name (members es) = none := by
        intro es hes
        induction es with
        | nil => rfl
        | cons e es ihes =>
          obtain ⟨n, v⟩ := e
          rw [List.map_cons, List.mem_cons, not_or] at hes
          cases v with
          | none => simpa [members] using ihes hes.2
          | some v =>
            simp only [members, List.filterMap_cons, Option.map_some]
            rw [get?_cons_ne (Ne.symm hes.1)]
            exact ihes hes.2
      exact hnone entries hdistinct.1
    obtain heq | hmem := List.mem_cons.mp h
    · cases heq
      cases value with
      | none => simpa [members] using habsent rfl
      | some v =>
        simp only [members, List.filterMap_cons, Option.map_some]
        rw [get?_cons_self]
    · have hne : name ≠ key := by
        rintro rfl
        exact hdistinct.1 (List.mem_map.mpr ⟨_, hmem, rfl⟩)
      cases present with
      | none => simpa [members] using ih hdistinct.2 hmem
      | some v =>
        simp only [members, List.filterMap_cons, Option.map_some]
        rw [get?_cons_ne hne]
        exact ih hdistinct.2 hmem

/-- The keys of a written object are those of its entries. -/
theorem knownKeys_members (entries : List (String × Option CanonicalValue)) :
    knownKeys (entries.map Prod.fst) (members entries) = true := by
  rw [knownKeys, List.all_eq_true]
  intro member hmember
  obtain ⟨entry, hentry, hmap⟩ := List.mem_filterMap.mp hmember
  obtain ⟨value, -, rfl⟩ := Option.map_eq_some_iff.mp hmap
  exact decide_eq_true (List.mem_map.mpr ⟨entry, hentry, rfl⟩)

/-- Every scalar of a tree passes its own range check. -/
def scalarOk (s : TypedScalar) : Bool := s.validate.isOk

/-- A scalar that passes its check validates. -/
theorem validate_of_scalarOk {s : TypedScalar} (h : scalarOk s = true) : s.validate = .ok () := by
  unfold scalarOk at h
  cases hv : s.validate with
  | error e =>
    rw [hv] at h
    cases h
  | ok u => rfl

/-- Reading an object type starts from its tag. -/
theorem LogicalType.ofValue_object {ms : List (String × CanonicalValue)} {tag : String}
    (h : get? "type" ms = some (.string tag)) :
    LogicalType.ofValue (.object ms) = LogicalType.build tag ms (readMembers ms) := by
  rw [LogicalType.ofValue, h]
  rfl

/-- Reading a list of written fields gives the fields back, up to their NaNs, when each reads back.
-/
private theorem ofValues_toValues {fields : List Field}
    (h : ∀ c ∈ fields, Field.ofValue c.toValue = .ok (c.mapDefaults TypedScalar.canonNan)) :
    Field.ofValues (Field.toValues fields) =
      .ok (fields.map (Field.mapDefaults TypedScalar.canonNan)) := by
  induction fields with
  | nil => rfl
  | cons field fields ih =>
    rw [Field.toValues, Field.ofValues, h field List.mem_cons_self,
      ih fun c hc => h c (List.mem_cons_of_mem _ hc)]
    rfl

/-- A type reads back when its nested fields do. -/
theorem LogicalType.ofValue_toValue {t : LogicalType}
    (h : ∀ c ∈ t.children, Field.ofValue c.toValue = .ok (c.mapDefaults TypedScalar.canonNan)) :
    LogicalType.ofValue t.toValue = .ok (t.mapDefaults TypedScalar.canonNan) := by
  have hprecision : ("precision" : String) ≠ "type" := by decide
  have hscale : ("scale" : String) ≠ "type" := by decide
  have hps : ("precision" : String) ≠ "scale" := by decide
  have hlength : ("length" : String) ≠ "type" := by decide
  have hfields : ("fields" : String) ≠ "type" := by decide
  have helement : ("element" : String) ≠ "type" := by decide
  have hkey : ("key" : String) ≠ "type" := by decide
  have hkv : ("key" : String) ≠ "value" := by decide
  have htv : ("type" : String) ≠ "value" := by decide
  cases t with
  | decimal precision scale =>
    rw [toValue, ofValue_object (by rw [get?_cons_ne hprecision, get?_cons_ne hscale,
      get?_cons_self])]
    simp only [build, String.reduceEq, if_false, if_true]
    rw [get?_cons_self, get?_cons_ne hps, get?_cons_self, TypedScalar.takeU32_toNat,
      TypedScalar.takeU32_toNat]
    simp [refuseUnknown, knownKeys, mapDefaults, Bind.bind, Except.bind, Pure.pure, Except.pure]
  | fixed length =>
    rw [toValue, ofValue_object (by rw [get?_cons_ne hlength, get?_cons_self])]
    simp only [build, String.reduceEq, if_false, if_true]
    rw [get?_cons_self, TypedScalar.takeU32_toNat]
    simp [refuseUnknown, knownKeys, mapDefaults, Bind.bind, Except.bind, Pure.pure, Except.pure]
  | struct fields =>
    rw [toValue, ofValue_object (by rw [get?_cons_ne hfields, get?_cons_self])]
    simp only [build, String.reduceEq, if_false, if_true]
    have hread : Field.ofValues (Field.toValues fields) =
        .ok (fields.map (Field.mapDefaults TypedScalar.canonNan)) := ofValues_toValues h
    rw [require_readMembers _ (get?_cons_self _ _ _)]
    simp only [Field.listOfValue, hread]
    simp [refuseUnknown, knownKeys, mapDefaults, Bind.bind, Except.bind, Pure.pure, Except.pure]
  | list element =>
    rw [toValue, ofValue_object (by rw [get?_cons_ne helement, get?_cons_self])]
    simp only [build, String.reduceEq, if_false, if_true]
    rw [require_readMembers _ (get?_cons_self _ _ _)]
    simp only [h element (by simp [children])]
    simp [refuseUnknown, knownKeys, mapDefaults, Bind.bind, Except.bind, Pure.pure, Except.pure]
  | map key value =>
    rw [toValue, ofValue_object (by rw [get?_cons_ne hkey, get?_cons_self])]
    simp only [build, String.reduceEq, if_false, if_true]
    have hvalue : get? "value" [("key", key.toValue), ("type", .string "map"),
        ("value", value.toValue)] = some value.toValue := by
      rw [get?_cons_ne hkv, get?_cons_ne htv, get?_cons_self]
    rw [require_readMembers _ (get?_cons_self _ _ _), require_readMembers _ hvalue]
    simp only [h key (by simp [children]), h value (by simp [children])]
    simp [refuseUnknown, knownKeys, mapDefaults, Bind.bind, Except.bind, Pure.pure, Except.pure]
  | _ =>
    simp only [toValue]
    rw [ofValue_object (get?_cons_self _ _ _)]
    simp [build, tag, mapDefaults]

/-- An optional default that is written reads back, up to its NaN. -/
private theorem optional_default {o : Option TypedScalar} (h : o.all scalarOk = true) :
    optional TypedScalar.ofValue (o.map TypedScalar.toValue) =
      .ok (o.map TypedScalar.canonNan) := by
  cases o with
  | none => rfl
  | some s =>
    rw [Option.all_some] at h
    have hread := TypedScalar.ofValue_toValue (validate_of_scalarOk h)
    simp only [Option.map_some]
    rw [TypedScalar.toValue] at hread ⊢
    rw [optional, hread]
    · rfl
    · intro hnull
      cases hnull

/-- An optional documentation text that is written reads back. -/
private theorem optional_doc (doc : Option String) :
    optional readString (doc.map .string) = .ok doc := by
  cases doc <;> rfl

/-- A field reads back, up to the choice of the NaN in its defaults. -/
theorem Field.ofValue_toValue (f : Field) (h : f.allDefaults scalarOk = true) :
    Field.ofValue f.toValue = .ok (f.mapDefaults TypedScalar.canonNan) := by
  induction f using Field.induction with
  | h f ih =>
    have hchildren := (Field.allDefaults_eq scalarOk f).symm.trans h
    rw [Bool.and_eq_true, List.all_eq_true (p := Field.allDefaults scalarOk)] at hchildren
    have htype := LogicalType.ofValue_toValue (t := f.fieldType)
      (fun c hc => ih c hc (hchildren.2 c hc))
    cases f with
    | mk fieldId name required fieldType doc initialDefault writeDefault =>
      simp only [Field.allDefaults, Bool.and_eq_true] at h
      simp only [Field.fieldType] at htype
      rw [toValue, ofValue, build]
      have hget := fun key value (hmem : (key, value) ∈
          [("doc", doc.map .string), ("field_id", some (.integer fieldId.toNat)),
            ("initial_default", initialDefault.map TypedScalar.toValue),
            ("name", some (.string name)), ("required", some (.bool required)),
            ("type", some fieldType.toValue),
            ("write_default", writeDefault.map TypedScalar.toValue)]) =>
        get?_members (by simp) hmem
      have hknown := knownKeys_members [("doc", doc.map CanonicalValue.string),
        ("field_id", some (.integer fieldId.toNat)),
        ("initial_default", initialDefault.map TypedScalar.toValue),
        ("name", some (.string name)), ("required", some (.bool required)),
        ("type", some fieldType.toValue),
        ("write_default", writeDefault.map TypedScalar.toValue)]
      simp only [List.map_cons, List.map_nil] at hknown
      rw [require_readMembers _ (hget "type" (some fieldType.toValue) (by simp)),
        hget "field_id" (some (.integer fieldId.toNat)) (by simp),
        hget "name" (some (.string name)) (by simp),
        hget "required" (some (.bool required)) (by simp), hget "doc" (doc.map .string) (by simp),
        hget "initial_default" (initialDefault.map TypedScalar.toValue) (by simp),
        hget "write_default" (writeDefault.map TypedScalar.toValue) (by simp),
        TypedScalar.takeU32_toNat, htype, optional_doc, optional_default h.1.1,
        optional_default h.1.2, refuseUnknown, if_pos hknown]
      rfl

end Otmp
