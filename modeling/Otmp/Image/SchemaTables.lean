import Mathlib.Data.Int.Notation
import Otmp.Foundation.Run
import Otmp.Protocol.SchemaFacts

/-!
# Schemas in relational form

A schema is stored as one row for itself, one for each field of its tree and one
for each identifier field. Field rows hold the identifier of their parent field,
the position among their siblings and the type as text. The constraints of the
relational schema that the inserts can run into are checked here; deferred
foreign keys are left to the commit of the enclosing transaction.
-/

namespace Otmp

open Foundation

/-- A row of `otmp_schemas`: the schema itself, with its parent and the version that added it. -/
structure SchemaRow where
  schemaId : ℤ
  parentSchemaId : Option ℤ
  createdVersion : ℤ
  doc : Option String

/-- A row of `otmp_field_ids`: an identifier and the schema that used it first. -/
structure FieldIdRow where
  fieldId : ℤ
  firstSchemaId : ℤ
  createdVersion : ℤ
  deriving DecidableEq

/-- A row of `otmp_fields`. Text columns that hold canonical JSON are values. -/
structure FieldRow where
  schemaId : ℤ
  fieldId : ℤ
  parentFieldId : Option ℤ
  name : String
  ordinal : ℤ
  required : ℤ
  typeJson : CanonicalValue
  doc : Option String
  initialDefaultJson : Option CanonicalValue
  writeDefaultJson : Option CanonicalValue

/-- A row of `otmp_identifier_fields`: one identifier field of a schema, at its position. -/
structure IdentifierRow where
  schemaId : ℤ
  ordinal : ℤ
  fieldId : ℤ
  deriving DecidableEq

/-- The four tables that hold schemas: their headers, identifiers, fields and identifier fields. -/
structure SchemaTables where
  schemas : List SchemaRow
  fieldIds : List FieldIdRow
  fields : List FieldRow
  identifiers : List IdentifierRow

/-- A violated constraint of the relational schema, as the database reports it. -/
def constraintFailed {α : Type} (message : String) : Except RuntimeError α :=
  .error (.sqlite message)

/-- A protocol failure as a runtime failure, with the protocol's error inside. -/
def liftProtocol {α : Type} : Except ProtocolError α → Except RuntimeError α
  | .ok a => .ok a
  | .error e => .error (.protocol e)

/-- The largest integer that a table holds, which is the largest signed one of 64 bits. -/
abbrev i64Max : ℕ := 2 ^ 63 - 1

/-- An unsigned integer as a table integer; one that does not fit is an invalid append. -/
def sqliteI64 (value : ℕ) (name : String) : Except RuntimeError ℤ :=
  if value ≤ i64Max then .ok value else .error (.invalidAppend (name ++ " exceeds SQLite INTEGER"))

/-- An optional scalar as optional canonical text, which may be too deep to exist. -/
def optionalCanonical : Option TypedScalar → Except ProtocolError (Option CanonicalValue)
  | none => .ok none
  | some scalar => (canonicalString scalar.toValue).map some

namespace SchemaTables

/-- Tables without rows, as they are before the first schema. -/
def empty : SchemaTables := ⟨[], [], [], []⟩

/-- Insert a schema row; its identifier is the primary key and has to be positive. -/
def insertSchemaRow (t : SchemaTables) (row : SchemaRow) : Except RuntimeError SchemaTables :=
  if t.schemas.any (·.schemaId == row.schemaId) then
    constraintFailed "UNIQUE constraint failed: otmp_schemas.schema_id"
  else if row.schemaId ≤ 0 ∨ row.createdVersion < 0 then
    constraintFailed "CHECK constraint failed: otmp_schemas"
  else .ok { t with schemas := t.schemas ++ [row] }

/-- Insert a field identifier unless it exists or violates a constraint of its row. -/
def insertFieldId (t : SchemaTables) (row : FieldIdRow) : Except RuntimeError SchemaTables :=
  if t.fieldIds.any (·.fieldId == row.fieldId) ∨ row.fieldId ≤ 0 ∨ row.createdVersion < 0 then .ok t
  else if t.schemas.any (·.schemaId == row.firstSchemaId) then
    .ok { t with fieldIds := t.fieldIds ++ [row] }
  else constraintFailed "FOREIGN KEY constraint failed"

/-- Insert a field row: identifiers are unique in a schema, names under a parent. -/
def insertFieldRow (t : SchemaTables) (row : FieldRow) : Except RuntimeError SchemaTables :=
  if t.fields.any (fun r => r.schemaId == row.schemaId && r.fieldId == row.fieldId) then
    constraintFailed "UNIQUE constraint failed: otmp_fields.schema_id, otmp_fields.field_id"
  else if t.fields.any (fun r => r.schemaId == row.schemaId &&
      r.parentFieldId == row.parentFieldId && r.name == row.name) then
    constraintFailed "UNIQUE constraint failed: field name"
  else if !t.fieldIds.any (·.fieldId == row.fieldId) then
    constraintFailed "FOREIGN KEY constraint failed"
  else if row.ordinal < 0 ∨ ¬(row.required = 0 ∨ row.required = 1) then
    constraintFailed "CHECK constraint failed: otmp_fields"
  else .ok { t with fields := t.fields ++ [row] }

/-- Insert an identifier row, whose position and field must be new for the schema. -/
def insertIdentifierRow (t : SchemaTables) (row : IdentifierRow) :
    Except RuntimeError SchemaTables :=
  if t.identifiers.any (fun r => r.schemaId == row.schemaId && r.ordinal == row.ordinal) ∨
      t.identifiers.any (fun r => r.schemaId == row.schemaId && r.fieldId == row.fieldId) then
    constraintFailed "UNIQUE constraint failed: otmp_identifier_fields"
  else if !t.schemas.any (·.schemaId == row.schemaId) ∨
      !t.fieldIds.any (·.fieldId == row.fieldId) then
    constraintFailed "FOREIGN KEY constraint failed"
  else .ok { t with identifiers := t.identifiers ++ [row] }

/-- Insert the rows of one field: its identifier if it is new, and the field at its place. -/
def insertField (t : SchemaTables) (schemaId : UInt32) (version : ℕ) (parent : Option UInt32)
    (ordinal : ℕ) (field : Field) : Except RuntimeError SchemaTables := do
  let createdVersion ← sqliteI64 version "field version"
  let t ← t.insertFieldId ⟨field.fieldId.toNat, schemaId.toNat, createdVersion⟩
  if ordinal > i64Max then .error (.invalidAppend "field ordinal overflow")
  else
    let typeJson ← liftProtocol (canonicalString field.fieldType.toValue)
    let initialDefaultJson ← liftProtocol (optionalCanonical field.initialDefault)
    let writeDefaultJson ← liftProtocol (optionalCanonical field.writeDefault)
    t.insertFieldRow
      { schemaId := schemaId.toNat
        fieldId := field.fieldId.toNat
        parentFieldId := parent.map fun id => (id.toNat : ℤ)
        name := field.name
        ordinal := ordinal
        required := if field.required then 1 else 0
        typeJson := typeJson
        doc := field.doc
        initialDefaultJson := initialDefaultJson
        writeDefaultJson := writeDefaultJson }

end SchemaTables

mutual

/-- Insert the fields nested in a type, under the field that has the type. -/
def LogicalType.insertNested (schemaId : UInt32) (version : ℕ) (parent : Option UInt32)
    (t : SchemaTables) : LogicalType → Except RuntimeError SchemaTables
  | .struct fields => Field.insertFields schemaId version parent 0 t fields
  | .list element => element.insertTree schemaId version parent 0 t
  | .map key value => do
    let t ← key.insertTree schemaId version parent 0 t
    value.insertTree schemaId version parent 1 t
  | _ => .ok t
termination_by structural type => type

/-- Insert a field and the fields nested in it. -/
def Field.insertTree (schemaId : UInt32) (version : ℕ) (parent : Option UInt32) (ordinal : ℕ)
    (t : SchemaTables) : Field → Except RuntimeError SchemaTables
  | .mk fieldId name required fieldType doc initialDefault writeDefault => do
    let t ← t.insertField schemaId version parent ordinal
      (.mk fieldId name required fieldType doc initialDefault writeDefault)
    fieldType.insertNested schemaId version (some fieldId) t
termination_by structural field => field

/-- Insert siblings at consecutive positions, each with everything nested in it. -/
def Field.insertFields (schemaId : UInt32) (version : ℕ) (parent : Option UInt32) (ordinal : ℕ)
    (t : SchemaTables) : List Field → Except RuntimeError SchemaTables
  | [] => .ok t
  | field :: fields => do
    let t ← field.insertTree schemaId version parent ordinal t
    Field.insertFields schemaId version parent (ordinal + 1) t fields
termination_by structural fields => fields

end

namespace SchemaTables

/-- Insert identifier rows at consecutive positions, in the order of the schema. -/
def insertIdentifiers (schemaId : UInt32) (ordinal : ℕ) (t : SchemaTables) :
    List UInt32 → Except RuntimeError SchemaTables
  | [] => .ok t
  | fieldId :: ids =>
    if ordinal > i64Max then .error (.invalidAppend "identifier ordinal overflow")
    else do
      let t ← t.insertIdentifierRow ⟨schemaId.toNat, ordinal, fieldId.toNat⟩
      insertIdentifiers schemaId (ordinal + 1) t ids

/-- Insert a schema with all its fields and identifier fields. -/
def insertSchema (t : SchemaTables) (schema : Schema) (version : ℕ) :
    Except RuntimeError SchemaTables := do
  let createdVersion ← sqliteI64 version "schema version"
  let t ← t.insertSchemaRow ⟨schema.schemaId.toNat,
    schema.parentSchemaId.map fun id => (id.toNat : ℤ), createdVersion, schema.doc⟩
  let t ← Field.insertFields schema.schemaId version none 0 t schema.fields
  insertIdentifiers schema.schemaId 0 t schema.identifierFieldIds

end SchemaTables

/-- A field together with its place in the tree: its parent and its position. -/
structure NormalizedField where
  parent : Option UInt32
  ordinal : ℕ
  field : Field

mutual

/-- The places of the fields nested in a type. -/
def LogicalType.places (parent : Option UInt32) : LogicalType → List NormalizedField
  | .struct fields => Field.placesList parent 0 fields
  | .list element => element.places parent 0
  | .map key value => key.places parent 0 ++ value.places parent 1
  | _ => []
termination_by structural type => type

/-- The places of a field and of the fields nested in it, in insertion order. -/
def Field.places (parent : Option UInt32) (ordinal : ℕ) : Field → List NormalizedField
  | .mk fieldId name required fieldType doc initialDefault writeDefault =>
    ⟨parent, ordinal, .mk fieldId name required fieldType doc initialDefault writeDefault⟩ ::
      fieldType.places (some fieldId)
termination_by structural field => field

/-- The places of siblings at consecutive positions, each followed by the places below it. -/
def Field.placesList (parent : Option UInt32) (ordinal : ℕ) : List Field → List NormalizedField
  | [] => []
  | field :: fields => field.places parent ordinal ++ Field.placesList parent (ordinal + 1) fields
termination_by structural fields => fields

end

/-- The places of all fields of a schema, parents before what is nested in them. -/
def Schema.places (s : Schema) : List NormalizedField := Field.placesList none 0 s.fields

/-- The row that stores a field at its place. -/
def NormalizedField.row (schemaId : UInt32) (n : NormalizedField) : FieldRow where
  schemaId := schemaId.toNat
  fieldId := n.field.fieldId.toNat
  parentFieldId := n.parent.map fun id => (id.toNat : ℤ)
  name := n.field.name
  ordinal := n.ordinal
  required := if n.field.required then 1 else 0
  typeJson := n.field.fieldType.toValue
  doc := n.field.doc
  initialDefaultJson := n.field.initialDefault.map TypedScalar.toValue
  writeDefaultJson := n.field.writeDefault.map TypedScalar.toValue

/-- A type's places are those of its nested fields at consecutive positions. -/
theorem Field.places_fieldType (parent : Option UInt32) (t : LogicalType) :
    t.places parent = Field.placesList parent 0 t.children := by
  cases t <;> simp [LogicalType.places, LogicalType.children, Field.placesList]

/-- A field is placed before the fields nested in it. -/
theorem Field.places_eq (parent : Option UInt32) (ordinal : ℕ) (f : Field) :
    f.places parent ordinal =
      ⟨parent, ordinal, f⟩ :: Field.placesList (some f.fieldId) 0 f.children := by
  cases f with
  | mk fieldId name required fieldType doc initialDefault writeDefault =>
    rw [places, places_fieldType]
    rfl

/-- The places of a list of fields hold all fields in it and below it. -/
private theorem map_field_placesList_of {fields : List Field}
    (h : ∀ c ∈ fields, ∀ p o, (c.places p o).map NormalizedField.field = c.flatten)
    (parent : Option UInt32) (ordinal : ℕ) :
    (Field.placesList parent ordinal fields).map NormalizedField.field =
      fields.flatMap Field.flatten := by
  induction fields generalizing ordinal with
  | nil => rfl
  | cons c cs ih =>
    rw [Field.placesList, List.map_append, h c List.mem_cons_self,
      ih fun d hd => h d (List.mem_cons_of_mem _ hd), List.flatMap_cons]

/-- Placing a tree keeps its fields in the order of the walk. -/
theorem Field.map_field_places (parent : Option UInt32) (ordinal : ℕ) (f : Field) :
    (f.places parent ordinal).map NormalizedField.field = f.flatten := by
  induction f using Field.induction generalizing parent ordinal with
  | h f ih =>
    rw [places_eq, List.map_cons, flatten_eq,
      map_field_placesList_of fun c hc p o => ih c hc p o]

/-- The places of a schema hold its fields in the order of the walk. -/
theorem Schema.map_field_places (s : Schema) :
    s.places.map NormalizedField.field = s.flatten :=
  map_field_placesList_of (fun c _ p o => c.map_field_places p o) none 0

/-- A text is stored as it is, within the nesting limit. -/
theorem canonicalString_eq_ok {value text : CanonicalValue} :
    canonicalString value = .ok text ↔ value.depth ≤ CanonicalValue.maxDepth ∧ text = value := by
  rw [canonicalString, ite_ok_eq_ok, Except.ok.injEq, eq_comm (a := value)]

/-- Wrapping a protocol error does not change what succeeds. -/
theorem liftProtocol_eq_ok {α : Type} {x : Except ProtocolError α} {a : α} :
    liftProtocol x = .ok a ↔ x = .ok a := by
  cases x <;> simp [liftProtocol]

/-- An optional scalar is stored as its text. -/
theorem optionalCanonical_ok {o : Option TypedScalar} {text : Option CanonicalValue}
    (h : optionalCanonical o = .ok text) : text = o.map TypedScalar.toValue := by
  cases o with
  | none =>
    cases h
    rfl
  | some scalar =>
    rw [optionalCanonical] at h
    cases hc : canonicalString scalar.toValue with
    | error e =>
      rw [hc] at h
      cases h
    | ok v =>
      rw [hc] at h
      obtain ⟨-, rfl⟩ := canonicalString_eq_ok.mp hc
      cases h
      rfl

namespace SchemaTables

/-- The rows of a list of places were added, and nothing else but field identifiers. -/
structure Extends (schemaId : UInt32) (t t' : SchemaTables) (places : List NormalizedField) :
    Prop where
  schemas_eq : t'.schemas = t.schemas
  identifiers_eq : t'.identifiers = t.identifiers
  fields_eq : t'.fields = t.fields ++ places.map (NormalizedField.row schemaId)
  depth_le : ∀ n ∈ places, n.field.fieldType.toValue.depth ≤ CanonicalValue.maxDepth

namespace Extends

variable {schemaId : UInt32} {t t' t'' : SchemaTables} {places places' : List NormalizedField}

/-- Adding nothing extends the tables by no places. -/
theorem refl : Extends schemaId t t [] where
  schemas_eq := rfl
  identifiers_eq := rfl
  fields_eq := by simp
  depth_le := by simp

/-- Two extensions after one another extend the tables by the places of both. -/
theorem trans (h : Extends schemaId t t' places) (h' : Extends schemaId t' t'' places') :
    Extends schemaId t t'' (places ++ places') where
  schemas_eq := h'.schemas_eq.trans h.schemas_eq
  identifiers_eq := h'.identifiers_eq.trans h.identifiers_eq
  fields_eq := by rw [h'.fields_eq, h.fields_eq, List.map_append, List.append_assoc]
  depth_le := by
    intro n hn
    obtain hn | hn := List.mem_append.mp hn
    · exact h.depth_le n hn
    · exact h'.depth_le n hn

end Extends

/-- An insert of a field identifier touches only the identifier table. -/
theorem insertFieldId_ok {t t' : SchemaTables} {row : FieldIdRow}
    (h : t.insertFieldId row = .ok t') :
    t'.schemas = t.schemas ∧ t'.identifiers = t.identifiers ∧ t'.fields = t.fields := by
  unfold insertFieldId at h
  split at h
  · cases h
    exact ⟨rfl, rfl, rfl⟩
  · split at h
    · cases h
      exact ⟨rfl, rfl, rfl⟩
    · cases h

/-- A field row that is inserted is appended to the others. -/
theorem insertFieldRow_ok {t t' : SchemaTables} {row : FieldRow}
    (h : t.insertFieldRow row = .ok t') : t' = { t with fields := t.fields ++ [row] } := by
  simp only [insertFieldRow, constraintFailed, ite_error_eq_ok, Except.ok.injEq] at h
  exact h.2.2.2.2.symm

/-- The insert of one field adds its row. -/
theorem insertField_ok {t t' : SchemaTables} {schemaId : UInt32} {version ordinal : ℕ}
    {parent : Option UInt32} {field : Field}
    (h : t.insertField schemaId version parent ordinal field = .ok t') :
    Extends schemaId t t' [⟨parent, ordinal, field⟩] := by
  simp only [insertField, bind_eq_ok, ite_error_eq_ok, liftProtocol_eq_ok] at h
  obtain ⟨created, -, t₁, hid, -, typeJson, htype, initial, hinitial, write, hwrite, hrow⟩ := h
  obtain ⟨hschemas, hidents, hfields⟩ := insertFieldId_ok hid
  obtain ⟨hdepth, rfl⟩ := canonicalString_eq_ok.mp htype
  have hinitial := optionalCanonical_ok hinitial
  have hwrite := optionalCanonical_ok hwrite
  subst hinitial hwrite
  rw [insertFieldRow_ok hrow]
  refine ⟨hschemas, hidents, ?_, by simpa using hdepth⟩
  simp only [hfields, List.map_cons, List.map_nil]
  rfl

end SchemaTables

open SchemaTables

/-- Inserting fields side by side extends the tables by their places in order. -/
private theorem insertFields_of {schemaId : UInt32} {version : ℕ} {fields : List Field}
    (h : ∀ c ∈ fields, ∀ parent ordinal t t',
      c.insertTree schemaId version parent ordinal t = .ok t' →
        Extends schemaId t t' (c.places parent ordinal))
    {parent : Option UInt32} {ordinal : ℕ} {t t' : SchemaTables}
    (hok : Field.insertFields schemaId version parent ordinal t fields = .ok t') :
    Extends schemaId t t' (Field.placesList parent ordinal fields) := by
  induction fields generalizing ordinal t with
  | nil =>
    cases hok
    exact .refl
  | cons c cs ih =>
    rw [Field.insertFields, bind_eq_ok] at hok
    obtain ⟨t₁, hfirst, hrest⟩ := hok
    exact (h c List.mem_cons_self _ _ _ _ hfirst).trans
      (ih (fun d hd => h d (List.mem_cons_of_mem _ hd)) hrest)

/-- Inserting what is nested in a type is inserting its nested fields. -/
private theorem insertNested_eq (schemaId : UInt32) (version : ℕ) (parent : Option UInt32)
    (t : SchemaTables) (type : LogicalType) :
    type.insertNested schemaId version parent t =
      Field.insertFields schemaId version parent 0 t type.children := by
  cases type with
  | struct fields => rfl
  | list element => exact (bind_pure (element.insertTree schemaId version parent 0 t)).symm
  | map key value =>
    have hvalue : ∀ t₁, (value.insertTree schemaId version parent 1 t₁ >>= pure) =
        value.insertTree schemaId version parent 1 t₁ := fun t₁ => bind_pure _
    exact congrArg _ (funext fun t₁ => (hvalue t₁).symm)
  | _ => rfl

/-- A tree is inserted as its root and then the fields nested in it. -/
theorem Field.insertTree_eq (f : Field) (schemaId : UInt32) (version : ℕ)
    (parent : Option UInt32) (ordinal : ℕ) (t : SchemaTables) :
    f.insertTree schemaId version parent ordinal t =
      (t.insertField schemaId version parent ordinal f >>= fun t =>
        Field.insertFields schemaId version (some f.fieldId) 0 t f.children) := by
  have hunfold : f.insertTree schemaId version parent ordinal t =
      (t.insertField schemaId version parent ordinal f >>= fun t =>
        f.fieldType.insertNested schemaId version (some f.fieldId) t) := by
    cases f
    rfl
  rw [hunfold]
  exact congrArg _ (funext fun t => insertNested_eq _ _ _ t _)

/-- The insert of a tree adds the rows of its places. -/
theorem Field.insertTree_ok (f : Field) {schemaId : UInt32} {version ordinal : ℕ}
    {parent : Option UInt32} {t t' : SchemaTables}
    (h : f.insertTree schemaId version parent ordinal t = .ok t') :
    Extends schemaId t t' (f.places parent ordinal) := by
  induction f using Field.induction generalizing parent ordinal t t' with
  | h f ih =>
    rw [insertTree_eq, bind_eq_ok] at h
    obtain ⟨t₁, hrow, hnested⟩ := h
    rw [places_eq]
    exact (insertField_ok hrow).trans
      (insertFields_of (fun c hc parent ordinal t t' hok => ih c hc hok) hnested)

namespace SchemaTables

/-- The rows of the identifier fields of a schema. -/
def identifierRows (schemaId : UInt32) (ordinal : ℕ) : List UInt32 → List IdentifierRow
  | [] => []
  | fieldId :: ids =>
    ⟨schemaId.toNat, ordinal, fieldId.toNat⟩ :: identifierRows schemaId (ordinal + 1) ids

/-- The insert of identifier rows appends them. -/
theorem insertIdentifiers_ok {schemaId : UInt32} {ordinal : ℕ} {ids : List UInt32}
    {t t' : SchemaTables} (h : insertIdentifiers schemaId ordinal t ids = .ok t') :
    t'.schemas = t.schemas ∧ t'.fields = t.fields ∧
      t'.identifiers = t.identifiers ++ identifierRows schemaId ordinal ids := by
  induction ids generalizing ordinal t with
  | nil =>
    cases h
    exact ⟨rfl, rfl, by simp [identifierRows]⟩
  | cons id ids ih =>
    rw [insertIdentifiers, ite_error_eq_ok, bind_eq_ok] at h
    obtain ⟨-, t₁, hrow, hrest⟩ := h
    obtain ⟨hschemas, hfields, hidents⟩ := ih hrest
    simp only [insertIdentifierRow, constraintFailed, ite_error_eq_ok, Except.ok.injEq] at hrow
    obtain ⟨-, -, rfl⟩ := hrow
    refine ⟨hschemas, hfields, ?_⟩
    rw [hidents, identifierRows, List.append_assoc]
    rfl

/-- The row of a schema itself, without its fields. -/
def schemaRow (s : Schema) (version : ℕ) : SchemaRow :=
  ⟨s.schemaId.toNat, s.parentSchemaId.map fun id => (id.toNat : ℤ), version, s.doc⟩

/-- What a successful insert of a schema adds. -/
theorem insertSchema_ok {t t' : SchemaTables} {s : Schema} {version : ℕ}
    (h : t.insertSchema s version = .ok t') :
    (∀ row ∈ t.schemas, row.schemaId ≠ s.schemaId.toNat) ∧
      t'.schemas = t.schemas ++ [schemaRow s version] ∧
      t'.fields = t.fields ++ s.places.map (NormalizedField.row s.schemaId) ∧
      t'.identifiers = t.identifiers ++ identifierRows s.schemaId 0 s.identifierFieldIds ∧
      ∀ n ∈ s.places, n.field.fieldType.toValue.depth ≤ CanonicalValue.maxDepth := by
  simp only [insertSchema, bind_eq_ok, sqliteI64, ite_ok_eq_ok, Except.ok.injEq] at h
  obtain ⟨created, ⟨-, rfl⟩, t₁, hrow, t₂, hfields, hidents⟩ := h
  simp only [insertSchemaRow, constraintFailed, ite_error_eq_ok, Except.ok.injEq] at hrow
  obtain ⟨hnew, -, rfl⟩ := hrow
  have hext := insertFields_of (fun c _ _ _ _ _ hok => c.insertTree_ok hok) hfields
  obtain ⟨hschemas, hfields', hidents'⟩ := insertIdentifiers_ok hidents
  refine ⟨?_, ?_, ?_, ?_, hext.depth_le⟩
  · intro row hmem heq
    exact hnew (List.any_eq_true.mpr ⟨row, hmem, by simpa using heq⟩)
  · rw [hschemas, hext.schemas_eq]
    rfl
  · rw [hfields', hext.fields_eq]
    rfl
  · rw [hidents', hext.identifiers_eq]

end SchemaTables

end Otmp
