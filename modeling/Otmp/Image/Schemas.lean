import Otmp.Foundation.Sorting
import Otmp.Image.SchemaTables

/-!
# Reading schemas back from the relational form

The image reader collects the field rows of a schema into a map by identifier and
compares the recursive types stored in the rows with the rows themselves. Roots
and children are found by their parent column and ordered by their position.
-/

namespace Otmp

open Foundation

/-- Field rows of one schema by field identifier, in ascending order. -/
abbrev FieldRows := Std.ExtTreeMap UInt32 NormalizedField compare

/-- Stored data that no correct writer can have made. -/
def corrupt {α : Type} (message : String) : Except RuntimeError α := .error (.corrupt message)

/-- A table integer as an unsigned integer of 32 bits. -/
def u32TryFrom (value : ℤ) (message : String) : Except RuntimeError UInt32 :=
  if 0 ≤ value ∧ value < 4294967296 then .ok (UInt32.ofNat value.toNat) else corrupt message

/-- An optional table integer as an unsigned integer of 32 bits. -/
def optionalU32 (value : Option ℤ) (message : String) : Except RuntimeError (Option UInt32) :=
  match value with
  | none => .ok none
  | some v => (u32TryFrom v message).map some

/-- An optional text as a scalar, which must be the text of a valid one. -/
def parseOptionalScalar : Option CanonicalValue → Except RuntimeError (Option TypedScalar)
  | none => .ok none
  | some text => (liftProtocol (fromCanonical TypedScalar.ofValue text)).map some

/-- Read one field row: its numbers must fit 32 bits, and its type and defaults must parse. -/
def FieldRow.normalize (row : FieldRow) : Except RuntimeError (UInt32 × NormalizedField) := do
  let fieldId ← u32TryFrom row.fieldId "invalid field ID"
  let parent ← optionalU32 row.parentFieldId "invalid parent field ID"
  let ordinal ← u32TryFrom row.ordinal "invalid field ordinal"
  let fieldType ← liftProtocol (fromCanonical LogicalType.ofValue row.typeJson)
  let initialDefault ← parseOptionalScalar row.initialDefaultJson
  let writeDefault ← parseOptionalScalar row.writeDefaultJson
  return (fieldId, ⟨parent, ordinal.toNat,
    .mk fieldId row.name (row.required == 1) fieldType row.doc initialDefault writeDefault⟩)

/-- The field rows of a schema, read in the order of the table. -/
def normalizedFields (t : SchemaTables) (schemaId : UInt32) : Except RuntimeError FieldRows := do
  let entries ← (t.fields.filter (·.schemaId == (schemaId.toNat : ℤ))).mapM FieldRow.normalize
  return .ofList entries compare

namespace FieldRows

/-- The rows in ascending order of field identifiers, whatever their order in the table. -/
def values (rows : FieldRows) : List NormalizedField := rows.toList.map Prod.snd

/-- The rows under a parent, in ascending order of field identifiers. -/
def under (rows : FieldRows) (parent : Option UInt32) : List NormalizedField :=
  rows.values.filter (·.parent == parent)

end FieldRows

/-- Positions are exactly the numbers below the count of rows. -/
def assertContiguous (rows : List NormalizedField) : Except RuntimeError Unit :=
  let ordinals := Std.ExtTreeSet.ofList (rows.map NormalizedField.ordinal) compare
  if ordinals.size ≠ rows.length ∨ ordinals.toList ≠ List.range rows.length then
    corrupt "field ordinals are not unique and contiguous"
  else .ok ()

/-- The rows under a field are the fields nested in its type. -/
def checkChildren (rows : FieldRows) (field : Field) : Except RuntimeError Unit := do
  let actual := rows.under (some field.fieldId)
  assertContiguous actual
  let sorted := sortByKey NormalizedField.ordinal actual
  if sorted.length ≠ field.children.length ∨
      (sorted.zip field.children).any (fun pair => !pair.1.field.eq pair.2) then
    corrupt "recursive type JSON disagrees with normalized field rows"
  else .ok ()

mutual

/-- The check of a type's nested fields against the rows under its field. -/
def LogicalType.validateNormalized (rows : FieldRows) : LogicalType → Except RuntimeError Unit
  | .struct fields => Field.validateNormalizedList rows fields
  | .list element => element.validateNormalized rows
  | .map key value => do
    key.validateNormalized rows
    value.validateNormalized rows
  | _ => .ok ()
termination_by structural type => type

/-- The check of a field against the rows under it, and of the fields nested in it. -/
def Field.validateNormalized (rows : FieldRows) : Field → Except RuntimeError Unit
  | .mk fieldId name required fieldType doc initialDefault writeDefault => do
    checkChildren rows (.mk fieldId name required fieldType doc initialDefault writeDefault)
    fieldType.validateNormalized rows
termination_by structural field => field

/-- The check of a list of fields, one after the other up to the first failure. -/
def Field.validateNormalizedList (rows : FieldRows) : List Field → Except RuntimeError Unit
  | [] => .ok ()
  | field :: fields => do
    field.validateNormalized rows
    Field.validateNormalizedList rows fields
termination_by structural fields => fields

end

/-- The field identifiers of a list of trees, at every depth. -/
def collectFieldIds (fields : List Field) : Std.ExtTreeSet UInt32 compare :=
  .ofList ((fields.flatMap Field.flatten).map Field.fieldId) compare

/-- The identifier fields of a schema in their stored order. -/
def identifierFields (t : SchemaTables) (schemaId : UInt32) : Except RuntimeError (List UInt32) :=
  (sortByKey (fun row => row.ordinal.toNat)
    (t.identifiers.filter (·.schemaId == (schemaId.toNat : ℤ)))).mapM
    fun row => u32TryFrom row.fieldId "invalid identifier field ID"

/-- The checks of one stored schema: its rows make up trees, all of them can be reached, and they
agree with the types they are stored with. -/
def validateStoredSchema (t : SchemaTables) (row : SchemaRow) : Except RuntimeError Unit := do
  let schemaId ← u32TryFrom row.schemaId "invalid schema ID"
  let rows ← normalizedFields t schemaId
  let roots := rows.under none
  assertContiguous roots
  let rootFields := sortByKey NormalizedField.ordinal roots
  checkAll (fun root => root.field.validateNormalized rows) rootFields
  let reachable := collectFieldIds (rootFields.map NormalizedField.field)
  if reachable.size ≠ rows.size ∨ rows.keys.any (fun id => id ∉ reachable) then
    corrupt "normalized schema contains unreachable field rows"
  else
    let identifiers ← identifierFields t schemaId
    let parentSchemaId ← optionalU32 row.parentSchemaId "invalid parent schema ID"
    liftProtocol (Schema.validate
      { schemaId := schemaId
        parentSchemaId := parentSchemaId
        fields := rootFields.map NormalizedField.field
        identifierFieldIds := identifiers
        doc := row.doc })

/-- The checks of all stored schemas, in the order of their identifiers. -/
def validateSchemas (t : SchemaTables) : Except RuntimeError Unit :=
  checkAll (validateStoredSchema t) (sortByKey (fun row => row.schemaId.toNat) t.schemas)

/-- `read_schema`: read a schema from its rows, without further checks. -/
def readSchema (t : SchemaTables) (schemaId : UInt32) : Except RuntimeError Schema := do
  match t.schemas.find? (·.schemaId == (schemaId.toNat : ℤ)) with
  | none => .error (.sqlite "Query returned no rows")
  | some row =>
    let parentSchemaId ← optionalU32 row.parentSchemaId "parent_schema_id out of range"
    let rows ← normalizedFields t schemaId
    let roots := sortByKey NormalizedField.ordinal (rows.under none)
    let identifiers ← identifierFields t schemaId
    return { schemaId := schemaId
             parentSchemaId := parentSchemaId
             fields := roots.map NormalizedField.field
             identifierFieldIds := identifiers
             doc := row.doc }

end Otmp
