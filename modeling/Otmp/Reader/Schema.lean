import Otmp.Image.Schemas
import Otmp.Protocol.CanonicalText

/-!
# The bounded schema reader

The authenticated reader queries the rows of one schema under byte and row budgets
and rebuilds the schema. Unlike the image check it compares every field, the roots
included, with its row, and it expects the positions of the rows under a field to
ascend in the order of the field identifiers.
-/

namespace Otmp.Reader

open Foundation

/-- A value of a result row. Text columns that hold canonical JSON are values. -/
inductive SqlValue where
  | null
  | integer (value : ℤ)
  | text (value : String)
  | json (text : CanonicalValue)

namespace SqlValue

/-- The bytes that a value is charged for besides its own size in memory. -/
def valueBytes : SqlValue → ℕ
  | .null => 0
  | .integer _ => 8
  | .text value => value.utf8ByteSize
  | .json value => CanonicalValue.byteLength value.encode

/-- The cell of an optional value, null when there is none. -/
def ofOption {α : Type} (value : α → SqlValue) : Option α → SqlValue
  | none => .null
  | some a => value a

end SqlValue

/-- The reader's memory: its limit and the reservations that cannot be evicted, the largest
record of the image and the size of a value in memory. -/
structure Budget where
  limit : ℕ
  active : ℕ
  maximumRecordBytes : ℕ
  valueSize : ℕ
  deriving DecidableEq

namespace Budget

/-- Reserve memory, after the eviction of everything that can be evicted. -/
def reserve (b : Budget) (amount : ℕ) : Except RuntimeError Budget :=
  if b.active + amount ≤ b.limit then .ok { b with active := b.active + amount }
  else .error (.resourceExhausted (s!"metadata cache: {amount} requested, {b.active} active, " ++
    s!"{b.limit} limit"))

/-- The charge of a result row: all its values with their sizes in memory. -/
def rowBytes (b : Budget) (row : List SqlValue) : ℕ :=
  (row.map fun value => value.valueBytes + b.valueSize).sum

/-- Charge result rows one by one, up to the most rows and bytes that a query may have. -/
def charge (b : Budget) (maxRows maxBytes : ℕ) :
    ℕ → ℕ → List (List SqlValue) → Except RuntimeError Unit
  | _, _, [] => .ok ()
  | count, used, row :: rows =>
    if count = maxRows then .error (.resourceExhausted "metadata query row budget exhausted")
    else if b.rowBytes row > maxBytes then
      .error (.resourceExhausted "metadata query row byte budget exhausted")
    else if used + b.rowBytes row > maxBytes then
      .error (.resourceExhausted "metadata query byte budget exhausted")
    else b.charge maxRows maxBytes (count + 1) (used + b.rowBytes row) rows

/-- The memory that a query reserves while it runs. -/
def workingBytes (b : Budget) (maxBytes : ℕ) : ℕ := 8 * b.maximumRecordBytes + 2 * maxBytes + 65536

/-- Run a query whose result is `rows` under the budgets for rows and bytes. -/
def query (b : Budget) (rows : List (List SqlValue)) (maxRows maxBytes : ℕ) :
    Except RuntimeError (List (List SqlValue)) := do
  if b.workingBytes maxBytes > usizeMax then
    .error (.resourceExhausted "metadata query working budget overflow")
  else
    let _ ← b.reserve (b.workingBytes maxBytes)
    b.charge maxRows maxBytes 0 0 rows
    return rows

end Budget

/-- The byte budget of each query for a schema, four mebibytes. -/
def schemaQueryBudget : ℕ := 4194304

/-- The most rows that a query may return; a schema with more fields cannot be read. -/
def schemaQueryRows : ℕ := 4096

/-- Reads an integer cell, naming the column in the error. -/
def requiredI64 (v : SqlValue) (n : String) : Except RuntimeError ℤ :=
  match v with
  | .integer value => .ok value
  | _ => corrupt ("invalid " ++ n)

/-- Reads an integer cell of 32 bits. -/
def requiredU32 (v : SqlValue) (n : String) : Except RuntimeError UInt32 := do
  let value ← requiredI64 v n
  u32TryFrom value ("invalid " ++ n)

/-- Reads an integer cell of 32 bits that may be null. -/
def optionalU32 (v : SqlValue) (n : String) : Except RuntimeError (Option UInt32) :=
  match v with
  | .null => .ok none
  | v => (requiredU32 v n).map some

/-- Reads a boolean, which is stored as zero or one. -/
def requiredBool (v : SqlValue) : Except RuntimeError Bool := do
  match ← requiredI64 v "required" with
  | 0 => .ok false
  | 1 => .ok true
  | _ => corrupt "required must be zero or one"

/-- Reads a text cell, naming the column in the error. -/
def requiredText (v : SqlValue) (n : String) : Except RuntimeError String :=
  match v with
  | .text value => .ok value
  | _ => corrupt ("invalid " ++ n)

/-- Reads a text cell that may be null. -/
def optionalText (v : SqlValue) (n : String) : Except RuntimeError (Option String) :=
  match v with
  | .null => .ok none
  | v => (requiredText v n).map some

/-- Read a text column as canonical JSON, naming the column in the error. -/
def requiredCanonical {α : Type} (read : CanonicalValue → Except ProtocolError α) (v : SqlValue)
    (n : String) : Except RuntimeError α :=
  match v with
  | .json text => liftProtocol (fromCanonical read text)
  | _ => corrupt ("invalid " ++ n)

/-- Reads a default from its canonical text; a null cell is no default. -/
def optionalScalar (v : SqlValue) (n : String) : Except RuntimeError (Option TypedScalar) :=
  match v with
  | .null => .ok none
  | v => (requiredCanonical TypedScalar.ofValue v n).map some

/-- The columns of a schema's header: its parent and its documentation. -/
def headerCells (row : SchemaRow) : List SqlValue :=
  [.ofOption .integer row.parentSchemaId, .ofOption .text row.doc]

/-- The columns of a field in the order of the query. -/
def fieldCells (row : FieldRow) : List SqlValue :=
  [.integer row.fieldId, .ofOption .integer row.parentFieldId, .text row.name,
    .integer row.ordinal, .integer row.required, .json row.typeJson, .ofOption .text row.doc,
    .ofOption .json row.initialDefaultJson, .ofOption .json row.writeDefaultJson]

/-- The columns of an identifier field: the field and its position. -/
def identifierCells (row : IdentifierRow) : List SqlValue :=
  [.integer row.fieldId, .integer row.ordinal]

/-- Read the columns of a field, as its place and the field itself. -/
def readField : List SqlValue → Except RuntimeError (UInt32 × NormalizedField)
  | [fieldId, parent, name, ordinal, required, typeJson, doc, initial, write] => do
    let fieldId ← requiredU32 fieldId "field ID"
    let parent ← optionalU32 parent "parent field ID"
    let ordinal ← requiredU32 ordinal "field ordinal"
    let name ← requiredText name "field name"
    let required ← requiredBool required
    let fieldType ← requiredCanonical LogicalType.ofValue typeJson "field type"
    let doc ← optionalText doc "field doc"
    let initialDefault ← optionalScalar initial "initial default"
    let writeDefault ← optionalScalar write "write default"
    return (fieldId, ⟨parent, ordinal.toNat,
      .mk fieldId name required fieldType doc initialDefault writeDefault⟩)
  | _ => corrupt "invalid normalized schema field row"

/-- Collect the fields by identifier; an identifier that occurs twice is corrupt. -/
def collectRows (rows : FieldRows) : List (List SqlValue) → Except RuntimeError FieldRows
  | [] => .ok rows
  | values :: rest => do
    let entry ← readField values
    if entry.1 ∈ rows then corrupt "duplicate normalized field ID"
    else collectRows (rows.insert entry.1 entry.2) rest

/-- The values count up from an expected position, without gaps. -/
def checkOrdinals (name : String) : ℕ → List ℕ → Except RuntimeError Unit
  | _, [] => .ok ()
  | expected, actual :: values =>
    if expected > 4294967295 then corrupt ("too many " ++ name ++ " ordinals")
    else if actual ≠ expected then corrupt ("noncontiguous " ++ name ++ " ordinals")
    else checkOrdinals name (expected + 1) values

/-- Read the columns of an identifier field, as far as the reader looks at them. -/
def readIdentifier {α : Type} (read : SqlValue → SqlValue → Except RuntimeError α) :
    List SqlValue → Except RuntimeError α
  | [field, ordinal] => read field ordinal
  | _ => corrupt "invalid identifier row"

/-- The comparison of a field with its row and of the rows under it with its type. -/
def checkNode (rows : FieldRows) (field : Field) (expectedParent : Option UInt32) :
    Except RuntimeError Unit :=
  match rows[field.fieldId]? with
  | none => corrupt "nested field is absent from normalized rows"
  | some row =>
    if row.parent ≠ expectedParent ∨ !row.field.eq field then
      corrupt "normalized field disagrees with recursive schema"
    else
      let normalized := sortByKey NormalizedField.ordinal (rows.under (some field.fieldId))
      if normalized.length ≠ field.children.length ∨
          normalized.map (fun r => r.field.fieldId) ≠ field.children.map Field.fieldId then
        corrupt "normalized child ordering differs from recursive schema"
      else .ok ()

mutual

/-- The comparison of the fields nested in a type. -/
def validateTreeType (rows : FieldRows) (parent : Option UInt32) :
    LogicalType → Except RuntimeError Unit
  | .struct fields => validateTreeList rows parent fields
  | .list element => validateTree rows parent element
  | .map key value => do
    validateTree rows parent key
    validateTree rows parent value
  | _ => .ok ()
termination_by structural type => type

/-- The comparison of a field tree with the rows. -/
def validateTree (rows : FieldRows) (expectedParent : Option UInt32) :
    Field → Except RuntimeError Unit
  | .mk fieldId name required fieldType doc initialDefault writeDefault => do
    checkNode rows (.mk fieldId name required fieldType doc initialDefault writeDefault)
      expectedParent
    validateTreeType rows (some fieldId) fieldType
termination_by structural field => field

/-- The comparison of siblings with the rows under their parent, and of everything nested in them.
-/
def validateTreeList (rows : FieldRows) (parent : Option UInt32) :
    List Field → Except RuntimeError Unit
  | [] => .ok ()
  | field :: fields => do
    validateTree rows parent field
    validateTreeList rows parent fields
termination_by structural fields => fields

end

/-- The number of fields in a list of trees. -/
def countTree (fields : List Field) : ℕ := (fields.flatMap Field.flatten).length

/-- The retained size of a decoded schema, estimated from the length of its canonical text. -/
def retainedBytes (json : CanonicalValue) : ℕ :=
  min (min (4 * CanonicalValue.byteLength json.encode) usizeMax + 1024) usizeMax

/-- The canonical JSON of a schema, unless it is nested too deeply. -/
def canonicalJson (s : Schema) : Except ProtocolError CanonicalValue := canonicalString s.toValue

/-- Read the columns of a schema's header, which is one row. -/
def readHeader : List SqlValue → Except RuntimeError (Option UInt32 × Option String)
  | [parent, doc] => do
    let parentSchemaId ← optionalU32 parent "parent schema ID"
    let doc ← optionalText doc "schema doc"
    return (parentSchemaId, doc)
  | _ => corrupt "invalid schema header row"

/-- Rebuild a schema from the rows that the queries returned. -/
def decodeSchema (schemaId : UInt32) (header : Option UInt32 × Option String)
    (fields identifiers : List (List SqlValue)) : Except RuntimeError Schema := do
  let rows ← collectRows ∅ fields
  let roots := sortByKey NormalizedField.ordinal (rows.under none)
  checkOrdinals "root field" 0 (roots.map NormalizedField.ordinal)
  checkAll (fun row => checkOrdinals "child field" 0
    ((rows.under (some row.field.fieldId)).map NormalizedField.ordinal)) rows.values
  let ordinals ← identifiers.mapM
    (readIdentifier fun _ ordinal => requiredU32 ordinal "identifier ordinal")
  checkOrdinals "identifier" 0 (ordinals.map UInt32.toNat)
  let ids ← identifiers.mapM
    (readIdentifier fun field _ => requiredU32 field "identifier field ID")
  let schema : Schema :=
    { schemaId := schemaId
      parentSchemaId := header.1
      fields := roots.map NormalizedField.field
      identifierFieldIds := ids
      doc := header.2 }
  checkAll (validateTree rows none) schema.fields
  if rows.size ≠ countTree schema.fields then corrupt "orphan normalized schema field"
  else
    liftProtocol schema.validate
    return schema

/-- `load_schema`: load a schema under the reader's budget: its rows are charged, read, checked
against each other and compared with the types they are stored with. -/
def loadSchema (t : SchemaTables) (b : Budget) (schemaId : UInt32) :
    Except RuntimeError (Schema × Budget) := do
  if schemaId = 0 then corrupt "schema ID must be positive"
  else
    let transient ← b.reserve schemaQueryBudget
    let key := (schemaId.toNat : ℤ)
    let header ← transient.query ((t.schemas.filter (·.schemaId == key)).map headerCells) 1
      schemaQueryBudget
    match header with
    | [header] =>
      let header ← readHeader header
      let fields ← transient.query ((sortByKey (fun row => row.fieldId.toNat)
        (t.fields.filter (·.schemaId == key))).map fieldCells) schemaQueryRows schemaQueryBudget
      let identifiers ← transient.query ((sortByKey (fun row => row.ordinal.toNat)
        (t.identifiers.filter (·.schemaId == key))).map identifierCells) schemaQueryRows
        schemaQueryBudget
      let schema ← decodeSchema schemaId header fields identifiers
      let json ← liftProtocol (canonicalJson schema)
      let reservation ← b.reserve (retainedBytes json)
      return (schema, reservation)
    | _ => corrupt "selected schema is missing"

end Otmp.Reader
