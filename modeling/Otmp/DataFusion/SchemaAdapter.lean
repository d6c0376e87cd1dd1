import Std.Data.ExtTreeSet.Lemmas
import Otmp.DataFusion.Pruning

/-!
# The schema adapter

A file is read through the schema that was recorded with it. The adapter walks the query schema,
the recorded schema and the physical schema together: a query field finds its recorded field by
identifier, and this one its physical field by identifier or by name. What is found nowhere is
filled with the initial default.
-/

namespace Otmp.DataFusion

open Foundation

/-- Identifiers of physical fields that were met so far, to find one that occurs twice. -/
abbrev SeenIds := Std.ExtTreeSet UInt32 compare

/-- Add the identifier of a physical field; one that was met before is an error. -/
def seeId (seen : SeenIds) : Option UInt32 → Except PlanError SeenIds
  | none => .ok seen
  | some id =>
    if id ∈ seen then .error (.plan "ambiguous duplicate Parquet field ID")
    else .ok (seen.insert id)

mutual

/-- Check the identifiers of the fields nested in a type. -/
def DataType.validateIds (seen : SeenIds) : DataType → Except PlanError SeenIds
  | .struct children => ArrowField.validateIds seen children
  | .list child => child.validateId seen
  | .largeList child => child.validateId seen
  | .fixedSizeList child _ => child.validateId seen
  | .map child _ => child.validateId seen
  | _ => .ok seen
termination_by structural t => t

/-- Check the identifier of a field and those below it. -/
def ArrowField.validateId (seen : SeenIds) : ArrowField → Except PlanError SeenIds
  | .mk name dataType nullable metadata => do
    let id ← physicalId (.mk name dataType nullable metadata)
    let seen ← seeId seen id
    dataType.validateIds seen
termination_by structural f => f

/-- Check the identifiers of fields and of everything nested in them, depth first. -/
def ArrowField.validateIds (seen : SeenIds) : List ArrowField → Except PlanError SeenIds
  | [] => .ok seen
  | field :: fields => do
    let seen ← field.validateId seen
    ArrowField.validateIds seen fields
termination_by structural fields => fields

end

section Position

variable (recorded : Field) (physical : List ArrowField)

/-- Where a recorded field was found so far: by its identifier and by its name. -/
structure Found where
  byId : Option (Fin physical.length)
  byName : Option (Fin physical.length)

/-- Look at one physical field: it may answer by its identifier, or by its name if it carries none,
and at most one field may answer each way. -/
def Found.look (found : Found physical) (index : Fin physical.length) :
    Except PlanError (Found physical) := do
  let id ← physicalId (physical.get index)
  if id = some recorded.fieldId ∧ found.byId.isSome then
    .error (.plan "ambiguous Parquet field ID")
  else if (physical.get index).name = recorded.name ∧ id = none ∧ found.byName.isSome then
    .error (.plan "ambiguous recorded field name")
  else
    .ok ⟨if id = some recorded.fieldId then some index else found.byId,
      if (physical.get index).name = recorded.name ∧ id = none then some index else found.byName⟩

/-- The position of a recorded field among physical ones. -/
def position : Except PlanError (Option (Fin physical.length)) := do
  let found ← runAll (Found.look recorded physical) ⟨none, none⟩ (List.finRange physical.length)
  if found.byId.isSome ∧ found.byName.isSome then
    .error (.plan "field is ambiguous between Parquet ID and recorded name")
  else .ok (found.byId.or found.byName)

end Position

mutual

/-- Where a query field comes from, if from anywhere, and how it is made. -/
inductive Slot where
  | mk (index : Option ℕ) (mapping : Mapping)

/-- How a column is made for a target: the column that is wanted, and the way to make it. -/
inductive Mapping where
  | mk (target : ArrowField) (kind : Kind)

/-- The ways to make a column: filled with a default, converted as a whole, or rebuilt from nested
columns. -/
inductive Kind where
  | missing (value : Option ScalarValue)
  | primitive
  | struct (slots : List Slot)
  | list (element : Mapping)
  | map (key value : Slot)

end

namespace Mapping

/-- The Arrow field that a mapping produces. -/
def target : Mapping → ArrowField
  | .mk target _ => target

/-- The way a mapping produces its field. -/
def kind : Mapping → Kind
  | .mk _ kind => kind

end Mapping

namespace Slot

/-- The index of the physical column a slot is bound to, if there is one. -/
def index : Slot → Option ℕ
  | .mk index _ => index

/-- The mapping of a slot. -/
def mapping : Slot → Mapping
  | .mk _ mapping => mapping

end Slot

/-- The conversions to a wider type of the same kind. -/
def widens : DataType → DataType → Bool
  | .int8, .int32 | .int8, .int64 | .int16, .int32 | .int16, .int64 => true
  | .int32, .int64 => true
  | .float32, .float64 => true
  | .utf8, .utf8 | .utf8View, .utf8 | .largeUtf8, .utf8 => true
  | .binary, .binary | .binaryView, .binary | .largeBinary, .binary => true
  | .decimal128 p s, .decimal128 tp ts => p ≤ tp && s == ts
  | .decimal128 p s, .decimal256 tp ts => p ≤ tp && s == ts
  | .decimal256 p s, .decimal256 tp ts => p ≤ tp && s == ts
  | _, _ => false

/-- `compatible`: the conversions that the adapter allows: none, to a wider type of the same kind,
and from a dictionary of values that may be converted. -/
def compatible : DataType → DataType → Bool
  | .dictionary key value, target =>
    decide (DataType.dictionary key value = target) || compatible value target
  | source, target => decide (source = target) || widens source target
termination_by structural source => source

section Bind

variable (nullOf : DataType → Option ScalarValue)

/-- Fill a query field that is not in a file. -/
def unbound (query : Field) (recorded : Option Field) (target : ArrowField) :
    Except PlanError Slot :=
  if query.required || recorded.any Field.required then
    .error (.plan ("missing required OTMP field " ++ query.name))
  else
    match query.initialDefault with
    | none => .ok (.mk none (.mk target (.missing none)))
    | some v =>
      match scalar nullOf v target.dataType with
      | some value => .ok (.mk none (.mk target (.missing (some value))))
      | none => .error (.plan ("unsupported initial default for " ++ query.name))

/-- Bind a field at its intrinsic position in a list or map. The physical field takes the
recorded name, so that binding finds it. -/
def bindCollection (bind : Option Field → List ArrowField → ArrowField → Except PlanError Slot)
    (queryId : UInt32) (recorded : Field) (physical target : ArrowField) (index : ℕ) :
    Except PlanError Slot :=
  if queryId ≠ recorded.fieldId then
    .error (.plan "collection field ID disagrees with recorded schema")
  else do
    let id ← physicalId physical
    if id.any (· ≠ recorded.fieldId) then
      .error (.plan "collection field ID disagrees with recorded schema")
    else
      let slot ← bind (some recorded) [physical.withName recorded.name] target
      .ok (.mk (some index) slot.mapping)

mutual

/-- How a bound field is made from the physical type to the target type. -/
def bindType (name : String) :
    LogicalType → LogicalType → DataType → DataType → Except PlanError Kind
  | .struct query, .struct recorded, .struct source, .struct target => do
    let slots ← bindFields query recorded source target
    .ok (.struct slots)
  | .list q, .list r, .list source, .list target => do
    let slot ← bindCollection (bindField q) q.fieldId r source target 0
    .ok (.list slot.mapping)
  | .map qk qv, .map rk rv, .map source _, .map target _ =>
    match source.dataType, target.dataType with
    | .struct [sk, sv], .struct [tk, tv] => do
      let key ← bindCollection (bindField qk) qk.fieldId rk sk tk 0
      let value ← bindCollection (bindField qv) qv.fieldId rv sv tv 1
      .ok (.map key value)
    | .struct _, .struct _ => .error (.plan "invalid map field count")
    | _, _ => .error (.plan "invalid physical map entries")
  | q, r, source, target =>
    if q.eq r && compatible source target then .ok .primitive
    else .error (.unsupportedConversion name source target)
termination_by structural q => q

/-- Bind a query field through its recorded field: to the physical column that answers it, or to a
default when none does. -/
def bindField : Field → Option Field → List ArrowField → ArrowField → Except PlanError Slot
  | .mk fieldId name required fieldType doc initialDefault writeDefault, recorded, physical,
    target =>
    let query := .mk fieldId name required fieldType doc initialDefault writeDefault
    match recorded with
    | none => unbound nullOf query none target
    | some r => do
      let index ← position r physical
      match index with
      | none => unbound nullOf query (some r) target
      | some index => do
        let kind ← bindType name fieldType r.fieldType (physical.get index).dataType
          target.dataType
        .ok (.mk (some index) (.mk target kind))
termination_by structural query => query

/-- Bind the fields of a struct to the columns that stand for them in turn. -/
def bindFields : List Field → List Field → List ArrowField → List ArrowField →
    Except PlanError (List Slot)
  | query :: queries, recorded, source, target :: targets => do
    let slot ← bindField query (recorded.find? fun f => f.fieldId == query.fieldId) source target
    let slots ← bindFields queries recorded source targets
    .ok (slot :: slots)
  | _, _, _, _ => .ok []
termination_by structural queries => queries

end

end Bind

/-- How a column of a query is computed from the columns of a file. -/
inductive ColumnExpr where
  | column (index : ℕ)
  | mapped (index : ℕ) (mapping : Mapping)
  | literal (value : ScalarValue)

/-- A mapping that leaves a column of the source type as it is. -/
def Mapping.identity (mapping : Mapping) (source : DataType) : Bool :=
  match mapping.kind with
  | .primitive => decide (mapping.target.dataType = source)
  | _ => false

section Create

variable (nullOf : DataType → Option ScalarValue)

/-- The expression of a slot: the column as it is, or mapped to the target. -/
def Slot.expr (physical : List ArrowField) (target : ArrowField) (slot : Slot) :
    Except PlanError ColumnExpr :=
  match slot.index with
  | some index =>
    if physical[index]?.any fun p => slot.mapping.identity p.dataType then .ok (.column index)
    else .ok (.mapped index slot.mapping)
  | none =>
    match slot.mapping.kind with
    | .missing (some value) => .ok (.literal value)
    | .missing none =>
      match nullOf target.dataType with
      | some value => .ok (.literal value)
      | none => .error (.plan "unsupported null scalar")
    | _ => .error (.plan "invalid missing-field mapping")

/-- The target and the slot of a top-level query field. -/
def createSlot (recorded : Schema) (logical physical : List ArrowField) (query : Field) :
    Except PlanError (ArrowField × Slot) :=
  match logical.find? fun f => f.name == query.name with
  | none => .error (.plan "query schema and adapter disagree")
  | some target => do
    let slot ← bindField nullOf query
      (recorded.fields.find? fun f => f.fieldId == query.fieldId) physical target
    .ok (target, slot)

/-- The adapter of a file: an expression for each column of the query. -/
def create (query recorded : Schema) (logical physical : List ArrowField) :
    Except PlanError (List (String × ColumnExpr)) := do
  let _ ← ArrowField.validateIds ∅ physical
  query.fields.mapM fun q => do
    let (target, slot) ← createSlot nullOf recorded logical physical q
    let expr ← slot.expr nullOf physical target
    .ok (q.name, expr)

end Create

/-- One value of a column: a null, a scalar, or the nested values of a struct, a list or a map. -/
inductive RowValue where
  | null
  | scalar (value : ScalarValue)
  | struct (fields : List RowValue)
  | list (elements : List RowValue)
  | map (keys values : List RowValue)

namespace RowValue

/-- The value that a scalar stands for; the typed nulls of the engine are one null here. -/
def ofScalar : ScalarValue → RowValue
  | .null _ => .null
  | value => .scalar value

/-- Whether a value is null. -/
def isNull : RowValue → Bool
  | .null => true
  | _ => false

/-- The field of a struct; a null struct has none. -/
def field (index : ℕ) : RowValue → RowValue
  | .struct fields => fields.getD index .null
  | _ => .null

/-- The elements of a list value. -/
def elements : RowValue → List RowValue
  | .list elements => elements
  | _ => []

/-- The keys of a map value. -/
def keys : RowValue → List RowValue
  | .map keys _ => keys
  | _ => []

/-- The values of a map value. -/
def values : RowValue → List RowValue
  | .map _ values => values
  | _ => []

end RowValue

/-- An array of the engine by the values that it shows. -/
structure Column where
  dataType : DataType
  rows : List RowValue

/-- What the adapter uses of the engine: casts, which cast a column value by value and neither make
nor drop a null where the adapter allows the cast, and the checks that the constructors of arrays
make. -/
structure Kernels where
  cast : Column → DataType → Except PlanError Column
  castValue : DataType → DataType → RowValue → RowValue
  checkStruct : List ArrowField → List Column → Except PlanError Unit
  checkList : ArrowField → Column → Except PlanError Unit
  checkMap : ArrowField → Column → Column → Except PlanError Unit
  rows_cast : ∀ {c c' : Column} {t : DataType}, cast c t = .ok c' →
    c'.rows = c.rows.map (castValue c.dataType t)
  castValue_eq_null : ∀ {s t : DataType} {v : RowValue}, compatible s t = true →
    (castValue s t v = .null ↔ v = .null)

namespace Column

/-- The column of a struct's field, null wherever the struct is null. -/
def child (source : Column) (types : List ArrowField) (index : ℕ) : Column :=
  ⟨(types[index]?.map ArrowField.dataType).getD (.other ""), source.rows.map (RowValue.field index)⟩

/-- The structs of some columns, null where the source is. -/
def structRows (source : List RowValue) (columns : List Column) : List RowValue :=
  source.zipIdx.map fun (row, index) =>
    if row.isNull then .null
    else .struct (columns.map fun c => c.rows.getD index .null)

/-- Lists of the lengths of the source, null where the source is. -/
def listRows : List RowValue → List RowValue → List RowValue
  | [], _ => []
  | .list es :: rows, values =>
    .list (values.take es.length) :: listRows rows (values.drop es.length)
  | _ :: rows, values => .null :: listRows rows values

/-- Maps of the lengths of the source, null where the source is. -/
def mapRows : List RowValue → List RowValue → List RowValue → List RowValue
  | [], _, _ => []
  | .map ks _ :: rows, keys, values =>
    .map (keys.take ks.length) (values.take ks.length) ::
      mapRows rows (keys.drop ks.length) (values.drop ks.length)
  | _ :: rows, keys, values => .null :: mapRows rows keys values

end Column

section Apply

variable (kernels : Kernels)

mutual

/-- Make a column of some length from the bound one. -/
def Mapping.apply : Mapping → Option Column → ℕ → Except PlanError Column
  | .mk target kind, input, len => kind.apply target input len
termination_by structural mapping => mapping

/-- Make a column in one of the ways, for a given number of rows. -/
def Kind.apply (target : ArrowField) : Kind → Option Column → ℕ → Except PlanError Column
  | .missing none, _, len => .ok ⟨target.dataType, List.replicate len .null⟩
  | .missing (some value), _, len =>
    .ok ⟨target.dataType, List.replicate len (RowValue.ofScalar value)⟩
  | .primitive, input, _ =>
    match input with
    | none => .error (.plan "missing mapped primitive")
    | some input =>
      if input.dataType = target.dataType then .ok input else kernels.cast input target.dataType
  | .struct slots, input, len =>
    match input with
    | some ⟨.struct types, rows⟩ =>
      match target.dataType with
      | .struct targets => do
        let values ← Slot.applyAll ⟨.struct types, rows⟩ types len slots
        kernels.checkStruct targets values
        .ok ⟨.struct targets, Column.structRows rows values⟩
      | _ => .error (.plan "expected query struct")
    | _ => .error (.plan "expected physical struct")
  | .list mapping, input, _ =>
    match input with
    | some ⟨.list element, rows⟩ =>
      match target.dataType with
      | .list targetElement => do
        let elements := rows.flatMap RowValue.elements
        let values ← mapping.apply (some ⟨element.dataType, elements⟩) elements.length
        kernels.checkList targetElement values
        .ok ⟨.list targetElement, Column.listRows rows values.rows⟩
      | _ => .error (.plan "expected query list")
    | _ => .error (.plan "expected physical list")
  | .map key value, input, _ =>
    match input with
    | some ⟨.map (.mk _ (.struct types) _ _) _, rows⟩ =>
      match target.dataType with
      | .map (.mk name (.struct fields) nullable metadata) sorted => do
        let keys := rows.flatMap RowValue.keys
        let values := rows.flatMap RowValue.values
        let entries : Column :=
          ⟨.struct types, List.zipWith (fun k v => .struct [k, v]) keys values⟩
        let keyColumn ← key.apply entries types entries.rows.length
        let valueColumn ← value.apply entries types entries.rows.length
        kernels.checkMap (.mk name (.struct fields) nullable metadata) keyColumn valueColumn
        .ok ⟨.map (.mk name (.struct fields) nullable metadata) sorted,
          Column.mapRows rows keyColumn.rows valueColumn.rows⟩
      | .map _ _ => .error (.plan "expected query map entries")
      | _ => .error (.plan "expected query map")
    | _ => .error (.plan "expected physical map")
termination_by structural kind => kind

/-- Make the column of a slot from the columns of a struct. -/
def Slot.apply (source : Column) (types : List ArrowField) (len : ℕ) :
    Slot → Except PlanError Column
  | .mk index mapping => mapping.apply (index.map (source.child types)) len
termination_by structural slot => slot

/-- Make the columns of slots from the columns of a struct. -/
def Slot.applyAll (source : Column) (types : List ArrowField) (len : ℕ) :
    List Slot → Except PlanError (List Column)
  | [] => .ok []
  | slot :: slots => do
    let first ← Slot.apply source types len slot
    let rest ← Slot.applyAll source types len slots
    .ok (first :: rest)
termination_by structural slots => slots

end

/-- Evaluate a column of the query over a batch of a file. -/
def ColumnExpr.evaluate (batch : List Column) (rows : ℕ) : ColumnExpr → Except PlanError Column
  | .column index =>
    match batch[index]? with
    | some input => .ok input
    | none => .error (.plan "column index out of range")
  | .mapped index mapping =>
    match batch[index]? with
    | some input => mapping.apply kernels (some input) rows
    | none => .error (.plan "column index out of range")
  | .literal value => .ok ⟨.other "scalar", List.replicate rows (RowValue.ofScalar value)⟩

end Apply

end Otmp.DataFusion
