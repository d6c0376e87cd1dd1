import Otmp.Protocol.Types
import Otmp.Foundation.Run
import Otmp.Foundation.Text

/-!
# Columns of the query engine

A table's schema becomes a schema of the query engine, in which every field carries its
identifier as metadata. Physical files have schemas of the same kind, whose fields may carry an
identifier or only a name.
-/

namespace Otmp.DataFusion

open Foundation

mutual

/-- The types of columns. A type that is only ever compared as a whole keeps its name. -/
inductive DataType where
  | boolean
  | int8
  | int16
  | int32
  | int64
  | float32
  | float64
  | date32
  | time64Microsecond
  | timestampMicrosecond (timezone : Option String)
  | utf8
  | largeUtf8
  | utf8View
  | binary
  | largeBinary
  | binaryView
  | fixedSizeBinary (length : Int32)
  | decimal128 (precision : UInt8) (scale : Int8)
  | decimal256 (precision : UInt8) (scale : Int8)
  | struct (fields : List ArrowField)
  | list (element : ArrowField)
  | largeList (element : ArrowField)
  | fixedSizeList (element : ArrowField) (size : Int32)
  | map (entries : ArrowField) (sorted : Bool)
  | dictionary (key value : DataType)
  | other (name : String)

/-- A column's field; the metadata are listed by key. -/
inductive ArrowField where
  | mk (name : String) (dataType : DataType) (nullable : Bool) (metadata : List (String × String))

end

namespace ArrowField

/-- The name of an Arrow field. -/
def name : ArrowField → String
  | .mk name _ _ _ => name

/-- The data type of an Arrow field. -/
def dataType : ArrowField → DataType
  | .mk _ dataType _ _ => dataType

/-- Whether an Arrow field may hold nulls. -/
def nullable : ArrowField → Bool
  | .mk _ _ nullable _ => nullable

/-- The key-value metadata of an Arrow field, which carries the field identifier. -/
def metadata : ArrowField → List (String × String)
  | .mk _ _ _ metadata => metadata

/-- The same field under another name. -/
def withName (f : ArrowField) (name : String) : ArrowField :=
  .mk name f.dataType f.nullable f.metadata

end ArrowField

mutual

/-- Whether two types are the same, nested fields with their names and metadata included. -/
def DataType.same : DataType → DataType → Bool
  | .boolean, .boolean => true
  | .int8, .int8 => true
  | .int16, .int16 => true
  | .int32, .int32 => true
  | .int64, .int64 => true
  | .float32, .float32 => true
  | .float64, .float64 => true
  | .date32, .date32 => true
  | .time64Microsecond, .time64Microsecond => true
  | .timestampMicrosecond tz, .timestampMicrosecond tz' => tz == tz'
  | .utf8, .utf8 => true
  | .largeUtf8, .largeUtf8 => true
  | .utf8View, .utf8View => true
  | .binary, .binary => true
  | .largeBinary, .largeBinary => true
  | .binaryView, .binaryView => true
  | .fixedSizeBinary length, .fixedSizeBinary length' => length == length'
  | .decimal128 p s, .decimal128 p' s' => p == p' && s == s'
  | .decimal256 p s, .decimal256 p' s' => p == p' && s == s'
  | .struct fields, .struct fields' => ArrowField.sameList fields fields'
  | .list element, .list element' => element.same element'
  | .largeList element, .largeList element' => element.same element'
  | .fixedSizeList element size, .fixedSizeList element' size' =>
    element.same element' && size == size'
  | .map entries sorted, .map entries' sorted' => entries.same entries' && sorted == sorted'
  | .dictionary key value, .dictionary key' value' => key.same key' && value.same value'
  | .other name, .other name' => name == name'
  | _, _ => false
termination_by structural t => t

/-- Whether two fields are the same in every part, metadata included. -/
def ArrowField.same : ArrowField → ArrowField → Bool
  | .mk name dataType nullable metadata, g =>
    name == g.name && dataType.same g.dataType && nullable == g.nullable && metadata == g.metadata
termination_by structural f => f

/-- Whether two lists of fields are the same, position by position. -/
def ArrowField.sameList : List ArrowField → List ArrowField → Bool
  | [], [] => true
  | f :: fs, g :: gs => f.same g && ArrowField.sameList fs gs
  | _, _ => false
termination_by structural fs => fs

end

mutual

/-- The comparison decides equality of data types, metadata of nested fields included. -/
theorem DataType.same_iff (t u : DataType) : t.same u = true ↔ t = u := by
  cases t <;> cases u <;>
    simp [DataType.same, ArrowField.sameList_iff, ArrowField.same_iff, DataType.same_iff]
termination_by structural t

/-- The comparison of two Arrow fields decides their equality. -/
theorem ArrowField.same_iff (f g : ArrowField) : f.same g = true ↔ f = g := by
  cases f
  cases g
  simp [ArrowField.same, DataType.same_iff, ArrowField.name, ArrowField.dataType,
    ArrowField.nullable, ArrowField.metadata, and_assoc]
termination_by structural f

/-- The comparison of two lists of Arrow fields decides their equality. -/
theorem ArrowField.sameList_iff (fs gs : List ArrowField) :
    ArrowField.sameList fs gs = true ↔ fs = gs := by
  cases fs <;> cases gs <;>
    simp [ArrowField.sameList, ArrowField.sameList_iff, ArrowField.same_iff]
termination_by structural fs

end

/-- Equality of data types is decided by comparing them recursively. -/
instance : DecidableEq DataType := fun t u => decidable_of_iff _ (t.same_iff u)

/-- Equality of Arrow fields is decided by comparing them recursively. -/
instance : DecidableEq ArrowField := fun f g => decidable_of_iff _ (f.same_iff g)

/-- The errors of planning. The text of an unsupported conversion names the field and both
types. -/
inductive PlanError where
  | plan (message : String)
  | unsupportedConversion (field : String) (source target : DataType)
  deriving DecidableEq

/-- The key under which a field carries its identifier. -/
def fieldIdKey : String := "PARQUET:field_id"

/-- The metadata of a field of the query schema. -/
def fieldIdMetadata (id : UInt32) : List (String × String) :=
  [(fieldIdKey, String.ofList (Nat.toDigits 10 id.toNat))]

/-- The narrowest decimal type of the engine that holds the precision, if there is one.
-/
def decimalToArrow (precision scale : UInt32) : Except PlanError DataType :=
  if precision.toNat > 255 then .error (.plan "decimal precision exceeds Arrow Decimal256")
  else if precision.toNat > 76 then .error (.plan "decimal precision exceeds Arrow Decimal256")
  else if scale.toNat > 127 then .error (.plan "decimal scale exceeds Arrow Decimal256")
  else if precision.toNat ≤ 38 then
    .ok (.decimal128 (UInt8.ofNat precision.toNat) (Int8.ofNat scale.toNat))
  else .ok (.decimal256 (UInt8.ofNat precision.toNat) (Int8.ofNat scale.toNat))

mutual

/-- The column type of a logical type, with a column for every nested field. -/
def LogicalType.toArrow : LogicalType → Except PlanError DataType
  | .boolean => .ok .boolean
  | .int32 => .ok .int32
  | .int64 => .ok .int64
  | .float32 => .ok .float32
  | .float64 => .ok .float64
  | .decimal precision scale => decimalToArrow precision scale
  | .date => .ok .date32
  | .timeMicros => .ok .time64Microsecond
  | .timestampMicros => .ok (.timestampMicrosecond none)
  | .timestamptzMicros => .ok (.timestampMicrosecond (some "UTC"))
  | .string => .ok .utf8
  | .binary => .ok .binary
  | .fixed length =>
    if length.toNat < 2 ^ 31 then .ok (.fixedSizeBinary (Int32.ofNat length.toNat))
    else .error (.plan "fixed binary width exceeds Arrow")
  | .uuid => .ok (.fixedSizeBinary 16)
  | .struct fields => do
    let fields ← fieldsToArrow fields
    .ok (.struct fields)
  | .list element => do
    let element ← fieldToArrow element
    .ok (.list element)
  | .map key value => do
    let key ← fieldToArrow key
    let value ← fieldToArrow value
    .ok (.map (.mk "entries" (.struct [key, value]) false []) false)
termination_by structural t => t

/-- The column of a field, which carries the field's identifier in its metadata. -/
def fieldToArrow : Field → Except PlanError ArrowField
  | .mk fieldId name required fieldType _ _ _ => do
    let dataType ← LogicalType.toArrow fieldType
    .ok (.mk name dataType (!required) (fieldIdMetadata fieldId))
termination_by structural f => f

/-- The columns of sibling fields in order, or the first error among them. -/
def fieldsToArrow : List Field → Except PlanError (List ArrowField)
  | [] => .ok []
  | field :: fields => do
    let first ← fieldToArrow field
    let rest ← fieldsToArrow fields
    .ok (first :: rest)
termination_by structural fields => fields

end

/-- The columns of a schema, one for each of its root fields. -/
def schemaToArrow (schema : Schema) : Except PlanError (List ArrowField) :=
  fieldsToArrow schema.fields

/-- The identifier that a physical field carries in its metadata, if any; one that is not a positive
number of 32 bits is an error. -/
def physicalId (field : ArrowField) : Except PlanError (Option UInt32) :=
  match field.metadata.lookup fieldIdKey with
  | none => .ok none
  | some text =>
    match unsigned? (2 ^ 32) text.toList with
    | none => .error (.plan "invalid Parquet field ID")
    | some 0 => .error (.plan "Parquet field ID must be positive")
    | some (id + 1) => .ok (some (UInt32.ofNat (id + 1)))

end Otmp.DataFusion
