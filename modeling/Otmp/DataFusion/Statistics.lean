import Otmp.DataFusion.AdapterCreate
import Otmp.Runtime.Append

/-!
# Statistics for pruning

The engine asks for the least and greatest value and the count of nulls of a column in every file.
A file whose recorded schema lacks the field answers with the field's default, and any other file
with a metric that was recorded for the field, unless the metric is not to be trusted.
-/

namespace Otmp.DataFusion

open Foundation

/-- The descriptor of a file, as far as pruning looks at it. -/
structure ReaderFile where
  schemaId : UInt32
  metrics : List FileMetric

/-- A file's recorded schema has a query field or proves what the field's value is. -/
inductive FieldAvailability where
  | present
  | absent (value : ScalarValue)

namespace DataType

/-- The columns of floating-point numbers, whose bounds a NaN makes unreliable. -/
def isFloat : DataType → Bool
  | .float32 | .float64 => true
  | _ => false

end DataType

/-- What pruning uses of the engine: its null scalars, its order of scalars, and arrays made from
scalars of one type, which show these scalars. -/
structure Engine where
  nullOf : DataType → Option ScalarValue
  partialCmp : ScalarValue → ScalarValue → Option Ordering
  iterToArray : List ScalarValue → Option (List ScalarValue)
  nulls : NullScalars nullOf
  cmp_self : ∀ s, s.isNull = false → partialCmp s s = some .eq
  array_eq : ∀ (t : DataType) (values : List ScalarValue), values ≠ [] →
    (∀ s ∈ values, s.dataType = t) → iterToArray values = some values

/-- The statistics of some files for a query: its schema, its columns, the files with their metrics,
and the schemas that the files were written with. -/
structure Stats where
  schema : Schema
  arrow : List ArrowField
  files : List ReaderFile
  fileSchemas : UInt32 → Option Schema

namespace Stats

variable (engine : Engine) (stats : Stats)

/-- The query field of a column and the column's type. -/
def field (column : String) : Option (Field × DataType) := do
  let target ← stats.arrow.find? fun f => f.name == column
  let query ← stats.schema.fields.find? fun f => f.name == column
  some (query, target.dataType)

/-- What a file's recorded schema says about a query field. -/
def absentFieldValue (file : ReaderFile) (query : Field) (ty : DataType) :
    Option FieldAvailability :=
  match stats.fileSchemas file.schemaId with
  | none => none
  | some schema =>
    if schema.fields.any fun f => f.fieldId == query.fieldId then some .present
    else
      match query.initialDefault with
      | some default => (scalar engine.nullOf default ty).map .absent
      | none => (engine.nullOf ty).map .absent

/-- The metric of a file for a query field, unless the recorded field has another type. -/
def metric (file : ReaderFile) (query : Field) : Option FileMetric :=
  match stats.fileSchemas file.schemaId with
  | some schema =>
    match schema.fields.find? fun f => f.fieldId == query.fieldId with
    | none => none
    | some recorded =>
      if recorded.fieldType.eq query.fieldType then
        file.metrics.find? fun m => m.fieldId == query.fieldId
      else none
  | none => file.metrics.find? fun m => m.fieldId == query.fieldId

/-- A bound of a metric that can be trusted. -/
def metricBound (lower : Bool) (ty : DataType) (m : FileMetric) : Option ScalarValue :=
  if m.nanCount = some 0 ∨ ty.isFloat = false then do
    let low ← m.lowerBound
    let high ← m.upperBound
    let lowScalar ← scalar engine.nullOf low ty
    let highScalar ← scalar engine.nullOf high ty
    if engine.partialCmp lowScalar highScalar = some .gt then none
    else
      let value := if lower then low else high
      if value.isNan then none else scalar engine.nullOf value ty
  else none

/-- The bound of a file, if there is one. -/
def known (lower : Bool) (query : Field) (ty : DataType) (file : ReaderFile) : Option ScalarValue :=
  match stats.absentFieldValue engine file query ty with
  | some (.absent value) => some value
  | _ => (stats.metric file query).bind (metricBound engine lower ty)

/-- The bound of a file as a scalar of the column. Every column has a null scalar. -/
def bound (lower : Bool) (query : Field) (ty : DataType) (file : ReaderFile) : ScalarValue :=
  (stats.known engine lower query ty file <|> engine.nullOf ty).getD (.null ty)

/-- The least or the greatest values of a column, one for each file. -/
def bounds (column : String) (lower : Bool) : Option (List ScalarValue) := do
  let (query, ty) ← stats.field column
  engine.iterToArray (stats.files.map (stats.bound engine lower query ty))

/-- The count of a file's nulls: unknown for an absent column that is read as null, zero for one
that is filled with a default, and the recorded count otherwise. -/
def nullCount (query : Field) (ty : DataType) (file : ReaderFile) : Option ℕ :=
  match stats.absentFieldValue engine file query ty with
  | some (.absent value) => if value.isNull then none else some 0
  | _ => (stats.metric file query).bind FileMetric.nullCount

/-- The counts of a column's nulls, one for each file. -/
def nullCountsFor (column : String) : Option (List (Option ℕ)) := do
  let (query, ty) ← stats.field column
  some (stats.files.map (stats.nullCount engine query ty))

end Stats

section Specs

variable {engine : Engine} {stats : Stats}

/-- Every column has a null scalar. -/
theorem Engine.nullOf_eq {t : LogicalType} {ty : DataType} (hty : LogicalType.toArrow t = .ok ty) :
    engine.nullOf ty = some (.null ty) := by
  obtain ⟨s, hs⟩ := Option.ne_none_iff_exists'.mp (engine.nulls.total hty)
  rw [hs, engine.nulls.null hs]

/-- The bound of a metric is the converted one of its bounds that is asked for, when both bounds
convert, are in order and the one asked for is a number. -/
theorem metricBound_eq_some {lower : Bool} {ty : DataType} {m : FileMetric} {s : ScalarValue} :
    Stats.metricBound engine lower ty m = some s ↔
      (ty.isFloat = true → m.nanCount = some 0) ∧
        ∃ low high a b, m.lowerBound = some low ∧ m.upperBound = some high ∧
          scalar engine.nullOf low ty = some a ∧ scalar engine.nullOf high ty = some b ∧
          engine.partialCmp a b ≠ some .gt ∧ (if lower then low else high).isNan = false ∧
          scalar engine.nullOf (if lower then low else high) ty = some s := by
  have hcounted : (m.nanCount = some 0 ∨ ty.isFloat = false) ↔
      (ty.isFloat = true → m.nanCount = some 0) := by
    cases ty.isFloat <;> simp
  rw [Stats.metricBound, Option.ite_none_right_eq_some, hcounted]
  refine and_congr_right fun _ => ?_
  simp only [Option.bind_eq_bind, Option.bind_eq_some_iff, Option.ite_none_left_eq_some,
    Bool.not_eq_true]
  constructor
  · rintro ⟨low, hlow, high, hhigh, a, ha, b, hb, hcmp, hnan, hs⟩
    exact ⟨low, high, a, b, hlow, hhigh, ha, hb, hcmp, hnan, hs⟩
  · rintro ⟨low, high, a, b, hlow, hhigh, ha, hb, hcmp, hnan, hs⟩
    exact ⟨low, hlow, high, hhigh, a, ha, b, hb, hcmp, hnan, hs⟩

/-- The recorded field of a query field, found by its identifier among the roots. -/
def recordedField (recorded : Schema) (query : Field) : Option Field :=
  recorded.fields.find? fun f => f.fieldId == query.fieldId

/-- A file whose recorded schema has the field is one whose metric counts. -/
theorem known_of_present (lower : Bool) {q r : Field} {ty : DataType} {file : ReaderFile}
    {recorded : Schema} (hschema : stats.fileSchemas file.schemaId = some recorded)
    (hr : recordedField recorded q = some r) :
    stats.known engine lower q ty file =
        (stats.metric file q).bind (Stats.metricBound engine lower ty) ∧
      stats.nullCount engine q ty file = (stats.metric file q).bind FileMetric.nullCount := by
  have hany : (recorded.fields.any fun f => f.fieldId == q.fieldId) = true := by
    rw [List.any_eq_true, ← List.find?_isSome, ← recordedField, hr]
    rfl
  have hpresent : stats.absentFieldValue engine file q ty = some .present := by
    unfold Stats.absentFieldValue
    rw [hschema]
    dsimp only
    rw [if_pos hany]
  unfold Stats.known Stats.nullCount
  rw [hpresent]
  exact ⟨rfl, rfl⟩

/-- The metric of a file whose recorded schema has the field. -/
theorem metric_eq_some {q r : Field} {file : ReaderFile} {recorded : Schema} {m : FileMetric}
    (hschema : stats.fileSchemas file.schemaId = some recorded)
    (hr : recordedField recorded q = some r) :
    stats.metric file q = some m ↔ r.fieldType.eq q.fieldType = true ∧
      (file.metrics.find? fun m => m.fieldId == q.fieldId) = some m := by
  unfold Stats.metric
  rw [hschema]
  dsimp only
  rw [← recordedField, hr]
  dsimp only
  rw [Option.ite_none_right_eq_some]

/-- A file whose recorded schema lacks the field answers with the field's default. -/
theorem known_of_absent (lower : Bool) {q : Field} {ty : DataType} {file : ReaderFile}
    {recorded : Schema} (hty : LogicalType.toArrow q.fieldType = .ok ty)
    (hschema : stats.fileSchemas file.schemaId = some recorded)
    (hr : recordedField recorded q = none) :
    stats.known engine lower q ty file =
        (match q.initialDefault with
          | some default => scalar engine.nullOf default ty
          | none => some (.null ty)) ∧
      stats.nullCount engine q ty file =
        match q.initialDefault with
        | some default => if (scalar engine.nullOf default ty).any fun s => !s.isNull then some 0
          else none
        | none => none := by
  have hany : ¬(recorded.fields.any fun f => f.fieldId == q.fieldId) = true := by
    rw [List.any_eq_true, ← List.find?_isSome, ← recordedField, hr]
    exact Bool.false_ne_true
  have hmetric : stats.metric file q = none := by
    unfold Stats.metric
    rw [hschema]
    dsimp only
    rw [← recordedField, hr]
  unfold Stats.known Stats.nullCount Stats.absentFieldValue
  rw [hschema, hmetric]
  dsimp only
  rw [if_neg hany]
  cases hdefault : q.initialDefault with
  | none =>
    rw [engine.nullOf_eq hty]
    exact ⟨rfl, rfl⟩
  | some default =>
    dsimp only
    cases scalar engine.nullOf default ty with
    | none => exact ⟨rfl, rfl⟩
    | some s =>
      refine ⟨rfl, ?_⟩
      cases hnull : s.isNull <;> simp [hnull]

/-- The value of an absent field has the column's type. -/
theorem dataType_of_absent {q : Field} {ty : DataType} {file : ReaderFile} {s : ScalarValue}
    (h : stats.absentFieldValue engine file q ty = some (.absent s)) : s.dataType = ty := by
  unfold Stats.absentFieldValue at h
  split at h
  · cases h
  · split at h
    · cases h
    · split at h
      · obtain ⟨value, hvalue, hs⟩ := Option.map_eq_some_iff.mp h
        cases hs
        exact (means_of_scalar engine.nulls hvalue).dataType
      · obtain ⟨value, hvalue, hs⟩ := Option.map_eq_some_iff.mp h
        cases hs
        rw [engine.nulls.null hvalue]
        rfl

/-- A known bound of a column has the column's type. -/
theorem dataType_of_known {lower : Bool} {q : Field} {ty : DataType} {file : ReaderFile}
    {s : ScalarValue} (h : stats.known engine lower q ty file = some s) : s.dataType = ty := by
  have hmetric : ∀ {o : Option FileMetric},
      o.bind (Stats.metricBound engine lower ty) = some s → s.dataType = ty := by
    intro o ho
    obtain ⟨m, -, hm⟩ := Option.bind_eq_some_iff.mp ho
    obtain ⟨-, low, high, a, b, -, -, -, -, -, -, hs⟩ := metricBound_eq_some.mp hm
    exact (means_of_scalar engine.nulls hs).dataType
  unfold Stats.known at h
  cases havailable : stats.absentFieldValue engine file q ty with
  | none =>
    rw [havailable] at h
    exact hmetric h
  | some availability =>
    rw [havailable] at h
    cases availability with
    | present => exact hmetric h
    | absent value =>
      cases h
      exact dataType_of_absent havailable

end Specs

end Otmp.DataFusion
