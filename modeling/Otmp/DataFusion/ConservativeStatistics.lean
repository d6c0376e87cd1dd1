import Otmp.DataFusion.Statistics

/-!
# Conservative statistics

The bounds and null counts that pruning reports hold for the rows that the schema adapter yields,
when the stored bounds, as the values they mean, hold for them; and a file without the field
answers with the default that the adapter fills in. A metric with a
defective bound is withheld, except that one sound bound is still reported next to a defective one
that converts.
-/

namespace Otmp.DataFusion

open Foundation

section Definitions

variable (engine : Engine)

/-- A scalar is not greater than another one in the order of predicates. -/
def AtMost (a b : ScalarValue) : Prop :=
  engine.partialCmp a b = some .lt ∨ engine.partialCmp a b = some .eq

/-- No value of a column lies beyond a scalar. -/
def IsBound (lower : Bool) (rows : List RowValue) (s : ScalarValue) : Prop :=
  ∀ v ∈ rows, v = .null ∨
    ∃ x, v = .scalar x ∧ if lower then AtMost engine s x else AtMost engine x s

/-- The lower or the upper bound of a metric. -/
def boundOf (lower : Bool) (m : FileMetric) : Option TypedScalar :=
  if lower then m.lowerBound else m.upperBound

/-- A stored metric is correct for the values of a column: no value lies beyond the scalar of the
column's type that means a bound, and the count of nulls is that of the column. Bounds of
floating-point numbers are so only when no NaN was counted. -/
structure CorrectMetric (ty : DataType) (rows : List RowValue) (m : FileMetric) : Prop where
  bounds : (ty.isFloat = true → m.nanCount = some 0) → ∀ lower v s, boundOf lower m = some v →
    Means ty v s → s.isNull = false → IsBound engine lower rows s
  nulls : ∀ n, m.nullCount = some n → n = rows.countP RowValue.isNull

/-- A bound is a null, a NaN or of another type than the field. -/
def Defective (t : LogicalType) (v : TypedScalar) : Prop :=
  v = .null ∨ v.isNan = true ∨ t.accepts v = false

/-- A metric is not to be used for bounds: it is one-sided, a bound is defective, the bounds are
reversed, or it does not rule out NaNs in a column of floating-point numbers. -/
inductive Unusable (t : LogicalType) (ty : DataType) (m : FileMetric) : Prop where
  | oneSided (lower : Bool) (missing : boundOf lower m = none)
  | defective (lower : Bool) (v : TypedScalar) (found : boundOf lower m = some v)
    (defect : Defective t v)
  | reversed (low high : TypedScalar) (a b : ScalarValue) (lower : m.lowerBound = some low)
    (upper : m.upperBound = some high) (meansLow : Means ty low a) (meansHigh : Means ty high b)
    (greater : engine.partialCmp a b = some .gt)
  | uncounted (float : ty.isFloat = true) (count : m.nanCount ≠ some 0)

/-- A metric with a defective bound has two bounds that convert and are in order, and one of them
is neither a null nor a NaN. -/
structure Leaks (t : LogicalType) (ty : DataType) (m : FileMetric) : Prop where
  counted : ty.isFloat = true → m.nanCount = some 0
  convert : ∃ low high a b, m.lowerBound = some low ∧ m.upperBound = some high ∧
    scalar engine.nullOf low ty = some a ∧ scalar engine.nullOf high ty = some b ∧
    engine.partialCmp a b ≠ some .gt
  defective : ∃ lower v, boundOf lower m = some v ∧ Defective t v
  shown : ∃ lower v, boundOf lower m = some v ∧ v ≠ .null ∧ v.isNan = false

/-- The statistics of one column in one file are conservative: bounds and null counts hold for the
column's rows when they are reported, and no bounds are reported when the file's schema has the
field but there is no usable metric of the field's type. -/
structure Conservative (stats : Stats) (recorded : Schema) (query : Field) (ty : DataType)
    (index : ℕ) (file : ReaderFile) (rows : List RowValue) : Prop where
  bounds : ∀ lower array s, stats.bounds engine query.name lower = some array →
    array[index]? = some s → s.isNull = true ∨ IsBound engine lower rows s
  nulls : ∀ array n, stats.nullCountsFor engine query.name = some array →
    array[index]? = some (some n) → n = rows.countP RowValue.isNull
  unusable : ∀ r, recordedField recorded query = some r →
    (r.fieldType.eq query.fieldType = true →
      ∀ m, (file.metrics.find? fun m => m.fieldId == query.fieldId) = some m →
        Unusable engine query.fieldType ty m) →
    ∀ lower array s, stats.bounds engine query.name lower = some array →
      array[index]? = some s → s.isNull = true

end Definitions

section Reported

variable {engine : Engine} {stats : Stats} {query recorded : Schema}
  {logical physical : List ArrowField}

/-- A column of the query is found by its name. -/
theorem field_eq (hquery : query.validate = .ok ()) (hlogical : schemaToArrow query = .ok logical)
    (hschema : stats.schema = query) (harrow : stats.arrow = logical) {q : Field}
    (hq : q ∈ query.fields) {ty : DataType} (hty : LogicalType.toArrow q.fieldType = .ok ty) :
    stats.field q.name = some (q, ty) := by
  obtain ⟨target, hfind, htarget⟩ := find_column hquery hlogical hq
  obtain ⟨d, hd, rfl⟩ := fieldToArrow_eq_ok.mp htarget
  cases hd.symm.trans hty
  have hfield : (query.fields.find? fun f => f.name == q.name) = some q := by
    cases hfound : query.fields.find? fun f => f.name == q.name with
    | none => exact absurd (beq_self_eq_true _) (List.find?_eq_none.mp hfound q hq)
    | some f =>
      have hname := List.find?_some hfound
      rw [beq_iff_eq] at hname
      rw [List.inj_on_of_nodup_map (Schema.validate_eq_ok.mp hquery).2.1
        (List.mem_of_find?_eq_some hfound) hq hname]
  unfold Stats.field
  rw [hschema, harrow, hfind]
  simp only [Option.bind_eq_bind, Option.bind_some, hfield]
  rfl

/-- The bounds of a column's files are scalars of the column. -/
theorem dataType_of_bound {lower : Bool} {q : Field} {ty : DataType}
    (hty : LogicalType.toArrow q.fieldType = .ok ty) (file : ReaderFile) :
    (stats.bound engine lower q ty file).dataType = ty := by
  unfold Stats.bound
  cases hknown : stats.known engine lower q ty file with
  | none =>
    rw [engine.nullOf_eq hty]
    rfl
  | some s => exact dataType_of_known hknown

/-- What is reported of a file is its bound and its count of nulls. -/
theorem reported_eq {q : Field} {ty : DataType} (hfield : stats.field q.name = some (q, ty))
    (hty : LogicalType.toArrow q.fieldType = .ok ty) {index : ℕ} {file : ReaderFile}
    (hfile : stats.files[index]? = some file) (lower : Bool) :
    (∀ s, (∃ array, stats.bounds engine q.name lower = some array ∧ array[index]? = some s) ↔
        s = stats.bound engine lower q ty file) ∧
      ∀ n, (∃ array, stats.nullCountsFor engine q.name = some array ∧ array[index]? = some n) ↔
        n = stats.nullCount engine q ty file := by
  have hne : stats.files.map (stats.bound engine lower q ty) ≠ [] := by
    intro hempty
    rw [List.map_eq_nil_iff.mp hempty] at hfile
    cases hfile
  have htypes : ∀ s ∈ stats.files.map (stats.bound engine lower q ty), s.dataType = ty := by
    intro s hs
    obtain ⟨f, -, rfl⟩ := List.mem_map.mp hs
    exact dataType_of_bound hty f
  have hbounds : stats.bounds engine q.name lower =
      some (stats.files.map (stats.bound engine lower q ty)) := by
    rw [Stats.bounds, hfield]
    exact engine.array_eq ty _ hne htypes
  have hcounts : stats.nullCountsFor engine q.name =
      some (stats.files.map (stats.nullCount engine q ty)) := by
    rw [Stats.nullCountsFor, hfield]
    rfl
  rw [hbounds, hcounts]
  constructor
  · intro s
    simp [hfile, eq_comm]
  · intro n
    simp [hfile, eq_comm]

/-- The bound of a file is a null unless it is known. -/
theorem bound_eq {lower : Bool} {q : Field} {ty : DataType}
    (hty : LogicalType.toArrow q.fieldType = .ok ty) (file : ReaderFile) :
    stats.bound engine lower q ty file = (stats.known engine lower q ty file).getD (.null ty) := by
  unfold Stats.bound
  cases stats.known engine lower q ty file with
  | none =>
    rw [engine.nullOf_eq hty]
    rfl
  | some s => rfl

/-- The adapter fills the column of a field that is not in the recorded schema. -/
theorem defaults_of_absent (hquery : query.validate = .ok ())
    (hlogical : schemaToArrow query = .ok logical) {columns : List (String × ColumnExpr)}
    (hcreate : create engine.nullOf query recorded logical physical = .ok columns) {q : Field}
    (hq : q ∈ query.fields) {ty : DataType} (hty : LogicalType.toArrow q.fieldType = .ok ty)
    {expr : ColumnExpr} (hcolumn : (q.name, expr) ∈ columns) {kernels : Kernels}
    {batch : List Column} {rows : ℕ} {out : Column}
    (hout : expr.evaluate kernels batch rows = .ok out)
    (habsent : recordedField recorded q = none) :
    ∃ target : ArrowField, target.dataType = ty ∧ ∀ v ∈ out.rows, Defaults q target v := by
  obtain ⟨slots, hslots, hexpressions⟩ := exists_slots_of_create hquery hlogical hcreate
  obtain ⟨⟨q', slot⟩, hmem, hname, target, htarget, hexpr⟩ :=
    exists_of_forall₂ hexpressions.flip hcolumn
  obtain rfl : q' = q := List.inj_on_of_nodup_map (Schema.validate_eq_ok.mp hquery).2.1
    (List.of_mem_zip hmem).1 hq hname.symm
  have hslot := List.forall₂_zip hslots hmem
  obtain ⟨target', htarget', hbind⟩ := id hslot
  rw [← recordedField, habsent] at hbind
  obtain ⟨r, i, kind, hnone, -⟩ | ⟨-, hunbound⟩ := bindField_eq_ok.mp hbind
  · cases hnone
  · obtain ⟨-, -, value, -, rfl⟩ := unbound_eq_ok.mp hunbound
    obtain ⟨-, -, hdefaults⟩ := hslot.defaults_of_unbound engine.nulls htarget hexpr hout
    exact ⟨target, Except.ok.inj ((toArrow_of_fieldToArrow htarget).symm.trans hty), hdefaults⟩

/-- A default that fills a column is a bound of it, and the column has no nulls unless the default
is one. -/
theorem isBound_of_defaults {q : Field} {target : ArrowField} {rows : List RowValue}
    (hrows : ∀ v ∈ rows, Defaults q target v) {d : TypedScalar}
    (hdefault : q.initialDefault = some d) {s : ScalarValue}
    (hs : scalar engine.nullOf d target.dataType = some s) (hnull : s.isNull = false) :
    (∀ lower, IsBound engine lower rows s) ∧ rows.countP RowValue.isNull = 0 := by
  have hvalues : ∀ v ∈ rows, v = .scalar s := by
    intro v hv
    have hv := hrows v hv
    unfold Defaults at hv
    rw [hdefault] at hv
    obtain ⟨s', hs', rfl⟩ := hv
    obtain rfl := hs'.unique (means_of_scalar engine.nulls hs)
    cases s' <;> first | rfl | cases hnull
  constructor
  · intro lower v hv
    refine .inr ⟨s, hvalues v hv, ?_⟩
    split
    · exact .inr (engine.cmp_self s hnull)
    · exact .inr (engine.cmp_self s hnull)
  · rw [List.countP_eq_zero]
    intro v hv
    rw [hvalues v hv]
    exact Bool.false_ne_true

/-- A bound that a file with the field reports comes from its metric. -/
theorem metricBound_of_present {lower : Bool} {q r : Field} {ty : DataType}
    (hty : LogicalType.toArrow q.fieldType = .ok ty) {file : ReaderFile}
    (hrecorded : stats.fileSchemas file.schemaId = some recorded)
    (hr : recordedField recorded q = some r)
    (hnull : (stats.bound engine lower q ty file).isNull = false) :
    ∃ m, r.fieldType.eq q.fieldType = true ∧
      (file.metrics.find? fun m => m.fieldId == q.fieldId) = some m ∧
      Stats.metricBound engine lower ty m = some (stats.bound engine lower q ty file) := by
  rw [bound_eq hty] at hnull ⊢
  cases hknown : stats.known engine lower q ty file with
  | none =>
    rw [hknown] at hnull
    cases hnull
  | some s =>
    rw [(known_of_present _ hrecorded hr).1] at hknown
    obtain ⟨m, hm, hs⟩ := Option.bind_eq_some_iff.mp hknown
    obtain ⟨htype, hfind⟩ := (metric_eq_some hrecorded hr).mp hm
    exact ⟨m, htype, hfind, hs⟩

/-- The bound that is taken from a metric is one of the metric's. -/
theorem boundOf_eq {lower : Bool} {m : FileMetric} {low high : TypedScalar}
    (hlow : m.lowerBound = some low) (hhigh : m.upperBound = some high) :
    boundOf lower m = some (if lower then low else high) := by
  cases lower with
  | true => exact hlow
  | false => exact hhigh

section File

variable {q : Field} {ty : DataType} {file : ReaderFile} {rows : List RowValue}

/-- The metrics of a query field in a file are correct for the rows of the field's column. -/
def CorrectMetrics (engine : Engine) (recorded : Schema) (q : Field) (ty : DataType)
    (file : ReaderFile) (rows : List RowValue) : Prop :=
  ∀ r m, recordedField recorded q = some r → r.fieldType.eq q.fieldType = true →
    (file.metrics.find? fun m => m.fieldId == q.fieldId) = some m → CorrectMetric engine ty rows m

/-- A bound that is reported holds for the rows. -/
theorem isBound_bound (hty : LogicalType.toArrow q.fieldType = .ok ty)
    (hrecorded : stats.fileSchemas file.schemaId = some recorded)
    (hmetrics : CorrectMetrics engine recorded q ty file rows)
    (hdefaults : recordedField recorded q = none → ∃ target : ArrowField, target.dataType = ty ∧
      ∀ v ∈ rows, Defaults q target v) (lower : Bool) :
    (stats.bound engine lower q ty file).isNull = true ∨
      IsBound engine lower rows (stats.bound engine lower q ty file) := by
  cases hnull : (stats.bound engine lower q ty file).isNull with
  | true => exact .inl rfl
  | false =>
    refine .inr ?_
    cases hr : recordedField recorded q with
    | some r =>
      obtain ⟨m, htype, hfind, hm⟩ := metricBound_of_present hty hrecorded hr hnull
      obtain ⟨hcounted, low, high, a, b, hlow, hhigh, -, -, -, -, hs⟩ := metricBound_eq_some.mp hm
      exact (hmetrics r m hr htype hfind).bounds hcounted lower _ _ (boundOf_eq hlow hhigh)
        (means_of_scalar engine.nulls hs) hnull
    | none =>
      obtain ⟨target, htarget, hvalues⟩ := hdefaults hr
      have hknown : stats.known engine lower q ty file = _ :=
        (known_of_absent lower hty hrecorded hr).1
      rw [bound_eq hty, hknown] at hnull ⊢
      cases hdefault : q.initialDefault with
      | none =>
        rw [hdefault] at hnull
        cases hnull
      | some d =>
        rw [hdefault] at hnull
        dsimp only at hnull ⊢
        cases hs : scalar engine.nullOf d ty with
        | none =>
          rw [hs] at hnull
          cases hnull
        | some s =>
          rw [hs] at hnull
          rw [← htarget] at hs
          exact (isBound_of_defaults hvalues hdefault hs hnull).1 lower

/-- A count of nulls that is reported is that of the rows. -/
theorem countP_nullCount (hty : LogicalType.toArrow q.fieldType = .ok ty)
    (hrecorded : stats.fileSchemas file.schemaId = some recorded)
    (hmetrics : CorrectMetrics engine recorded q ty file rows)
    (hdefaults : recordedField recorded q = none → ∃ target : ArrowField, target.dataType = ty ∧
      ∀ v ∈ rows, Defaults q target v) {n : ℕ}
    (h : stats.nullCount engine q ty file = some n) : n = rows.countP RowValue.isNull := by
  cases hr : recordedField recorded q with
  | some r =>
    rw [(known_of_present true hrecorded hr).2] at h
    obtain ⟨m, hm, hn⟩ := Option.bind_eq_some_iff.mp h
    obtain ⟨htype, hfind⟩ := (metric_eq_some hrecorded hr).mp hm
    exact (hmetrics r m hr htype hfind).nulls n hn
  | none =>
    obtain ⟨target, htarget, hvalues⟩ := hdefaults hr
    rw [(known_of_absent true hty hrecorded hr).2] at h
    cases hdefault : q.initialDefault with
    | none =>
      rw [hdefault] at h
      cases h
    | some d =>
      rw [hdefault] at h
      obtain ⟨hany, hn⟩ := Option.ite_none_right_eq_some.mp h
      obtain ⟨s, hs, hnull⟩ := (Option.any_eq_true _ _).mp hany
      rw [← htarget] at hs
      cases hn
      exact (isBound_of_defaults hvalues hdefault hs (by simpa using hnull)).2.symm

/-- A metric leaks a bound exactly when a defective metric reports one. -/
theorem leaks_of_metricBound {m : FileMetric} {lower : Bool} {s : ScalarValue}
    (hs : Stats.metricBound engine lower ty m = some s) (hnull : s.isNull = false)
    (hunusable : Unusable engine q.fieldType ty m) : Leaks engine q.fieldType ty m := by
  obtain ⟨hcounted, low, high, a, b, hlow, hhigh, ha, hb, hcmp, hnan, hs⟩ :=
    metricBound_eq_some.mp hs
  refine ⟨hcounted, ⟨low, high, a, b, hlow, hhigh, ha, hb, hcmp⟩, ?_, lower, _,
    boundOf_eq hlow hhigh, fun hnone => ?_, hnan⟩
  · cases hunusable with
    | oneSided side missing =>
      rw [boundOf_eq hlow hhigh] at missing
      cases missing
    | defective side v found defect => exact ⟨side, v, found, defect⟩
    | reversed low' high' a' b' lower' upper' meansLow meansHigh greater =>
      cases hlow.symm.trans lower'
      cases hhigh.symm.trans upper'
      obtain rfl := (means_of_scalar engine.nulls ha).unique meansLow
      obtain rfl := (means_of_scalar engine.nulls hb).unique meansHigh
      exact absurd greater hcmp
    | uncounted float count => exact absurd (hcounted float) count
  · rw [(means_of_scalar engine.nulls hs).isNull_iff.mpr hnone] at hnull
    cases hnull

/-- A metric that leaks reports a bound that is not a null. -/
theorem metricBound_of_leaks {m : FileMetric} (h : Leaks engine q.fieldType ty m) :
    ∃ lower s, Stats.metricBound engine lower ty m = some s ∧ s.isNull = false := by
  obtain ⟨low, high, a, b, hlow, hhigh, ha, hb, hcmp⟩ := h.convert
  obtain ⟨lower, v, hv, hnone, hnan⟩ := h.shown
  rw [boundOf_eq hlow hhigh] at hv
  cases hv
  have hconverted : ∃ s, scalar engine.nullOf (if lower then low else high) ty = some s := by
    cases lower with
    | true => exact ⟨a, ha⟩
    | false => exact ⟨b, hb⟩
  obtain ⟨s, hs⟩ := hconverted
  refine ⟨lower, s, metricBound_eq_some.mpr
    ⟨h.counted, low, high, a, b, hlow, hhigh, ha, hb, hcmp, hnan, hs⟩, ?_⟩
  rw [← Bool.not_eq_true]
  exact fun hnull => hnone ((means_of_scalar engine.nulls hs).isNull_iff.mp hnull)

end File

/-- **Pruning statistics are conservative except for metrics that leak.** For every query column
and file, the reported bounds and null count hold for the rows that the adapter yields, and an
unusable metric gives null bounds, exactly when the field's metric does not have two converting
ordered bounds of which one is defective and one is shown. -/
theorem conservative_iff (hquery : query.validate = .ok ())
    (hlogical : schemaToArrow query = .ok logical) (hschema : stats.schema = query)
    (harrow : stats.arrow = logical) {index : ℕ} {file : ReaderFile}
    (hfile : stats.files[index]? = some file)
    (hrecorded : stats.fileSchemas file.schemaId = some recorded)
    {columns : List (String × ColumnExpr)}
    (hcreate : create engine.nullOf query recorded logical physical = .ok columns) {q : Field}
    (hq : q ∈ query.fields) {ty : DataType} (hty : LogicalType.toArrow q.fieldType = .ok ty)
    {expr : ColumnExpr} (hcolumn : (q.name, expr) ∈ columns) {kernels : Kernels}
    {batch : List Column} {rows : ℕ} {out : Column}
    (hout : expr.evaluate kernels batch rows = .ok out)
    (hmetrics : CorrectMetrics engine recorded q ty file out.rows) :
    Conservative engine stats recorded q ty index file out.rows ↔
      ∀ r m, recordedField recorded q = some r → r.fieldType.eq q.fieldType = true →
        (file.metrics.find? fun m => m.fieldId == q.fieldId) = some m →
        ¬Leaks engine q.fieldType ty m := by
  have hfield := field_eq hquery hlogical hschema harrow hq hty
  have hreported := fun lower =>
    @reported_eq engine stats q ty hfield hty index file hfile lower
  have hdefaults := defaults_of_absent hquery hlogical hcreate hq hty hcolumn hout
  constructor
  · intro h r m hr htype hfind hleaks
    obtain ⟨lower, s, hs, hnull⟩ := metricBound_of_leaks hleaks
    have hbound : stats.bound engine lower q ty file = s := by
      rw [bound_eq hty, (known_of_present _ hrecorded hr).1,
        (metric_eq_some hrecorded hr).mpr ⟨htype, hfind⟩, Option.bind_some, hs]
      rfl
    obtain ⟨array, harray, hs⟩ := ((hreported lower).1 s).mpr hbound.symm
    obtain ⟨side, v, hv, hdefect⟩ := hleaks.defective
    have hall := h.unusable r hr (fun _ m' hm' => by
      cases hfind.symm.trans hm'
      exact .defective side v hv hdefect) lower array s harray hs
    rw [hnull] at hall
    cases hall
  · intro h
    refine ⟨fun lower array s harray hs => ?_, fun array n harray hn => ?_,
      fun r hr hunusable lower array s harray hs => ?_⟩
    · obtain rfl := ((hreported lower).1 s).mp ⟨array, harray, hs⟩
      exact isBound_bound hty hrecorded hmetrics hdefaults lower
    · have hcount := ((hreported true).2 (some n)).mp ⟨array, harray, hn⟩
      exact countP_nullCount hty hrecorded hmetrics hdefaults hcount.symm
    · obtain rfl := ((hreported lower).1 s).mp ⟨array, harray, hs⟩
      cases hnull : (stats.bound engine lower q ty file).isNull with
      | true => rfl
      | false =>
        obtain ⟨m, htype, hfind, hm⟩ := metricBound_of_present hty hrecorded hr hnull
        exact absurd (leaks_of_metricBound hm hnull (hunusable htype m hfind))
          (h r m hr htype hfind)

end Reported

section Samples

/-- The place of a floating-point number in the total order of its bits. -/
private def totalKey (bits : UInt64) : ℤ :=
  if bits.toNat < 2 ^ 63 then bits.toNat else 2 ^ 63 - 1 - bits.toNat

/-- The engine's order on floating-point numbers; other scalars are compared with themselves. -/
private def totalCmp : ScalarValue → ScalarValue → Option Ordering
  | .float64 a, .float64 b => some (compare (totalKey a) (totalKey b))
  | a, b => if a = b then some .eq else none

/-- An engine with that order, which builds every array it is asked for. -/
private def floatEngine : Engine where
  nullOf d := some (.null d)
  partialCmp := totalCmp
  iterToArray values := some values
  nulls := ⟨fun h => (Option.some.inj h).symm, fun _ => Option.some_ne_none _⟩
  cmp_self s _ := by
    cases s with
    | float64 bits => exact congrArg some (compare_eq_iff_eq.mpr rfl)
    | _ => exact if_pos rfl
  array_eq _ _ _ _ := rfl

/-- A schema with one floating-point field. -/
private def floatSchema : Schema where
  schemaId := 1
  parentSchemaId := none
  fields := [.mk 1 "a" false .float64 none none none]
  identifierFieldIds := []
  doc := none

/-- The query's one column. -/
private def floatColumns : List ArrowField :=
  [.mk "a" .float64 true [("PARQUET:field_id", "1")]]

/-- A metric with the lower bound 1.0. -/
private def metricBelow (upper : UInt64) : FileMetric where
  fieldId := 1
  columnSizeBytes := none
  valueCount := some 1
  nullCount := some 0
  nanCount := some 0
  distinctCount := none
  lowerBound := some (.float64 0x3ff0000000000000)
  upperBound := some (.float64 upper)
  metadata := default

/-- Statistics of one file with that metric. -/
private def floatStats (upper : UInt64) : Stats where
  schema := floatSchema
  arrow := floatColumns
  files := [⟨1, [metricBelow upper]⟩]
  fileSchemas id := if id = 1 then some floatSchema else none

/-- A file with the one value 1.0. -/
private def oneRow : Column := ⟨.float64, [.scalar (.float64 0x3ff0000000000000)]⟩

/-- Kernels that convert nothing. -/
private def plainKernels : Kernels where
  cast c _ := .ok c
  castValue _ _ v := v
  checkStruct _ _ := .ok ()
  checkList _ _ := .ok ()
  checkMap _ _ _ := .ok ()
  rows_cast h := by
    cases h
    exact (List.map_id' _).symm
  castValue_eq_null _ := Iff.rfl

/-- The metric is correct for the file whenever the upper bound is not below 1.0. -/
private theorem correct_metricBelow {upper : UInt64}
    (h : totalKey 0x3ff0000000000000 ≤ totalKey upper) :
    CorrectMetrics floatEngine floatSchema (.mk 1 "a" false .float64 none none none) .float64
      ⟨1, [metricBelow upper]⟩ oneRow.rows := by
  intro r m _ _ hfind
  obtain rfl : metricBelow upper = m := Option.some.inj hfind
  refine ⟨fun _ lower v s hv hs _ w hw => ?_, fun n hn => ?_⟩
  · obtain rfl := List.mem_singleton.mp hw
    refine .inr ⟨_, rfl, ?_⟩
    cases lower with
    | true =>
      cases hv
      obtain rfl := hs.unique (⟨rfl, rfl⟩ : Means _ _ (.float64 0x3ff0000000000000))
      exact .inr rfl
    | false =>
      cases hv
      obtain rfl := hs.unique (⟨rfl, rfl⟩ : Means _ _ (.float64 upper))
      obtain hlt | heq := h.lt_or_eq
      · exact .inl (congrArg some (compare_lt_iff_lt.mpr hlt))
      · exact .inr (congrArg some (compare_eq_iff_eq.mpr heq))
  · cases hn
    rfl

/-- A file with the bounds 1.0 and 2.0 has conservative statistics. -/
theorem conservative_iff_ordered :
    Conservative floatEngine (floatStats 0x4000000000000000) floatSchema
      (.mk 1 "a" false .float64 none none none) .float64 0
      ⟨1, [metricBelow 0x4000000000000000]⟩ oneRow.rows := by
  refine (@conservative_iff floatEngine (floatStats 0x4000000000000000) floatSchema floatSchema
    floatColumns floatColumns (by decide +kernel) (by decide +kernel) rfl rfl 0 _ rfl rfl _ rfl _
    List.mem_cons_self .float64 rfl (.column 0) List.mem_cons_self plainKernels [oneRow] 1 oneRow
    rfl
    (correct_metricBelow (by decide +kernel))).mpr ?_
  intro r m _ _ hfind hleaks
  obtain rfl : metricBelow 0x4000000000000000 = m := Option.some.inj hfind
  obtain ⟨lower, v, hv, hdefect⟩ := hleaks.defective
  cases lower <;> cases hv <;> obtain hnull | hnan | haccepts := hdefect
  · cases hnull
  · exact absurd hnan (by decide +kernel)
  · cases haccepts
  · cases hnull
  · exact absurd hnan (by decide +kernel)
  · cases haccepts

/-- A NaN next to a lower bound of 1.0 does not keep that bound from being reported. -/
theorem not_conservative :
    ¬ ∀ (engine : Engine) (stats : Stats) (query recorded : Schema)
      (logical physical : List ArrowField) (index : ℕ) (file : ReaderFile)
      (columns : List (String × ColumnExpr)) (q : Field) (ty : DataType) (expr : ColumnExpr)
      (kernels : Kernels) (batch : List Column) (rows : ℕ) (out : Column),
      query.validate = .ok () → schemaToArrow query = .ok logical → stats.schema = query →
      stats.arrow = logical → stats.files[index]? = some file →
      stats.fileSchemas file.schemaId = some recorded →
      create engine.nullOf query recorded logical physical = .ok columns → q ∈ query.fields →
      LogicalType.toArrow q.fieldType = .ok ty → (q.name, expr) ∈ columns →
      IsBatch physical rows batch → expr.evaluate kernels batch rows = .ok out →
      CorrectMetrics engine recorded q ty file out.rows →
      Conservative engine stats recorded q ty index file out.rows := by
  intro h
  have hconservative := h floatEngine (floatStats 0x7ff8000000000000) floatSchema floatSchema
    floatColumns floatColumns 0 ⟨1, [metricBelow 0x7ff8000000000000]⟩ _
    (.mk 1 "a" false .float64 none none none) .float64 (.column 0) plainKernels [oneRow] 1 oneRow
    (by decide +kernel) (by decide +kernel) rfl rfl rfl rfl rfl List.mem_cons_self rfl
    List.mem_cons_self
    (.cons ⟨rfl, rfl, fun v _ => trivial⟩ .nil) rfl (correct_metricBelow (by decide +kernel))
  have hnull := hconservative.unusable _ rfl (fun _ m hm => by
    obtain rfl : metricBelow 0x7ff8000000000000 = m := Option.some.inj hm
    exact .defective false _ rfl (.inr (.inl (by decide +kernel)))) true
    [.float64 0x3ff0000000000000] _ (by decide +kernel) rfl
  cases hnull

end Samples

end Otmp.DataFusion
