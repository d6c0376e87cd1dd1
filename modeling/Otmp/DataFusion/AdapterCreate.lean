import Otmp.DataFusion.AdapterFamilies

/-!
# Created adapters

An adapter has a slot for each top-level query field, found among the columns of the file, and
an expression for the slot. The bindings of the slots follow the field identifiers at every level
and the expressions read the rows of the file through them. Within a family of schemas an
adapter exists for every file that holds the recorded fields in matching form.
-/

namespace Otmp.DataFusion

open Foundation

section Create

variable {nullOf : DataType → Option ScalarValue} {query recorded : Schema}
  {logical physical : List ArrowField}

/-- The column of a top-level query field in the query's own columns. -/
theorem find_column (hquery : query.validate = .ok ())
    (hlogical : schemaToArrow query = .ok logical)
    {q : Field} (hq : q ∈ query.fields) :
    ∃ target, (logical.find? fun f => f.name == q.name) = some target ∧
      fieldToArrow q = .ok target := by
  have hcolumns := fieldsToArrow_eq_ok.mp hlogical
  obtain ⟨target, hmem, htarget⟩ := exists_of_forall₂ hcolumns hq
  have hname : ∀ {f : Field} {p : ArrowField}, fieldToArrow f = .ok p → p.name = f.name := by
    intro f p hp
    obtain ⟨d, -, rfl⟩ := fieldToArrow_eq_ok.mp hp
    rfl
  cases hfind : logical.find? fun f => f.name == q.name with
  | none => exact absurd (beq_iff_eq.mpr (hname htarget)) (List.find?_eq_none.mp hfind target hmem)
  | some p =>
    have hp := List.mem_of_find?_eq_some hfind
    have hpname := List.find?_some hfind
    rw [beq_iff_eq] at hpname
    obtain ⟨f, hf, hfp⟩ := exists_of_forall₂ hcolumns.flip hp
    have hsame : f = q := List.inj_on_of_nodup_map (Schema.validate_eq_ok.mp hquery).2.1 hf hq
      ((hname hfp).symm.trans hpname)
    exact ⟨p, rfl, hsame ▸ hfp⟩

/-- What an adapter is made of: a slot for each query field, and the slot's expression. -/
theorem create_eq_ok (hquery : query.validate = .ok ())
    (hlogical : schemaToArrow query = .ok logical) {columns : List (String × ColumnExpr)} :
    create nullOf query recorded logical physical = .ok columns ↔
      (∃ seen, ArrowField.validateIds ∅ physical = .ok seen) ∧
        List.Forall₂ (fun q (c : String × ColumnExpr) => ∃ target slot,
          fieldToArrow q = .ok target ∧
            bindField nullOf q (recorded.fields.find? fun f => f.fieldId == q.fieldId) physical
              target = .ok slot ∧
            c.1 = q.name ∧ slot.expr nullOf physical target = .ok c.2) query.fields columns := by
  rw [create, bind_eq_ok, exists_and_right]
  refine and_congr_right fun _ => mapM_iff_forall₂.trans (forall₂_congr fun q hq c => ?_)
  obtain ⟨target, hfind, htarget⟩ := find_column hquery hlogical hq
  unfold createSlot
  rw [hfind]
  dsimp only
  constructor
  · intro h
    obtain ⟨⟨target', slot⟩, hslot, h⟩ := bind_eq_ok.mp h
    obtain ⟨slot', hbind, hpair⟩ := bind_eq_ok.mp hslot
    cases hpair
    obtain ⟨expr, hexpr, hc⟩ := bind_eq_ok.mp h
    cases hc
    exact ⟨target, slot, htarget, hbind, rfl, hexpr⟩
  · rintro ⟨target', slot, htarget', hbind, hname, hexpr⟩
    cases htarget.symm.trans htarget'
    refine bind_eq_ok.mpr ⟨(target, slot), bind_eq_ok.mpr ⟨slot, hbind, rfl⟩, ?_⟩
    refine bind_eq_ok.mpr ⟨c.2, hexpr, ?_⟩
    rw [← hname]

/-- The columns of an adapter are the expressions of its slots. -/
def AreExpressions (nullOf : DataType → Option ScalarValue) (physical : List ArrowField)
    (queries : List Field) (slots : List Slot) (columns : List (String × ColumnExpr)) : Prop :=
  List.Forall₂ (fun (qs : Field × Slot) (c : String × ColumnExpr) => c.1 = qs.1.name ∧
    ∃ target, fieldToArrow qs.1 = .ok target ∧ qs.2.expr nullOf physical target = .ok c.2)
    (queries.zip slots) columns

/-- A created adapter has a slot and an expression for each query field. -/
theorem exists_slots_of_create (hquery : query.validate = .ok ())
    (hlogical : schemaToArrow query = .ok logical) {columns : List (String × ColumnExpr)}
    (h : create nullOf query recorded logical physical = .ok columns) :
    ∃ slots, List.Forall₂ (IsSlot nullOf recorded.fields physical) query.fields slots ∧
      AreExpressions nullOf physical query.fields slots columns := by
  obtain ⟨-, hcolumns⟩ := (create_eq_ok hquery hlogical).mp h
  clear h hquery hlogical
  generalize query.fields = queries at hcolumns
  induction hcolumns with
  | nil => exact ⟨[], .nil, .nil⟩
  | cons hfirst _ ih =>
    obtain ⟨target, slot, htarget, hbind, hname, hexpr⟩ := hfirst
    obtain ⟨slots, hslots, hcolumns⟩ := ih
    exact ⟨slot :: slots, .cons ⟨target, htarget, hbind⟩ hslots,
      .cons ⟨hname, target, htarget, hexpr⟩ hcolumns⟩

/-- The expression of a bound field is its column, mapped unless it is taken as it is. -/
theorem expr_bound (index : ℕ) (mapping : Mapping) (target : ArrowField) :
    (Slot.mk (some index) mapping).expr nullOf physical target =
      if physical[index]?.any fun p => mapping.identity p.dataType then .ok (.column index)
      else .ok (.mapped index mapping) := rfl

/-- The expression of a field without a default is its column's null. -/
theorem expr_null (column target : ArrowField) :
    (Slot.mk none (.mk column (.missing none))).expr nullOf physical target =
      match nullOf target.dataType with
      | some value => .ok (.literal value)
      | none => .error (.plan "unsupported null scalar") := rfl

/-- Only a column that is taken as it is has an identity mapping. -/
theorem primitive_of_identity {target : ArrowField} {kind : Kind} {source : DataType}
    (h : (Mapping.mk target kind).identity source = true) : kind = .primitive := by
  cases kind <;> first | rfl | cases h

/-- An expression that is a column of the file takes it from the batch. -/
theorem evaluate_column {kernels : Kernels} {batch : List Column} {rows index : ℕ}
    {out : Column} (h : (ColumnExpr.column index).evaluate kernels batch rows = .ok out) :
    batch[index]? = some out := by
  unfold ColumnExpr.evaluate at h
  dsimp only at h
  split at h
  · rename_i input hinput
    cases h
    exact hinput
  · cases h

/-- An expression that is mapped from a column of the file applies the mapping to it. -/
theorem evaluate_mapped {kernels : Kernels} {batch : List Column} {rows index : ℕ}
    {mapping : Mapping} {out : Column}
    (h : (ColumnExpr.mapped index mapping).evaluate kernels batch rows = .ok out) :
    ∃ input, batch[index]? = some input ∧ mapping.apply kernels (some input) rows = .ok out := by
  unfold ColumnExpr.evaluate at h
  dsimp only at h
  split at h
  · rename_i input hinput
    exact ⟨input, hinput, h⟩
  · cases h

/-- An unbound field becomes a literal of its default, or of the column's null. -/
theorem literal_of_missing (hnull : NullScalars nullOf) {q : Field} {target : ArrowField}
    {value : Option ScalarValue} (hfills : Fills nullOf q target value) {expr : ColumnExpr}
    (hexpr : Slot.expr nullOf physical target (.mk none (.mk target (.missing value))) = .ok expr) :
    ∃ s, Defaults q target (RowValue.ofScalar s) ∧ expr = .literal s := by
  have hdefault := defaults_of_fills hnull hfills
  cases value with
  | none =>
    rw [expr_null] at hexpr
    cases hnullOf : nullOf target.dataType with
    | none =>
      rw [hnullOf] at hexpr
      cases hexpr
    | some s =>
      rw [hnullOf] at hexpr
      cases hexpr
      obtain rfl := hnull.null hnullOf
      exact ⟨.null target.dataType, hdefault, rfl⟩
  | some s =>
    cases hexpr
    exact ⟨s, hdefault, rfl⟩

/-- A batch of a file has a column for each physical field, of the field's type, with some count
of rows that the type can show. -/
def IsBatch (physical : List ArrowField) (rows : ℕ) (batch : List Column) : Prop :=
  List.Forall₂ (fun p c => c.dataType = p.dataType ∧ c.rows.length = rows ∧
    ∀ v ∈ c.rows, p.dataType.Shows v) physical batch

/-- One row of a file: the value of each column. -/
def fileRow (batch : List Column) (i : ℕ) : List RowValue := batch.map fun c => c.rows.getD i .null

/-- A column of the query holds one value for each row of a file, read from that row. -/
def ReadsRows (kernels : Kernels) (physical : List ArrowField) (batch : List Column) (rows : ℕ)
    (q : Field) (slot : Slot) (out : Column) : Prop :=
  out.rows.length = rows ∧ ∀ i < rows,
    ReadsField kernels q slot physical (fileRow batch i) (out.rows.getD i .null)

/-- The rows of a column that are read from the column of a bound field are read from the rows of
the file. -/
theorem readsRows_of_forall₂ {kernels : Kernels} {batch : List Column} {rows index : ℕ}
    {q : Field} {mapping : Mapping} {p : ArrowField} {input out : Column}
    (hp : physical[index]? = some p) (hinput : batch[index]? = some input)
    (hrows : input.rows.length = rows)
    (h : List.Forall₂ (ReadsType kernels q.fieldType mapping p.dataType) input.rows out.rows) :
    ReadsRows kernels physical batch rows q (.mk (some index) mapping) out := by
  refine ⟨h.length_eq.symm.trans hrows, fun i hi => ?_⟩
  have hrow : input.rows[i]? = some (input.rows.getD i .null) := by
    rw [List.getD_eq_getElem?_getD, List.getElem?_eq_getElem (hrows ▸ hi), Option.getD_some]
  obtain ⟨o, ho, hread⟩ := getElem?_of_forall₂ h hrow
  refine (readsField_bound _ _ _ _ _ _ _).mpr ⟨p, input.rows.getD i .null, hp, ?_, ?_⟩
  · rw [fileRow, List.getElem?_map, hinput, Option.map_some]
  · rwa [List.getD_eq_getElem?_getD (l := out.rows), ho, Option.getD_some]

/-- The column of a slot without a physical field holds the default in every row. -/
theorem IsSlot.defaults_of_unbound (hnull : NullScalars nullOf) {fields : List Field} {q : Field}
    {mapping : Mapping} (h : IsSlot nullOf fields physical q (.mk none mapping))
    {target : ArrowField} (htarget : fieldToArrow q = .ok target) {expr : ColumnExpr}
    (hexpr : (Slot.mk none mapping).expr nullOf physical target = .ok expr) {kernels : Kernels}
    {batch : List Column} {rows : ℕ} {out : Column}
    (hout : expr.evaluate kernels batch rows = .ok out) :
    mapping.target = target ∧ out.rows.length = rows ∧ ∀ v ∈ out.rows, Defaults q target v := by
  obtain ⟨target', htarget', hbind⟩ := h
  cases htarget.symm.trans htarget'
  obtain ⟨r, j, kind, -, -, -, hslot⟩ | ⟨-, hunbound⟩ := bindField_eq_ok.mp hbind
  · cases hslot
  · obtain ⟨-, -, value, hfills, hslot⟩ := unbound_eq_ok.mp hunbound
    cases hslot
    obtain ⟨s, hs, rfl⟩ := literal_of_missing hnull hfills hexpr
    cases hout
    refine ⟨rfl, List.length_replicate, fun v hv => ?_⟩
    rwa [List.eq_of_mem_replicate hv]

/-- The expression of a slot reads the rows of a file. -/
theorem IsSlot.expr_reads {kernels : Kernels} (hnull : NullScalars nullOf) {fields : List Field}
    {q : Field} {slot : Slot} (h : IsSlot nullOf fields physical q slot) {target : ArrowField}
    (htarget : fieldToArrow q = .ok target) {expr : ColumnExpr}
    (hexpr : slot.expr nullOf physical target = .ok expr) {batch : List Column} {rows : ℕ}
    (hbatch : IsBatch physical rows batch) {out : Column}
    (hout : expr.evaluate kernels batch rows = .ok out) :
    ReadsRows kernels physical batch rows q slot out := by
  obtain ⟨target', htarget', hbind⟩ := id h
  cases htarget.symm.trans htarget'
  obtain ⟨r, j, kind, hr, -, hkind, rfl⟩ | ⟨-, hunbound⟩ := bindField_eq_ok.mp hbind
  · have hp : physical[(j : ℕ)]? = some (physical.get j) := List.getElem?_eq_getElem j.isLt
    obtain ⟨input, hinput, htype, hrows, hshown⟩ := getElem?_of_forall₂ hbatch hp
    rw [expr_bound] at hexpr
    split at hexpr
    · rename_i hidentity
      cases hexpr
      rw [hp, Option.any_some] at hidentity
      obtain rfl : kind = .primitive := primitive_of_identity hidentity
      cases hinput.symm.trans (evaluate_column hout)
      refine readsRows_of_forall₂ hp hinput hrows (List.forall₂_same.mpr fun v _ => ?_)
      have hsame : target.dataType = (physical.get j).dataType := of_decide_eq_true hidentity
      exact (readsType_primitive _ _ _ _ _ _).mpr ⟨(if_pos hsame.symm).symm, Iff.rfl⟩
    · cases hexpr
      obtain ⟨input', hinput', happly⟩ := evaluate_mapped hout
      cases hinput.symm.trans hinput'
      exact readsRows_of_forall₂ hp hinput hrows
        (readsBelow hnull q (toArrow_of_fieldToArrow htarget) hkind happly htype hshown hrows)
  · obtain ⟨-, -, value, -, rfl⟩ := unbound_eq_ok.mp hunbound
    obtain ⟨-, hrows, hdefaults⟩ := h.defaults_of_unbound hnull htarget hexpr hout
    refine ⟨hrows, fun i hi => (readsField_missing _ _ _ _ _ _).mpr (hdefaults _ ?_)⟩
    rw [List.getD_eq_getElem?_getD, List.getElem?_eq_getElem (hrows ▸ hi), Option.getD_some]
    exact List.getElem_mem _

/-- A default of a valid schema converts when it fits its column. -/
theorem defaultConverts_of_validate (hnull : NullScalars nullOf) (hquery : query.validate = .ok ())
    {f : Field} (hf : f ∈ query.flatten) (hfits : DecimalFits f) : DefaultConverts nullOf f := by
  intro v d hv harrow
  obtain ⟨depth, hshape⟩ := Schema.shape_of_mem_flatten hquery hf
  have hdefaults := validateDefaults_eq_ok.mp (Field.shape_iff.mp hshape).1.defaults_ok v
    (by rw [Field.defaults, hv]; exact List.mem_append_left _ List.mem_cons_self)
  exact scalar_ne_none hnull (validateDefault_eq_ok.mp hdefaults).2.1 harrow
    fun p s u hdecimal => hfits p s u (hdecimal ▸ hv)

/-- Every slot of a query field has an expression. -/
theorem IsSlot.exists_expr (hnull : NullScalars nullOf) {fields : List Field} {q : Field}
    {slot : Slot} (h : IsSlot nullOf fields physical q slot) {target : ArrowField}
    (htarget : fieldToArrow q = .ok target) :
    ∃ expr, slot.expr nullOf physical target = .ok expr := by
  obtain ⟨target', htarget', hbind⟩ := h
  cases htarget.symm.trans htarget'
  obtain ⟨dataType, htype, rfl⟩ := fieldToArrow_eq_ok.mp htarget
  obtain ⟨r, j, kind, hr, -, hkind, rfl⟩ | ⟨-, hunbound⟩ := bindField_eq_ok.mp hbind
  · rw [expr_bound]
    split
    · exact ⟨_, rfl⟩
    · exact ⟨_, rfl⟩
  · obtain ⟨-, -, value, -, rfl⟩ := unbound_eq_ok.mp hunbound
    cases value with
    | some value => exact ⟨_, rfl⟩
    | none =>
      obtain ⟨s, hs⟩ := Option.ne_none_iff_exists'.mp (hnull.total htype)
      rw [expr_null]
      dsimp only [ArrowField.dataType]
      rw [hs]
      exact ⟨_, rfl⟩

/-- Within a family an adapter exists for every file in matching form. -/
theorem exists_adapter (hnull : NullScalars nullOf) {ss : List Schema} (hfamily : SchemaFamily ss)
    (hquery : query ∈ ss) (hrecorded : recorded ∈ ss) (hlogical : schemaToArrow query = .ok logical)
    (hids : ∃ seen, ArrowField.validateIds ∅ physical = .ok seen)
    (hmatches : MatchesFields true physical recorded.fields)
    (hfits : ∀ f ∈ query.flatten, f.required = false → DecimalFits f) :
    ∃ columns, create nullOf query recorded logical physical = .ok columns := by
  have hvalid := hfamily.valid hquery
  have hdefaults : ∀ f ∈ query.flatten, f.required = false → DefaultConverts nullOf f :=
    fun f hf hoptional => defaultConverts_of_validate hnull hvalid hf (hfits f hf hoptional)
  have hcolumn : ∀ q ∈ query.fields, ∃ c : String × ColumnExpr, ∃ target slot,
      fieldToArrow q = .ok target ∧
        bindField nullOf q (recorded.fields.find? fun f => f.fieldId == q.fieldId) physical
          target = .ok slot ∧
        c.1 = q.name ∧ slot.expr nullOf physical target = .ok c.2 := by
    intro q hq
    obtain ⟨target, -, htarget⟩ := find_column hvalid hlogical hq
    obtain ⟨slot, hslot⟩ := exists_slots hfamily hquery hrecorded SameLevel.roots
      (fun c _ => bindsBelow hfamily hquery hrecorded hdefaults c) hdefaults hmatches hq htarget
    obtain ⟨expr, hexpr⟩ := IsSlot.exists_expr hnull ⟨target, htarget, hslot⟩ htarget
    exact ⟨(q.name, expr), target, slot, htarget, hslot, rfl, hexpr⟩
  obtain ⟨columns, hcolumns⟩ := exists_forall₂ hcolumn
  exact ⟨columns, (create_eq_ok hvalid hlogical).mpr ⟨hids, hcolumns⟩⟩

/-- A valid schema has distinctly named fields at every level. -/
theorem hasDistinctNames_of_validate {s : Schema} (h : s.validate = .ok ()) {r : Field}
    (hr : r ∈ s.fields) : HasDistinctNames r := by
  intro g hg fields hfields
  obtain ⟨depth, hshape⟩ := Schema.shape_of_mem_flatten h (List.mem_flatMap.mpr ⟨r, hr, hg⟩)
  have hgroup := (Field.shape_iff.mp hshape).2.1
  rw [hfields] at hgroup
  exact hgroup.2

/-- A valid schema's fields have distinct identifiers, below each other and side by side. -/
theorem hasDistinctIds_of_validate {s : Schema} (h : s.validate = .ok ()) :
    (s.fields.map Field.fieldId).Nodup ∧ ∀ c ∈ s.fields, HasDistinctIds c := by
  have hnodup := Schema.nodup_of_validate h
  rw [Schema.flatten, List.map_flatMap] at hnodup
  exact nodup_of_flatMap hnodup

/-- **The schema adapter follows field identifiers.** At every level of a created adapter a query
field is bound to a field of the file that stands for it, or it is optional and unbound; distinct
query fields are bound to distinct fields; and every row of a batch reads the values of the bound
fields, cast and null where they are, and the defaults of the unbound ones.
For two schemas of one family, an adapter is created for every file whose identifiers are
unambiguous and whose columns of recorded fields have matching form, when the decimal defaults of
optional query fields fit their columns. -/
theorem adapter_follows_fieldIds (hnull : NullScalars nullOf) (hquery : query.validate = .ok ())
    (hrecorded : recorded.validate = .ok ()) (hlogical : schemaToArrow query = .ok logical) :
    (∀ columns, create nullOf query recorded logical physical = .ok columns →
      ∃ slots, List.Forall₂ (IsSlot nullOf recorded.fields physical) query.fields slots ∧
        AreExpressions nullOf physical query.fields slots columns ∧
        (∀ b ∈ bindingsFields [] query.fields slots,
          b.Sound recorded physical (bindingsFields [] query.fields slots)) ∧
        Apart (bindingsFields [] query.fields slots) ∧
        (∀ f ∈ query.flatten, Covers (bindingsFields [] query.fields slots) f) ∧
        ∀ (kernels : Kernels) (batch : List Column) (rows : ℕ), IsBatch physical rows batch →
          ∀ q slot name expr out, ((q, slot), (name, expr)) ∈ (query.fields.zip slots).zip columns →
            expr.evaluate kernels batch rows = .ok out →
            ReadsRows kernels physical batch rows q slot out) ∧
      ∀ ss, SchemaFamily ss → query ∈ ss → recorded ∈ ss →
        (∃ seen, ArrowField.validateIds ∅ physical = .ok seen) →
        MatchesFields true physical recorded.fields →
        (∀ f ∈ query.flatten, f.required = false → DecimalFits f) →
        ∃ columns, create nullOf query recorded logical physical = .ok columns := by
  constructor
  · intro columns hcreate
    obtain ⟨slots, hslots, hcolumns⟩ := exists_slots_of_create hquery hlogical hcreate
    refine ⟨slots, hslots, hcolumns, ?_, ?_, ?_, ?_⟩
    · exact siblings_sound (fun c _ => soundBelow c)
        (fun c hc g hg => Schema.fieldId_ne_zero_of_validate hquery
          (List.mem_flatMap.mpr ⟨c, hc, hg⟩))
        (fun r hr => Schema.mem_flatten_of_mem_fields hr) hslots
        (fun i => rfl) (List.Subset.refl _)
    · obtain ⟨hids, hbelow⟩ := hasDistinctIds_of_validate hquery
      exact apart_siblings (fun c _ => apartBelow c) hids hbelow
        (Schema.validate_eq_ok.mp hrecorded).2.1
        (fun r hr => hasDistinctNames_of_validate hrecorded hr) hslots []
    · exact covers_siblings (fun c _ => coversBelow c) hslots []
    · intro kernels batch rows hbatch q slot name expr out hmem hout
      obtain ⟨-, target, htarget, hexpr⟩ := List.forall₂_zip hcolumns hmem
      have hslot := List.forall₂_zip hslots (List.of_mem_zip hmem).1
      exact hslot.expr_reads hnull htarget hexpr hbatch hout
  · intro ss hfamily hq hr hids hmatches hfits
    exact exists_adapter hnull hfamily hq hr hlogical hids hmatches hfits

end Create

section Samples

/-- An engine with a null scalar for every column. -/
private def plainNull (d : DataType) : Option ScalarValue := some (.null d)

/-- The null scalars of this engine are nulls, one for every type. -/
private theorem nullScalars_plainNull : NullScalars plainNull where
  null h := (Option.some.inj h).symm
  total _ := Option.some_ne_none _

/-- A first schema with one field. -/
private def rootSchema (field : Field) : Schema where
  schemaId := 1
  parentSchemaId := none
  fields := [field]
  identifierFieldIds := []
  doc := none

/-- An optional boolean field. -/
private def flag : Field := .mk 1 "a" false .boolean none none none

/-- A decimal whose default needs seventeen bytes. -/
private def wideDecimal : Field :=
  .mk 1 "a" false (.decimal 38 0) none (some (.decimal 38 0 (1 :: List.replicate 16 0))) none

/-- A physical column with the identifier 1. -/
private def column (dataType : DataType) : ArrowField :=
  .mk "a" dataType true [("PARQUET:field_id", "1")]

/-- The struct of a first schema, and the same struct with one more field. -/
private def narrowStruct : Field :=
  .mk 1 "s" false (.struct [.mk 2 "x" false .int64 none none none]) none none none

/-- The struct of the second schema, with a field that the file does not have. -/
private def wideStruct : Field :=
  .mk 1 "s" false (.struct [.mk 2 "x" false .int64 none none none,
    .mk 3 "y" false .boolean none (some (.boolean true)) none]) none none none

/-- A column that the second schema adds, with a default. -/
private def addedFlag : Field := .mk 4 "c" false .boolean none (some (.boolean false)) none

/-- A schema that grew by a nested field and by a column. -/
private def grownSchema : Schema where
  schemaId := 2
  parentSchemaId := some 1
  fields := [wideStruct, addedFlag]
  identifierFieldIds := []
  doc := none

/-- The schema that the file was written with. -/
private def grownRoot : Schema := rootSchema narrowStruct

/-- The narrow column inside the struct of the file. -/
private def xColumn : ArrowField := .mk "x" .int32 true [("PARQUET:field_id", "2")]

/-- The columns of a file, where the field of the struct is narrower than in the schema. -/
private def structColumns : List ArrowField :=
  [.mk "s" (.struct [xColumn]) true [("PARQUET:field_id", "1")]]

/-- The columns of a query on the grown schema. -/
private def grownColumns : List ArrowField :=
  [.mk "s" (.struct [.mk "x" .int64 true [("PARQUET:field_id", "2")],
      .mk "y" .boolean true [("PARQUET:field_id", "3")]]) true [("PARQUET:field_id", "1")],
    .mk "c" .boolean true [("PARQUET:field_id", "4")]]

/-- The grown schema belongs to a family: it adds identifiers that its parent does not have. -/
private theorem grown_family : SchemaFamily [grownSchema, grownRoot] :=
  @SchemaFamily.evolve [grownRoot] grownRoot grownSchema [3, 4] (.root (by decide +kernel))
    List.mem_cons_self (by decide +kernel) fun s hs id hid => by
      obtain rfl := List.mem_singleton.mp hs
      have hthree : 3 ∉ grownRoot.flatten.map Field.fieldId := by decide +kernel
      have hfour : 4 ∉ grownRoot.flatten.map Field.fieldId := by decide +kernel
      have hfresh : ∀ id ∈ ([3, 4] : List UInt32), id ∉ grownRoot.flatten.map Field.fieldId :=
        List.forall_mem_cons.mpr ⟨hthree, List.forall_mem_singleton.mpr hfour⟩
      exact hfresh id hid

/-- A value of a wider column. -/
private def widened (target : DataType) : RowValue → RowValue
  | .scalar (.int32 value) =>
    if target = .int64 then .scalar (.int64 value.toInt64) else .scalar (.int32 value)
  | v => v

/-- Widening makes no nulls and loses none. -/
private theorem widened_eq_null (target : DataType) (v : RowValue) :
    widened target v = .null ↔ v = .null := by
  unfold widened
  split
  · split
    · exact ⟨fun h => (by cases h), fun h => (by cases h)⟩
    · exact ⟨fun h => (by cases h), fun h => (by cases h)⟩
  · exact Iff.rfl

/-- Kernels that widen integers and convert nothing else. -/
private def wideningKernels : Kernels where
  cast c t := .ok ⟨t, c.rows.map (widened t)⟩
  castValue _ := widened
  checkStruct _ _ := .ok ()
  checkList _ _ := .ok ()
  checkMap _ _ _ := .ok ()
  rows_cast h := by
    cases h
    rfl
  castValue_eq_null _ := widened_eq_null _ _

/-- A batch of a struct and a null. -/
private def structBatch : List Column :=
  [⟨.struct [xColumn], [.struct [.scalar (.int32 5)], .null]⟩]

/-- The batch is one of the file's columns, with a struct that may be null. -/
private theorem isBatch_structBatch : IsBatch structColumns 2 structBatch := by
  refine .cons ⟨rfl, rfl, fun v hv => ?_⟩ .nil
  simp only [List.mem_cons, List.not_mem_nil, or_false] at hv
  obtain rfl | rfl := hv
  · exact .inr ⟨_, rfl, trivial, trivial⟩
  · exact .inl rfl

/-- The expressions of the two columns of the grown schema. -/
private def grownExprs : List (String × ColumnExpr) :=
  [("s", .mapped 0 (.mk (grownColumns.get ⟨0, by decide⟩) (.struct
      [.mk (some 0) (.mk (.mk "x" .int64 true [("PARQUET:field_id", "2")]) .primitive),
        .mk none (.mk (.mk "y" .boolean true [("PARQUET:field_id", "3")])
          (.missing (some (.boolean true))))]))),
    ("c", .literal (.boolean false))]

/-- A field's lone column is in matching form when it carries the field's identifier. -/
private theorem matchesFields_lone {everywhere : Bool} {r : Field} {p : ArrowField}
    (hid : physicalId p = .ok (some r.fieldId))
    (htype : everywhere = true ∨ r.required = true →
      MatchesType everywhere r.fieldType p.dataType) :
    MatchesFields everywhere [p] [r] := by
  refine matchesFields_iff.mpr fun f hf => ?_
  obtain rfl := List.mem_singleton.mp hf
  refine matchesField_iff.mpr ⟨fun hwhen => ⟨?_, ?_, ?_⟩, fun _ => ?_⟩
  · intro c hc
    obtain rfl := List.mem_singleton.mp hc
    exact ⟨_, hid⟩
  · intro i j _ _
    have hi : (i : ℕ) < 1 := i.isLt
    have hj : (j : ℕ) < 1 := j.isLt
    ext
    omega
  · intro c hc _
    obtain rfl := List.mem_singleton.mp hc
    exact htype hwhen
  · exact ⟨p, List.mem_cons_self, .inl hid⟩

/-- A file of the first schema is read under the second one: in each row the struct's old field is
widened, its new field holds the default, a null struct stays null, and the new column holds its
default. -/
theorem adapter_follows_fieldIds_grown :
    create plainNull grownSchema grownRoot grownColumns structColumns = .ok grownExprs ∧
      ∃ slot slot' structs flags,
        Apart (bindingsFields [] grownSchema.fields [slot, slot']) ∧
        ReadsRows wideningKernels structColumns structBatch 2 wideStruct slot structs ∧
        structs.rows = [.struct [.scalar (.int64 5), .scalar (.boolean true)], .null] ∧
        ReadsRows wideningKernels structColumns structBatch 2 addedFlag slot' flags ∧
        flags.rows = [.scalar (.boolean false), .scalar (.boolean false)] := by
  have h := @adapter_follows_fieldIds plainNull grownSchema grownRoot grownColumns structColumns
    nullScalars_plainNull (by decide +kernel) (by decide +kernel) (by decide +kernel)
  have hmatches : MatchesFields true structColumns grownRoot.fields :=
    matchesFields_lone (by decide +kernel) fun _ =>
      matchesFields_lone (by decide +kernel) fun _ => ⟨.int64, rfl, by decide +kernel⟩
  obtain ⟨columns, hcolumns⟩ := h.2 _ grown_family List.mem_cons_self
    (List.mem_cons_of_mem _ List.mem_cons_self) ⟨_, rfl⟩ hmatches
    (by
      intro f hf _ p s u hdecimal
      have hnone : ∀ f ∈ grownSchema.flatten, f.initialDefault = none ∨
          f.initialDefault = some (.boolean true) ∨ f.initialDefault = some (.boolean false) := by
        decide +kernel
      obtain hno | hno | hno := hnone f hf <;> rw [hno] at hdecimal <;> cases hdecimal)
  have hcreate : create plainNull grownSchema grownRoot grownColumns structColumns =
      .ok grownExprs := rfl
  cases hcreate.symm.trans hcolumns
  obtain ⟨slots, hslots, hexpressions, -, hapart, -, hreads⟩ := h.1 _ hcreate
  obtain ⟨slot, rest, -, hrest, rfl⟩ := List.forall₂_cons_left_iff.mp hslots
  obtain ⟨slot', rest, -, hrest, rfl⟩ := List.forall₂_cons_left_iff.mp hrest
  cases hrest
  exact ⟨hcreate, slot, slot', _, _, hapart,
    hreads wideningKernels structBatch 2 isBatch_structBatch wideStruct slot _ _ _
      List.mem_cons_self rfl, rfl,
    hreads wideningKernels structBatch 2 isBatch_structBatch addedFlag slot' _ _ _
      (List.mem_cons_of_mem _ List.mem_cons_self) rfl, rfl⟩

/-- Matching columns of the required fields alone are not enough: an optional field may be held in
another type. Nor is a matching column of every recorded field enough: a default may be too wide
for its column. -/
theorem not_adapter_of_required_matches :
    (¬ ∀ (nullOf : DataType → Option ScalarValue) (ss : List Schema) (query recorded : Schema)
      (logical physical : List ArrowField), NullScalars nullOf → SchemaFamily ss → query ∈ ss →
      recorded ∈ ss → schemaToArrow query = .ok logical →
      (∃ seen, ArrowField.validateIds ∅ physical = .ok seen) →
      MatchesFields false physical recorded.fields →
      (∀ f ∈ query.flatten, f.required = false → DecimalFits f) →
      ∃ columns, create nullOf query recorded logical physical = .ok columns) ∧
    ¬ ∀ (nullOf : DataType → Option ScalarValue) (ss : List Schema) (query recorded : Schema)
      (logical physical : List ArrowField), NullScalars nullOf → SchemaFamily ss → query ∈ ss →
      recorded ∈ ss → schemaToArrow query = .ok logical →
      (∃ seen, ArrowField.validateIds ∅ physical = .ok seen) →
      MatchesFields true physical recorded.fields →
      ∃ columns, create nullOf query recorded logical physical = .ok columns := by
  constructor
  · intro h
    obtain ⟨columns, hcolumns⟩ := h plainNull [rootSchema flag] (rootSchema flag) (rootSchema flag)
      [column .boolean] [column .utf8] nullScalars_plainNull (.root (by decide +kernel))
      List.mem_cons_self List.mem_cons_self (by decide +kernel) ⟨_, rfl⟩
      (matchesFields_lone (by decide +kernel) fun hwhen => by
        obtain hwhen | hwhen := hwhen
        · cases hwhen
        · cases hwhen)
      (by
        intro f hf _ p s u hdecimal
        have hmem : f ∈ [flag] := hf
        obtain rfl := List.mem_singleton.mp hmem
        cases hdecimal)
    cases hcolumns
  · intro h
    obtain ⟨columns, hcolumns⟩ := h plainNull [rootSchema wideDecimal] (rootSchema wideDecimal)
      (rootSchema wideDecimal) [column (.decimal128 38 0)] [] nullScalars_plainNull
      (.root (by decide +kernel)) List.mem_cons_self List.mem_cons_self (by decide +kernel) ⟨_, rfl⟩
      (matchesFields_iff.mpr fun f hf => by
        have hmem : f ∈ [wideDecimal] := hf
        obtain rfl := List.mem_singleton.mp hmem
        exact matchesField_iff.mpr ⟨fun _ => ⟨fun p hp => (by cases hp), fun i => i.elim0,
          fun p hp => (by cases hp)⟩, fun hrequired => (by cases hrequired)⟩)
    cases hcolumns

end Samples

end Otmp.DataFusion
