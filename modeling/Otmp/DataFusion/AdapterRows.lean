import Otmp.DataFusion.AdapterPlaces
import Otmp.DataFusion.Meaning

/-!
# What the adapter reads

The columns of an adapter keep the rows of a file. At every level a bound query field reads the
value of the physical field it is bound to, cast to the query's type and null exactly where that
value is, and an unbound query field holds its initial default, or a null when it has none.
-/

namespace Otmp.DataFusion

open Foundation

section Shows

mutual

/-- An array of a type shows a value: a struct with one value for each field, a list of values of
the element's type, or a map with as many values as keys. Any value may be null. -/
def DataType.Shows : DataType → RowValue → Prop
  | .struct fields, v => v = .null ∨ ∃ values, v = .struct values ∧ ArrowField.ShowAll fields values
  | .list element, v => v = .null ∨ ∃ values, v = .list values ∧ ∀ x ∈ values, element.Shows x
  | .map entries _, v => v = .null ∨ ∃ keys values, v = .map keys values ∧
      keys.length = values.length ∧
      ∀ x ∈ List.zipWith (fun k v => .struct [k, v]) keys values, entries.Shows x
  | _, _ => True
termination_by structural t => t

/-- The array of a field shows a value when the value has the form of the field's type. -/
def ArrowField.Shows : ArrowField → RowValue → Prop
  | .mk _ dataType _ _, v => dataType.Shows v
termination_by structural f => f

/-- The arrays of some fields show one value each. -/
def ArrowField.ShowAll : List ArrowField → List RowValue → Prop
  | field :: fields, v :: vs => field.Shows v ∧ ArrowField.ShowAll fields vs
  | [], [] => True
  | _, _ => False
termination_by structural fields => fields

end

/-- A field shows the values that its type shows. -/
theorem ArrowField.shows_iff (f : ArrowField) (v : RowValue) : f.Shows v ↔ f.dataType.Shows v := by
  cases f
  exact Iff.rfl

/-- Every array shows nulls, whatever its type is. -/
theorem DataType.shows_null (t : DataType) : t.Shows .null := by
  cases t <;> first | exact .inl rfl | exact trivial

/-- Each field of a shown struct has a value that the field's array shows. -/
theorem ArrowField.ShowAll.exists_value {fields : List ArrowField} {values : List RowValue}
    (h : ArrowField.ShowAll fields values) {i : ℕ} {p : ArrowField} (hp : fields[i]? = some p) :
    ∃ x, values[i]? = some x ∧ p.dataType.Shows x := by
  induction fields generalizing values i with
  | nil => cases hp
  | cons f fields ih =>
    cases values with
    | nil => cases h
    | cons v vs =>
      cases i with
      | zero =>
        cases hp
        exact ⟨v, rfl, (p.shows_iff v).mp h.1⟩
      | succ i => exact ih h.2 hp

end Shows

section Reads

/-- A value is the initial default of a query field, as a scalar of the field's column that means
the default, or a null when the field has none. -/
def Defaults (query : Field) (target : ArrowField) (value : RowValue) : Prop :=
  match query.initialDefault with
  | none => value = .null
  | some v => ∃ s, Means target.dataType v s ∧ value = RowValue.ofScalar s

variable (kernels : Kernels)

/-- A value of one column as a value of another one: the same where the types are, and otherwise
what the engine casts it to. -/
def Kernels.convert (source target : DataType) (v : RowValue) : RowValue :=
  if source = target then v else kernels.castValue source target v

mutual

/-- A value is read from a value of a bound column: both are null, or neither is, and then it is
the converted value, or its fields, elements, keys and values are read from those of the bound
one. -/
def ReadsType : LogicalType → Mapping → DataType → RowValue → RowValue → Prop
  | .struct queries, .mk _ (.struct slots), .struct types, v, out =>
    v = .null ∧ out = .null ∨ ∃ values outs, v = .struct values ∧ out = .struct outs ∧
      ReadsFields queries slots types values outs
  | .list element, .mk _ (.list mapping), .list source, v, out =>
    v = .null ∧ out = .null ∨ ∃ values outs, v = .list values ∧ out = .list outs ∧
      List.Forall₂ (ReadsBound element mapping source.dataType) values outs
  | .map key value, .mk _ (.map keySlot valueSlot),
      .map (.mk _ (.struct [keySource, valueSource]) _ _) _, v, out =>
    v = .null ∧ out = .null ∨ ∃ keys values keys' values', v = .map keys values ∧
      out = .map keys' values' ∧
      List.Forall₂ (ReadsBound key keySlot.mapping keySource.dataType) keys keys' ∧
      List.Forall₂ (ReadsBound value valueSlot.mapping valueSource.dataType) values values'
  | _, .mk target .primitive, source, v, out =>
    out = kernels.convert source target.dataType v ∧ (out = .null ↔ v = .null)
  | _, _, _, _, _ => False
termination_by structural query => query

/-- A value of a bound query field is read from a value of its column. -/
def ReadsBound : Field → Mapping → DataType → RowValue → RowValue → Prop
  | .mk _ _ _ fieldType _ _ _, mapping, source, v, out => ReadsType fieldType mapping source v out
termination_by structural query => query

/-- A value of a query field is read from a row of columns: from the value of the column that the
field is bound to, or else it is the default. -/
def ReadsField : Field → Slot → List ArrowField → List RowValue → RowValue → Prop
  | .mk fieldId name required fieldType doc initialDefault writeDefault, slot, types, row, out =>
    match slot.index with
    | none => Defaults (.mk fieldId name required fieldType doc initialDefault writeDefault)
        slot.mapping.target out
    | some index => ∃ p v, types[index]? = some p ∧ row[index]? = some v ∧
        ReadsType fieldType slot.mapping p.dataType v out
termination_by structural query => query

/-- The values of query fields are read from one row of columns. -/
def ReadsFields : List Field → List Slot → List ArrowField → List RowValue → List RowValue → Prop
  | query :: queries, slot :: slots, types, row, out :: outs =>
    ReadsField query slot types row out ∧ ReadsFields queries slots types row outs
  | [], [], _, _, [] => True
  | _, _, _, _, _ => False
termination_by structural queries => queries

end

/-- Where the adapter allows the conversion, it neither makes nor drops a null. -/
theorem Kernels.convert_eq_null {source target : DataType} {v : RowValue}
    (h : compatible source target = true) :
    kernels.convert source target v = .null ↔ v = .null := by
  rw [convert]
  split
  · exact Iff.rfl
  · exact kernels.castValue_eq_null h

/-- What is read for a bound field is what is read for its type. -/
theorem readsBound_iff (query : Field) (mapping : Mapping) (source : DataType) (v out : RowValue) :
    ReadsBound kernels query mapping source v out ↔
      ReadsType kernels query.fieldType mapping source v out := by
  cases query
  exact Iff.rfl

/-- What is read for a missing field is its default or null. -/
theorem readsField_missing (query : Field) (mapping : Mapping) (types : List ArrowField)
    (row : List RowValue) (out : RowValue) :
    ReadsField kernels query (.mk none mapping) types row out ↔
      Defaults query mapping.target out := by
  cases query
  exact Iff.rfl

/-- What is read for a field that is bound to a column is read from the value of that column. -/
theorem readsField_bound (query : Field) (index : ℕ) (mapping : Mapping) (types : List ArrowField)
    (row : List RowValue) (out : RowValue) :
    ReadsField kernels query (.mk (some index) mapping) types row out ↔
      ∃ p v, types[index]? = some p ∧ row[index]? = some v ∧
        ReadsType kernels query.fieldType mapping p.dataType v out := by
  cases query
  exact Iff.rfl

/-- What is read for a type without nested fields is the converted value, null where it was null. -/
theorem readsType_primitive (t : LogicalType) (target : ArrowField) (source : DataType)
    (v out : RowValue) : ReadsType kernels t (.mk target .primitive) source v out ↔
      out = kernels.convert source target.dataType v ∧ (out = .null ↔ v = .null) := by
  cases t <;> exact Iff.rfl

end Reads

section Rows

variable {R : RowValue → RowValue → Prop}

/-- Lists split off as many elements as the source's lists have, so they relate to them element by
element when all elements do. -/
theorem forall₂_listRows {rows elements : List RowValue}
    (hlists : ∀ v ∈ rows, v = .null ∨ ∃ values, v = .list values)
    (h : List.Forall₂ R (rows.flatMap RowValue.elements) elements) :
    List.Forall₂ (fun v out => v = .null ∧ out = .null ∨ ∃ values outs, v = .list values ∧
      out = .list outs ∧ List.Forall₂ R values outs) rows (Column.listRows rows elements) := by
  induction rows generalizing elements with
  | nil => exact .nil
  | cons row rows ih =>
    obtain ⟨hrow, hrows⟩ := List.forall_mem_cons.mp hlists
    rw [List.flatMap_cons] at h
    obtain rfl | ⟨values, rfl⟩ := hrow
    · exact .cons (.inl ⟨rfl, rfl⟩) (ih hrows h)
    · have hfirst := List.forall₂_take values.length h
      have hrest := List.forall₂_drop values.length h
      rw [RowValue.elements, List.take_left] at hfirst
      rw [RowValue.elements, List.drop_left] at hrest
      exact .cons (.inr ⟨values, _, rfl, rfl, hfirst⟩) (ih hrows hrest)

variable {S : RowValue → RowValue → Prop}

/-- Maps split off as many keys and values as the source's maps have, so they relate to them entry
by entry when all entries do. -/
theorem forall₂_mapRows {rows keys values : List RowValue}
    (hmaps : ∀ v ∈ rows, v = .null ∨ ∃ ks vs, v = .map ks vs ∧ ks.length = vs.length)
    (hkeys : List.Forall₂ R (rows.flatMap RowValue.keys) keys)
    (hvalues : List.Forall₂ S (rows.flatMap RowValue.values) values) :
    List.Forall₂ (fun v out => v = .null ∧ out = .null ∨ ∃ ks vs ks' vs', v = .map ks vs ∧
      out = .map ks' vs' ∧ List.Forall₂ R ks ks' ∧ List.Forall₂ S vs vs') rows
      (Column.mapRows rows keys values) := by
  induction rows generalizing keys values with
  | nil => exact .nil
  | cons row rows ih =>
    obtain ⟨hrow, hrows⟩ := List.forall_mem_cons.mp hmaps
    rw [List.flatMap_cons] at hkeys hvalues
    obtain rfl | ⟨ks, vs, rfl, hlength⟩ := hrow
    · exact .cons (.inl ⟨rfl, rfl⟩) (ih hrows hkeys hvalues)
    · have hfirst := List.forall₂_take ks.length hkeys
      have hrest := List.forall₂_drop ks.length hkeys
      have hfirst' := List.forall₂_take ks.length hvalues
      have hrest' := List.forall₂_drop ks.length hvalues
      rw [RowValue.keys, List.take_left] at hfirst
      rw [RowValue.keys, List.drop_left] at hrest
      rw [RowValue.values, hlength, List.take_left] at hfirst'
      rw [RowValue.values, hlength, List.drop_left] at hrest'
      rw [← hlength] at hfirst' hrest'
      exact .cons (.inr ⟨ks, vs, _, _, rfl, rfl, hfirst, hfirst'⟩) (ih hrows hrest hrest')

/-- Structs take their fields from one row of the columns. -/
theorem forall₂_structRows {rows : List RowValue} {columns : List Column}
    {P : List RowValue → List RowValue → Prop}
    (hstructs : ∀ v ∈ rows, v = .null ∨ ∃ values, v = .struct values)
    (h : ∀ (i : ℕ) (values : List RowValue), rows[i]? = some (.struct values) →
      P values (columns.map fun c => c.rows.getD i .null)) :
    List.Forall₂ (fun v out => v = .null ∧ out = .null ∨ ∃ values outs, v = .struct values ∧
      out = .struct outs ∧ P values outs) rows (Column.structRows rows columns) := by
  refine List.forall₂_iff_get.mpr ⟨?_, fun i hi hi' => ?_⟩
  · rw [Column.structRows, List.length_map, List.length_zipIdx]
  · have hout : (Column.structRows rows columns).get ⟨i, hi'⟩ =
        if (rows.get ⟨i, hi⟩).isNull then .null
        else .struct (columns.map fun c => c.rows.getD i .null) := by
      simp [Column.structRows]
    have hfound : rows[i]? = some (rows.get ⟨i, hi⟩) := List.getElem?_eq_getElem hi
    rw [hout]
    obtain hnull | ⟨values, hvalues⟩ := hstructs _ (List.get_mem rows ⟨i, hi⟩)
    · rw [hnull]
      exact .inl ⟨rfl, rfl⟩
    · rw [hvalues] at hfound ⊢
      exact .inr ⟨values, _, rfl, rfl, h i values hfound⟩

end Rows

section Apply

variable {nullOf : DataType → Option ScalarValue} {kernels : Kernels}

/-- The column of a bound field is read from the column it is bound to, row by row. -/
def ReadsBelow (nullOf : DataType → Option ScalarValue) (kernels : Kernels) (q : Field) : Prop :=
  ∀ {name : String} {r : LogicalType} {source : DataType} {kind : Kind} {target : ArrowField}
    {input out : Column} {len : ℕ},
    LogicalType.toArrow q.fieldType = .ok target.dataType →
    bindType nullOf name q.fieldType r source target.dataType = .ok kind →
    kind.apply kernels target (some input) len = .ok out → input.dataType = source →
    (∀ v ∈ input.rows, source.Shows v) → input.rows.length = len →
    List.Forall₂ (ReadsType kernels q.fieldType (.mk target kind) source) input.rows out.rows

/-- The column of a field has the field's type. -/
theorem toArrow_of_fieldToArrow {q : Field} {target : ArrowField}
    (h : fieldToArrow q = .ok target) : LogicalType.toArrow q.fieldType = .ok target.dataType := by
  obtain ⟨dataType, htype, rfl⟩ := fieldToArrow_eq_ok.mp h
  exact htype

/-- What fills a query field is its default. -/
theorem defaults_of_fills (hnull : NullScalars nullOf) {q : Field} {target : ArrowField}
    {value : Option ScalarValue} (h : Fills nullOf q target value) :
    Defaults q target ((value.map RowValue.ofScalar).getD .null) := by
  unfold Fills at h
  unfold Defaults
  cases hdefault : q.initialDefault with
  | none =>
    rw [hdefault] at h
    obtain rfl : value = none := h
    rfl
  | some d =>
    rw [hdefault] at h
    obtain ⟨hscalar, hsome⟩ := h
    obtain ⟨s, rfl⟩ := Option.ne_none_iff_exists'.mp hsome
    exact ⟨s, means_of_scalar hnull hscalar.symm, rfl⟩

/-- A filled column holds the default in every row. -/
theorem missing_reads (hnull : NullScalars nullOf) {q : Field} {target : ArrowField}
    {value : Option ScalarValue} (h : Fills nullOf q target value) {input : Option Column}
    {out : Column} {len : ℕ}
    (happly : (Kind.missing value).apply kernels target input len = .ok out) :
    out.rows.length = len ∧ ∀ v ∈ out.rows, Defaults q target v := by
  have hdefault := defaults_of_fills hnull h
  cases value with
  | none =>
    cases happly
    refine ⟨List.length_replicate, fun v hv => ?_⟩
    rwa [List.eq_of_mem_replicate hv]
  | some s =>
    cases happly
    refine ⟨List.length_replicate, fun v hv => ?_⟩
    rwa [List.eq_of_mem_replicate hv]

/-- The column of a struct's field shows values of the field. -/
theorem shows_child {input : Column} {types : List ArrowField} {index : ℕ} {p : ArrowField}
    (hp : types[index]? = some p) (hshown : ∀ v ∈ input.rows, (DataType.struct types).Shows v) :
    (input.child types index).dataType = p.dataType ∧
      ∀ v ∈ (input.child types index).rows, p.dataType.Shows v := by
  refine ⟨by rw [Column.child, hp]; rfl, fun v hv => ?_⟩
  obtain ⟨row, hrow, rfl⟩ := List.mem_map.mp hv
  obtain rfl | ⟨values, rfl, hvalues⟩ := hshown row hrow
  · exact p.dataType.shows_null
  · obtain ⟨x, hx, hshows⟩ := hvalues.exists_value hp
    rwa [RowValue.field, List.getD_eq_getElem?_getD, hx]

/-- The column of a slot is read from the columns of a struct, in each row that is not null. -/
theorem IsSlot.reads (hnull : NullScalars nullOf) {fields : List Field} {types : List ArrowField}
    {q : Field} {slot : Slot} (h : IsSlot nullOf fields types q slot)
    (ih : ReadsBelow nullOf kernels q) {input out : Column} {len : ℕ}
    (happly : slot.apply kernels input types len = .ok out) (hlength : input.rows.length = len)
    (hshown : ∀ v ∈ input.rows, (DataType.struct types).Shows v) {i : ℕ} {values : List RowValue}
    (hi : input.rows[i]? = some (.struct values)) :
    ReadsField kernels q slot types values (out.rows.getD i .null) := by
  obtain ⟨target, htarget, hbind⟩ := h
  have htype := toArrow_of_fieldToArrow htarget
  obtain ⟨r, j, kind, hr, -, hkind, rfl⟩ | ⟨-, hunbound⟩ := bindField_eq_ok.mp hbind
  · have hp : types[(j : ℕ)]? = some (types.get j) := List.getElem?_eq_getElem j.isLt
    obtain ⟨hchild, hchildShown⟩ := shows_child hp hshown
    have hchildLength : (input.child types j).rows.length = len := by
      rw [← hlength]
      exact List.length_map _
    have hreads := ih htype hkind happly hchild hchildShown hchildLength
    have hvalues := hshown _ (List.mem_of_getElem? hi)
    obtain hstruct | ⟨values', hstruct, hall⟩ := hvalues
    · cases hstruct
    · cases hstruct
      obtain ⟨x, hx, -⟩ := hall.exists_value hp
      have hrow : (input.child types j).rows[i]? = some x := by
        rw [Column.child, List.getElem?_map, hi, Option.map_some, RowValue.field,
          List.getD_eq_getElem?_getD, hx, Option.getD_some]
      obtain ⟨o, ho, hread⟩ := getElem?_of_forall₂ hreads hrow
      rw [List.getD_eq_getElem?_getD, ho, Option.getD_some]
      exact (readsField_bound _ _ _ _ _ _ _).mpr ⟨_, x, hp, hx, hread⟩
  · obtain ⟨-, -, value, hfills, rfl⟩ := unbound_eq_ok.mp hunbound
    obtain ⟨hrows, hdefaults⟩ := missing_reads hnull hfills happly
    have hlt : i < out.rows.length := by
      rw [hrows, ← hlength]
      exact (List.getElem?_eq_some_iff.mp hi).1
    rw [List.getD_eq_getElem?_getD, List.getElem?_eq_getElem hlt, Option.getD_some]
    exact (readsField_missing _ _ _ _ _ _).mpr (hdefaults _ (List.getElem_mem hlt))

/-- The column of a field at an intrinsic position is read from that column. -/
theorem IsElement.reads {r q : Field} {p : ArrowField} {index : ℕ} {slot : Slot}
    (h : IsElement nullOf r p index q slot) (ih : ReadsBelow nullOf kernels q)
    {input out : Column} {len : ℕ}
    (happly : slot.mapping.apply kernels (some input) len = .ok out)
    (htype : input.dataType = p.dataType) (hshown : ∀ v ∈ input.rows, p.dataType.Shows v)
    (hlength : input.rows.length = len) :
    List.Forall₂ (ReadsBound kernels q slot.mapping p.dataType) input.rows out.rows := by
  obtain ⟨target, htarget, hbind⟩ := h
  have hdata := toArrow_of_fieldToArrow htarget
  obtain ⟨-, -, kind, hkind, rfl⟩ := bindCollection_eq_ok.mp hbind
  have hreads := ih hdata hkind happly htype hshown hlength
  exact hreads.imp fun v out hread => (readsBound_iff _ _ _ _ _ _).mpr hread

/-- The slot of a field at an intrinsic position takes that column. -/
theorem IsElement.apply_eq {r q : Field} {p : ArrowField} {index : ℕ} {slot : Slot}
    (h : IsElement nullOf r p index q slot) (input : Column) (types : List ArrowField) (len : ℕ) :
    slot.apply kernels input types len =
      slot.mapping.apply kernels (some (input.child types index)) len := by
  obtain ⟨target, -, hbind⟩ := h
  obtain ⟨-, -, kind, -, rfl⟩ := bindCollection_eq_ok.mp hbind
  rfl

/-- All columns are made exactly when each of them is. -/
theorem applyAll_eq_ok {input : Column} {types : List ArrowField} {len : ℕ} {slots : List Slot}
    {columns : List Column} :
    Slot.applyAll kernels input types len slots = .ok columns ↔
      List.Forall₂ (fun slot c => Slot.apply kernels input types len slot = .ok c) slots
        columns := by
  induction slots generalizing columns with
  | nil => simp [Slot.applyAll, eq_comm]
  | cons slot slots ih =>
    rw [Slot.applyAll, bind_eq_ok, List.forall₂_cons_left_iff]
    constructor
    · rintro ⟨first, hfirst, h⟩
      obtain ⟨rest, hrest, h⟩ := bind_eq_ok.mp h
      cases h
      exact ⟨first, rest, hfirst, ih.mp hrest, rfl⟩
    · rintro ⟨first, rest, hfirst, hrest, rfl⟩
      exact ⟨first, hfirst, bind_eq_ok.mpr ⟨rest, ih.mpr hrest, rfl⟩⟩

/-- The fields of one row of the columns of slots are read from one row of the struct. -/
theorem readsFields_row (hnull : NullScalars nullOf) {fields queries : List Field}
    {slots : List Slot} {columns : List Column} {input : Column} {types : List ArrowField}
    {values : List RowValue} {len i : ℕ}
    (hslots : List.Forall₂ (IsSlot nullOf fields types) queries slots)
    (ih : ∀ c ∈ queries, ReadsBelow nullOf kernels c)
    (happly : List.Forall₂ (fun slot c => Slot.apply kernels input types len slot = .ok c) slots
      columns) (hlength : input.rows.length = len)
    (hshown : ∀ v ∈ input.rows, (DataType.struct types).Shows v)
    (hi : input.rows[i]? = some (.struct values)) :
    ReadsFields kernels queries slots types values (columns.map fun c => c.rows.getD i .null) := by
  induction hslots generalizing columns with
  | nil =>
    cases happly
    trivial
  | @cons q slot queries slots hslot _ ihrest =>
    cases happly with
    | cons hcolumn hcolumns =>
      exact ⟨hslot.reads hnull (ih q List.mem_cons_self) hcolumn hlength hshown hi,
        ihrest (fun c hc => ih c (List.mem_cons_of_mem _ hc)) hcolumns⟩

/-- A struct column is made from a struct column by making its fields. -/
theorem applyStruct {slots : List Slot} {target : ArrowField} {input out : Column} {len : ℕ}
    (h : (Kind.struct slots).apply kernels target (some input) len = .ok out) :
    ∃ types columns, input.dataType = .struct types ∧
      Slot.applyAll kernels input types len slots = .ok columns ∧
      out.rows = Column.structRows input.rows columns := by
  unfold Kind.apply at h
  split at h
  · cases ‹some input = _›
    split at h
    · obtain ⟨columns, hcolumns, h⟩ := bind_eq_ok.mp h
      cases (check_eq_ok.mp h).2
      exact ⟨_, columns, rfl, hcolumns, rfl⟩
    · cases h
  · cases h

/-- A list column is made from a list column by making its elements. -/
theorem applyList {mapping : Mapping} {target : ArrowField} {input out : Column} {len : ℕ}
    (h : (Kind.list mapping).apply kernels target (some input) len = .ok out) :
    ∃ element values, input.dataType = .list element ∧
      mapping.apply kernels
        (some ⟨element.dataType, input.rows.flatMap RowValue.elements⟩)
        (input.rows.flatMap RowValue.elements).length = .ok values ∧
      out.rows = Column.listRows input.rows values.rows := by
  unfold Kind.apply at h
  split at h
  · cases ‹some input = _›
    split at h
    · obtain ⟨values, hvalues, h⟩ := bind_eq_ok.mp h
      cases (check_eq_ok.mp h).2
      exact ⟨_, values, rfl, hvalues, rfl⟩
    · cases h
  · cases h

/-- The entries of the maps of a column, as one struct of a key and a value for each of them. -/
def Column.entries (input : Column) (types : List ArrowField) : Column :=
  ⟨.struct types, List.zipWith (fun k v => .struct [k, v]) (input.rows.flatMap RowValue.keys)
    (input.rows.flatMap RowValue.values)⟩

/-- A map column is made from a map column by making its keys and its values. -/
theorem applyMap {key value : Slot} {target : ArrowField} {input out : Column} {len : ℕ}
    (h : (Kind.map key value).apply kernels target (some input) len = .ok out) :
    ∃ name types nullable metadata sorted keys values,
      input.dataType = .map (.mk name (.struct types) nullable metadata) sorted ∧
      key.apply kernels (input.entries types) types (input.entries types).rows.length = .ok keys ∧
      value.apply kernels (input.entries types) types (input.entries types).rows.length =
        .ok values ∧
      out.rows = Column.mapRows input.rows keys.rows values.rows := by
  unfold Kind.apply at h
  split at h
  · cases ‹some input = _›
    split at h
    · obtain ⟨keys, hkeys, h⟩ := bind_eq_ok.mp h
      obtain ⟨values, hvalues, h⟩ := bind_eq_ok.mp h
      cases (check_eq_ok.mp h).2
      exact ⟨_, _, _, _, _, keys, values, rfl, hkeys, hvalues, rfl⟩
    · cases h
    · cases h
  · cases h

end Apply

section Entries

variable {rows : List RowValue} {entries sk sv : ArrowField} {sorted : Bool}

/-- The rows of a map column are nulls, or maps with as many values as keys. -/
theorem maps_of_shows (hshown : ∀ v ∈ rows, (DataType.map entries sorted).Shows v) :
    ∀ v ∈ rows, v = .null ∨ ∃ ks vs, v = .map ks vs ∧ ks.length = vs.length := by
  intro v hv
  obtain rfl | ⟨ks, vs, rfl, hlength, -⟩ := hshown v hv
  · exact .inl rfl
  · exact .inr ⟨ks, vs, rfl, hlength⟩

/-- The keys and the values of a map column are shown by the arrays of the entries. -/
theorem shows_entries (hshown : ∀ v ∈ rows, (DataType.map entries sorted).Shows v)
    (hentries : entries.dataType = .struct [sk, sv]) :
    (∀ k ∈ rows.flatMap RowValue.keys, sk.dataType.Shows k) ∧
      ∀ v ∈ rows.flatMap RowValue.values, sv.dataType.Shows v := by
  have hpair : ∀ k v, entries.Shows (.struct [k, v]) →
      sk.dataType.Shows k ∧ sv.dataType.Shows v := by
    intro k v h
    rw [entries.shows_iff, hentries] at h
    obtain h | ⟨values, hvalues, hall⟩ := h
    · cases h
    · cases hvalues
      exact ⟨(sk.shows_iff k).mp hall.1, (sv.shows_iff v).mp hall.2.1⟩
  have hentry : ∀ ks vs : List RowValue, ks.length = vs.length →
      (∀ x ∈ List.zipWith (fun k v => RowValue.struct [k, v]) ks vs, entries.Shows x) →
      (∀ k ∈ ks, sk.dataType.Shows k) ∧ ∀ v ∈ vs, sv.dataType.Shows v := by
    intro ks vs hlength hall
    induction ks generalizing vs with
    | nil =>
      obtain rfl := List.length_eq_zero_iff.mp hlength.symm
      exact ⟨fun _ h => (by cases h), fun _ h => (by cases h)⟩
    | cons k ks ih =>
      obtain ⟨v, vs, rfl⟩ := List.exists_cons_of_length_eq_add_one hlength.symm
      obtain ⟨hfirst, hrest⟩ := List.forall_mem_cons.mp hall
      obtain ⟨hks, hvs⟩ := ih vs (Nat.succ.inj hlength) hrest
      obtain ⟨hk, hv⟩ := hpair k v hfirst
      exact ⟨List.forall_mem_cons.mpr ⟨hk, hks⟩, List.forall_mem_cons.mpr ⟨hv, hvs⟩⟩
  constructor
  · intro k hk
    obtain ⟨row, hrow, hk⟩ := List.mem_flatMap.mp hk
    obtain rfl | ⟨ks, vs, rfl, hlength, hall⟩ := hshown row hrow
    · cases hk
    · exact (hentry ks vs hlength hall).1 k hk
  · intro v hv
    obtain ⟨row, hrow, hv⟩ := List.mem_flatMap.mp hv
    obtain rfl | ⟨ks, vs, rfl, hlength, hall⟩ := hshown row hrow
    · cases hv
    · exact (hentry ks vs hlength hall).2 v hv

/-- A map column has as many values as keys. -/
theorem length_values (hmaps : ∀ v ∈ rows, v = .null ∨ ∃ ks vs, v = .map ks vs ∧
    ks.length = vs.length) :
    (rows.flatMap RowValue.keys).length = (rows.flatMap RowValue.values).length := by
  induction rows with
  | nil => rfl
  | cons row rows ih =>
    obtain ⟨hrow, hrows⟩ := List.forall_mem_cons.mp hmaps
    rw [List.flatMap_cons, List.flatMap_cons, List.length_append, List.length_append, ih hrows]
    obtain rfl | ⟨ks, vs, rfl, hlength⟩ := hrow
    · rfl
    · rw [RowValue.keys, RowValue.values, hlength]

/-- The keys and the values are the two columns of the entries. -/
theorem child_entries {input : Column}
    (hmaps : ∀ v ∈ input.rows, v = .null ∨ ∃ ks vs, v = .map ks vs ∧ ks.length = vs.length) :
    (input.entries [sk, sv]).child [sk, sv] 0 =
        ⟨sk.dataType, input.rows.flatMap RowValue.keys⟩ ∧
      (input.entries [sk, sv]).child [sk, sv] 1 =
        ⟨sv.dataType, input.rows.flatMap RowValue.values⟩ ∧
      (input.entries [sk, sv]).rows.length = (input.rows.flatMap RowValue.keys).length := by
  have hlength := length_values hmaps
  have hfields : ∀ ks vs : List RowValue, ks.length = vs.length →
      (List.zipWith (fun k v => RowValue.struct [k, v]) ks vs).map (RowValue.field 0) = ks ∧
        (List.zipWith (fun k v => RowValue.struct [k, v]) ks vs).map (RowValue.field 1) = vs := by
    intro ks vs hlength
    induction ks generalizing vs with
    | nil =>
      obtain rfl := List.length_eq_zero_iff.mp hlength.symm
      exact ⟨rfl, rfl⟩
    | cons k ks ih =>
      obtain ⟨v, vs, rfl⟩ := List.exists_cons_of_length_eq_add_one hlength.symm
      obtain ⟨hks, hvs⟩ := ih vs (Nat.succ.inj hlength)
      exact ⟨congrArg (k :: ·) hks, congrArg (v :: ·) hvs⟩
  obtain ⟨hkeys, hvalues⟩ := hfields _ _ hlength
  refine ⟨congrArg (Column.mk sk.dataType) hkeys, congrArg (Column.mk sv.dataType) hvalues, ?_⟩
  · rw [Column.entries, List.length_zipWith, ← hlength, Nat.min_self]

end Entries

section Below

variable {nullOf : DataType → Option ScalarValue} {kernels : Kernels}

/-- **The adapter reads bound fields and fills the others**, at every level. -/
theorem readsBelow (hnull : NullScalars nullOf) (q : Field) : ReadsBelow nullOf kernels q := by
  induction q using Field.induction with
  | h q ih =>
    intro name r source kind target input out len htarget hbind happly hsource hshown hlength
    obtain ⟨qs, rs, ss, slots, hq, -, rfl, hslots, rfl⟩ |
      ⟨qe, re, se, mapping, hq, -, rfl, hslot, rfl⟩ |
      ⟨qk, qv, rk, rv, source', sorted, sk, sv, key, value, hq, -, rfl,
        hentries, hkey, hvalue, rfl⟩ |
      ⟨rfl, -, hcompatible⟩ := bound_cases htarget hbind
    · have hchildren : q.children = qs := congrArg LogicalType.children hq
      obtain ⟨types, columns, htypes, hcolumns, hrows⟩ := applyStruct happly
      cases hsource.symm.trans htypes
      rw [hq, hrows]
      refine forall₂_structRows (fun v hv => ?_) fun i values hi => ?_
      · exact (hshown v hv).imp_right fun ⟨values, hvalues, _⟩ => ⟨values, hvalues⟩
      · exact readsFields_row hnull hslots (fun c hc => ih c (hchildren ▸ hc))
          (applyAll_eq_ok.mp hcolumns) hlength hshown hi
    · have hchildren : q.children = [qe] := congrArg LogicalType.children hq
      obtain ⟨element, values, helement, hvalues, hrows⟩ := applyList happly
      cases hsource.symm.trans helement
      have hlists : ∀ v ∈ input.rows, v = .null ∨ ∃ values, v = .list values :=
        fun v hv => (hshown v hv).imp_right fun ⟨values, hvalues, _⟩ => ⟨values, hvalues⟩
      have helements : ∀ v ∈ input.rows.flatMap RowValue.elements, se.dataType.Shows v := by
        intro v hv
        obtain ⟨row, hrow, hv⟩ := List.mem_flatMap.mp hv
        obtain rfl | ⟨values, rfl, hall⟩ := hshown row hrow
        · cases hv
        · exact (se.shows_iff v).mp (hall v hv)
      rw [hq, hrows]
      exact forall₂_listRows hlists
        (hslot.reads (ih qe (hchildren ▸ List.mem_cons_self)) hvalues rfl helements rfl)
    · have hchildren : q.children = [qk, qv] := congrArg LogicalType.children hq
      obtain ⟨n, types, nullable, metadata, sorted', keys, values, htypes, hkeys, hvalues, hrows⟩ :=
        applyMap happly
      cases hsource.symm.trans htypes
      cases hentries
      have hmaps := maps_of_shows hshown
      obtain ⟨hkeysShown, hvaluesShown⟩ := shows_entries hshown rfl
      obtain ⟨hkeyChild, hvalueChild, hcount⟩ := @child_entries sk sv input hmaps
      rw [hkey.apply_eq, hkeyChild] at hkeys
      rw [hvalue.apply_eq, hvalueChild] at hvalues
      have hkeysRead := hkey.reads (ih qk (hchildren ▸ List.mem_cons_self)) hkeys rfl hkeysShown
        hcount.symm
      have hvaluesRead := hvalue.reads
        (ih qv (hchildren ▸ List.mem_cons_of_mem _ List.mem_cons_self)) hvalues rfl hvaluesShown
        (hcount.trans (length_values hmaps)).symm
      rw [hq, hrows]
      exact forall₂_mapRows hmaps hkeysRead hvaluesRead
    · have hcast : out.rows = input.rows.map (kernels.convert source target.dataType) := by
        unfold Kind.apply at happly
        dsimp only at happly
        split at happly
        · next hsame =>
          cases happly
          have hself : kernels.convert source target.dataType = id := by
            funext v
            exact if_pos (hsource.symm.trans hsame)
          rw [hself, List.map_id]
        · next hother =>
          rw [hsource] at hother
          have hvalue : kernels.convert source target.dataType =
              kernels.castValue source target.dataType := by
            funext v
            exact if_neg hother
          rw [hvalue, kernels.rows_cast happly, hsource]
      rw [hcast, List.forall₂_map_right_iff, List.forall₂_same]
      exact fun v _ =>
        (readsType_primitive _ _ _ _ _ _).mpr ⟨rfl, kernels.convert_eq_null hcompatible⟩

end Below

end Otmp.DataFusion
