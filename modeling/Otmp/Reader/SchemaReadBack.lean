import Otmp.Image.SchemaHistory
import Otmp.Reader.Schema

/-!
# Reading a stored schema back under a budget

Over tables filled by inserts, the bounded reader returns a schema exactly when the
schema has no NaN default, its canonical JSON is not nested too deeply, and the
identifiers of nested siblings ascend in declaration order. The last condition comes
from the check of positions under a field, which visits the rows in the order of
their identifiers and does not sort them.
-/

namespace Otmp.Reader

open Foundation List SchemaTables

/-- Below the roots, the identifiers of siblings ascend in declaration order. -/
def NestedAscending (s : Schema) : Prop :=
  ∀ f ∈ s.flatten, (f.children.map Field.fieldId).Pairwise (· < ·)

/-- Whether nested identifiers ascend is decided field by field. -/
instance (s : Schema) : Decidable (NestedAscending s) :=
  inferInstanceAs (Decidable (∀ f ∈ s.flatten, (f.children.map Field.fieldId).Pairwise (· < ·)))

/-- Positions are accepted exactly when they count up. -/
theorem checkOrdinals_eq_ok {name : String} {expected : ℕ} {values : List ℕ}
    (hbound : expected + values.length ≤ 4294967296) :
    checkOrdinals name expected values = .ok () ↔ values = range' expected values.length := by
  induction values generalizing expected with
  | nil => simp [checkOrdinals]
  | cons actual values ih =>
    rw [length_cons] at hbound
    rw [checkOrdinals, corrupt, corrupt, ite_error_eq_ok, ite_error_eq_ok, not_not,
      ih (by omega), length_cons, range'_succ, cons_eq_cons]
    exact and_iff_right (by omega)

/-- The message of a failed conversion does not matter to a conversion that succeeds. -/
private theorem u32TryFrom_message {value : ℤ} {message : String} {id : UInt32}
    (h : u32TryFrom value message = .ok id) (other : String) :
    u32TryFrom value other = .ok id := by
  rw [u32TryFrom, corrupt, ite_ok_eq_ok] at *
  exact h

/-- An optional number is read from its cell as the writer's conversion gives it. -/
theorem optionalU32_ofOption {value : Option ℤ} {message : String} {id : Option UInt32}
    (h : Otmp.optionalU32 value message = .ok id) (name : String) :
    optionalU32 (.ofOption .integer value) name = .ok id := by
  cases value with
  | none => exact h
  | some v =>
    rw [Otmp.optionalU32] at h
    cases hv : u32TryFrom v message with
    | error e => simp [hv, Except.map] at h
    | ok w =>
      rw [hv] at h
      rw [SqlValue.ofOption, optionalU32, requiredU32, requiredI64,
        ok_bind (f := fun value => u32TryFrom value ("invalid " ++ name)) (a := v) rfl,
        u32TryFrom_message hv]
      · exact h
      · rintro ⟨⟩

/-- An optional default is read from its cell as the image check parses it. -/
private theorem optionalScalar_ofOption {value : Option CanonicalValue}
    {scalar : Option TypedScalar} (h : parseOptionalScalar value = .ok scalar) (name : String) :
    optionalScalar (.ofOption .json value) name = .ok scalar := by
  cases value with
  | none => exact h
  | some text => exact h

/-- An optional text is read back from its cell. -/
theorem optionalText_ofOption (value : Option String) (name : String) :
    optionalText (.ofOption .text value) name = .ok value := by
  cases value <;> rfl

/-- The columns of a row read as the image reader reads the row. -/
theorem readField_of_normalize {row : FieldRow} {entry : UInt32 × NormalizedField}
    (h : row.normalize = .ok entry) (hrequired : row.required = 0 ∨ row.required = 1) :
    readField (fieldCells row) = .ok entry := by
  obtain ⟨fieldId, hid, h⟩ := bind_eq_ok.mp h
  obtain ⟨parent, hparent, h⟩ := bind_eq_ok.mp h
  obtain ⟨ordinal, hordinal, h⟩ := bind_eq_ok.mp h
  obtain ⟨fieldType, htype, h⟩ := bind_eq_ok.mp h
  obtain ⟨initial, hinitial, h⟩ := bind_eq_ok.mp h
  obtain ⟨write, hwrite, h⟩ := bind_eq_ok.mp h
  have hbool : requiredBool (.integer row.required) = .ok (row.required == 1) := by
    obtain hzero | hone := hrequired
    · rw [hzero]
      rfl
    · rw [hone]
      rfl
  refine bind_eq_ok.mpr ⟨fieldId, u32TryFrom_message hid _, bind_eq_ok.mpr
    ⟨parent, optionalU32_ofOption hparent _, bind_eq_ok.mpr ⟨ordinal,
      u32TryFrom_message hordinal _, bind_eq_ok.mpr ⟨row.name, rfl, bind_eq_ok.mpr ⟨_, hbool,
      bind_eq_ok.mpr ⟨fieldType, htype, bind_eq_ok.mpr ⟨row.doc, optionalText_ofOption _ _,
      bind_eq_ok.mpr ⟨initial, optionalScalar_ofOption hinitial _, bind_eq_ok.mpr
      ⟨write, optionalScalar_ofOption hwrite _, h⟩⟩⟩⟩⟩⟩⟩⟩⟩

/-- Rows with distinct identifiers are collected into a map. -/
theorem collectRows_eq {α : Type} {cells : α → List SqlValue} {entry : α → UInt32 × NormalizedField}
    {as : List α} {rows : FieldRows} (hread : ∀ a ∈ as, readField (cells a) = .ok (entry a))
    (hnew : ∀ a ∈ as, (entry a).1 ∉ rows) (hnodup : (as.map fun a => (entry a).1).Nodup) :
    collectRows rows (as.map cells) = .ok (rows.insertMany (as.map entry)) := by
  induction as generalizing rows with
  | nil =>
    rw [map_nil, map_nil, collectRows, Std.ExtTreeMap.insertMany_nil]
  | cons a as ih =>
    rw [map_cons, nodup_cons] at hnodup
    rw [map_cons, collectRows, ok_bind (hread a mem_cons_self), if_neg (hnew a mem_cons_self),
      map_cons, Std.ExtTreeMap.insertMany_cons]
    apply ih (fun b hb => hread b (mem_cons_of_mem _ hb)) _ hnodup.2
    intro b hb hmem
    obtain heq | hold := Std.ExtTreeMap.mem_insert.mp hmem
    · rw [Std.LawfulEqCmp.compare_eq_iff_eq] at heq
      exact hnodup.1 (heq ▸ mem_map_of_mem (f := fun a => (entry a).1) hb)
    · exact hnew b (mem_cons_of_mem _ hb) hold

/-- A nested field has a place beside its siblings. -/
private theorem exists_mem_siblings {c : Field} {fields : List Field} (hc : c ∈ fields)
    (parent : Option UInt32) : ∃ o, ⟨parent, o, c⟩ ∈ siblings parent 0 fields := by
  rw [← map_field_siblings parent 0 fields] at hc
  obtain ⟨n, hn, rfl⟩ := mem_map.mp hc
  have hparent := parent_of_mem_siblings hn
  obtain ⟨_, o, f⟩ := n
  cases hparent
  exact ⟨o, hn⟩

section RowsOf

variable {s : Schema} (hnodup : (s.flatten.map Field.fieldId).Nodup)
include hnodup

/-- A field at its place agrees with its row when it equals itself. -/
theorem checkNode_eq_ok {f : Field} {parent : Option UInt32} {o : ℕ}
    (hplace : ⟨parent, o, f⟩ ∈ s.places) :
    checkNode (rowsOf s) f parent = .ok () ↔ f.allDefaults notNan = true := by
  have hget := (getElem?_rowsOf hnodup).mpr ⟨hplace, rfl⟩
  have hf : f ∈ s.flatten := by
    rw [← s.map_field_places]
    exact mem_map_of_mem (f := NormalizedField.field) hplace
  have hids : (siblings (some f.fieldId) 0 f.children).map (fun r => r.field.fieldId) =
      f.children.map Field.fieldId := by
    rw [← map_field_siblings (some f.fieldId) 0 f.children, map_map, map_field_siblings]
    rfl
  simp only [checkNode, hget, corrupt, ite_error_eq_ok, sorted_under_field hnodup hf,
    length_siblings, hids, Field.eq_self]
  simp

/-- A tree at its place agrees with the rows exactly when it has no NaN default. -/
theorem validateTree_eq_ok {f : Field} {parent : Option UInt32} {o : ℕ}
    (hplace : ⟨parent, o, f⟩ ∈ s.places) :
    validateTree (rowsOf s) parent f = .ok () ↔ f.allDefaults notNan = true := by
  have hlist : ∀ (p : Option UInt32) (fields : List Field),
      validateTreeList (rowsOf s) p fields = .ok () ↔
        ∀ c ∈ fields, validateTree (rowsOf s) p c = .ok () := by
    intro p fields
    induction fields with
    | nil => simp [validateTreeList]
    | cons c cs ih => rw [validateTreeList, check_eq_ok, ih, forall_mem_cons]
  have hnested : ∀ (p : Option UInt32) (t : LogicalType),
      validateTreeType (rowsOf s) p t = .ok () ↔
        ∀ c ∈ t.children, validateTree (rowsOf s) p c = .ok () := by
    intro p t
    cases t <;> simp [validateTreeType, LogicalType.children, hlist, check_eq_ok]
  induction f using Field.induction generalizing parent o with
  | h f ih =>
    have hunfold : validateTree (rowsOf s) parent f = (checkNode (rowsOf s) f parent >>=
        fun _ => validateTreeType (rowsOf s) (some f.fieldId) f.fieldType) := by
      cases f
      rfl
    have hf : f ∈ s.flatten := by
      rw [← s.map_field_places]
      exact mem_map_of_mem (f := NormalizedField.field) hplace
    rw [hunfold, check_eq_ok, checkNode_eq_ok hnodup hplace, hnested]
    refine and_iff_left_of_imp fun hfree c hc => ?_
    obtain ⟨p, hp⟩ := exists_mem_siblings hc (some f.fieldId)
    refine (ih c hc ((s.mem_places _).mpr (.inr ⟨f, hf, hp⟩))).mpr ?_
    rw [Field.allDefaults_eq, Bool.and_eq_true, all_eq_true (p := Field.allDefaults notNan)]
      at hfree
    exact hfree.2 c hc

/-- All roots agree with the rows exactly when no field has a NaN default. -/
theorem validateRoots_eq_ok :
    checkAll (validateTree (rowsOf s) none) s.fields = .ok () ↔ s.NanFree := by
  rw [checkAll_eq_ok]
  refine forall_congr' fun f => forall_congr' fun hf => ?_
  obtain ⟨o, ho⟩ := exists_mem_siblings hf none
  exact validateTree_eq_ok hnodup ((s.mem_places _).mpr (.inl ho))

/-- The positions of the rows under a field count up exactly when the identifiers of its nested
fields ascend. -/
theorem checkChildOrdinals_eq_ok {f : Field} (hf : f ∈ s.flatten) {name : String} :
    checkOrdinals name 0 (((rowsOf s).under (some f.fieldId)).map NormalizedField.ordinal) = .ok ()
      ↔ (f.children.map Field.fieldId).Pairwise (· < ·) := by
  have hperm := under_field hnodup hf
  have hlength := hperm.length_eq
  rw [length_siblings] at hlength
  have hshort := length_le_of_nodup (nodup_of_under_perm hnodup hperm)
  rw [length_map] at hshort
  have hids : ((rowsOf s).under (some f.fieldId)).Pairwise
      fun a b => a.field.fieldId.toNat < b.field.fieldId.toNat := (values_ascending hnodup).filter _
  have hfields : (f.children.map Field.fieldId).Pairwise (· < ·) ↔
      (siblings (some f.fieldId) 0 f.children).Pairwise
        fun a b => a.field.fieldId.toNat < b.field.fieldId.toNat := by
    rw [← map_field_siblings (some f.fieldId) 0 f.children, map_map, pairwise_map,
      map_field_siblings]
    rfl
  rw [checkOrdinals_eq_ok (by rw [length_map]; omega), hfields, length_map, hlength]
  constructor
  · intro hordinals
    have hsorted : ((rowsOf s).under (some f.fieldId)).Pairwise
        fun a b => a.ordinal < b.ordinal := by
      have hrange : (((rowsOf s).under (some f.fieldId)).map NormalizedField.ordinal).Pairwise
          (· < ·) := by
        rw [hordinals]
        exact pairwise_lt_range'
      rwa [pairwise_map] at hrange
    rw [← eq_of_perm_of_ascending hperm hsorted (siblings_ascending _ _ _)]
    exact hids
  · intro hascending
    rw [eq_of_perm_of_ascending hperm hids hascending, map_ordinal_siblings]

/-- The positions below all fields count up exactly when nested identifiers ascend. -/
theorem checkAllChildOrdinals_eq_ok {name : String} :
    checkAll (fun row => checkOrdinals name 0
      (((rowsOf s).under (some row.field.fieldId)).map NormalizedField.ordinal)) (rowsOf s).values
        = .ok () ↔ NestedAscending s := by
  rw [checkAll_eq_ok]
  constructor
  · intro hall f hf
    rw [← s.map_field_places] at hf
    obtain ⟨n, hn, rfl⟩ := mem_map.mp hf
    have hfield : n.field ∈ s.flatten := by
      rw [← s.map_field_places]
      exact mem_map_of_mem hn
    exact (checkChildOrdinals_eq_ok hnodup hfield).mp (hall n ((values_perm hnodup).mem_iff.mpr hn))
  · intro hascending n hn
    have hfield : n.field ∈ s.flatten := by
      rw [← s.map_field_places]
      exact mem_map_of_mem ((values_perm hnodup).mem_iff.mp hn)
    exact (checkChildOrdinals_eq_ok hnodup hfield).mpr (hascending n.field hfield)

end RowsOf

/-- Reading an integer cell of 32 bits is converting its number. -/
private theorem requiredU32_integer (value : ℤ) (name : String) :
    requiredU32 (.integer value) name = u32TryFrom value ("invalid " ++ name) := rfl

/-- The positions of identifier rows are read back in order. -/
private theorem readOrdinals (schemaId : UInt32) {ordinal : ℕ} {ids : List UInt32}
    (hbound : ordinal + ids.length ≤ 4294967296) :
    ((identifierRows schemaId ordinal ids).map identifierCells).mapM
        (readIdentifier fun _ ordinal => requiredU32 ordinal "identifier ordinal") =
      .ok ((range' ordinal ids.length).map UInt32.ofNat) := by
  induction ids generalizing ordinal with
  | nil => rfl
  | cons id ids ih =>
    rw [length_cons] at hbound
    rw [identifierRows, map_cons, mapM_cons, length_cons, range'_succ, map_cons]
    have hhead : readIdentifier (fun _ ordinal => requiredU32 ordinal "identifier ordinal")
        (identifierCells ⟨schemaId.toNat, ordinal, id.toNat⟩) = .ok (UInt32.ofNat ordinal) := by
      have hcells : identifierCells ⟨schemaId.toNat, ordinal, id.toNat⟩ =
          [.integer id.toNat, .integer ordinal] := rfl
      rw [hcells, readIdentifier, requiredU32_integer, u32TryFrom, if_pos (by omega),
        Int.toNat_natCast]
    rw [ok_bind hhead, ok_bind (ih (by omega))]
    rfl

/-- The identifiers of identifier rows are read back in order. -/
private theorem readIds (schemaId : UInt32) (ordinal : ℕ) (ids : List UInt32) :
    ((identifierRows schemaId ordinal ids).map identifierCells).mapM
        (readIdentifier fun field _ => requiredU32 field "identifier field ID") = .ok ids := by
  induction ids generalizing ordinal with
  | nil => rfl
  | cons id ids ih =>
    rw [identifierRows, map_cons, mapM_cons]
    have hhead : readIdentifier (fun field _ => requiredU32 field "identifier field ID")
        (identifierCells ⟨schemaId.toNat, ordinal, id.toNat⟩) = .ok id := by
      rw [identifierCells, readIdentifier, requiredU32_integer, u32TryFrom_toNat]
    rw [ok_bind hhead, ok_bind (ih _)]
    rfl

/-- Positions that count up from zero pass the check. -/
private theorem checkIdentifierOrdinals {count : ℕ} (hbound : count ≤ 4294967296) :
    checkOrdinals "identifier" 0 (((range' 0 count).map UInt32.ofNat).map UInt32.toNat) =
      .ok () := by
  have hback : ((range' 0 count).map UInt32.ofNat).map UInt32.toNat = range' 0 count := by
    rw [map_map]
    refine (map_congr_left fun i hi => ?_).trans (map_id _)
    rw [mem_range'_1] at hi
    exact UInt32.toNat_ofNat_of_lt (show i < 4294967296 by omega)
  rw [hback, checkOrdinals_eq_ok (by rw [length_range']; omega), length_range']

section Stored

variable {t : SchemaTables} {s : Schema} {version : ℕ}

/-- The field rows of a stored valid schema are collected as the image reader reads them. -/
theorem collectRows_stored (h : Stored t s version) (hvalid : s.validate = .ok ()) :
    collectRows ∅ ((sortByKey (fun row => row.fieldId.toNat)
      (t.fields.filter (·.schemaId == (s.schemaId.toNat : ℤ)))).map fieldCells) =
        .ok (rowsOf s.canonNan) := by
  have hnodup := s.nodup_of_validate hvalid
  rw [h.fields_eq, sortByKey_map, map_map]
  have hperm := sortByKey_perm
    (fun n : NormalizedField => (n.row s.schemaId).fieldId.toNat) s.places
  generalize sortByKey (fun n : NormalizedField => (n.row s.schemaId).fieldId.toNat) s.places = ns
    at hperm
  have hdistinct : (ns.map fun n => n.field.fieldId).Nodup := by
    rw [← s.map_field_places, map_map] at hnodup
    exact (hperm.map _).nodup_iff.mpr hnodup
  have hread : ∀ n ∈ ns, readField ((fieldCells ∘ NormalizedField.row s.schemaId) n) =
      .ok (n.field.fieldId, n.canonNan) := by
    intro n hn
    have hplace := hperm.mem_iff.mp hn
    refine readField_of_normalize (normalize_row (Stored.scalarOk_of_mem_places hvalid hplace)
      (h.depth_le n hplace) (Schema.ordinal_lt hnodup hplace)) ?_
    cases hrequired : n.field.required <;> simp [NormalizedField.row, hrequired]
  have hnew : ∀ n ∈ ns, n.field.fieldId ∉ (∅ : FieldRows) :=
    fun _ _ => Std.ExtTreeMap.not_mem_empty
  have hcollect := collectRows_eq hread hnew hdistinct
  rw [hcollect, ← Std.ExtTreeMap.ofList_eq_insertMany_empty, Stored.rowsOf_canonNan]
  congr 1
  apply ofList_eq_of_perm (hperm.map _)
  rw [map_map]
  exact hdistinct

/-- The canonical NaN is a NaN, so making NaNs canonical removes none. -/
private theorem nanFree_canonNan : s.canonNan.NanFree ↔ s.NanFree := by
  simp only [Schema.NanFree, Schema.mapDefaults, forall_mem_map, Field.allDefaults_canonNan]

/-- Making NaNs canonical keeps the identifiers as they are. -/
private theorem nestedAscending_canonNan : NestedAscending s.canonNan ↔ NestedAscending s := by
  simp only [NestedAscending, Schema.flatten_mapDefaults, forall_mem_map,
    Field.children_mapDefaults, map_map, Function.comp_def, Field.fieldId_mapDefaults]

/-- The schema is rebuilt from its rows exactly when it has no NaN default and its nested
identifiers ascend. -/
theorem decodeSchema_eq_ok (h : Stored t s version) (hvalid : s.validate = .ok ())
    (hcount : s.flatten.length ≤ 4096) {s' : Schema} :
    decodeSchema s.schemaId (s.parentSchemaId, s.doc)
        ((sortByKey (fun row => row.fieldId.toNat)
          (t.fields.filter (·.schemaId == (s.schemaId.toNat : ℤ)))).map fieldCells)
        ((sortByKey (fun row => row.ordinal.toNat)
          (t.identifiers.filter (·.schemaId == (s.schemaId.toNat : ℤ)))).map identifierCells) =
        .ok s' ↔
      s' = s.canonNan ∧ s.NanFree ∧ NestedAscending s := by
  have hcanon := s.validate_canonNan hvalid
  have hnodup := s.canonNan.nodup_of_validate hcanon
  have hidents := s.length_identifiers_le hvalid
  have hroots : checkOrdinals "root field" 0
      ((siblings none 0 s.canonNan.fields).map NormalizedField.ordinal) = .ok () := by
    have hshort := length_le_of_nodup (nodup_of_under_perm hnodup (under_none hnodup))
    rw [length_map] at hshort
    rw [map_ordinal_siblings, checkOrdinals_eq_ok (by rw [length_range']; omega), length_range']
  have hlift : liftProtocol (Schema.validate
      { schemaId := s.schemaId
        parentSchemaId := s.parentSchemaId
        fields := s.canonNan.fields
        identifierFieldIds := s.identifierFieldIds
        doc := s.doc }) = .ok () := liftProtocol_eq_ok.mpr hcanon
  have hsize : ¬(rowsOf s.canonNan).size ≠ countTree s.canonNan.fields :=
    not_not.mpr (size_rowsOf hnodup)
  simp only [decodeSchema, ok_bind (collectRows_stored h hvalid), sorted_under_none hnodup,
    ok_bind hroots, h.identifiers_eq, Stored.sort_identifierRows,
    ok_bind (readOrdinals s.schemaId (show 0 + s.identifierFieldIds.length ≤ 4294967296 by omega)),
    ok_bind (checkIdentifierOrdinals (show s.identifierFieldIds.length ≤ 4294967296 by omega)),
    ok_bind (readIds s.schemaId 0 s.identifierFieldIds), map_field_siblings, check_eq_ok,
    checkAllChildOrdinals_eq_ok hnodup, validateRoots_eq_ok hnodup, if_neg hsize, hlift, true_and,
    nanFree_canonNan, nestedAscending_canonNan]
  constructor
  · rintro ⟨hascending, hfree, hs'⟩
    cases hs'
    exact ⟨rfl, hfree, hascending⟩
  · rintro ⟨rfl, hfree, hascending⟩
    exact ⟨hascending, hfree, rfl⟩

end Stored

end Otmp.Reader
