import Otmp.Image.StoredSchemas

/-!
# Schemas stored over a history of inserts

Tables are filled by successive inserts of schemas. Each schema of the history
keeps its own rows. From them the unchecked reader returns the schema as its JSON
form stores it, and the image check accepts it exactly when no nested field has a
NaN default.
-/

namespace Otmp

open Foundation List SchemaTables

/-- The rows of one inserted schema are in the tables, and no others carry its identifier. -/
structure Stored (t : SchemaTables) (s : Schema) (version : ℕ) : Prop where
  schemas_eq : t.schemas.filter (·.schemaId == (s.schemaId.toNat : ℤ)) = [schemaRow s version]
  fields_eq : t.fields.filter (·.schemaId == (s.schemaId.toNat : ℤ)) =
    s.places.map (NormalizedField.row s.schemaId)
  identifiers_eq : t.identifiers.filter (·.schemaId == (s.schemaId.toNat : ℤ)) =
    identifierRows s.schemaId 0 s.identifierFieldIds
  depth_le : ∀ n ∈ s.places, n.field.fieldType.toValue.depth ≤ CanonicalValue.maxDepth

/-- The tables hold exactly the rows of a list of inserted schemas. -/
structure Holds (t : SchemaTables) (history : List (Schema × ℕ)) : Prop where
  schemas_eq : t.schemas = history.map fun p => schemaRow p.1 p.2
  fields_eq : t.fields = history.flatMap fun p => p.1.places.map (NormalizedField.row p.1.schemaId)
  identifiers_eq : t.identifiers =
    history.flatMap fun p => identifierRows p.1.schemaId 0 p.1.identifierFieldIds
  nodup : (history.map fun p => p.1.schemaId).Nodup
  depth_le : ∀ p ∈ history, ∀ n ∈ p.1.places,
    n.field.fieldType.toValue.depth ≤ CanonicalValue.maxDepth

/-- Insert one schema of a history, at the version it was added at. -/
def insertStep (t : SchemaTables) (p : Schema × ℕ) : Except RuntimeError SchemaTables :=
  t.insertSchema p.1 p.2

namespace Holds

/-- The empty tables hold the empty history. -/
theorem init : Holds SchemaTables.empty [] where
  schemas_eq := rfl
  fields_eq := rfl
  identifiers_eq := rfl
  nodup := nodup_nil
  depth_le := by simp

/-- An insert extends the history by the schema that was inserted. -/
theorem step {t t' : SchemaTables} {history : List (Schema × ℕ)} {p : Schema × ℕ}
    (h : Holds t history) (hok : insertStep t p = .ok t') : Holds t' (history ++ [p]) := by
  obtain ⟨hnew, hschemas, hfields, hidents, hdepth⟩ := insertSchema_ok hok
  refine ⟨?_, ?_, ?_, ?_, ?_⟩
  · rw [hschemas, h.schemas_eq, map_append]
    rfl
  · rw [hfields, h.fields_eq, flatMap_append, flatMap_singleton]
  · rw [hidents, h.identifiers_eq, flatMap_append, flatMap_singleton]
  · rw [map_append, nodup_append]
    refine ⟨h.nodup, by simp, ?_⟩
    rintro id hid _ hsingle rfl
    obtain ⟨q, hq, rfl⟩ := mem_map.mp hid
    have hrow : schemaRow q.1 q.2 ∈ t.schemas := by
      rw [h.schemas_eq]
      exact mem_map_of_mem hq
    have heq : q.1.schemaId = p.1.schemaId := by simpa using hsingle
    exact hnew _ hrow (by rw [← heq]; rfl)
  · intro q hq
    obtain hq | hq := mem_append.mp hq
    · exact h.depth_le q hq
    · obtain rfl := mem_singleton.mp hq
      exact hdepth

/-- Every run of inserts from empty tables leaves the rows of its schemas. -/
theorem run {history : List (Schema × ℕ)} {t : SchemaTables}
    (hrun : runAll insertStep SchemaTables.empty history = .ok t) : Holds t history := by
  have h : Holds t (history.foldl (fun past p => past ++ [p]) []) :=
    runAll_simulation (fun h hok => h.step hok) init hrun
  have hfold : ∀ (past future : List (Schema × ℕ)),
      future.foldl (fun past p => past ++ [p]) past = past ++ future := by
    intro past future
    induction future generalizing past with
    | nil => simp
    | cons p future ih => rw [foldl_cons, ih, append_assoc, singleton_append]
  rwa [hfold, nil_append] at h

/-- The rows of one schema are those of the whole history under its identifier. -/
private theorem filter_flatMap_eq {α : Type} {history : List (Schema × ℕ)}
    {rows : Schema × ℕ → List α} {key : α → ℤ}
    (hkey : ∀ p, ∀ row ∈ rows p, key row = (p.1.schemaId.toNat : ℤ))
    (hnodup : (history.map fun p => p.1.schemaId).Nodup) {p : Schema × ℕ} (hp : p ∈ history) :
    (history.flatMap rows).filter (fun row => key row == (p.1.schemaId.toNat : ℤ)) = rows p := by
  have hself : (rows p).filter (fun row => key row == (p.1.schemaId.toNat : ℤ)) = rows p := by
    rw [filter_eq_self]
    intro row hrow
    simpa using hkey p row hrow
  have hother : ∀ q : Schema × ℕ, q.1.schemaId ≠ p.1.schemaId →
      (rows q).filter (fun row => key row == (p.1.schemaId.toNat : ℤ)) = [] := by
    intro q hne
    rw [filter_eq_nil_iff]
    intro row hrow heq
    rw [hkey q row hrow, beq_iff_eq, Int.natCast_inj] at heq
    exact hne (UInt32.toNat_inj.mp heq)
  induction history with
  | nil => cases hp
  | cons q history ih =>
    rw [map_cons, nodup_cons] at hnodup
    rw [flatMap_cons, filter_append]
    obtain rfl | hmem := mem_cons.mp hp
    · have hrest : (history.flatMap rows).filter
          (fun row => key row == (p.1.schemaId.toNat : ℤ)) = [] := by
        rw [filter_flatMap, flatMap_eq_nil_iff]
        intro q hq
        exact hother q fun heq => hnodup.1 (heq ▸ mem_map_of_mem (f := fun p => p.1.schemaId) hq)
      rw [hself, hrest, append_nil]
    · have hne : q.1.schemaId ≠ p.1.schemaId := fun heq =>
        hnodup.1 (heq ▸ mem_map_of_mem (f := fun p => p.1.schemaId) hmem)
      rw [hother q hne, ih hnodup.2 hmem, nil_append]

/-- An identifier row carries the identifier of its schema. -/
private theorem schemaId_of_mem_identifierRows {schemaId : UInt32} {ordinal : ℕ}
    {ids : List UInt32} {row : IdentifierRow} (h : row ∈ identifierRows schemaId ordinal ids) :
    row.schemaId = (schemaId.toNat : ℤ) := by
  induction ids generalizing ordinal with
  | nil => cases h
  | cons id ids ih =>
    obtain rfl | h := mem_cons.mp h
    · rfl
    · exact ih h

/-- Every schema of the history is stored. -/
theorem stored {t : SchemaTables} {history : List (Schema × ℕ)} (h : Holds t history)
    {s : Schema} {version : ℕ} (hs : (s, version) ∈ history) : Stored t s version where
  schemas_eq := by
    rw [h.schemas_eq, map_eq_flatMap]
    apply filter_flatMap_eq _ h.nodup hs
    intro p row hrow
    rw [mem_singleton.mp hrow]
    rfl
  fields_eq := by
    rw [h.fields_eq]
    apply filter_flatMap_eq _ h.nodup hs
    intro p row hrow
    obtain ⟨n, -, rfl⟩ := mem_map.mp hrow
    rfl
  identifiers_eq := by
    rw [h.identifiers_eq]
    exact filter_flatMap_eq (fun p row hrow => schemaId_of_mem_identifierRows hrow) h.nodup hs
  depth_le := h.depth_le _ hs

end Holds

namespace Stored

variable {t : SchemaTables} {s : Schema} {version : ℕ}

/-- The header row of a stored schema is in the table. -/
theorem row_mem (h : Stored t s version) : schemaRow s version ∈ t.schemas := by
  have hmem : schemaRow s version ∈ t.schemas.filter (·.schemaId == (s.schemaId.toNat : ℤ)) := by
    rw [h.schemas_eq]
    exact mem_singleton_self _
  exact (mem_filter.mp hmem).1

/-- The defaults of the fields of a valid schema are in range. -/
theorem scalarOk_of_mem_places (hvalid : s.validate = .ok ()) {n : NormalizedField}
    (hn : n ∈ s.places) : n.field.allDefaults scalarOk = true := by
  have hfield : n.field ∈ s.flatten := by
    rw [← s.map_field_places]
    exact mem_map_of_mem hn
  obtain ⟨root, hroot, hflat⟩ := mem_flatMap.mp hfield
  have hall := (Field.allDefaults_iff scalarOk root).mp (s.scalarOk_of_validate hvalid hroot)
  refine (Field.allDefaults_iff scalarOk n.field).mpr fun g hg => hall g ?_
  exact Field.flatten_trans hg hflat

/-- The rows of a schema as its JSON form stores it. -/
theorem rowsOf_canonNan (s : Schema) :
    rowsOf s.canonNan = .ofList (s.places.map fun n => (n.field.fieldId, n.canonNan)) compare := by
  have hplaces : s.canonNan.places.map (fun n => (n.field.fieldId, n)) =
      s.places.map fun n => (n.field.fieldId, n.canonNan) := by
    rw [Schema.places_canonNan, map_map]
    refine map_congr_left fun n _ => ?_
    exact Prod.ext (Field.fieldId_mapDefaults _ n.field) rfl
  rw [rowsOf, hplaces]

/-- The rows of a stored valid schema read back as its places. -/
theorem normalizedFields_eq (h : Stored t s version) (hvalid : s.validate = .ok ()) :
    normalizedFields t s.schemaId = .ok (rowsOf s.canonNan) := by
  have hnodup := s.nodup_of_validate hvalid
  have hrows : ((s.places.map (NormalizedField.row s.schemaId)).mapM FieldRow.normalize) =
      .ok (s.places.map fun n => (n.field.fieldId, n.canonNan)) :=
    mapM_map_eq_ok fun n hn =>
      normalize_row (scalarOk_of_mem_places hvalid hn) (h.depth_le n hn)
        (Schema.ordinal_lt hnodup hn)
  rw [normalizedFields, h.fields_eq, rowsOf_canonNan]
  exact bind_eq_ok.mpr ⟨_, hrows, rfl⟩

/-- There is one row for each identifier field. -/
@[simp] theorem length_identifierRows (schemaId : UInt32) (ordinal : ℕ) (ids : List UInt32) :
    (identifierRows schemaId ordinal ids).length = ids.length := by
  induction ids generalizing ordinal with
  | nil => rfl
  | cons id ids ih => rw [identifierRows, length_cons, length_cons, ih]

/-- Identifier rows are stored in the order of their positions. -/
theorem sort_identifierRows (schemaId : UInt32) (ids : List UInt32) :
    sortByKey (fun row => row.ordinal.toNat) (identifierRows schemaId 0 ids) =
      identifierRows schemaId 0 ids := by
  have hasc : ∀ (ordinal : ℕ) (ids : List UInt32),
      (identifierRows schemaId ordinal ids).Pairwise
        fun a b => a.ordinal.toNat < b.ordinal.toNat := by
    intro ordinal ids
    have hge : ∀ (ordinal : ℕ) (ids : List UInt32), ∀ row ∈ identifierRows schemaId ordinal ids,
        ordinal ≤ row.ordinal.toNat := by
      intro ordinal ids
      induction ids generalizing ordinal with
      | nil => simp [identifierRows]
      | cons id ids ih =>
        intro row hrow
        obtain rfl | hrow := mem_cons.mp hrow
        · simp
        · exact (Nat.le_succ ordinal).trans (ih (ordinal + 1) row hrow)
    induction ids generalizing ordinal with
    | nil => exact Pairwise.nil
    | cons id ids ih =>
      refine pairwise_cons.mpr ⟨fun row hrow => ?_, ih (ordinal + 1)⟩
      have := hge (ordinal + 1) ids row hrow
      simp only [Int.toNat_natCast]
      omega
  exact sortByKey_eq (Perm.refl _) (hasc 0 ids)

/-- The identifier fields of a stored schema read back. -/
theorem identifierFields_eq (h : Stored t s version) :
    identifierFields t s.schemaId = .ok s.identifierFieldIds := by
  have hread : ∀ (ordinal : ℕ) (ids : List UInt32),
      (identifierRows s.schemaId ordinal ids).mapM
        (fun row => u32TryFrom row.fieldId "invalid identifier field ID") = .ok ids := by
    intro ordinal ids
    induction ids generalizing ordinal with
    | nil => rfl
    | cons id ids ih =>
      rw [identifierRows, mapM_cons]
      exact bind_eq_ok.mpr ⟨id, u32TryFrom_toNat _ _, bind_eq_ok.mpr ⟨ids, ih _, rfl⟩⟩
  rw [identifierFields, h.identifiers_eq, sort_identifierRows, hread]

/-- The unchecked reader returns a stored valid schema as its JSON form stores it. -/
theorem readSchema_eq (h : Stored t s version) (hvalid : s.validate = .ok ()) :
    readSchema t s.schemaId = .ok s.canonNan := by
  have hfind : t.schemas.find? (·.schemaId == (s.schemaId.toNat : ℤ)) =
      some (schemaRow s version) := by
    rw [← head?_filter, h.schemas_eq, head?_cons]
  have hnodup := s.canonNan.nodup_of_validate (s.validate_canonNan hvalid)
  have hroots : (sortByKey NormalizedField.ordinal ((rowsOf s.canonNan).under none)).map
      NormalizedField.field = s.canonNan.fields := by
    rw [sorted_under_none hnodup, map_field_siblings]
  have hparent : optionalU32 (schemaRow s version).parentSchemaId
      "parent_schema_id out of range" = .ok s.parentSchemaId := optionalU32_map _ _
  rw [readSchema, hfind]
  simp only [ok_bind hparent, ok_bind (h.normalizedFields_eq hvalid), hroots,
    ok_bind h.identifierFields_eq]
  rfl

/-- The image check accepts a stored valid schema exactly when no field below its roots has a
NaN default. -/
theorem validateStoredSchema_eq_ok (h : Stored t s version) (hvalid : s.validate = .ok ()) :
    validateStoredSchema t (schemaRow s version) = .ok () ↔ s.NestedNanFree := by
  have hcanon := s.validate_canonNan hvalid
  have hnodup := s.canonNan.nodup_of_validate hcanon
  have hid : u32TryFrom (schemaRow s version).schemaId "invalid schema ID" = .ok s.schemaId :=
    u32TryFrom_toNat _ _
  have hparent : optionalU32 (schemaRow s version).parentSchemaId "invalid parent schema ID" =
      .ok s.parentSchemaId := optionalU32_map _ _
  have hcontiguous := assertContiguous_eq_ok (under_none hnodup)
  have hlift : liftProtocol (Schema.validate
      { schemaId := s.schemaId
        parentSchemaId := s.parentSchemaId
        fields := s.canonNan.fields
        identifierFieldIds := s.identifierFieldIds
        doc := (schemaRow s version).doc }) = .ok () := liftProtocol_eq_ok.mpr hcanon
  simp only [validateStoredSchema, ok_bind hid, ok_bind (h.normalizedFields_eq hvalid),
    ok_bind hcontiguous, sorted_under_none hnodup, map_field_siblings, check_eq_ok,
    if_neg (reachable_rowsOf hnodup), ok_bind h.identifierFields_eq, ok_bind hparent, hlift,
    and_true, checkAll_eq_ok]
  constructor
  · intro hok f hf c hc
    have hroot : f.canonNan ∈ s.canonNan.fields := mem_map_of_mem hf
    obtain ⟨n, hn, hfield⟩ : ∃ n ∈ siblings none 0 s.canonNan.fields, n.field = f.canonNan := by
      rw [← map_field_siblings none 0 s.canonNan.fields] at hroot
      exact mem_map.mp hroot
    have hvalidated := hok n hn
    rw [hfield] at hvalidated
    have hfree := (validateNormalized_eq_ok hnodup
      (Schema.mem_flatten_of_mem_fields (mem_map_of_mem hf))).mp hvalidated
    have hc' : c.canonNan ∈ f.canonNan.children := by
      rw [Field.children_mapDefaults]
      exact mem_map_of_mem hc
    rw [← Field.allDefaults_canonNan]
    exact hfree _ hc'
  · intro hfree n hn
    have hmem : n.field ∈ s.canonNan.fields := by
      rw [← map_field_siblings none 0 s.canonNan.fields]
      exact mem_map_of_mem hn
    refine (validateNormalized_eq_ok hnodup (Schema.mem_flatten_of_mem_fields hmem)).mpr ?_
    intro c hc
    obtain ⟨f, hf, hfn⟩ := mem_map.mp hmem
    rw [← hfn, Field.children_mapDefaults] at hc
    obtain ⟨d, hd, rfl⟩ := mem_map.mp hc
    rw [Field.allDefaults_canonNan]
    exact hfree f hf d hd

end Stored

/-- The image check of all schemas accepts a history of valid schemas exactly when none of them
has a NaN default below its roots. -/
theorem Holds.validateSchemas_eq_ok {t : SchemaTables} {history : List (Schema × ℕ)}
    (h : Holds t history) (hvalid : ∀ p ∈ history, p.1.validate = .ok ()) :
    validateSchemas t = .ok () ↔ ∀ p ∈ history, p.1.NestedNanFree := by
  have hmem : ∀ row, row ∈ sortByKey (fun row : SchemaRow => row.schemaId.toNat) t.schemas ↔
      ∃ p ∈ history, schemaRow p.1 p.2 = row := by
    intro row
    rw [(sortByKey_perm _ t.schemas).mem_iff, h.schemas_eq, mem_map]
  rw [validateSchemas, checkAll_eq_ok]
  constructor
  · intro hall p hp
    exact ((h.stored hp).validateStoredSchema_eq_ok (hvalid p hp)).mp
      (hall _ ((hmem _).mpr ⟨p, hp, rfl⟩))
  · intro hfree row hrow
    obtain ⟨p, hp, rfl⟩ := (hmem row).mp hrow
    exact ((h.stored hp).validateStoredSchema_eq_ok (hvalid p hp)).mpr (hfree p hp)

/-- A valid schema of a history that the image check accepts has no NaN default below its
roots. -/
theorem Holds.nestedNanFree {t : SchemaTables} {history : List (Schema × ℕ)} (h : Holds t history)
    (hchecked : validateSchemas t = .ok ()) {s : Schema} {version : ℕ}
    (hs : (s, version) ∈ history) (hvalid : s.validate = .ok ()) : s.NestedNanFree := by
  rw [validateSchemas, checkAll_eq_ok] at hchecked
  have hrow := (h.stored hs).row_mem
  exact ((h.stored hs).validateStoredSchema_eq_ok hvalid).mp
    (hchecked _ ((sortByKey_perm _ t.schemas).mem_iff.mpr hrow))

end Otmp
