import Otmp.Reader.SchemaReadBack

/-!
# Agreement of the two schema readers

A schema that fits the reader's budget is loaded under the same canonical JSON as
the image reader returns, exactly under the conditions on NaN defaults, on the order
of nested identifiers and on the depth of its JSON form.
-/

namespace Otmp.Reader

open Foundation List SchemaTables

/-- The rows of a schema and its decoded form fit the reader's budget. -/
structure Fits (b : Budget) (s : Schema) (version : ℕ) : Prop where
  addressable : b.limit ≤ usizeMax
  queries : b.active + schemaQueryBudget + b.workingBytes schemaQueryBudget ≤ b.limit
  header : b.rowBytes (headerCells (schemaRow s version)) ≤ schemaQueryBudget
  fields : (s.places.map fun n => b.rowBytes (fieldCells (n.row s.schemaId))).sum ≤
    schemaQueryBudget
  identifiers : ((identifierRows s.schemaId 0 s.identifierFieldIds).map
    fun row => b.rowBytes (identifierCells row)).sum ≤ schemaQueryBudget
  retained : b.active + retainedBytes s.toValue ≤ b.limit

/-- Rows within both budgets are admitted, and only those. -/
theorem charge_eq_ok {b : Budget} {maxRows maxBytes count used : ℕ} {rows : List (List SqlValue)}
    (hrows : count + rows.length ≤ maxRows) (hbytes : used + (rows.map b.rowBytes).sum ≤ maxBytes) :
    b.charge maxRows maxBytes count used rows = .ok () := by
  induction rows generalizing count used with
  | nil => rfl
  | cons row rows ih =>
    rw [length_cons] at hrows
    rw [map_cons, sum_cons] at hbytes
    rw [Budget.charge, if_neg (by omega), if_neg (by omega), if_neg (by omega)]
    exact ih (by omega) (by omega)

/-- A query within its budgets returns its rows. -/
theorem query_eq_ok {b : Budget} {maxRows maxBytes : ℕ} {rows : List (List SqlValue)}
    (hlimit : b.limit ≤ usizeMax) (hworking : b.active + b.workingBytes maxBytes ≤ b.limit)
    (hrows : rows.length ≤ maxRows) (hbytes : (rows.map b.rowBytes).sum ≤ maxBytes) :
    b.query rows maxRows maxBytes = .ok rows := by
  have hreserve : b.reserve (b.workingBytes maxBytes) =
      .ok { b with active := b.active + b.workingBytes maxBytes } := if_pos hworking
  have hcharge : b.charge maxRows maxBytes 0 0 rows = .ok () :=
    charge_eq_ok (by omega) (by omega)
  rw [Budget.query, if_neg (by omega), ok_bind hreserve, ok_bind hcharge]
  rfl

/-- A schema has a canonical form exactly when its document is not too deep. -/
private theorem liftProtocol_canonicalJson {s : Schema} {json : CanonicalValue} :
    liftProtocol (canonicalJson s) = .ok json ↔
      s.toValue.depth ≤ CanonicalValue.maxDepth ∧ s.toValue = json := by
  rw [canonicalJson, canonicalString]
  split <;> simp_all [liftProtocol]

/-- The header of a stored schema reads back as its parent and its documentation. -/
private theorem readHeader_headerCells (s : Schema) (version : ℕ) :
    readHeader (headerCells (schemaRow s version)) = .ok (s.parentSchemaId, s.doc) := by
  have hcells : headerCells (schemaRow s version) =
      [.ofOption .integer (s.parentSchemaId.map fun id => (id.toNat : ℤ)),
        .ofOption .text s.doc] := rfl
  have hparent := optionalU32_ofOption (optionalU32_map s.parentSchemaId "invalid parent")
    "parent schema ID"
  have hdoc := optionalText_ofOption s.doc "schema doc"
  rw [hcells, readHeader, ok_bind hparent, ok_bind hdoc]
  rfl

section Stored

variable {t : SchemaTables} {s : Schema} {version : ℕ} {b : Budget}

/-- A stored valid schema that fits the budget is loaded exactly when it has no NaN default, its
nested identifiers ascend and its JSON form is not too deep. -/
theorem loadSchema_eq_ok (h : Stored t s version) (hvalid : s.validate = .ok ())
    (hcount : s.flatten.length ≤ 4096) (hfits : Fits b s version) {r : Schema × Budget} :
    loadSchema t b s.schemaId = .ok r ↔
      r = (s.canonNan, { b with active := b.active + retainedBytes s.toValue }) ∧ s.NanFree ∧
        NestedAscending s ∧ s.toValue.depth ≤ CanonicalValue.maxDepth := by
  have hid : s.schemaId ≠ 0 := (Schema.validate_eq_ok.mp hvalid).1
  have hqueries := hfits.queries
  have hreserve : b.reserve schemaQueryBudget =
      .ok { b with active := b.active + schemaQueryBudget } := if_pos (by omega)
  have hheader : Budget.query { b with active := b.active + schemaQueryBudget }
      ((t.schemas.filter (·.schemaId == (s.schemaId.toNat : ℤ))).map headerCells) 1
      schemaQueryBudget = .ok [headerCells (schemaRow s version)] := by
    rw [h.schemas_eq, map_singleton]
    refine query_eq_ok hfits.addressable hqueries (by simp) ?_
    rw [map_singleton, sum_singleton]
    exact hfits.header
  have hread := readHeader_headerCells s version
  have hfields := @query_eq_ok { b with active := b.active + schemaQueryBudget } schemaQueryRows
    schemaQueryBudget ((sortByKey (fun row => row.fieldId.toNat)
      (t.fields.filter (·.schemaId == (s.schemaId.toNat : ℤ)))).map fieldCells)
    hfits.addressable hqueries
    (by
      rw [length_map, (sortByKey_perm _ _).length_eq, h.fields_eq, length_map,
        ← length_map NormalizedField.field, s.map_field_places]
      exact hcount)
    (by
      rw [map_map, ((sortByKey_perm _ _).map _).sum_nat, h.fields_eq, map_map]
      exact hfits.fields)
  have hidents := @query_eq_ok { b with active := b.active + schemaQueryBudget } schemaQueryRows
    schemaQueryBudget ((sortByKey (fun row => row.ordinal.toNat)
      (t.identifiers.filter (·.schemaId == (s.schemaId.toNat : ℤ)))).map identifierCells)
    hfits.addressable hqueries
    (by
      rw [length_map, (sortByKey_perm _ _).length_eq, h.identifiers_eq,
        Stored.length_identifierRows]
      exact (s.length_identifiers_le hvalid).trans hcount)
    (by
      rw [map_map, ((sortByKey_perm _ _).map _).sum_nat, h.identifiers_eq]
      exact hfits.identifiers)
  simp only [loadSchema, if_neg hid, ok_bind hreserve, ok_bind hheader, ok_bind hread,
    ok_bind hfields, ok_bind hidents]
  rw [bind_eq_ok]
  constructor
  · rintro ⟨s', hdecode, hrest⟩
    obtain ⟨rfl, hfree, hascending⟩ := (decodeSchema_eq_ok h hvalid hcount).mp hdecode
    obtain ⟨json, hjson, hrest⟩ := bind_eq_ok.mp hrest
    obtain ⟨hdepth, rfl⟩ := liftProtocol_canonicalJson.mp hjson
    rw [s.toValue_canonNan] at hdepth hrest
    rw [Budget.reserve, if_pos hfits.retained] at hrest
    cases hrest
    exact ⟨rfl, hfree, hascending, hdepth⟩
  · rintro ⟨rfl, hfree, hascending, hdepth⟩
    refine ⟨s.canonNan, (decodeSchema_eq_ok h hvalid hcount).mpr ⟨rfl, hfree, hascending⟩,
      bind_eq_ok.mpr ⟨s.toValue, ?_, bind_eq_ok.mpr ⟨_, if_pos hfits.retained, rfl⟩⟩⟩
    rw [liftProtocol_canonicalJson, s.toValue_canonNan]
    exact ⟨hdepth, rfl⟩

end Stored

/-- No root field has a NaN default of its own. -/
def RootsNanFree (s : Schema) : Prop := ∀ f ∈ s.fields, f.defaults.all notNan = true

/-- A schema is free of NaN defaults when its roots and the fields nested in them are. -/
private theorem nanFree_iff {s : Schema} : s.NanFree ↔ RootsNanFree s ∧ s.NestedNanFree := by
  have hfield : ∀ f : Field, f.allDefaults notNan = true ↔
      f.defaults.all notNan = true ∧ ∀ c ∈ f.children, c.allDefaults notNan = true := by
    intro f
    rw [Field.allDefaults_eq, Bool.and_eq_true, all_eq_true (p := Field.allDefaults notNan)]
  rw [Schema.NanFree, RootsNanFree, Schema.NestedNanFree, ← forall₂_and]
  exact forall₂_congr fun f _ => hfield f

/-- For every schema of a history of inserts that the image check accepts and that fits the
reader's budget, both readers return its canonical JSON exactly when no root has a NaN default,
nested identifiers ascend and the canonical JSON exists. -/
theorem loadSchema_agrees_iff {history : List (Schema × ℕ)} {t : SchemaTables} {s : Schema}
    {version : ℕ} {b : Budget} (hrun : runAll insertStep SchemaTables.empty history = .ok t)
    (hs : (s, version) ∈ history) (hvalid : s.validate = .ok ())
    (hchecked : validateSchemas t = .ok ()) (hcount : s.flatten.length ≤ 4096)
    (hfits : Fits b s version) :
    (∃ json loaded rest read, canonicalJson s = .ok json ∧
        loadSchema t b s.schemaId = .ok (loaded, rest) ∧ canonicalJson loaded = .ok json ∧
        readSchema t s.schemaId = .ok read ∧ canonicalJson read = .ok json) ↔
      RootsNanFree s ∧ NestedAscending s ∧ s.toValue.depth ≤ CanonicalValue.maxDepth := by
  have hholds := Holds.run hrun
  have hstored := hholds.stored hs
  have hnested := hholds.nestedNanFree hchecked hs hvalid
  have hjson : canonicalJson s.canonNan = canonicalJson s := by
    rw [canonicalJson, canonicalJson, s.toValue_canonNan]
  constructor
  · rintro ⟨json, loaded, rest, read, -, hload, -⟩
    obtain ⟨-, hfree, hascending, hdepth⟩ :=
      (loadSchema_eq_ok hstored hvalid hcount hfits).mp hload
    exact ⟨(nanFree_iff.mp hfree).1, hascending, hdepth⟩
  · rintro ⟨hroots, hascending, hdepth⟩
    have hcanonical : canonicalJson s = .ok s.toValue := if_pos hdepth
    refine ⟨s.toValue, s.canonNan, _, s.canonNan, hcanonical,
      (loadSchema_eq_ok hstored hvalid hcount hfits).mpr
        ⟨rfl, nanFree_iff.mpr ⟨hroots, hnested⟩, hascending, hdepth⟩,
      hjson.trans hcanonical, hstored.readSchema_eq hvalid, hjson.trans hcanonical⟩

section Samples

/-- A schema with one root, a struct of two integers under the given identifiers. -/
def pairSchema (first second : UInt32) : Schema where
  schemaId := 1
  parentSchemaId := none
  fields := [.mk 1 "pair" true (.struct [.mk first "first" true .int32 none none none,
    .mk second "second" true .int32 none none none]) none none none]
  identifierFieldIds := []
  doc := none

/-- A reader with a limit of one gibibyte. -/
def sampleBudget : Budget := ⟨1073741824, 0, 1048576, 32⟩

/-- The image check accepts the tables of the sample schema, which has no default at all. -/
private theorem validateSchemas_pair {first second : UInt32} {t : SchemaTables}
    (hrun : runAll insertStep SchemaTables.empty [(pairSchema first second, 0)] = .ok t)
    (hvalid : (pairSchema first second).validate = .ok ()) : validateSchemas t = .ok () := by
  refine ((Holds.run hrun).validateSchemas_eq_ok (by simpa using hvalid)).mpr ?_
  simp [Schema.NestedNanFree, pairSchema, Field.children, LogicalType.children, Field.allDefaults,
    LogicalType.allDefaults, Field.fieldType]

/-- With ascending identifiers both readers return the schema. -/
theorem loadSchema_agrees_pair : ∃ t,
    runAll insertStep SchemaTables.empty [(pairSchema 2 3, 0)] = .ok t ∧
      validateSchemas t = .ok () ∧
      ∃ json loaded rest read, canonicalJson (pairSchema 2 3) = .ok json ∧
        loadSchema t sampleBudget 1 = .ok (loaded, rest) ∧ canonicalJson loaded = .ok json ∧
        readSchema t 1 = .ok read ∧ canonicalJson read = .ok json := by
  have hvalid : (pairSchema 2 3).validate = .ok () := rfl
  obtain ⟨t, hrun⟩ : ∃ t, runAll insertStep SchemaTables.empty [(pairSchema 2 3, 0)] = .ok t :=
    ⟨_, rfl⟩
  have hchecked := validateSchemas_pair hrun hvalid
  refine ⟨t, hrun, hchecked, (loadSchema_agrees_iff hrun mem_cons_self hvalid hchecked
    (by decide) (b := sampleBudget) ?_).mpr ⟨?_, ?_, by decide⟩⟩
  · constructor <;> decide +kernel
  · simp [RootsNanFree, pairSchema, Field.defaults, Field.initialDefault, Field.writeDefault]
  · decide

/-- The same schema with its nested identifiers in descending order passes every check of the
writer and the image, and the bounded reader refuses it. -/
theorem loadSchema_refuses_descending_pair : ∃ t,
    runAll insertStep SchemaTables.empty [(pairSchema 3 2, 0)] = .ok t ∧
      (pairSchema 3 2).validate = .ok () ∧ validateSchemas t = .ok () ∧
      (pairSchema 3 2).flatten.length ≤ 4096 ∧ Fits sampleBudget (pairSchema 3 2) 0 ∧
      ¬∃ loaded rest, loadSchema t sampleBudget 1 = .ok (loaded, rest) := by
  have hvalid : (pairSchema 3 2).validate = .ok () := rfl
  obtain ⟨t, hrun⟩ : ∃ t, runAll insertStep SchemaTables.empty [(pairSchema 3 2, 0)] = .ok t :=
    ⟨_, rfl⟩
  have hcount : (pairSchema 3 2).flatten.length ≤ 4096 := by decide
  have hfits : Fits sampleBudget (pairSchema 3 2) 0 := by
    constructor <;> decide +kernel
  refine ⟨t, hrun, hvalid, validateSchemas_pair hrun hvalid, hcount, hfits, ?_⟩
  rintro ⟨loaded, rest, hload⟩
  have hstored := (Holds.run hrun).stored mem_cons_self
  obtain ⟨-, -, hascending, -⟩ := (loadSchema_eq_ok hstored hvalid hcount hfits).mp hload
  exact absurd hascending (by decide)

end Samples

end Otmp.Reader
