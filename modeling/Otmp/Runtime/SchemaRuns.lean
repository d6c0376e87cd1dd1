import Otmp.Image.SchemaHistory
import Otmp.Runtime.AdditiveEvolution
import Otmp.Runtime.HistoryRuns

/-!
# Schemas over whole histories

A table starts with one schema, and a transaction may add another that extends a retained one.
Along every history the tables of schemas hold exactly these schemas, each of which is valid, and
each reads back for as long as the table exists.
-/

namespace Otmp

open Foundation

/-- Schemas in the order they were added, each as an additive evolution of an earlier one as it is
read. -/
inductive Evolved : List (Schema × ℕ) → Prop where
  | genesis {s : Schema} (valid : s.validate = .ok ()) : Evolved [(s, 0)]
  | add {history : List (Schema × ℕ)} {q : Schema × ℕ} {s : Schema} {version : ℕ}
      {ids : List UInt32} (earlier : Evolved history) (mem : q ∈ history)
      (additive : additiveSchema q.1.canonNan s = .ok ids) : Evolved (history ++ [(s, version)])

variable {history : List (Schema × ℕ)} {t : SchemaTables} {db db' : Database} {version : ℕ}

/-- Every schema of an evolution is valid. -/
theorem Evolved.valid (h : Evolved history) : ∀ p ∈ history, p.1.validate = .ok () := by
  induction h with
  | genesis valid =>
    intro p hp
    rw [List.mem_singleton.mp hp]
    exact valid
  | add _ _ additive ih =>
    intro p hp
    obtain hp | hp := List.mem_append.mp hp
    · exact ih p hp
    · rw [List.mem_singleton.mp hp]
      exact (additiveSchema_iff.mp additive).1.valid

/-- The tables hold an evolution: every schema of a history as it was inserted, where each later one
extends an earlier one. -/
structure KeepsSchemas (t : SchemaTables) (history : List (Schema × ℕ)) : Prop where
  holds : Holds t history
  evolved : Evolved history

namespace KeepsSchemas

/-- Every schema of the history reads back from the tables, up to the NaNs among its defaults. -/
theorem readSchema_eq (h : KeepsSchemas t history) {p : Schema × ℕ} (hp : p ∈ history) :
    readSchema t p.1.schemaId = .ok p.1.canonNan :=
  (h.holds.stored hp).readSchema_eq (h.evolved.valid p hp)

/-- Only these schemas are read: the tables know no other identifier. -/
theorem exists_of_readSchema (h : KeepsSchemas t history) {schemaId : UInt32} {s : Schema}
    (hread : readSchema t schemaId = .ok s) : ∃ p ∈ history, s = p.1.canonNan := by
  have hread' := hread
  rw [readSchema] at hread'
  cases hfind : t.schemas.find? (·.schemaId == (schemaId.toNat : ℤ)) with
  | none =>
    rw [hfind] at hread'
    cases hread'
  | some row =>
    have hid : row.schemaId = (schemaId.toNat : ℤ) := by simpa using List.find?_some hfind
    have hrow := List.mem_of_find?_eq_some hfind
    rw [h.holds.schemas_eq] at hrow
    obtain ⟨p, hp, rfl⟩ := List.mem_map.mp hrow
    have hsame : p.1.schemaId = schemaId := UInt32.toNat_inj.mp (Int.natCast_inj.mp hid)
    rw [← hsame, h.readSchema_eq hp] at hread
    exact ⟨p, hp, (Except.ok.inj hread).symm⟩

end KeepsSchemas

/-- An operation leaves the schemas alone, or adds one. -/
theorem applyOperation_schemas {operation : OperationRequest}
    (h : db.applyOperation version operation = .ok db') :
    db'.schemas = db.schemas ∨ ∃ operationId schema, operation = .addSchema operationId schema ∧
      db.schemas.insertSchema schema version = .ok db'.schemas := by
  cases operation with
  | setProperties operationId updates removals =>
    rw [Database.applyOperation] at h
    obtain ⟨db₁, h₁, h⟩ := bind_eq_ok.mp h
    cases h
    obtain ⟨properties, hprops⟩ := Database.applyProperties_spec removals h₁
    rw [hprops]
    exact .inl rfl
  | createRef operationId name refType snapshotId =>
    rw [Database.applyOperation] at h
    obtain ⟨db₁, h₁, h⟩ := bind_eq_ok.mp h
    obtain ⟨rfl, -, -⟩ := Database.insertRef_spec h₁
    split at h
    · obtain ⟨chain, -, rfl⟩ := Database.materializeBranch_spec h
      exact .inl rfl
    · cases h
      exact .inl rfl
  | replaceRef operationId name snapshotId =>
    rw [Database.applyOperation] at h
    obtain ⟨db₁, h₁, h⟩ := bind_eq_ok.mp h
    obtain ⟨rfl, -⟩ := Database.updateRefs_spec h₁
    obtain ⟨chain, -, rfl⟩ := Database.materializeBranch_spec h
    exact .inl rfl
  | dropRef operationId name =>
    rw [Database.applyOperation] at h
    obtain rfl := Database.deleteRef_spec h
    exact .inl rfl
  | addSchema operationId schema =>
    rw [Database.applyOperation] at h
    obtain ⟨schemas, hinsert, h⟩ := bind_eq_ok.mp h
    cases h
    exact .inr ⟨operationId, schema, rfl, hinsert⟩
  | setCurrentSchema operationId schemaId =>
    rw [Database.applyOperation, invalid, constraintFailed] at h
    obtain ⟨-, h⟩ := ite_error_eq_ok.mp h
    obtain ⟨-, h⟩ := ite_error_eq_ok.mp h
    cases h
    exact .inl rfl

/-- A prepared schema extends one that the parent reads. -/
theorem additive_of_prepareAll {request : TransactionRequest} {st : Prepared}
    {operations : List OperationRequest} {results : List OperationResult} {operationId : String}
    {schema : Schema} (h : prepareAll db request st operations = .ok results)
    (hmem : .addSchema operationId schema ∈ operations) :
    ∃ current old ids, readSchema db.schemas current = .ok old ∧
      additiveSchema old schema = .ok ids := by
  induction operations generalizing st results with
  | nil => cases hmem
  | cons operation operations ih =>
    rw [prepareAll, invalid] at h
    obtain ⟨-, h⟩ := ite_error_eq_ok.mp h
    obtain ⟨⟨result, st'⟩, hfirst, h⟩ := bind_eq_ok.mp h
    obtain ⟨rest, hrest, -⟩ := bind_eq_ok.mp h
    obtain rfl | hmem := List.mem_cons.mp hmem
    · obtain ⟨-, current, old, ids, actual, -, -, -, hread, hadd, -⟩ :=
        prepareOperation_eq_ok hfirst
      exact ⟨current, old, ids, hread, hadd⟩
    · exact ih hrest hmem

/-- Prepared operations continue the evolution, by the schema that they add if they add one. -/
theorem KeepsSchemas.applyOperations {request : TransactionRequest} {results : List OperationResult}
    (h : KeepsSchemas db.schemas history) (hprepare : prepareOperations db request = .ok results)
    (hrun : runAll (Database.applyOperation version) db request.operations = .ok db') :
    ∃ added, KeepsSchemas db'.schemas (history ++ added) := by
  rw [prepareOperations, invalid] at hprepare
  obtain ⟨-, hprepare⟩ := ite_error_eq_ok.mp hprepare
  obtain ⟨-, hprepare⟩ := check_eq_ok.mp hprepare
  refine runAll_invariant
    (P := fun d : Database => ∃ added, KeepsSchemas d.schemas (history ++ added))
    (fun hmem hinv hstep => ?_) ⟨[], by rwa [List.append_nil]⟩ hrun
  obtain ⟨added, hkept⟩ := hinv
  obtain heq | ⟨operationId, schema, rfl, hinsert⟩ := applyOperation_schemas hstep
  · rw [heq]
    exact ⟨added, hkept⟩
  · obtain ⟨current, old, ids, hread, hadd⟩ := additive_of_prepareAll hprepare hmem
    obtain ⟨q, hq, rfl⟩ := h.exists_of_readSchema hread
    refine ⟨added ++ [(schema, version)], ?_⟩
    rw [← List.append_assoc]
    exact ⟨hkept.holds.step hinsert, hkept.evolved.add (List.mem_append_left added hq) hadd⟩

section Histories

variable {digest : Digest} {base table table' : PinnedTable} {actions : List Action}

/-- A step continues the evolution; an append adds no schema at all. -/
theorem Step.schemas {action : Action} (h : Step digest table action table')
    (hkept : KeepsSchemas table.db.schemas history) :
    ∃ added, KeepsSchemas table'.db.schemas (history ++ added) := by
  cases h with
  | append _ _ hrequest hbuild =>
    obtain ⟨first, summary, target, commitBytes, files, -, -, -, -, -, -, hnext⟩ :=
      buildCandidate_eq_ok hrequest hbuild
    rw [hnext]
    exact ⟨[], by rwa [List.append_nil]⟩
  | transact hbuild =>
    obtain ⟨db₁, results, commitBytes, hprepare, hrun, -, -, -, hdb₁, -⟩ :=
      buildTransaction_recorded hbuild
    obtain ⟨added, hadded⟩ := hkept.applyOperations hprepare hrun
    rw [hdb₁]
    exact ⟨added, hadded⟩

/-- A run continues the evolution by the schemas that its transactions add. -/
theorem Run.schemas (h : Run digest base actions table)
    (hkept : KeepsSchemas base.db.schemas history) :
    ∃ added, KeepsSchemas table.db.schemas (history ++ added) := by
  induction h with
  | nil => exact ⟨[], by rwa [List.append_nil]⟩
  | snoc _ hstep ih =>
    obtain ⟨added, hadded⟩ := ih
    obtain ⟨more, hmore⟩ := hstep.schemas hadded
    rw [List.append_assoc] at hmore
    exact ⟨added ++ more, hmore⟩

/-- **Schemas are kept.** From a genesis with a valid schema, every table of every history holds
exactly an evolution that starts with the schema of genesis, every later table holds a continuation
of it, and each schema reads back from both as it was added, up to the bits of NaN defaults. -/
theorem schemas_kept (digest : Digest) {input : GenesisImage} {base table later : PinnedTable}
    {before after : List Action} (hgenesis : mutateGenesis input = .ok base.db)
    (hvalid : input.schema.validate = .ok ()) (hbefore : Run digest base before table)
    (hafter : Run digest table after later) :
    ∃ history added, KeepsSchemas table.db.schemas ((input.schema, 0) :: history) ∧
      KeepsSchemas later.db.schemas ((input.schema, 0) :: history ++ added) ∧
      ∀ p ∈ (input.schema, 0) :: history,
        readSchema table.db.schemas p.1.schemaId = .ok p.1.canonNan ∧
          readSchema later.db.schemas p.1.schemaId = .ok p.1.canonNan := by
  rw [mutateGenesis] at hgenesis
  obtain ⟨schemas, hinsert, hgenesis⟩ := bind_eq_ok.mp hgenesis
  have hbase : base.db.schemas = schemas := by rw [← Except.ok.inj hgenesis]
  have hfirst : KeepsSchemas base.db.schemas [(input.schema, 0)] := by
    rw [hbase]
    exact ⟨Holds.init.step hinsert, .genesis hvalid⟩
  obtain ⟨history, hhistory⟩ := hbefore.schemas hfirst
  obtain ⟨added, hadded⟩ := hafter.schemas hhistory
  exact ⟨history, added, hhistory, hadded, fun p hp =>
    ⟨hhistory.readSchema_eq hp, hadded.readSchema_eq (List.mem_append_left added hp)⟩⟩

end Histories

section Samples

/-- A later schema of the sample table: its integer column and some boolean columns. -/
private def laterSchema (schemaId parent : UInt32) (added : List (UInt32 × String)) : Schema where
  schemaId := schemaId
  parentSchemaId := some parent
  fields := sampleGenesis.schema.fields ++
    added.map fun p => .mk p.1 p.2 false .boolean none none none
  identifierFieldIds := []
  doc := none

/-- A transaction that adds a schema and makes it the current one. -/
private def addsSchema (key : String) (current : UInt32) (schema : Schema) (newIds : List UInt32) :
    TransactionRequest where
  idempotencyKey := key
  requirements := [.currentSchemaIs current, .schemaIdAbsent schema.schemaId,
    .fieldIdsAbsent newIds]
  operations := [.addSchema "add" schema, .setCurrentSchema "set" schema.schemaId]
  commitMetadata := ∅

/-- The table after a second schema is added, and after a third one. -/
private def schemaRun : Except RuntimeError (PinnedTable × PinnedTable) := do
  let db ← mutateGenesis sampleGenesis
  let second ← buildTransaction sampleDigest
    (addsSchema "second" 1 (laterSchema 2 1 [(2, "a")]) [2]) (sampleDigest [5]) (sampleDrawn 4 5 1)
    ⟨db, ⟨"genesis", sampleDigest [2], none, none⟩, [], []⟩
  let third ← buildTransaction sampleDigest
    (addsSchema "third" 2 (laterSchema 3 2 [(2, "a"), (3, "b")]) [3]) (sampleDigest [6])
    (sampleDrawn 6 7 2) second.next
  return (second.next, third.next)

/-- The schemas of a table, and the second one as it is read. -/
private def schemasOf (table : PinnedTable) : List ℤ × Option UInt32 :=
  (table.db.schemas.schemas.map SchemaRow.schemaId,
    (readSchema table.db.schemas 2).toOption.map Schema.schemaId)

/-- A schema that was added reads back alike before and after another one is added. -/
theorem schemas_kept_sample : ∃ (table later : PinnedTable) (second : Schema),
    table.db.schemas.schemas.map SchemaRow.schemaId = [1, 2] ∧
    later.db.schemas.schemas.map SchemaRow.schemaId = [1, 2, 3] ∧ second.schemaId = 2 ∧
    readSchema later.db.schemas 1 = .ok sampleGenesis.schema.canonNan ∧
    readSchema table.db.schemas 2 = .ok second ∧ readSchema later.db.schemas 2 = .ok second := by
  have hrows : schemaRun.toOption.map (fun tables => (schemasOf tables.1, schemasOf tables.2)) =
      some (([1, 2], some 2), [1, 2, 3], some 2) := by decide +kernel
  cases hrun : schemaRun with
  | error e =>
    rw [hrun] at hrows
    cases hrows
  | ok tables =>
    obtain ⟨table, later⟩ := tables
    rw [hrun] at hrows
    obtain ⟨hfirst, hsecond⟩ := Prod.ext_iff.mp (Option.some.inj hrows)
    rw [schemaRun] at hrun
    obtain ⟨db, hgenesis, hrun⟩ := bind_eq_ok.mp hrun
    obtain ⟨added, hadded, hrun⟩ := bind_eq_ok.mp hrun
    obtain ⟨more, hmore, hrun⟩ := bind_eq_ok.mp hrun
    cases hrun
    obtain ⟨history, _, hkept, -, hread⟩ := @schemas_kept sampleDigest sampleGenesis
      ⟨db, ⟨"genesis", sampleDigest [2], none, none⟩, [], []⟩ added.next more.next
      [.transact _] [.transact _] hgenesis (by decide +kernel) (.snoc .nil (.transact hadded))
      (.snoc .nil (.transact hmore))
    obtain ⟨hids, hfound⟩ := Prod.ext_iff.mp hfirst
    obtain ⟨second, hreads, hid⟩ := Option.map_eq_some_iff.mp hfound
    have hreads := toOption_eq_some.mp hreads
    obtain ⟨p, hp, rfl⟩ := hkept.exists_of_readSchema hreads
    have htwo : p.1.schemaId = 2 := hid
    obtain ⟨htable, hlater⟩ := hread p hp
    rw [htwo] at htable hlater
    exact ⟨added.next, more.next, p.1.canonNan, hids, congrArg Prod.fst hsecond, hid,
      (hread _ List.mem_cons_self).2, htable, hlater⟩

end Samples

end Otmp
