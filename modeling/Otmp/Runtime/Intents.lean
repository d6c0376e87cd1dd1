import Otmp.Protocol.WrittenForms
import Otmp.Runtime.Append

/-!
# Intents

The intent of a request is the canonical text that is hashed under its idempotency key.
The intent of an append says everything about its files but where they are read from, and
nothing about the key; the intent of a transaction is the whole request. Requests have one
intent exactly when they ask for the same, where all NaNs count as one.
-/

namespace Otmp

open Foundation CanonicalValue

/-- The input of the hash of an intent, under a label of its own. -/
def intentInput (canonicalIntent : Bytes) : Bytes := label "OTMP-INTENT" ++ canonicalIntent

/-- Metadata with the same document is the same. -/
theorem JsonMap.toValue_injective : Function.Injective JsonMap.toValue := fun _ _ h =>
  Std.ExtTreeMap.toList_inj.mp (CanonicalValue.object.inj h)

/-- Optional identifiers with the same document are the same. -/
theorem optionalIdValue_injective : Function.Injective optionalIdValue :=
  orNull_injective (string_injective.comp UuidValue.format_injective) fun _ => nofun

/-- Optional scalars are written alike when they are the same up to the choice of the NaN. -/
theorem orNull_scalar_eq {s t : Option TypedScalar} :
    orNull TypedScalar.toValue s = orNull TypedScalar.toValue t ↔
      s.map TypedScalar.canonNan = t.map TypedScalar.canonNan := by
  cases s with
  | none =>
    cases t with
    | none => simp
    | some t => simp [orNull, TypedScalar.toValue]
  | some s =>
    cases t with
    | none => simp [orNull, TypedScalar.toValue]
    | some t => simp [orNull, TypedScalar.toValue_eq_toValue]

/-- Partition values with the canonical NaN, as their JSON form has them. -/
def PartitionValues.canonNan (values : PartitionValues) : PartitionValues :=
  values.map fun _ value => value.canonNan

/-- A metric with the canonical NaN in its bounds, as its JSON form has it. -/
def FileMetric.canonNan (m : FileMetric) : FileMetric :=
  { m with
    lowerBound := m.lowerBound.map TypedScalar.canonNan
    upperBound := m.upperBound.map TypedScalar.canonNan }

/-- What a file says about itself, without the place it comes from. -/
def AppendFile.logical (file : AppendFile) : AppendFile :=
  { file with
    sourcePath := ""
    partitionValues := file.partitionValues.canonNan
    metrics := file.metrics.map FileMetric.canonNan }

/-- Two append requests ask for the same, wherever their files come from and whatever their key is.
-/
structure AppendRequest.SameIntent (r s : AppendRequest) : Prop where
  targetRef : r.targetRef = s.targetRef
  files : r.files.map AppendFile.logical = s.files.map AppendFile.logical
  summary : r.summary = s.summary
  commitMetadata : r.commitMetadata = s.commitMetadata
  snapshotMetadata : r.snapshotMetadata = s.snapshotMetadata

/-- Metrics have the same document exactly when they are the same up to their NaNs. -/
theorem FileMetric.toValue_eq_toValue {m n : FileMetric} :
    m.toValue = n.toValue ↔ m.canonNan = n.canonNan := by
  simp only [FileMetric.toValue, CanonicalValue.object.injEq, List.cons.injEq, Prod.mk.injEq,
    true_and, and_true, decimalString_injective.eq_iff, UInt32.toNat_inj,
    (orNull_injective decimalString_injective fun _ h => by cases h).eq_iff, orNull_scalar_eq,
    JsonMap.toValue_injective.eq_iff]
  cases m
  cases n
  simp only [FileMetric.canonNan, FileMetric.mk.injEq]
  tauto

/-- The key of a partition value in JSON: the field identifier in decimal. -/
private def partitionKey (fieldId : UInt32) : String :=
  String.ofList (Nat.toDigits 10 fieldId.toNat)

/-- Fields with the same key are the same. -/
private theorem partitionKey_injective : Function.Injective partitionKey := fun _ _ h =>
  UInt32.toNat_inj.mp (toDigits_injective (ofList_injective h))

/-- The partition values are found under their decimal keys. -/
private theorem getElem?_partition (values : PartitionValues) (fieldId : UInt32) :
    (Std.ExtTreeMap.ofList (values.toList.map fun entry =>
      (partitionKey entry.1, entry.2.toValue)) compare)[partitionKey fieldId]? =
      values[fieldId]?.map TypedScalar.toValue := by
  cases hvalue : values[fieldId]? with
  | none =>
    refine Std.ExtTreeMap.getElem?_ofList_of_contains_eq_false ?_
    rw [Bool.eq_false_iff]
    intro hcontains
    rw [List.contains_iff_mem, List.map_map, List.mem_map] at hcontains
    obtain ⟨⟨fieldId', value⟩, hentry, hkey⟩ := hcontains
    have hid : fieldId' = fieldId := partitionKey_injective hkey
    rw [Std.ExtTreeMap.mem_toList_iff_getElem?_eq_some, hid, hvalue] at hentry
    cases hentry
  | some value =>
    refine Std.ExtTreeMap.getElem?_ofList_of_mem Std.ReflCmp.compare_self ?_ ?_
    · rw [List.pairwise_map]
      refine Std.ExtTreeMap.distinct_keys_toList.imp fun {a b} hdistinct hequal => hdistinct ?_
      have hkeys : a.1 = b.1 := partitionKey_injective (Std.LawfulEqCmp.eq_of_compare hequal)
      rw [hkeys]
      exact Std.ReflCmp.compare_self
    · exact List.mem_map_of_mem (f := fun entry : UInt32 × TypedScalar =>
        (partitionKey entry.1, entry.2.toValue))
        (Std.ExtTreeMap.mem_toList_iff_getElem?_eq_some.mpr hvalue)

/-- Partition values have the same document exactly when they are the same up to their NaNs. -/
theorem AppendFile.partitionValue_eq {f g : AppendFile} :
    f.partitionValue = g.partitionValue ↔
      f.partitionValues.canonNan = g.partitionValues.canonNan := by
  have hnan : ∀ values : PartitionValues, ∀ fieldId,
      values.canonNan[fieldId]? = values[fieldId]?.map TypedScalar.canonNan :=
    fun _ _ => Std.ExtTreeMap.getElem?_map
  constructor
  · intro h
    have hmaps := JsonMap.toValue_injective h
    refine Std.ExtTreeMap.ext_getElem? fun fieldId => ?_
    rw [hnan, hnan, ← TypedScalar.map_toValue_eq, ← getElem?_partition, ← getElem?_partition]
    exact congrArg (fun m : JsonMap => m[partitionKey fieldId]?) hmaps
  · intro h
    have hlist : ∀ values : PartitionValues, values.toList.map (fun entry =>
        (partitionKey entry.1, entry.2.toValue)) = values.canonNan.toList.map fun entry =>
          (partitionKey entry.1, entry.2.toValue) := by
      intro values
      rw [PartitionValues.canonNan, Std.ExtTreeMap.toList_map, List.map_map]
      refine List.map_congr_left fun entry _ => ?_
      simp only [Function.comp_apply, TypedScalar.toValue_canonNan]
    refine congrArg (fun entries => JsonMap.toValue (.ofList entries compare)) ?_
    have hother := hlist g.partitionValues
    rw [← h] at hother
    exact (hlist f.partitionValues).trans hother.symm

/-- Files have the same document exactly when their logical parts are the same. -/
theorem AppendFile.logicalValue_eq {f g : AppendFile} :
    f.logicalValue = g.logicalValue ↔ f.logical = g.logical := by
  have hmetrics : f.metrics.map FileMetric.toValue = g.metrics.map FileMetric.toValue ↔
      f.metrics.map FileMetric.canonNan = g.metrics.map FileMetric.canonNan :=
    map_eq_map_iff fun m n => FileMetric.toValue_eq_toValue
  simp only [AppendFile.logicalValue, CanonicalValue.object.injEq, List.cons.injEq, Prod.mk.injEq,
    true_and, and_true, decimalString_injective.eq_iff, UInt32.toNat_inj,
    CanonicalValue.string.injEq, Sha256.format_injective.eq_iff, CanonicalValue.array.injEq,
    JsonMap.toValue_injective.eq_iff, AppendFile.partitionValue_eq, hmetrics,
    AppendFile.logical, AppendFile.mk.injEq]
  tauto

/-- Append requests have one intent exactly when they ask for the same. -/
theorem AppendRequest.logicalIntent_eq {r s : AppendRequest} :
    r.logicalIntent = s.logicalIntent ↔ r.SameIntent s := by
  have hfiles : r.files.map AppendFile.logicalValue = s.files.map AppendFile.logicalValue ↔
      r.files.map AppendFile.logical = s.files.map AppendFile.logical :=
    map_eq_map_iff fun f g => AppendFile.logicalValue_eq
  simp only [AppendRequest.logicalIntent, CanonicalValue.object.injEq, List.cons.injEq,
    Prod.mk.injEq, true_and, and_true, CanonicalValue.string.injEq, CanonicalValue.array.injEq,
    JsonMap.toValue_injective.eq_iff, hfiles]
  constructor
  · rintro ⟨hsummary, hcommit, hfiles, hsnapshot, htarget⟩
    exact ⟨htarget, hfiles, hsummary, hcommit, hsnapshot⟩
  · rintro ⟨htarget, hfiles, hsummary, hcommit, hsnapshot⟩
    exact ⟨hsummary, hcommit, hfiles, hsnapshot, htarget⟩

/-- The JSON form of a transaction request, which is its intent. -/
def TransactionRequest.toValue (request : TransactionRequest) : CanonicalValue :=
  .object [("commit_metadata", request.commitMetadata.toValue),
    ("idempotency_key", .string request.idempotencyKey),
    ("operations", .array (request.operations.map OperationRequest.toValue)),
    ("requirements", .array (request.requirements.map Requirement.toValue))]

/-- An operation with the canonical NaN in the defaults of the schema it adds, if it adds one. -/
def OperationRequest.canonNan : OperationRequest → OperationRequest
  | .addSchema operationId schema => .addSchema operationId schema.canonNan
  | operation => operation

/-- Two transaction requests ask for the same, up to the NaNs in the schemas they add. -/
structure TransactionRequest.SameIntent (r s : TransactionRequest) : Prop where
  idempotencyKey : r.idempotencyKey = s.idempotencyKey
  requirements : r.requirements = s.requirements
  operations : r.operations.map OperationRequest.canonNan =
    s.operations.map OperationRequest.canonNan
  commitMetadata : r.commitMetadata = s.commitMetadata

/-- Types of references with the same name are the same. -/
theorem RefType.asStr_injective : Function.Injective RefType.asStr := by
  rintro ⟨⟩ ⟨⟩ h
  · rfl
  · exact absurd h (by decide)
  · exact absurd h (by decide)
  · rfl

/-- Lists of field identifiers with the same decimal numbers are the same. -/
theorem fieldIds_injective :
    Function.Injective fun ids : List UInt32 => ids.map fun id => decimalString id.toNat :=
  List.map_injective_iff.mpr fun _ _ h => UInt32.toNat_inj.mp (decimalString_injective h)

/-- Requirements with the same document are the same. -/
theorem Requirement.toValue_injective : Function.Injective Requirement.toValue := by
  intro r s h
  cases r <;> cases s <;>
    simp_all [Requirement.toValue, RefType.asStr_injective.eq_iff, UInt32.toNat_inj,
      decimalString_injective.eq_iff, optionalIdValue_injective.eq_iff,
      UuidValue.format_injective.eq_iff, fieldIds_injective.eq_iff]

/-- Operations are written alike exactly when they are the same up to the choice of the NaN. -/
theorem OperationRequest.toValue_eq {a b : OperationRequest} :
    a.toValue = b.toValue ↔ a.canonNan = b.canonNan := by
  cases a <;> cases b <;>
    simp [OperationRequest.toValue, OperationRequest.canonNan, RefType.asStr_injective.eq_iff,
      UInt32.toNat_inj, decimalString_injective.eq_iff, optionalIdValue_injective.eq_iff,
      UuidValue.format_injective.eq_iff, JsonMap.toValue_injective.eq_iff,
      Schema.toValue_eq_toValue, (List.map_injective_iff.mpr string_injective).eq_iff]
  exact fun _ => and_comm

/-- Transaction requests have one intent exactly when they ask for the same. -/
theorem TransactionRequest.toValue_eq {r s : TransactionRequest} :
    r.toValue = s.toValue ↔ r.SameIntent s := by
  have hoperations : r.operations.map OperationRequest.toValue =
      s.operations.map OperationRequest.toValue ↔ r.operations.map OperationRequest.canonNan =
      s.operations.map OperationRequest.canonNan :=
    map_eq_map_iff fun a b => OperationRequest.toValue_eq
  simp only [TransactionRequest.toValue, CanonicalValue.object.injEq, List.cons.injEq,
    Prod.mk.injEq, true_and, and_true, CanonicalValue.string.injEq, CanonicalValue.array.injEq,
    JsonMap.toValue_injective.eq_iff, hoperations,
    (List.map_injective_iff.mpr Requirement.toValue_injective).eq_iff]
  constructor
  · rintro ⟨hmetadata, hkey, hoperations, hrequirements⟩
    exact ⟨hkey, hrequirements, hoperations, hmetadata⟩
  · rintro ⟨hkey, hrequirements, hoperations, hmetadata⟩
    exact ⟨hmetadata, hkey, hoperations, hrequirements⟩

end Otmp
