import Otmp.Protocol.Commits
import Otmp.Protocol.JsonText
import Otmp.Protocol.SchemaFacts

/-!
# Written forms determine their values

Identifiers, hashes, numbers, references and commits are written into JSON, and some of
the texts are hashed. A hash identifies the object that was written only if two objects
never have the same written form.
-/

namespace Otmp

open Foundation CanonicalValue

/-- Identifiers with the same text are the same, since the text is parsed back. -/
theorem UuidValue.format_injective : Function.Injective UuidValue.format := fun a b h => by
  have hparse := parse_format a
  rw [h, parse_format b] at hparse
  exact (Except.ok.inj hparse).symm

/-- Hashes with the same text are the same, since the digits are decoded back. -/
theorem Sha256.format_injective : Function.Injective Sha256.format := fun a b h => by
  have hparse := parse_format a
  rw [h, parse_format b] at hparse
  exact (Except.ok.inj hparse).symm

/-- The decimal digits of a number determine it. -/
theorem toDigits_injective : Function.Injective (Nat.toDigits 10) := fun a b h => by
  have hread := decimalNat?_toDigits a
  rw [h, decimalNat?_toDigits b] at hread
  exact (Option.some.inj hread).symm

/-- Integers with the same decimal digits are the same. -/
theorem decimalInt_injective : Function.Injective decimalInt := fun a b h => by
  have hread := decimalInt?_decimalInt a
  rw [h, decimalInt?_decimalInt b] at hread
  exact (Option.some.inj hread).symm

/-- Texts with the same characters are the same. -/
theorem ofList_injective : Function.Injective String.ofList := fun _ _ h => String.ofList_inj.mp h

/-- Text values with the same text are the same. -/
theorem string_injective : Function.Injective CanonicalValue.string := fun _ _ h =>
  CanonicalValue.string.inj h

/-- Array values with the same elements are the same. -/
theorem array_injective : Function.Injective CanonicalValue.array := fun _ _ h =>
  CanonicalValue.array.inj h

/-- Natural numbers with the same decimal digits are the same. -/
theorem decimalString_injective : Function.Injective decimalString :=
  string_injective.comp (ofList_injective.comp toDigits_injective)

/-- An optional value is determined when the value is and is never written as null. -/
theorem orNull_injective {α : Type} {write : α → CanonicalValue}
    (hwrite : Function.Injective write) (hnull : ∀ a, write a ≠ .null) :
    Function.Injective (orNull write) := by
  intro a b h
  cases a with
  | none =>
    cases b with
    | none => rfl
    | some b => exact absurd h.symm (hnull b)
  | some a =>
    cases b with
    | none => exact absurd h (hnull a)
    | some b => exact congrArg some (hwrite h)

/-- A list of written values determines the list of the values. -/
theorem array_map_injective {α : Type} {write : α → CanonicalValue}
    (hwrite : Function.Injective write) :
    Function.Injective fun values : List α => CanonicalValue.array (values.map write) :=
  array_injective.comp (List.map_injective_iff.mpr hwrite)

/-- Object references with the same document are the same. -/
theorem ObjectReference.toValue_injective : Function.Injective ObjectReference.toValue := by
  intro r t h
  have hentries := members_injective h ["length", "media_type", "sha256", "uri"] rfl rfl
    (by decide)
  simp only [List.cons.injEq, Prod.mk.injEq, true_and, and_true,
    Option.some.injEq, CanonicalValue.string.injEq, Sha256.format_injective.eq_iff,
    (Option.map_injective decimalString_injective).eq_iff,
    (Option.map_injective string_injective).eq_iff] at hentries
  obtain ⟨hlength, hmediaType, hsha256, huri⟩ := hentries
  cases r
  cases t
  simp_all only

/-- Intent records with the same document are the same. -/
theorem IntentRecord.toValue_injective : Function.Injective IntentRecord.toValue := by
  intro i j h
  simp only [IntentRecord.toValue, CanonicalValue.object.injEq, List.cons.injEq, Prod.mk.injEq,
    true_and, and_true, CanonicalValue.string.injEq, Sha256.format_injective.eq_iff] at h
  obtain ⟨hintent, hkey, hoperationIds, hresult⟩ := h
  have hids := array_map_injective string_injective hoperationIds
  cases i
  cases j
  simp_all only

/-- Commits with the same document are the same, so a commit's bytes determine it. -/
theorem SemanticCommit.toValue_injective : Function.Injective SemanticCommit.toValue := by
  intro c d h
  have hhash : Function.Injective (orNull fun hash : Sha256 => .string hash.format) :=
    orNull_injective (string_injective.comp Sha256.format_injective) fun _ => nofun
  simp only [SemanticCommit.toValue, SemanticCommit.toMembers, CanonicalValue.object.injEq,
    List.cons.injEq, Prod.mk.injEq, true_and, and_true, CanonicalValue.string.injEq,
    CanonicalValue.integer.injEq, Int.natCast_inj, UuidValue.format_injective.eq_iff,
    Sha256.format_injective.eq_iff, ofList_injective.eq_iff, decimalInt_injective.eq_iff,
    decimalString_injective.eq_iff, CanonicalValue.array.injEq,
    (List.map_injective_iff.mpr string_injective).eq_iff,
    (List.map_injective_iff.mpr IntentRecord.toValue_injective).eq_iff,
    (orNull_injective ObjectReference.toValue_injective fun _ => nofun).eq_iff,
    (orNull_injective decimalString_injective fun _ => nofun).eq_iff,
    hhash.eq_iff] at h
  cases c
  cases d
  simp_all only

/-- Two scalars are written alike exactly when they are the same up to the choice of the NaN. -/
theorem TypedScalar.toValue_eq_toValue {s t : TypedScalar} :
    s.toValue = t.toValue ↔ s.canonNan = t.canonNan := by
  constructor
  · intro h
    have hentries := members_injective h ["type", "value"] rfl rfl (by decide)
    simp only [List.cons.injEq, Prod.mk.injEq, Option.some.injEq, CanonicalValue.string.injEq,
      true_and, and_true] at hentries
    obtain ⟨htype, hpayload⟩ := hentries
    have hread := ofPayload_payload s
    rw [htype, hpayload, ofPayload_payload t] at hread
    exact (Except.ok.inj hread).symm
  · intro h
    rw [← toValue_canonNan s, h, toValue_canonNan]

/-- Optional scalars are written alike when they are the same up to the choice of the NaN. -/
theorem TypedScalar.map_toValue_eq {s t : Option TypedScalar} :
    s.map toValue = t.map toValue ↔ s.map canonNan = t.map canonNan := by
  cases s with
  | none => cases t <;> simp
  | some s =>
    cases t with
    | none => simp
    | some t => simp [toValue_eq_toValue]

/-- Numbers of 32 bits with the same document are the same. -/
theorem uint32_injective : Function.Injective fun n : UInt32 => CanonicalValue.integer n.toNat :=
  fun _ _ h => UInt32.toNat_inj.mp (Int.natCast_inj.mp (CanonicalValue.integer.inj h))

mutual

/-- Types that are written alike have the same defaults up to the choice of the NaN. -/
theorem LogicalType.mapDefaults_of_toValue (t u : LogicalType) (h : t.toValue = u.toValue) :
    t.mapDefaults TypedScalar.canonNan = u.mapDefaults TypedScalar.canonNan := by
  cases t with
  | struct fields =>
    cases u <;> simp [LogicalType.toValue, LogicalType.tag] at h
    rename_i fields'
    simpa [LogicalType.mapDefaults] using Field.mapDefaultsList_of_toValues fields fields' h
  | list element =>
    cases u <;> simp [LogicalType.toValue, LogicalType.tag] at h
    rename_i element'
    simpa [LogicalType.mapDefaults] using Field.mapDefaults_of_toValue element element' h
  | map key value =>
    cases u <;> simp [LogicalType.toValue, LogicalType.tag] at h
    rename_i key' value'
    simpa [LogicalType.mapDefaults] using ⟨Field.mapDefaults_of_toValue key key' h.1,
      Field.mapDefaults_of_toValue value value' h.2⟩
  | _ => cases u <;>
      simp_all [LogicalType.toValue, LogicalType.tag, LogicalType.mapDefaults, ← UInt32.toNat_inj]
termination_by structural t

/-- Fields with the same document are the same up to the NaNs among their defaults. -/
theorem Field.mapDefaults_of_toValue (f g : Field) (h : f.toValue = g.toValue) :
    f.mapDefaults TypedScalar.canonNan = g.mapDefaults TypedScalar.canonNan := by
  cases f with
  | mk fieldId name required fieldType doc initialDefault writeDefault =>
    cases g with
    | mk fieldId' name' required' fieldType' doc' initialDefault' writeDefault' =>
      have hentries := members_injective h ["doc", "field_id", "initial_default", "name",
        "required", "type", "write_default"] rfl rfl (by decide)
      simp only [List.cons.injEq, Prod.mk.injEq, Option.some.injEq, CanonicalValue.string.injEq,
        CanonicalValue.integer.injEq, CanonicalValue.bool.injEq, Int.natCast_inj,
        UInt32.toNat_inj, (Option.map_injective string_injective).eq_iff,
        TypedScalar.map_toValue_eq, true_and, and_true] at hentries
      obtain ⟨hdoc, hid, hinitial, hname, hrequired, htype, hwrite⟩ := hentries
      have hfieldType := LogicalType.mapDefaults_of_toValue fieldType fieldType' htype
      simp only [Field.mapDefaults, hdoc, hid, hinitial, hname, hrequired, hfieldType, hwrite]
termination_by structural f

/-- Lists of fields with the same documents are the same up to the NaNs among their defaults. -/
theorem Field.mapDefaultsList_of_toValues (fs gs : List Field)
    (h : Field.toValues fs = Field.toValues gs) :
    Field.mapDefaultsList TypedScalar.canonNan fs =
      Field.mapDefaultsList TypedScalar.canonNan gs := by
  cases fs with
  | nil =>
    cases gs with
    | nil => rfl
    | cons g gs => cases h
  | cons f fs =>
    cases gs with
    | nil => cases h
    | cons g gs =>
      obtain ⟨hhead, htail⟩ := List.cons.inj h
      rw [Field.mapDefaultsList, Field.mapDefaultsList, Field.mapDefaults_of_toValue f g hhead,
        Field.mapDefaultsList_of_toValues fs gs htail]
termination_by structural fs

end

/-- Schemas are written alike exactly when they are the same up to the choice of the NaN. -/
theorem Schema.toValue_eq_toValue {s t : Schema} :
    s.toValue = t.toValue ↔ s.canonNan = t.canonNan := by
  constructor
  · intro h
    have hentries := members_injective h ["doc", "fields", "identifier_field_ids",
      "parent_schema_id", "schema_id"] rfl rfl (by decide)
    simp only [List.cons.injEq, Prod.mk.injEq, Option.some.injEq, CanonicalValue.integer.injEq,
      CanonicalValue.array.injEq, Int.natCast_inj, UInt32.toNat_inj,
      (Option.map_injective string_injective).eq_iff,
      (Option.map_injective uint32_injective).eq_iff,
      (List.map_injective_iff.mpr uint32_injective).eq_iff, true_and, and_true] at hentries
    obtain ⟨hdoc, hfields, hidentifiers, hparent, hid⟩ := hentries
    have hmapped := Field.mapDefaultsList_of_toValues s.fields t.fields hfields
    rw [Field.mapDefaultsList_eq, Field.mapDefaultsList_eq] at hmapped
    simp only [Schema.mapDefaults, hdoc, hmapped, hidentifiers, hparent, hid]
  · intro h
    rw [← Schema.toValue_canonNan s, h, Schema.toValue_canonNan]

end Otmp
