import Otmp.Protocol.Types

/-!
# Equality of fields as the source derives it

The derived equality compares defaults as floating-point numbers. It holds exactly when no
default of the first field is a NaN and both fields are the same up to the sign of zeros.
-/

namespace Otmp

namespace TypedScalar

/-- A zero without its sign, and any NaN as the canonical one. -/
def loose : TypedScalar → TypedScalar
  | .float32 bits => .float32
      (if f32IsNan bits then 0x7fc00000 else if bits.toNat % 2 ^ 31 = 0 then 0 else bits)
  | .float64 bits => .float64
      (if f64IsNan bits then 0x7ff8000000000000 else if bits.toNat % 2 ^ 63 = 0 then 0 else bits)
  | value => value

/-- The source's equality of 32-bit floats is that of the loose forms, except that a NaN equals
nothing. -/
theorem f32Eq_iff {a b : UInt32} : f32Eq a b = true ↔
    f32IsNan a = false ∧ loose (.float32 a) = loose (.float32 b) := by
  have hcanonical : f32IsNan 0x7fc00000 = true := by decide
  have hzero : (0 : UInt32).toNat % 2 ^ 31 = 0 := by decide
  simp only [loose, f32Eq, Bool.and_eq_true, Bool.not_eq_true', Bool.or_eq_true, beq_iff_eq,
    float32.injEq]
  constructor
  · rintro ⟨⟨ha, hb⟩, rfl | ⟨hza, hzb⟩⟩
    · exact ⟨ha, rfl⟩
    · exact ⟨ha, by rw [ha, hb, if_pos hza, if_pos hzb]⟩
  · rintro ⟨ha, h⟩
    rw [ha, if_neg Bool.false_ne_true] at h
    cases hb : f32IsNan b with
    | true =>
      rw [hb, if_pos rfl] at h
      split at h
      · cases h
      · rw [h, hcanonical] at ha
        cases ha
    | false =>
      rw [hb, if_neg Bool.false_ne_true] at h
      refine ⟨⟨ha, rfl⟩, ?_⟩
      split at h
      · next hza =>
        split at h
        · next hzb => exact .inr ⟨hza, hzb⟩
        · next hzb => exact absurd (h ▸ hzero) hzb
      · next hza =>
        split at h
        · exact absurd (h ▸ hzero) hza
        · exact .inl h

/-- The source's equality of 64-bit floats is that of the loose forms, except that a NaN equals
nothing. -/
theorem f64Eq_iff {a b : UInt64} : f64Eq a b = true ↔
    f64IsNan a = false ∧ loose (.float64 a) = loose (.float64 b) := by
  have hcanonical : f64IsNan 0x7ff8000000000000 = true := by decide
  have hzero : (0 : UInt64).toNat % 2 ^ 63 = 0 := by decide
  simp only [loose, f64Eq, Bool.and_eq_true, Bool.not_eq_true', Bool.or_eq_true, beq_iff_eq,
    float64.injEq]
  constructor
  · rintro ⟨⟨ha, hb⟩, rfl | ⟨hza, hzb⟩⟩
    · exact ⟨ha, rfl⟩
    · exact ⟨ha, by rw [ha, hb, if_pos hza, if_pos hzb]⟩
  · rintro ⟨ha, h⟩
    rw [ha, if_neg Bool.false_ne_true] at h
    cases hb : f64IsNan b with
    | true =>
      rw [hb, if_pos rfl] at h
      split at h
      · cases h
      · rw [h, hcanonical] at ha
        cases ha
    | false =>
      rw [hb, if_neg Bool.false_ne_true] at h
      refine ⟨⟨ha, rfl⟩, ?_⟩
      split at h
      · next hza =>
        split at h
        · next hzb => exact .inr ⟨hza, hzb⟩
        · next hzb => exact absurd (h ▸ hzero) hzb
      · next hza =>
        split at h
        · exact absurd (h ▸ hzero) hza
        · exact .inl h

/-- Equality of scalars as the source derives it: no NaN equals anything, and both zeros are equal.
-/
theorem eq_iff {a b : TypedScalar} : a.eq b = true ↔ a.isNan = false ∧ a.loose = b.loose := by
  cases a with
  | float32 a =>
    cases b with
    | float32 b => exact f32Eq_iff
    | _ => simp [eq, loose]
  | float64 a =>
    cases b with
    | float64 b => exact f64Eq_iff
    | _ => simp [eq, loose]
  | _ =>
    cases b with
    | float32 b => simp [eq, loose]
    | float64 b => simp [eq, loose]
    | _ => simp [eq, loose, isNan]

end TypedScalar

/-- Equality of optional defaults, which is that of the scalars they have. -/
theorem optionEq_iff {a b : Option TypedScalar} : optionEq a b = true ↔
    a.all (fun s => !s.isNan) = true ∧ a.map TypedScalar.loose = b.map TypedScalar.loose := by
  cases a with
  | none => cases b <;> simp [optionEq]
  | some a =>
    cases b with
    | none => simp [optionEq]
    | some b => simp [optionEq, TypedScalar.eq_iff]

namespace Field

/-- A field up to the sign of zero defaults and the choice of NaNs. -/
abbrev loose (f : Field) : Field := f.mapDefaults TypedScalar.loose

/-- No default in the tree is a NaN, so that the field equals itself. -/
abbrev nanFree (f : Field) : Bool := f.allDefaults fun s => !s.isNan

/-- Equality of field lists is pointwise, as no list equals one of another length. -/
private theorem eqList_iff {fields fs : List Field}
    (h : ∀ c ∈ fields, ∀ g, c.eq g = true ↔ c.nanFree = true ∧ c.loose = g.loose) :
    eqList fields fs = true ↔
      fields.all nanFree = true ∧ fields.map loose = fs.map loose := by
  induction fields generalizing fs with
  | nil => cases fs <;> simp [eqList]
  | cons c cs ih =>
    cases fs with
    | nil => simp [eqList]
    | cons g gs =>
      rw [eqList, Bool.and_eq_true, h c List.mem_cons_self,
        ih fun d hd => h d (List.mem_cons_of_mem _ hd), List.all_cons, Bool.and_eq_true,
        List.map_cons, List.map_cons, List.cons.injEq]
      tauto

/-- Equality of types, when the nested fields compare as they should. -/
private theorem typeEq_iff {t u : LogicalType}
    (h : ∀ c ∈ t.children, ∀ g, c.eq g = true ↔ c.nanFree = true ∧ c.loose = g.loose) :
    t.eq u = true ↔ t.allDefaults (fun s => !s.isNan) = true ∧
      t.mapDefaults TypedScalar.loose = u.mapDefaults TypedScalar.loose := by
  rw [allDefaults_fieldType]
  cases t with
  | struct fields =>
    cases u with
    | struct fs =>
      have h : ∀ c ∈ fields, ∀ g, c.eq g = true ↔ c.nanFree = true ∧ c.loose = g.loose := h
      rw [LogicalType.eq, eqList_iff h, LogicalType.mapDefaults, LogicalType.mapDefaults,
        LogicalType.struct.injEq, mapDefaultsList_eq, mapDefaultsList_eq]
      rfl
    | _ => simp [LogicalType.eq, LogicalType.mapDefaults]
  | list element =>
    cases u with
    | list e =>
      rw [LogicalType.eq, h element List.mem_cons_self, LogicalType.mapDefaults,
        LogicalType.mapDefaults, LogicalType.list.injEq]
      simp [LogicalType.children]
    | _ => simp [LogicalType.eq, LogicalType.mapDefaults]
  | map key value =>
    cases u with
    | map k v =>
      rw [LogicalType.eq, Bool.and_eq_true, h key List.mem_cons_self,
        h value (List.mem_cons_of_mem _ List.mem_cons_self), LogicalType.mapDefaults,
        LogicalType.mapDefaults, LogicalType.map.injEq]
      simp only [LogicalType.children, List.all_cons, List.all_nil, Bool.and_eq_true, and_true]
      tauto
    | _ => simp [LogicalType.eq, LogicalType.mapDefaults]
  | _ => cases u <;> simp [LogicalType.eq, LogicalType.mapDefaults, LogicalType.children]

/-- **Equality of fields.** It holds when the first field has no NaN and both are the same up to
the sign of zeros. -/
theorem eq_iff (f g : Field) : f.eq g = true ↔ f.nanFree = true ∧ f.loose = g.loose := by
  induction f using Field.induction generalizing g with
  | h f ih =>
    have htype := typeEq_iff (u := g.fieldType) ih
    cases f with
    | mk fieldId name required fieldType doc initialDefault writeDefault =>
      cases g with
      | mk fieldId' name' required' fieldType' doc' initialDefault' writeDefault' =>
        simp only [Field.fieldType] at htype
        simp only [eq, Bool.and_eq_true, beq_iff_eq, optionEq_iff, htype, nanFree, loose,
          allDefaults, mapDefaults, mk.injEq]
        tauto

/-- A type equals itself when no default in it is a NaN. -/
theorem type_eq_self (t : LogicalType) :
    t.eq t = t.allDefaults fun s => !s.isNan := by
  rw [Bool.eq_iff_iff, typeEq_iff fun c _ g => eq_iff c g]
  exact and_iff_left rfl

end Field

end Otmp
