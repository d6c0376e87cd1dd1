import Otmp.Image.SchemaRows

/-!
# Checking stored schemas

The rows of a schema read back as the schema with its NaNs canonical. The image
check accepts them exactly when no field below the roots has a NaN among its
defaults: the check compares each nested field with itself under floating-point
equality, and it never compares the roots.
-/

namespace Otmp

open Foundation List

/-- A scalar that is not a NaN, and so equals itself under the source's equality. -/
abbrev notNan (s : TypedScalar) : Bool := !s.isNan

/-- No field below the roots has a NaN default. -/
def Schema.NestedNanFree (s : Schema) : Prop :=
  ∀ f ∈ s.fields, ∀ c ∈ f.children, c.allDefaults notNan = true

/-- No field has a NaN default, at any depth. -/
def Schema.NanFree (s : Schema) : Prop := ∀ f ∈ s.fields, f.allDefaults notNan = true

/-- The choice of the NaN does not change which defaults are NaNs. -/
theorem Field.allDefaults_canonNan (f : Field) :
    f.canonNan.allDefaults notNan = f.allDefaults notNan := by
  induction f using Field.induction with
  | h f ih =>
    have hown : (f.defaults.map TypedScalar.canonNan).all notNan = f.defaults.all notNan := by
      rw [all_map]
      congr 1
      funext scalar
      simp [notNan]
    rw [allDefaults_eq, allDefaults_eq, defaults_mapDefaults, hown, children_mapDefaults, all_map]
    congr 1
    rw [Bool.eq_iff_iff, all_eq_true, all_eq_true]
    exact forall_congr' fun c => forall_congr' fun hc => by rw [Function.comp_apply, ih c hc]

/-- Siblings in any order have contiguous positions. -/
theorem assertContiguous_eq_ok {rows : List NormalizedField} {parent : Option UInt32}
    {fields : List Field} (h : rows ~ siblings parent 0 fields) :
    assertContiguous rows = .ok () := by
  have hordinals : rows.map NormalizedField.ordinal ~ range fields.length := by
    have hmap := h.map NormalizedField.ordinal
    rwa [map_ordinal_siblings, ← range_eq_range'] at hmap
  have hlength : rows.length = fields.length := by
    rw [h.length_eq, length_siblings]
  have hlist : (Std.ExtTreeSet.ofList (rows.map NormalizedField.ordinal) compare).toList =
      range fields.length := by
    apply Pairwise.eq_of_mem_iff (r := fun a b : ℕ => a < b)
    · exact (Std.ExtTreeSet.ordered_toList).imp fun hlt => Std.compare_eq_lt.mp hlt
    · exact pairwise_lt_range
    · intro a
      rw [Std.ExtTreeSet.mem_toList, Std.ExtTreeSet.mem_ofList, contains_iff_mem,
        hordinals.mem_iff]
  rw [assertContiguous, if_neg]
  rw [not_or, not_not, not_not, hlist, hlength, ← Std.ExtTreeSet.length_toList, hlist, length_range]
  exact ⟨rfl, rfl⟩

/-- The comparison of the rows with the nested fields compares each field with itself. -/
private theorem any_zip_siblings (parent : Option UInt32) (ordinal : ℕ) (fields : List Field) :
    ((siblings parent ordinal fields).zip fields).any (fun pair => !pair.1.field.eq pair.2) =
      fields.any fun c => !c.eq c := by
  induction fields generalizing ordinal with
  | nil => rfl
  | cons c cs ih => rw [siblings, zip_cons_cons, any_cons, any_cons, ih]

section RowsOf

variable {s : Schema} (hnodup : (s.flatten.map Field.fieldId).Nodup)
include hnodup

/-- Sorted by position, the rows under a field are the fields nested in it. -/
theorem sorted_under_field {f : Field} (hf : f ∈ s.flatten) :
    sortByKey NormalizedField.ordinal ((rowsOf s).under (some f.fieldId)) =
      siblings (some f.fieldId) 0 f.children :=
  sortByKey_eq (under_field hnodup hf) (siblings_ascending _ _ _)

/-- Sorted by position, the rows without a parent are the roots. -/
theorem sorted_under_none :
    sortByKey NormalizedField.ordinal ((rowsOf s).under none) = siblings none 0 s.fields :=
  sortByKey_eq (under_none hnodup) (siblings_ascending _ _ _)

/-- The rows under a field agree with its type when each nested field equals itself. -/
theorem checkChildren_eq_ok {f : Field} (hf : f ∈ s.flatten) :
    checkChildren (rowsOf s) f = .ok () ↔ ∀ c ∈ f.children, c.allDefaults notNan = true := by
  have hcontiguous := assertContiguous_eq_ok (under_field hnodup hf)
  simp only [checkChildren, check_eq_ok, hcontiguous, true_and, corrupt, ite_error_eq_ok,
    sorted_under_field hnodup hf, length_siblings, any_zip_siblings, and_true]
  simp [Field.eq_self]

/-- The checks below a field succeed exactly when no field below it has a NaN default. -/
theorem validateNormalized_eq_ok {f : Field} (hf : f ∈ s.flatten) :
    f.validateNormalized (rowsOf s) = .ok () ↔
      ∀ c ∈ f.children, c.allDefaults notNan = true := by
  have hlist : ∀ fields : List Field, Field.validateNormalizedList (rowsOf s) fields = .ok () ↔
      ∀ c ∈ fields, c.validateNormalized (rowsOf s) = .ok () := by
    intro fields
    induction fields with
    | nil => simp [Field.validateNormalizedList]
    | cons c cs ih => rw [Field.validateNormalizedList, check_eq_ok, ih, forall_mem_cons]
  have hnested : ∀ t : LogicalType, t.validateNormalized (rowsOf s) = .ok () ↔
      ∀ c ∈ t.children, c.validateNormalized (rowsOf s) = .ok () := by
    intro t
    cases t <;> simp [LogicalType.validateNormalized, LogicalType.children, hlist, check_eq_ok]
  induction f using Field.induction with
  | h f ih =>
    have hunfold : f.validateNormalized (rowsOf s) =
        (checkChildren (rowsOf s) f >>= fun _ => f.fieldType.validateNormalized (rowsOf s)) := by
      cases f
      rfl
    rw [hunfold, check_eq_ok, checkChildren_eq_ok hnodup hf, hnested]
    refine and_iff_left_of_imp fun hfree c hc => ?_
    refine (ih c hc (Schema.mem_flatten_of_mem_children hc hf)).mpr ?_
    have hown := hfree c hc
    rw [Field.allDefaults_eq, Bool.and_eq_true, all_eq_true (p := Field.allDefaults notNan)]
      at hown
    exact hown.2

/-- All stored fields are reached from the roots. -/
theorem reachable_rowsOf :
    ¬((collectFieldIds s.fields).size ≠ (rowsOf s).size ∨
      (rowsOf s).keys.any (fun id => id ∉ collectFieldIds s.fields) = true) := by
  have hmem : ∀ id, id ∈ collectFieldIds s.fields ↔ id ∈ s.flatten.map Field.fieldId := by
    intro id
    rw [collectFieldIds, Std.ExtTreeSet.mem_ofList, contains_iff_mem]
    rfl
  have hids : (collectFieldIds s.fields).toList ~ s.flatten.map Field.fieldId := by
    have hdistinct : (collectFieldIds s.fields).toList.Nodup :=
      Std.ExtTreeSet.ordered_toList.imp fun hlt heq =>
        absurd (heq ▸ Std.compare_eq_lt.mp hlt) (UInt32.lt_irrefl _)
    apply (perm_ext_iff_of_nodup hdistinct hnodup).mpr
    intro id
    rw [Std.ExtTreeSet.mem_toList, hmem]
  rw [not_or]
  constructor
  · rw [not_not, ← Std.ExtTreeSet.length_toList, hids.length_eq, length_map,
      size_rowsOf hnodup]
  · rw [any_eq_true]
    rintro ⟨id, hid, hunreached⟩
    have hget : ∃ n, (rowsOf s)[id]? = some n := by
      rw [Std.ExtTreeMap.mem_keys] at hid
      exact ⟨_, Std.ExtTreeMap.getElem?_eq_some_getElem hid⟩
    obtain ⟨n, hn⟩ := hget
    obtain ⟨hplace, rfl⟩ := (getElem?_rowsOf hnodup).mp hn
    have hfield : n.field ∈ s.flatten := by
      rw [← s.map_field_places]
      exact mem_map_of_mem hplace
    simp only [decide_eq_true_eq] at hunreached
    exact hunreached ((hmem _).mpr (mem_map_of_mem hfield))

end RowsOf

/-- Texts of scalars are shallow. -/
theorem depth_toValue_le (scalar : TypedScalar) :
    scalar.toValue.depth ≤ CanonicalValue.maxDepth := by
  unfold CanonicalValue.maxDepth TypedScalar.toValue
  cases scalar <;>
    simp [TypedScalar.payload, CanonicalValue.members, CanonicalValue.depth,
      CanonicalValue.depthMembers, CanonicalValue.depthMember, TypedScalar.int64Value,
      TypedScalar.bitsValue, TypedScalar.bytesValue]

/-- An optional default that was stored is parsed back, up to its NaN. -/
private theorem parseOptionalScalar_map {o : Option TypedScalar} (h : o.all scalarOk = true) :
    parseOptionalScalar (o.map TypedScalar.toValue) = .ok (o.map TypedScalar.canonNan) := by
  cases o with
  | none => rfl
  | some scalar =>
    rw [Option.all_some] at h
    rw [Option.map_some, parseOptionalScalar, fromCanonical, if_pos (depth_toValue_le scalar),
      TypedScalar.ofValue_toValue (validate_of_scalarOk h)]
    rfl

/-- A 32-bit number survives the conversion to the database's integers and back. -/
theorem u32TryFrom_toNat (value : UInt32) (message : String) :
    u32TryFrom (value.toNat : ℤ) message = .ok value := by
  have hvalue := value.toNat_lt
  rw [u32TryFrom, if_pos (by omega), Int.toNat_natCast, UInt32.ofNat_toNat]

/-- An optional 32-bit number survives the conversion to the database's integers and back. -/
theorem optionalU32_map (value : Option UInt32) (message : String) :
    optionalU32 (value.map fun id => (id.toNat : ℤ)) message = .ok value := by
  cases value with
  | none => rfl
  | some id =>
    rw [Option.map_some, optionalU32, u32TryFrom_toNat]
    rfl

/-- The place of a field whose NaNs are canonical. -/
def NormalizedField.canonNan (n : NormalizedField) : NormalizedField :=
  { n with field := n.field.canonNan }

/-- The row of a field reads back at its place, up to the choice of the NaN. -/
theorem normalize_row {schemaId : UInt32} {n : NormalizedField}
    (hscalars : n.field.allDefaults scalarOk = true)
    (hdepth : n.field.fieldType.toValue.depth ≤ CanonicalValue.maxDepth)
    (hordinal : n.ordinal < 4294967296) :
    (n.row schemaId).normalize = .ok (n.field.fieldId, n.canonNan) := by
  obtain ⟨parent, ordinal, field⟩ := n
  have hchildren := hscalars
  rw [Field.allDefaults_eq, Bool.and_eq_true, all_eq_true (p := Field.allDefaults scalarOk)]
    at hchildren
  have htype := LogicalType.ofValue_toValue (t := field.fieldType)
    (fun c hc => c.ofValue_toValue (hchildren.2 c hc))
  have hord : u32TryFrom (ordinal : ℤ) "invalid field ordinal" = .ok (UInt32.ofNat ordinal) := by
    have hlt : ordinal < 4294967296 := hordinal
    rw [u32TryFrom, if_pos (by omega), Int.toNat_natCast]
  have hback : (UInt32.ofNat ordinal).toNat = ordinal := UInt32.toNat_ofNat_of_lt hordinal
  cases field with
  | mk fieldId name required fieldType doc initialDefault writeDefault =>
    simp only [Field.fieldType] at htype hdepth
    simp only [Field.allDefaults, Bool.and_eq_true] at hscalars
    have hread : liftProtocol (fromCanonical LogicalType.ofValue fieldType.toValue) =
        .ok (fieldType.mapDefaults TypedScalar.canonNan) := by
      rw [fromCanonical, if_pos hdepth, htype]
      rfl
    refine bind_eq_ok.mpr ⟨fieldId, u32TryFrom_toNat _ _, bind_eq_ok.mpr
      ⟨parent, optionalU32_map _ _, bind_eq_ok.mpr ⟨_, hord, bind_eq_ok.mpr ⟨_, hread,
      bind_eq_ok.mpr ⟨_, parseOptionalScalar_map hscalars.1.1, bind_eq_ok.mpr
      ⟨_, parseOptionalScalar_map hscalars.1.2, ?_⟩⟩⟩⟩⟩⟩
    rw [hback]
    cases required <;> rfl

/-- A list of distinct 32-bit identifiers is short enough for 32-bit positions. -/
theorem length_le_of_nodup {ids : List UInt32} (h : ids.Nodup) : ids.length ≤ 4294967296 := by
  have hnodup : (ids.map UInt32.toNat).Nodup := by
    refine h.map fun a b heq => UInt32.toNat_inj.mp heq
  have hsubset : ids.map UInt32.toNat ⊆ range 4294967296 := by
    intro n hn
    obtain ⟨id, -, rfl⟩ := mem_map.mp hn
    exact mem_range.mpr id.toNat_lt
  have hle := (subperm_of_subset hnodup hsubset).length_le
  rwa [length_map, length_range] at hle

/-- Replacing defaults keeps the places. -/
theorem Schema.places_canonNan (s : Schema) :
    s.canonNan.places = s.places.map NormalizedField.canonNan := by
  have hlist : ∀ (fields : List Field) (p : Option UInt32) (o : ℕ),
      (∀ c ∈ fields, ∀ p o, c.canonNan.places p o = (c.places p o).map NormalizedField.canonNan) →
      Field.placesList p o (fields.map Field.canonNan) =
        (Field.placesList p o fields).map NormalizedField.canonNan := by
    intro fields p o h
    induction fields generalizing o with
    | nil => rfl
    | cons c cs ih =>
      rw [map_cons, Field.placesList, Field.placesList, map_append, h c mem_cons_self,
        ih _ fun d hd => h d (mem_cons_of_mem _ hd)]
  have htree : ∀ (f : Field) (p : Option UInt32) (o : ℕ),
      f.canonNan.places p o = (f.places p o).map NormalizedField.canonNan := by
    intro f
    induction f using Field.induction with
    | h f ih =>
      intro p o
      rw [Field.places_eq, Field.places_eq, Field.children_mapDefaults, Field.fieldId_mapDefaults,
        map_cons, hlist f.children _ _ ih]
      rfl
  exact hlist s.fields none 0 fun c _ => htree c

/-- Fields found under one parent have distinct identifiers. -/
theorem nodup_of_under_perm {s : Schema} (hnodup : (s.flatten.map Field.fieldId).Nodup)
    {parent : Option UInt32} {fields : List Field}
    (h : (rowsOf s).under parent ~ siblings parent 0 fields) :
    (fields.map Field.fieldId).Nodup := by
  have hunder : (((rowsOf s).under parent).map fun n => n.field.fieldId).Nodup := by
    rw [Nodup, pairwise_map]
    exact ((values_ascending hnodup).filter _).imp fun hlt heq => by simp [heq] at hlt
  have hmap := (h.map fun n => n.field.fieldId).nodup_iff.mp hunder
  have hcomp : (siblings parent 0 fields).map (fun n => n.field.fieldId) =
      fields.map Field.fieldId := by
    rw [← map_field_siblings parent 0 fields, map_map, map_field_siblings]
    rfl
  rwa [hcomp] at hmap

private theorem ordinal_lt_of_mem_siblings {s : Schema}
    (hnodup : (s.flatten.map Field.fieldId).Nodup) {parent : Option UInt32} {fields : List Field}
    (hunder : (rowsOf s).under parent ~ siblings parent 0 fields) {n : NormalizedField}
    (hn : n ∈ siblings parent 0 fields) : n.ordinal < 4294967296 := by
  have hbound := length_le_of_nodup (nodup_of_under_perm hnodup hunder)
  have hord : n.ordinal ∈ (siblings parent 0 fields).map NormalizedField.ordinal :=
    mem_map_of_mem hn
  rw [map_ordinal_siblings, mem_range'_1] at hord
  rw [length_map] at hbound
  omega

/-- The position of a field fits 32 bits. -/
theorem Schema.ordinal_lt {s : Schema} (hnodup : (s.flatten.map Field.fieldId).Nodup)
    {n : NormalizedField} (hn : n ∈ s.places) : n.ordinal < 4294967296 := by
  obtain hroot | ⟨g, hg, hnested⟩ := (s.mem_places n).mp hn
  · exact ordinal_lt_of_mem_siblings hnodup (under_none hnodup) hroot
  · exact ordinal_lt_of_mem_siblings hnodup (under_field hnodup hg) hnested

end Otmp
