import Otmp.DataFusion.AdapterRows
import Otmp.Runtime.FieldIdentity

/-!
# Adapters of schemas of one family

When the query schema and the recorded schema evolve from one root, an adapter exists for every
physical schema that holds the recorded fields in matching form, as long as the defaults that it
needs fit their columns.
-/

namespace Otmp.DataFusion

open Foundation

/-- A decimal default fits the width of its column. -/
def DecimalFits (f : Field) : Prop :=
  ∀ precision scale unscaled, f.initialDefault = some (.decimal precision scale unscaled) →
    unscaled.length ≤ if precision.toNat ≤ 38 then 16 else 32

/-- The column of a decimal type, for the precisions and scales that the engine has. -/
theorem decimalToArrow_eq_ok {precision scale : UInt32} {d : DataType} :
    decimalToArrow precision scale = .ok d ↔ precision.toNat ≤ 76 ∧ scale.toNat ≤ 127 ∧
      d = if precision.toNat ≤ 38 then
        .decimal128 (UInt8.ofNat precision.toNat) (Int8.ofNat scale.toNat)
      else .decimal256 (UInt8.ofNat precision.toNat) (Int8.ofNat scale.toNat) := by
  rw [decimalToArrow, ite_error_eq_ok, ite_error_eq_ok, ite_error_eq_ok]
  by_cases hsmall : precision.toNat ≤ 38
  · rw [if_pos hsmall, if_pos hsmall, Except.ok.injEq]
    constructor
    · rintro ⟨-, h, hscale, rfl⟩
      exact ⟨by omega, by omega, rfl⟩
    · rintro ⟨h, hscale, rfl⟩
      exact ⟨by omega, by omega, by omega, rfl⟩
  · rw [if_neg hsmall, if_neg hsmall, Except.ok.injEq]
    constructor
    · rintro ⟨-, h, hscale, rfl⟩
      exact ⟨by omega, by omega, rfl⟩
    · rintro ⟨h, hscale, rfl⟩
      exact ⟨by omega, by omega, by omega, rfl⟩

/-- A precision fits a byte. -/
private theorem toNat_ofNat_of_le {n : ℕ} (h : n ≤ 76) : (UInt8.ofNat n).toNat = n := by
  rw [UInt8.toNat_ofNat']
  omega

/-- An accepted default becomes a scalar of its column, when it fits the column's width. -/
theorem scalar_ne_none {nullOf : DataType → Option ScalarValue} (hnull : NullScalars nullOf)
    {t : LogicalType} {v : TypedScalar} {d : DataType} (haccepts : t.accepts v = true)
    (harrow : LogicalType.toArrow t = .ok d)
    (hfits : ∀ p s u, v = .decimal p s u → u.length ≤ if p.toNat ≤ 38 then 16 else 32) :
    scalar nullOf v d ≠ none := by
  have hnone : ∀ d, scalar nullOf .null d = nullOf d := fun d => by cases d <;> rfl
  cases t with
  | decimal precision scale =>
    cases v with
    | null =>
      rw [hnone]
      exact hnull.total harrow
    | decimal p s u =>
      obtain ⟨hp, hs, rfl⟩ := decimalToArrow_eq_ok.mp harrow
      have hwidth := hfits p s u rfl
      have heq : precision = p ∧ scale = s := by
        simpa [LogicalType.accepts] using haccepts
      obtain ⟨rfl, rfl⟩ := heq
      by_cases hsmall : precision.toNat ≤ 38
      · rw [if_pos hsmall] at hwidth ⊢
        rw [scalar, if_pos
          ⟨(toNat_ofNat_of_le hp).symm, (Int8.toInt_ofNat_of_lt (by omega)).symm, hwidth⟩]
        exact Option.some_ne_none _
      · rw [if_neg hsmall] at hwidth ⊢
        rw [scalar, if_pos
          ⟨hp, (toNat_ofNat_of_le hp).symm, (Int8.toInt_ofNat_of_lt (by omega)).symm, hwidth⟩]
        exact Option.some_ne_none _
    | _ => cases haccepts
  | fixed length =>
    rw [LogicalType.toArrow, ite_ok_eq_ok] at harrow
    obtain ⟨hlt, hd⟩ := harrow
    cases v with
    | null =>
      rw [hnone]
      refine hnull.total (t := .fixed length) ?_
      rw [LogicalType.toArrow, if_pos hlt]
      exact hd
    | fixed bytes =>
      cases hd
      have hlength : length.toNat = bytes.length := by
        simpa [LogicalType.accepts] using haccepts
      have hint : (bytes.length : ℤ) = (Int32.ofNat length.toNat).toInt := by
        rw [Int32.toInt_ofNat_of_lt hlt, hlength]
      rw [scalar, if_pos hint]
      exact Option.some_ne_none _
    | _ => cases haccepts
  | _ =>
    cases v with
    | null =>
      rw [hnone]
      exact hnull.total harrow
    | _ =>
      first
        | (cases harrow
           exact Option.some_ne_none _)
        | cases haccepts

mutual

/-- A column type holds a recorded type in matching form, for the required fields or for all. -/
def MatchesType (everywhere : Bool) : LogicalType → DataType → Prop
  | .struct fields, .struct columns => MatchesFields everywhere columns fields
  | .list element, .list column => MatchesElement everywhere column element
  | .map key value, .map (.mk _ (.struct [keyColumn, valueColumn]) _ _) _ =>
    MatchesElement everywhere keyColumn key ∧ MatchesElement everywhere valueColumn value
  | .struct _, _ => False
  | .list _, _ => False
  | .map _ _, _ => False
  | t, source => ∃ target, LogicalType.toArrow t = .ok target ∧ compatible source target = true
termination_by structural t => t

/-- A column at an intrinsic position holds a recorded field in matching form. -/
def MatchesElement (everywhere : Bool) (column : ArrowField) : Field → Prop
  | .mk fieldId _ _ fieldType _ _ _ =>
    (physicalId column = .ok none ∨ physicalId column = .ok (some fieldId)) ∧
      MatchesType everywhere fieldType column.dataType
termination_by structural r => r

/-- Columns hold a recorded field in matching form: one of them at most answers to it, one does
when it is required, and that one has a matching type. -/
def MatchesField (everywhere : Bool) (columns : List ArrowField) : Field → Prop
  | .mk fieldId name required fieldType doc initialDefault writeDefault =>
    let r := .mk fieldId name required fieldType doc initialDefault writeDefault
    (everywhere = true ∨ required = true →
      IdsReadable columns ∧
        (∀ i j : Fin columns.length,
          Answers r (columns.get i) → Answers r (columns.get j) → i = j) ∧
        ∀ p ∈ columns, Answers r p → MatchesType everywhere fieldType p.dataType) ∧
      (required = true → ∃ p ∈ columns, Answers r p)
termination_by structural r => r

/-- Columns hold recorded siblings in matching form. -/
def MatchesFields (everywhere : Bool) (columns : List ArrowField) : List Field → Prop
  | [] => True
  | field :: fields =>
    MatchesField everywhere columns field ∧ MatchesFields everywhere columns fields
termination_by structural fields => fields

end

/-- An element, key or value matches when its identifier agrees and its type matches. -/
theorem matchesElement_iff {everywhere : Bool} {column : ArrowField} {r : Field} :
    MatchesElement everywhere column r ↔
      (physicalId column = .ok none ∨ physicalId column = .ok (some r.fieldId)) ∧
        MatchesType everywhere r.fieldType column.dataType := by
  cases r
  exact Iff.rfl

/-- A field matches when its column is found, or may be missing, and the types match where it is. -/
theorem matchesField_iff {everywhere : Bool} {columns : List ArrowField} {r : Field} :
    MatchesField everywhere columns r ↔
      (everywhere = true ∨ r.required = true →
        IdsReadable columns ∧
          (∀ i j : Fin columns.length, Answers r (columns.get i) → Answers r (columns.get j) →
            i = j) ∧
          ∀ p ∈ columns, Answers r p → MatchesType everywhere r.fieldType p.dataType) ∧
        (r.required = true → ∃ p ∈ columns, Answers r p) := by
  cases r
  exact Iff.rfl

/-- Fields match when each of them does. -/
theorem matchesFields_iff {everywhere : Bool} {columns : List ArrowField} {fields : List Field} :
    MatchesFields everywhere columns fields ↔ ∀ r ∈ fields, MatchesField everywhere columns r := by
  induction fields with
  | nil => simp [MatchesFields]
  | cons f fs ih => rw [MatchesFields, ih, List.forall_mem_cons]

/-- A recorded field that is held in matching form is found once or not at all, and then it is
optional. -/
theorem position_of_matches {columns : List ArrowField} {r : Field}
    (h : MatchesField true columns r) :
    (position r columns = .ok none ∧ r.required = false) ∨
      ∃ i, position r columns = .ok (some i) ∧
        MatchesType true r.fieldType (columns.get i).dataType := by
  obtain ⟨hall, hexists⟩ := matchesField_iff.mp h
  obtain ⟨hreadable, hunique, htype⟩ := hall (.inl rfl)
  by_cases hfound : ∃ i : Fin columns.length, Answers r (columns.get i)
  · obtain ⟨i, hi⟩ := hfound
    refine .inr ⟨i, position_eq_ok.mpr ⟨hreadable, fun j => ?_⟩, htype _ (List.get_mem _ _) hi⟩
    constructor
    · intro hij
      cases hij
      exact hi
    · exact fun hj => congrArg some (hunique i j hi hj)
  · refine .inl ⟨position_eq_ok.mpr ⟨hreadable, fun j => ?_⟩, ?_⟩
    · exact ⟨fun hnone => (nomatch hnone), fun hj => absurd ⟨j, hj⟩ hfound⟩
    · cases hrequired : r.required with
      | false => rfl
      | true =>
        obtain ⟨p, hp, hanswers⟩ := hexists hrequired
        obtain ⟨i, rfl⟩ := List.get_of_mem hp
        exact absurd ⟨i, hanswers⟩ hfound

/-- Types with one head have one constructor. -/
theorem head_cases {t u : LogicalType}
    (h : (t.mapDefaults TypedScalar.loose).head = (u.mapDefaults TypedScalar.loose).head) :
    (∃ fields fields', t = .struct fields ∧ u = .struct fields') ∨
      (∃ e e', t = .list e ∧ u = .list e' ∧ e.fieldId = e'.fieldId) ∨
      (∃ k v k' v', t = .map k v ∧ u = .map k' v' ∧ k.fieldId = k'.fieldId ∧
        v.fieldId = v'.fieldId) ∨
      (t.isPrimitive = true ∧ t = u) := by
  have hkey : ∀ {k k' : Field}, k.loose = k'.loose → k.fieldId = k'.fieldId := by
    intro k k' hloose
    have hid := congrArg Field.fieldId hloose
    rwa [Field.fieldId_mapDefaults, Field.fieldId_mapDefaults] at hid
  cases t with
  | struct fields => cases u <;> simp [LogicalType.mapDefaults, LogicalType.head] at h ⊢
  | list e =>
    cases u <;> simp [LogicalType.mapDefaults, LogicalType.head, Field.stub] at h ⊢
    exact .inl h
  | map k v =>
    cases u <;> simp [LogicalType.mapDefaults, LogicalType.head, Field.stub] at h ⊢
    exact .inl ⟨hkey h.1, h.2⟩
  | _ =>
    cases u <;>
      simp [LogicalType.mapDefaults, LogicalType.head, LogicalType.isPrimitive] at h ⊢ <;>
      exact h

/-- Siblings of a query schema and of a recorded schema below one parent. -/
structure SameLevel (query recorded : Schema) (parent : Option UInt32)
    (queries fields : List Field) : Prop where
  query_place : ∀ c ∈ queries, ∃ n ∈ query.places, n.field = c ∧ n.parent = parent
  recorded_place : ∀ r ∈ fields, ∃ n ∈ recorded.places, n.field = r
  complete : ∀ n ∈ recorded.places, n.parent = parent → n.field ∈ fields

section Level

variable {query recorded : Schema}

/-- The place of a nested field is under the field it is nested in. -/
theorem exists_place_of_mem_children {s : Schema} {f c : Field} (hf : f ∈ s.flatten)
    (hc : c ∈ f.children) : ∃ n ∈ s.places, n.field = c ∧ n.parent = some f.fieldId := by
  have hmem : c ∈ (siblings (some f.fieldId) 0 f.children).map NormalizedField.field := by
    rwa [map_field_siblings]
  obtain ⟨n, hn, rfl⟩ := List.mem_map.mp hmem
  exact ⟨n, (s.mem_places n).mpr (.inr ⟨f, hf, hn⟩), rfl, parent_of_mem_siblings hn⟩

/-- A field below another one is one of its nested fields. -/
theorem mem_children_of_parent {s : Schema} (hvalid : s.validate = .ok ()) {f : Field}
    (hf : f ∈ s.flatten) {n : NormalizedField} (hn : n ∈ s.places)
    (hparent : n.parent = some f.fieldId) : n.field ∈ f.children := by
  obtain hroot | ⟨g, hg, hn⟩ := (s.mem_places n).mp hn
  · rw [parent_of_mem_siblings hroot] at hparent
    cases hparent
  · rw [parent_of_mem_siblings hn, Option.some.injEq] at hparent
    obtain rfl := List.inj_on_of_nodup_map (Schema.nodup_of_validate hvalid) hg hf hparent
    have hmem := List.mem_map_of_mem (f := NormalizedField.field) hn
    rwa [map_field_siblings] at hmem

/-- The nested fields of two fields with one identifier are siblings. -/
theorem SameLevel.children (hrecorded : recorded.validate = .ok ()) {q r : Field}
    (hq : q ∈ query.flatten) (hr : r ∈ recorded.flatten) (hid : q.fieldId = r.fieldId) :
    SameLevel query recorded (some q.fieldId) q.children r.children where
  query_place c hc := exists_place_of_mem_children hq hc
  recorded_place c hc := by
    obtain ⟨n, hn, hfield, -⟩ := exists_place_of_mem_children hr hc
    exact ⟨n, hn, hfield⟩
  complete n hn hparent := mem_children_of_parent hrecorded hr hn (hid ▸ hparent)

/-- The roots of two schemas are siblings. -/
theorem SameLevel.roots : SameLevel query recorded none query.fields recorded.fields where
  query_place c hc := by
    have hmem : c ∈ (siblings none 0 query.fields).map NormalizedField.field := by
      rwa [map_field_siblings]
    obtain ⟨n, hn, rfl⟩ := List.mem_map.mp hmem
    exact ⟨n, (query.mem_places n).mpr (.inl hn), rfl, parent_of_mem_siblings hn⟩
  recorded_place r hr := Schema.exists_place (Schema.mem_flatten_of_mem_fields hr)
  complete n hn hparent := by
    obtain hroot | ⟨g, -, hn⟩ := (recorded.mem_places n).mp hn
    · have hmem := List.mem_map_of_mem (f := NormalizedField.field) hroot
      rwa [map_field_siblings] at hmem
    · rw [parent_of_mem_siblings hn] at hparent
      cases hparent

/-- In a family a query field finds the recorded field of the same identity, or it is optional. -/
theorem SameLevel.find {ss : List Schema} (hfamily : SchemaFamily ss) (hquery : query ∈ ss)
    (hrecorded : recorded ∈ ss) {parent : Option UInt32} {queries fields : List Field}
    (h : SameLevel query recorded parent queries fields) {c : Field} (hc : c ∈ queries) :
    (∃ r ∈ fields, (fields.find? fun f => f.fieldId == c.fieldId) = some r ∧
        c.identity = r.identity) ∨
      ((fields.find? fun f => f.fieldId == c.fieldId) = none ∧ c.required = false) := by
  obtain ⟨n, hn, rfl, hparent⟩ := h.query_place c hc
  cases hfind : fields.find? fun f => f.fieldId == n.field.fieldId with
  | some r =>
    have hr := List.mem_of_find?_eq_some hfind
    have hid := List.find?_some hfind
    obtain ⟨m, hm, rfl⟩ := h.recorded_place r hr
    have hidentity := hfamily.identity_eq hquery hrecorded hn hm (beq_iff_eq.mp hid).symm
    exact .inl ⟨m.field, hr, rfl, NormalizedField.field_identity_eq hidentity⟩
  | none =>
    refine .inr ⟨rfl, hfamily.optional_of_absent hquery hrecorded hn fun hmem => ?_⟩
    obtain ⟨f, hf, hid⟩ := List.mem_map.mp hmem
    obtain ⟨m, hm, rfl⟩ := Schema.exists_place hf
    have hidentity := hfamily.identity_eq hquery hrecorded hn hm hid.symm
    have hsame := congrArg NormalizedField.parent hidentity
    have hfield := h.complete m hm (hsame.symm.trans hparent)
    exact List.find?_eq_none.mp hfind _ hfield (beq_iff_eq.mpr hid)

end Level

section Success

variable {nullOf : DataType → Option ScalarValue} {ss : List Schema} {query recorded : Schema}

/-- The default of a query field fits its column. -/
def DefaultConverts (nullOf : DataType → Option ScalarValue) (f : Field) : Prop :=
  ∀ v d, f.initialDefault = some v → LogicalType.toArrow f.fieldType = .ok d →
    scalar nullOf v d ≠ none

/-- An optional field that is nowhere found is filled. -/
theorem exists_unbound {q : Field} {r : Option Field} {target : ArrowField}
    (hrequired : q.required = false) (hrecorded : ∀ f ∈ r, f.required = false)
    (hdefault : DefaultConverts nullOf q) (htarget : fieldToArrow q = .ok target) :
    ∃ slot, unbound nullOf q r target = .ok slot := by
  obtain ⟨d, htype, rfl⟩ := fieldToArrow_eq_ok.mp htarget
  have hfills : ∃ value, Fills nullOf q (.mk q.name d (!q.required) (fieldIdMetadata q.fieldId))
      value := by
    unfold Fills
    cases hv : q.initialDefault with
    | none => exact ⟨none, rfl⟩
    | some v => exact ⟨_, rfl, hdefault v d hv htype⟩
  obtain ⟨value, hvalue⟩ := hfills
  exact ⟨_, unbound_eq_ok.mpr ⟨hrequired, hrecorded, value, hvalue, rfl⟩⟩

/-- A bound field of the query schema is made from every matching column. -/
def BindsBelow (nullOf : DataType → Option ScalarValue) (query recorded : Schema) (q : Field) :
    Prop :=
  ∀ (name : String) {r : Field} {source target : DataType}, q ∈ query.flatten →
    r ∈ recorded.flatten → q.identity = r.identity → LogicalType.toArrow q.fieldType = .ok target →
    MatchesType true r.fieldType source →
    ∃ kind, bindType nullOf name q.fieldType r.fieldType source target = .ok kind

/-- Fields of the same identity have the same identifier. -/
theorem fieldId_eq_of_identity_eq {q r : Field} (h : q.identity = r.identity) :
    q.fieldId = r.fieldId := by
  have hid := congrArg Field.fieldId h
  exact hid

/-- Fields of the same identity agree on whether they are required. -/
theorem required_eq_of_identity_eq {q r : Field} (h : q.identity = r.identity) :
    q.required = r.required := by
  have hrequired := congrArg Field.required h
  exact hrequired

/-- Sibling fields of the query schema are bound. -/
theorem exists_slots (hfamily : SchemaFamily ss) (hquery : query ∈ ss) (hrecorded : recorded ∈ ss)
    {parent : Option UInt32} {queries fields : List Field}
    (hlevel : SameLevel query recorded parent queries fields) {columns : List ArrowField}
    (ih : ∀ c ∈ queries, BindsBelow nullOf query recorded c)
    (hdefaults : ∀ f ∈ query.flatten, f.required = false → DefaultConverts nullOf f)
    (hmatches : MatchesFields true columns fields) {c : Field} {target : ArrowField}
    (hc : c ∈ queries) (htarget : fieldToArrow c = .ok target) :
    ∃ slot, bindField nullOf c (fields.find? fun f => f.fieldId == c.fieldId) columns target =
      .ok slot := by
  have hcmem : c ∈ query.flatten := by
    obtain ⟨n, hn, rfl, -⟩ := hlevel.query_place c hc
    exact Schema.field_mem_flatten hn
  obtain ⟨r, hr, hfind, hidentity⟩ | ⟨hfind, hoptional⟩ := hlevel.find hfamily hquery hrecorded hc
  · rw [hfind]
    obtain ⟨hnone, hrequired⟩ | ⟨i, hposition, htype⟩ :=
      position_of_matches (matchesFields_iff.mp hmatches r hr)
    · obtain ⟨slot, hslot⟩ := exists_unbound (r := some r)
        ((required_eq_of_identity_eq hidentity).trans hrequired)
        (fun f hf => by cases hf; exact hrequired)
        (hdefaults c hcmem ((required_eq_of_identity_eq hidentity).trans hrequired)) htarget
      exact ⟨slot, bindField_eq_ok.mpr (.inr ⟨fun f hf => by cases hf; exact hnone, hslot⟩)⟩
    · obtain ⟨n, hn, rfl⟩ := hlevel.recorded_place r hr
      obtain ⟨d, hd, rfl⟩ := fieldToArrow_eq_ok.mp htarget
      obtain ⟨kind, hkind⟩ :=
        ih c hc c.name hcmem (Schema.field_mem_flatten hn) hidentity hd htype
      exact ⟨_, bindField_eq_ok.mpr (.inl ⟨n.field, i, kind, rfl, hposition, hkind, rfl⟩)⟩
  · rw [hfind]
    obtain ⟨slot, hslot⟩ := exists_unbound (r := none) hoptional (fun f hf => by cases hf)
      (hdefaults c hcmem hoptional) htarget
    exact ⟨slot, bindField_eq_ok.mpr (.inr ⟨fun f hf => (by cases hf), hslot⟩)⟩

/-- A field at an intrinsic position is bound. -/
theorem exists_element {c r : Field} {column target : ArrowField} (index : ℕ)
    (ih : BindsBelow nullOf query recorded c) (hc : c ∈ query.flatten) (hr : r ∈ recorded.flatten)
    (hidentity : c.identity = r.identity) (htarget : fieldToArrow c = .ok target)
    (hmatches : MatchesElement true column r) :
    ∃ slot, bindCollection (bindField nullOf c) c.fieldId r column target index = .ok slot := by
  obtain ⟨hphysical, htype⟩ := matchesElement_iff.mp hmatches
  obtain ⟨d, hd, rfl⟩ := fieldToArrow_eq_ok.mp htarget
  obtain ⟨kind, hkind⟩ := ih c.name hc hr hidentity hd htype
  exact ⟨_, bindCollection_eq_ok.mpr
    ⟨fieldId_eq_of_identity_eq hidentity, hphysical, kind, hkind, rfl⟩⟩

/-- Nested fields of one identifier have one identity in a family. -/
theorem identity_eq_of_fieldId (hfamily : SchemaFamily ss) (hquery : query ∈ ss)
    (hrecorded : recorded ∈ ss) {c r : Field} (hc : c ∈ query.flatten) (hr : r ∈ recorded.flatten)
    (hid : c.fieldId = r.fieldId) : c.identity = r.identity := by
  obtain ⟨n, hn, rfl⟩ := Schema.exists_place hc
  obtain ⟨m, hm, rfl⟩ := Schema.exists_place hr
  exact NormalizedField.field_identity_eq (hfamily.identity_eq hquery hrecorded hn hm hid)

section Types

variable {name : String} {source target : DataType}

/-- A struct is bound when its fields are. -/
theorem binds_struct (hfamily : SchemaFamily ss) (hquery : query ∈ ss) (hrecorded : recorded ∈ ss)
    {parent : Option UInt32} {queries fields : List Field}
    (hlevel : SameLevel query recorded parent queries fields)
    (ih : ∀ c ∈ queries, BindsBelow nullOf query recorded c)
    (hdefaults : ∀ f ∈ query.flatten, f.required = false → DefaultConverts nullOf f)
    (htarget : LogicalType.toArrow (.struct queries) = .ok target)
    (hmatches : MatchesType true (.struct fields) source) :
    ∃ kind, bindType nullOf name (.struct queries) (.struct fields) source target = .ok kind := by
  rw [LogicalType.toArrow, bind_eq_ok] at htarget
  obtain ⟨targets, htargets, hstruct⟩ := htarget
  cases hstruct
  obtain ⟨columns, rfl⟩ : ∃ columns, source = .struct columns := by
    cases source <;> first | exact ⟨_, rfl⟩ | exact hmatches.elim
  rw [fieldsToArrow_eq_ok] at htargets
  obtain ⟨slots, hslots⟩ := exists_forall₂ fun (ct : Field × ArrowField)
      (hmem : ct ∈ queries.zip targets) =>
    exists_slots hfamily hquery hrecorded hlevel ih hdefaults hmatches (List.of_mem_zip hmem).1
      (List.forall₂_zip htargets hmem)
  refine ⟨.struct slots, ?_⟩
  rw [bindType]
  exact bind_eq_ok.mpr ⟨slots, bindFields_eq_ok.mpr hslots, rfl⟩

/-- A list is bound when its element is. -/
theorem binds_list {element recordedElement : Field} (ih : BindsBelow nullOf query recorded element)
    (hq : element ∈ query.flatten) (hr : recordedElement ∈ recorded.flatten)
    (hidentity : element.identity = recordedElement.identity)
    (htarget : LogicalType.toArrow (.list element) = .ok target)
    (hmatches : MatchesType true (.list recordedElement) source) :
    ∃ kind, bindType nullOf name (.list element) (.list recordedElement) source target =
      .ok kind := by
  rw [LogicalType.toArrow, bind_eq_ok] at htarget
  obtain ⟨column, hcolumn, hlist⟩ := htarget
  cases hlist
  obtain ⟨element', rfl⟩ : ∃ element', source = .list element' := by
    cases source <;> first | exact ⟨_, rfl⟩ | exact hmatches.elim
  obtain ⟨slot, hslot⟩ := exists_element 0 ih hq hr hidentity hcolumn hmatches
  refine ⟨.list slot.mapping, ?_⟩
  rw [bindType]
  exact bind_eq_ok.mpr ⟨slot, hslot, rfl⟩

/-- A map is bound when its key and its value are. -/
theorem binds_map {key value recordedKey recordedValue : Field}
    (ihKey : BindsBelow nullOf query recorded key)
    (ihValue : BindsBelow nullOf query recorded value)
    (hqk : key ∈ query.flatten) (hqv : value ∈ query.flatten)
    (hrk : recordedKey ∈ recorded.flatten) (hrv : recordedValue ∈ recorded.flatten)
    (hkey : key.identity = recordedKey.identity) (hvalue : value.identity = recordedValue.identity)
    (htarget : LogicalType.toArrow (.map key value) = .ok target)
    (hmatches : MatchesType true (.map recordedKey recordedValue) source) :
    ∃ kind, bindType nullOf name (.map key value) (.map recordedKey recordedValue) source target =
      .ok kind := by
  rw [LogicalType.toArrow, bind_eq_ok] at htarget
  obtain ⟨keyColumn, hkeyColumn, htarget⟩ := htarget
  obtain ⟨valueColumn, hvalueColumn, hmap⟩ := bind_eq_ok.mp htarget
  cases hmap
  obtain ⟨n, k, v, nullable, metadata, sorted, rfl⟩ : ∃ n k v nullable metadata sorted,
      source = .map (.mk n (.struct [k, v]) nullable metadata) sorted := by
    unfold MatchesType at hmatches
    split at hmatches
    all_goals first | exact hmatches.elim | skip
    all_goals simp_all
  obtain ⟨keySlot, hkeySlot⟩ := exists_element 0 ihKey hqk hrk hkey hkeyColumn hmatches.1
  obtain ⟨valueSlot, hvalueSlot⟩ :=
    exists_element 1 ihValue hqv hrv hvalue hvalueColumn hmatches.2
  refine ⟨.map keySlot valueSlot, ?_⟩
  rw [bindType]
  exact bind_eq_ok.mpr ⟨keySlot, hkeySlot, bind_eq_ok.mpr ⟨valueSlot, hvalueSlot, rfl⟩⟩

/-- A primitive type is bound to a column of a compatible type. -/
theorem binds_primitive {t : LogicalType} (hprimitive : t.isPrimitive = true)
    (htarget : LogicalType.toArrow t = .ok target) (hmatches : MatchesType true t source) :
    ∃ kind, bindType nullOf name t t source target = .ok kind := by
  obtain ⟨target', htarget', hcompatible⟩ : ∃ target',
      LogicalType.toArrow t = .ok target' ∧ compatible source target' = true := by
    cases t <;> first | exact hmatches | cases hprimitive
  cases htarget.symm.trans htarget'
  have hself : t.eq t = true := by
    rw [Field.type_eq_self, Field.allDefaults_fieldType]
    cases t <;> first | rfl | cases hprimitive
  refine ⟨.primitive, ?_⟩
  rw [bindType_of_isPrimitive hprimitive, hself, hcompatible]
  rfl

end Types

/-- **Fields of one identity are bound**, at every level. -/
theorem bindsBelow (hfamily : SchemaFamily ss) (hquery : query ∈ ss) (hrecorded : recorded ∈ ss)
    (hdefaults : ∀ f ∈ query.flatten, f.required = false → DefaultConverts nullOf f) (q : Field) :
    BindsBelow nullOf query recorded q := by
  induction q using Field.induction with
  | h q ih =>
    intro name r source target hq hr hidentity htarget hmatches
    have hqmem : ∀ c ∈ q.fieldType.children, c ∈ query.flatten :=
      fun c hc => Schema.mem_flatten_of_mem_children hc hq
    have hrmem : ∀ c ∈ r.fieldType.children, c ∈ recorded.flatten :=
      fun c hc => Schema.mem_flatten_of_mem_children hc hr
    have hsame : ∀ c ∈ q.fieldType.children, ∀ d ∈ r.fieldType.children, c.fieldId = d.fieldId →
        c.identity = d.identity := fun c hc d hd =>
      identity_eq_of_fieldId hfamily hquery hrecorded (hqmem c hc) (hrmem d hd)
    have hlevel : SameLevel query recorded _ q.fieldType.children r.fieldType.children :=
      .children (hfamily.valid hrecorded) hq hr (fieldId_eq_of_identity_eq hidentity)
    have hloose : ∀ f : Field, f.identity.fieldType =
        (f.fieldType.mapDefaults TypedScalar.loose).head := fun f =>
      congrArg LogicalType.head (Field.fieldType_mapDefaults _ _)
    have hhead := congrArg Field.fieldType hidentity
    rw [hloose, hloose] at hhead
    unfold Field.children at ih
    obtain ⟨qs, rs, hqt, hrt⟩ | ⟨qe, re, hqt, hrt, hid⟩ | ⟨qk, qv, rk, rv, hqt, hrt, hkey, hvalue⟩ |
      ⟨hprimitive, heq⟩ := head_cases hhead
    · rw [hqt] at ih hlevel htarget ⊢
      rw [hrt] at hlevel hmatches ⊢
      exact binds_struct hfamily hquery hrecorded hlevel ih hdefaults htarget hmatches
    · rw [hqt] at ih hqmem hsame htarget ⊢
      rw [hrt] at hrmem hsame hmatches ⊢
      have hq : qe ∈ (LogicalType.list qe).children := List.mem_cons_self
      have hr : re ∈ (LogicalType.list re).children := List.mem_cons_self
      exact binds_list (ih qe hq) (hqmem qe hq) (hrmem re hr) (hsame qe hq re hr hid) htarget
        hmatches
    · rw [hqt] at ih hqmem hsame htarget ⊢
      rw [hrt] at hrmem hsame hmatches ⊢
      have hqk : qk ∈ (LogicalType.map qk qv).children := List.mem_cons_self
      have hqv : qv ∈ (LogicalType.map qk qv).children :=
        List.mem_cons_of_mem _ List.mem_cons_self
      have hrk : rk ∈ (LogicalType.map rk rv).children := List.mem_cons_self
      have hrv : rv ∈ (LogicalType.map rk rv).children :=
        List.mem_cons_of_mem _ List.mem_cons_self
      exact binds_map (ih qk hqk) (ih qv hqv) (hqmem qk hqk) (hqmem qv hqv) (hrmem rk hrk)
        (hrmem rv hrv) (hsame qk hqk rk hrk hkey) (hsame qv hqv rv hrv hvalue) htarget hmatches
    · rw [← heq] at hmatches ⊢
      exact binds_primitive hprimitive htarget hmatches

end Success

end Otmp.DataFusion
