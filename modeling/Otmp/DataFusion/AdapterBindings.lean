import Otmp.DataFusion.AdapterSpecs
import Otmp.Image.SchemaRows

/-!
# Which physical field a query field is bound to

The bindings of an adapter list every query field with the place of its physical field, a path of
positions from the root. A physical field stands for a query field through its identifier, through
the recorded name, or because it is the element, key or value of a bound collection.
-/

namespace Otmp.DataFusion

open Foundation

/-- The nested fields of a column type, at their positions. Those of a map are its key and value,
those of a dictionary are those of its values. -/
def DataType.fields : DataType → List ArrowField
  | .struct fields => fields
  | .list element => [element]
  | .largeList element => [element]
  | .fixedSizeList element _ => [element]
  | .map (.mk _ (.struct fields) _ _) _ => fields
  | .dictionary _ value => value.fields
  | _ => []

/-- The field at a path of positions, each of which picks one of the fields nested in the one
before. -/
def fieldAt : List ArrowField → List ℕ → Option ArrowField
  | _, [] => none
  | fields, [index] => fields[index]?
  | fields, index :: rest => fields[index]?.bind fun f => fieldAt f.dataType.fields rest

/-- Going one level down from a place leads to the nested field of the field there. -/
theorem fieldAt_append {fields : List ArrowField} {place : List ℕ} {p : ArrowField}
    (h : fieldAt fields place = some p) (index : ℕ) :
    fieldAt fields (place ++ [index]) = p.dataType.fields[index]? := by
  induction place generalizing fields with
  | nil => cases h
  | cons i place ih =>
    cases place with
    | nil =>
      have hfield : fields[i]? = some p := h
      rw [List.cons_append, List.nil_append, fieldAt, hfield, Option.bind_some, fieldAt]
      exact fun h => nomatch h
    | cons j place =>
      obtain ⟨f, hf, hrest⟩ := Option.bind_eq_some_iff.mp h
      have hstep : fieldAt fields (i :: j :: place ++ [index]) =
          fields[i]?.bind fun f => fieldAt f.dataType.fields (j :: place ++ [index]) := rfl
      rw [hstep, hf, Option.bind_some]
      exact ih hrest

/-- A query field and the place of the physical field that it is bound to. -/
structure Binding where
  query : Field
  place : Option (List ℕ)

mutual

/-- The bindings below a field whose column is taken as it is. -/
def wholeType (place : List ℕ) : LogicalType → List Binding
  | .struct fields => wholeFields place 0 fields
  | .list element => wholeField place 0 element
  | .map key value => wholeField place 0 key ++ wholeField place 1 value
  | _ => []
termination_by structural t => t

/-- The bindings of a field whose column is taken as it is. -/
def wholeField (place : List ℕ) (index : ℕ) : Field → List Binding
  | .mk fieldId name required fieldType doc initialDefault writeDefault =>
    ⟨.mk fieldId name required fieldType doc initialDefault writeDefault,
      some (place ++ [index])⟩ ::
      wholeType (place ++ [index]) fieldType
termination_by structural f => f

/-- The bindings of consecutive fields whose columns are taken as they are. -/
def wholeFields (place : List ℕ) (index : ℕ) : List Field → List Binding
  | [] => []
  | field :: fields => wholeField place index field ++ wholeFields place (index + 1) fields
termination_by structural fields => fields

end

mutual

/-- The bindings below a bound field: what the slots of a struct, the element of a list and the key
and value of a map are bound to. -/
def bindingsType (place : List ℕ) : LogicalType → Kind → List Binding
  | .struct queries, .struct slots => bindingsFields place queries slots
  | .list element, .list mapping => bindingsField place element (.mk (some 0) mapping)
  | .map key value, .map keySlot valueSlot =>
    bindingsField place key keySlot ++ bindingsField place value valueSlot
  | query, .primitive => wholeType place query
  | _, _ => []
termination_by structural query => query

/-- The bindings of a query field and those below it. -/
def bindingsField (place : List ℕ) : Field → Slot → List Binding
  | .mk fieldId name required fieldType doc initialDefault writeDefault, slot =>
    let query := .mk fieldId name required fieldType doc initialDefault writeDefault
    match slot.index with
    | none => [⟨query, none⟩]
    | some index =>
      ⟨query, some (place ++ [index])⟩ ::
        bindingsType (place ++ [index]) fieldType slot.mapping.kind
termination_by structural query => query

/-- The bindings of sibling fields, each with the slot at its position. -/
def bindingsFields (place : List ℕ) : List Field → List Slot → List Binding
  | query :: queries, slot :: slots =>
    bindingsField place query slot ++ bindingsFields place queries slots
  | _, _ => []
termination_by structural queries => queries

end

/-- A field that is taken whole is bound at its place, and so is everything inside its type. -/
theorem wholeField_eq (place : List ℕ) (index : ℕ) (f : Field) :
    wholeField place index f =
      ⟨f, some (place ++ [index])⟩ :: wholeType (place ++ [index]) f.fieldType := by
  cases f
  rfl

/-- What is taken as it is below a type are its nested fields, each at its position. -/
theorem wholeType_eq (place : List ℕ) (t : LogicalType) :
    wholeType place t = wholeFields place 0 t.children := by
  cases t <;> simp [wholeType, wholeFields, LogicalType.children]

/-- A missing field is bound to no place. -/
theorem bindingsField_missing (place : List ℕ) (query : Field) (mapping : Mapping) :
    bindingsField place query (.mk none mapping) = [⟨query, none⟩] := by
  cases query
  rfl

/-- A bound field is bound at its place, and its type is bound from there on. -/
theorem bindingsField_bound (place : List ℕ) (query : Field) (index : ℕ) (mapping : Mapping) :
    bindingsField place query (.mk (some index) mapping) =
      ⟨query, some (place ++ [index])⟩ ::
        bindingsType (place ++ [index]) query.fieldType mapping.kind := by
  cases query
  rfl

/-- A type that is converted as a whole takes everything inside it from its place. -/
theorem bindingsType_primitive (place : List ℕ) (t : LogicalType) :
    bindingsType place t .primitive = wholeType place t := by
  cases t <;> rfl

/-- A type of a collection, whose nested fields have no position in the parent's struct. -/
def LogicalType.isCollection : LogicalType → Bool
  | .list _ | .map _ _ => true
  | _ => false

/-- A place is the intrinsic position of a query field: the element, key or value of a collection
that is bound itself. -/
def Intrinsic (bindings : List Binding) (query : Field) (place : List ℕ) : Prop :=
  ∃ c ∈ bindings, ∃ outer index, c.place = some outer ∧ place = outer ++ [index] ∧
    LogicalType.isCollection c.query.fieldType = true ∧ c.query.children[index]? = some query

/-- A physical field stands for a query field: it carries the identifier, or it carries none and has
the recorded name or the intrinsic position of the query field. -/
def Stands (recorded : Schema) (bindings : List Binding) (query : Field) (place : List ℕ)
    (p : ArrowField) : Prop :=
  physicalId p = .ok (some query.fieldId) ∨
    physicalId p = .ok none ∧
      ((∃ r ∈ recorded.flatten, r.fieldId = query.fieldId ∧ p.name = r.name) ∨
        Intrinsic bindings query place)

/-- A binding is sound: a bound field's place holds a physical field that stands for it, and an
unbound field is optional. -/
def Binding.Sound (recorded : Schema) (physical : List ArrowField) (bindings : List Binding)
    (b : Binding) : Prop :=
  match b.place with
  | none => b.query.required = false
  | some place => ∃ p, fieldAt physical place = some p ∧
      Stands recorded bindings b.query place p

/-- The column of a field carries its identifier. -/
theorem physicalId_toArrow {f : Field} {p : ArrowField} (hpositive : f.fieldId ≠ 0)
    (h : fieldToArrow f = .ok p) : physicalId p = .ok (some f.fieldId) := by
  have hmetadata : p.metadata = fieldIdMetadata f.fieldId := by
    cases f with
    | mk fieldId name required fieldType doc initialDefault writeDefault =>
      obtain ⟨dataType, -, h⟩ := bind_eq_ok.mp h
      cases h
      rfl
  have hlookup : (fieldIdMetadata f.fieldId).lookup fieldIdKey =
      some (String.ofList (Nat.toDigits 10 f.fieldId.toNat)) := by
    rw [fieldIdMetadata, List.lookup_cons_self]
  have hpos : f.fieldId.toNat ≠ 0 := fun hzero => hpositive (UInt32.toNat_inj.mp hzero)
  obtain ⟨n, hn⟩ := Nat.exists_eq_succ_of_ne_zero hpos
  rw [physicalId, hmetadata, hlookup]
  dsimp only
  rw [String.toList_ofList, unsigned?_toDigits f.fieldId.toNat_lt, hn]
  dsimp only
  rw [← Nat.succ_eq_add_one, ← hn, UInt32.ofNat_toNat]

/-- The nested columns of a type are those of its nested fields. -/
theorem forall₂_children {t : LogicalType} {d : DataType} (h : LogicalType.toArrow t = .ok d) :
    List.Forall₂ (fun f p => fieldToArrow f = .ok p) t.children d.fields := by
  cases t with
  | struct fields =>
    obtain ⟨columns, hcolumns, h⟩ := bind_eq_ok.mp h
    cases h
    exact fieldsToArrow_eq_ok.mp hcolumns
  | list element =>
    obtain ⟨column, hcolumn, h⟩ := bind_eq_ok.mp h
    cases h
    exact .cons hcolumn .nil
  | map key value =>
    obtain ⟨keyColumn, hkey, h⟩ := bind_eq_ok.mp h
    obtain ⟨valueColumn, hvalue, h⟩ := bind_eq_ok.mp h
    cases h
    exact .cons hkey (.cons hvalue .nil)
  | decimal precision scale =>
    have hfields : d.fields = [] := by
      have hdecimal : decimalToArrow precision scale = .ok d := h
      rw [decimalToArrow] at hdecimal
      repeat' (split at hdecimal)
      all_goals first | cases hdecimal; rfl | cases hdecimal
    rw [hfields]
    exact .nil
  | fixed length =>
    rw [LogicalType.toArrow, ite_ok_eq_ok] at h
    cases h.2
    exact .nil
  | _ =>
    cases h
    exact .nil

/-- Types that can be widened into each other have the same fields. -/
private theorem fields_of_widens {source target : DataType} (h : widens source target = true) :
    source.fields = target.fields := by
  unfold widens at h
  split at h
  all_goals first | rfl | cases h

/-- Compatible types have the same nested fields. -/
theorem fields_of_compatible {source target : DataType} (h : compatible source target = true) :
    source.fields = target.fields := by
  fun_induction compatible source target with
  | case1 target key value ih =>
    rw [Bool.or_eq_true, decide_eq_true_eq] at h
    obtain rfl | h := h
    · rfl
    · exact ih h
  | case2 source target hnot =>
    rw [Bool.or_eq_true, decide_eq_true_eq] at h
    obtain rfl | h := h
    · rfl
    · exact fields_of_widens h

/-- The bindings of consecutive fields that are taken as they are. -/
theorem mem_wholeFields {place : List ℕ} {index : ℕ} {fields : List Field} {b : Binding} :
    b ∈ wholeFields place index fields ↔
      ∃ i f, fields[i]? = some f ∧ b ∈ wholeField place (index + i) f := by
  induction fields generalizing index with
  | nil => simp [wholeFields]
  | cons f fs ih =>
    rw [wholeFields, List.mem_append, ih]
    constructor
    · rintro (h | ⟨i, g, hg, h⟩)
      · exact ⟨0, f, rfl, h⟩
      · exact ⟨i + 1, g, hg, by rwa [Nat.add_comm i 1, ← Nat.add_assoc]⟩
    · rintro ⟨i, g, hg, h⟩
      cases i with
      | zero =>
        cases hg
        exact .inl h
      | succ i => exact .inr ⟨i, g, hg, by rwa [Nat.add_assoc, Nat.add_comm 1 i]⟩

/-- The bindings of sibling fields are those of each field with its slot. -/
theorem mem_bindingsFields {place : List ℕ} {queries : List Field} {slots : List Slot}
    {b : Binding} :
    b ∈ bindingsFields place queries slots ↔
      ∃ qs ∈ queries.zip slots, b ∈ bindingsField place qs.1 qs.2 := by
  induction queries generalizing slots with
  | nil => simp [bindingsFields]
  | cons q qs ih =>
    cases slots with
    | nil => simp [bindingsFields]
    | cons slot slots =>
      rw [bindingsFields, List.mem_append, ih, List.zip_cons_cons]
      simp only [List.mem_cons, exists_eq_or_imp]

/-- A slot of a query field among recorded and physical siblings, for the field's own column. -/
def IsSlot (nullOf : DataType → Option ScalarValue) (recorded : List Field)
    (source : List ArrowField) (query : Field) (slot : Slot) : Prop :=
  ∃ target, fieldToArrow query = .ok target ∧
    bindField nullOf query (recorded.find? fun f => f.fieldId == query.fieldId) source target =
      .ok slot

/-- Binding the fields of a struct gives each of them a slot. -/
theorem forall₂_isSlot {nullOf : DataType → Option ScalarValue} {queries fields : List Field}
    {source targets : List ArrowField}
    {slots : List Slot} (h : bindFields nullOf queries fields source targets = .ok slots)
    (htargets : List.Forall₂ (fun f p => fieldToArrow f = .ok p) queries targets) :
    List.Forall₂ (IsSlot nullOf fields source) queries slots := by
  rw [bindFields_eq_ok] at h
  induction htargets generalizing slots with
  | nil =>
    cases h
    exact .nil
  | cons hfirst hrest ih =>
    rw [List.zip_cons_cons] at h
    cases h with
    | cons hslot hslots => exact .cons ⟨_, hfirst, hslot⟩ (ih hslots)

/-- A slot of a query field at an intrinsic position, for the field's own column. -/
def IsElement (nullOf : DataType → Option ScalarValue) (recorded : Field) (physical : ArrowField)
    (index : ℕ) (query : Field) (slot : Slot) : Prop :=
  ∃ target, fieldToArrow query = .ok target ∧
    bindCollection (bindField nullOf query) query.fieldId recorded physical target index = .ok slot

/-- How the nested fields of a bound field are bound. -/
theorem bound_cases {nullOf : DataType → Option ScalarValue} {name : String} {q r : LogicalType}
    {source target : DataType} {kind : Kind} (htarget : LogicalType.toArrow q = .ok target)
    (h : bindType nullOf name q r source target = .ok kind) :
    (∃ qs rs ss slots, q = .struct qs ∧ r = .struct rs ∧ source = .struct ss ∧
        List.Forall₂ (IsSlot nullOf rs ss) qs slots ∧ kind = .struct slots) ∨
      (∃ qe re se mapping, q = .list qe ∧ r = .list re ∧ source = .list se ∧
        IsElement nullOf re se 0 qe (.mk (some 0) mapping) ∧ kind = .list mapping) ∨
      (∃ qk qv rk rv source' sorted sk sv key value, q = .map qk qv ∧ r = .map rk rv ∧
        source = .map source' sorted ∧ source'.dataType = .struct [sk, sv] ∧
          IsElement nullOf rk sk 0 qk key ∧ IsElement nullOf rv sv 1 qv value ∧
          kind = .map key value) ∨
      (kind = .primitive ∧ q.eq r = true ∧ compatible source target = true) := by
  obtain ⟨qs, rs, ss, ts, slots, rfl, rfl, rfl, rfl, hslots, rfl⟩ |
    ⟨qe, re, se, te, slot, rfl, rfl, rfl, rfl, hslot, rfl⟩ |
    ⟨qk, qv, rk, rv, source', sorted, target', sorted', sk, sv, tk, tv, key, value,
      rfl, rfl, rfl, rfl, hss, hts, hkey, hvalue, rfl⟩ | hprimitive := bindType_eq_ok h
  · rw [LogicalType.toArrow, bind_eq_ok] at htarget
    obtain ⟨columns, hcolumns, hstruct⟩ := htarget
    cases hstruct
    exact .inl ⟨qs, rs, ss, slots, rfl, rfl, rfl,
      forall₂_isSlot hslots (fieldsToArrow_eq_ok.mp hcolumns), rfl⟩
  · rw [LogicalType.toArrow, bind_eq_ok] at htarget
    obtain ⟨column, hcolumn, hlist⟩ := htarget
    cases hlist
    have hindex : slot = .mk (some 0) slot.mapping := by
      obtain ⟨-, -, kind, -, rfl⟩ := bindCollection_eq_ok.mp hslot
      rfl
    rw [hindex] at hslot
    exact .inr (.inl ⟨qe, re, se, slot.mapping, rfl, rfl, rfl, ⟨te, hcolumn, hslot⟩, rfl⟩)
  · rw [LogicalType.toArrow, bind_eq_ok] at htarget
    obtain ⟨keyColumn, hkeyColumn, htarget⟩ := htarget
    obtain ⟨valueColumn, hvalueColumn, hmap⟩ := bind_eq_ok.mp htarget
    cases hmap
    cases hts
    exact .inr (.inr (.inl ⟨qk, qv, rk, rv, source', sorted, sk, sv, key, value, rfl, rfl, rfl, hss,
      ⟨tk, hkeyColumn, hkey⟩, ⟨tv, hvalueColumn, hvalue⟩, rfl⟩))
  · exact .inr (.inr (.inr hprimitive))

section Sound

variable {nullOf : DataType → Option ScalarValue} {recorded : Schema} {physical : List ArrowField}
  {bindings : List Binding}

/-- What is taken as it is is bound by identifier. -/
theorem wholeField_sound (f : Field) {place : List ℕ} {index : ℕ} {p : ArrowField}
    (hpositive : ∀ g ∈ f.flatten, g.fieldId ≠ 0) (harrow : fieldToArrow f = .ok p)
    (hat : fieldAt physical (place ++ [index]) = some p) :
    ∀ b ∈ wholeField place index f, b.Sound recorded physical bindings := by
  induction f using Field.induction generalizing place index p with
  | h f ih =>
    rw [Field.flatten_eq, List.forall_mem_cons] at hpositive
    obtain ⟨dataType, htype, rfl⟩ := fieldToArrow_eq_ok.mp harrow
    rw [wholeField_eq, List.forall_mem_cons]
    refine ⟨⟨_, hat, .inl (physicalId_toArrow hpositive.1 harrow)⟩, fun b hb => ?_⟩
    rw [wholeType_eq, mem_wholeFields] at hb
    obtain ⟨i, c, hc, hb⟩ := hb
    have hmem : c ∈ f.children := List.mem_of_getElem? hc
    obtain ⟨column, hcolumn, hnested⟩ := getElem?_of_forall₂ (forall₂_children htype) hc
    refine ih c hmem (fun g hg => hpositive.2 g (List.mem_flatMap.mpr ⟨c, hmem, hg⟩)) hnested
      ?_ b hb
    rw [fieldAt_append hat, Nat.zero_add]
    exact hcolumn

/-- Nested fields have the identifiers that a field's tree has. -/
theorem positive_children {f : Field} (h : ∀ g ∈ f.flatten, g.fieldId ≠ 0) {c : Field}
    (hc : c ∈ f.children) : ∀ g ∈ c.flatten, g.fieldId ≠ 0 := by
  intro g hg
  rw [Field.flatten_eq] at h
  exact h g (List.mem_cons_of_mem _ (List.mem_flatMap.mpr ⟨c, hc, hg⟩))

/-- The bindings below a bound field are sound: each of them leads to a physical field that stands
for its query field. -/
def SoundBelow (nullOf : DataType → Option ScalarValue) (recorded : Schema)
    (physical : List ArrowField) (bindings : List Binding) (q : Field) : Prop :=
  ∀ {name : String} {r : Field} {target : DataType} {kind : Kind} {place : List ℕ} {p : ArrowField},
    (∀ g ∈ q.flatten, g.fieldId ≠ 0) → r ∈ recorded.flatten →
    LogicalType.toArrow q.fieldType = .ok target →
    bindType nullOf name q.fieldType r.fieldType p.dataType target = .ok kind →
    fieldAt physical place = some p → ⟨q, some place⟩ ∈ bindings →
    bindingsType place q.fieldType kind ⊆ bindings →
    ∀ b ∈ bindingsType place q.fieldType kind, b.Sound recorded physical bindings

/-- Sibling fields are soundly bound when each of them is soundly bound below itself. -/
theorem siblings_sound {queries fields : List Field} {source : List ArrowField} {slots : List Slot}
    {place : List ℕ} (ih : ∀ c ∈ queries, SoundBelow nullOf recorded physical bindings c)
    (hpositive : ∀ c ∈ queries, ∀ g ∈ c.flatten, g.fieldId ≠ 0)
    (hfields : ∀ r ∈ fields, r ∈ recorded.flatten)
    (hslots : List.Forall₂ (IsSlot nullOf fields source) queries slots)
    (hat : ∀ i : ℕ, fieldAt physical (place ++ [i]) = source[i]?)
    (hsub : bindingsFields place queries slots ⊆ bindings) :
    ∀ b ∈ bindingsFields place queries slots, b.Sound recorded physical bindings := by
  intro b hb
  obtain ⟨⟨q, slot⟩, hzip, hmem⟩ := mem_bindingsFields.mp hb
  have hq : q ∈ queries := (List.of_mem_zip hzip).1
  have hall : ∀ b ∈ bindingsField place q slot, b ∈ bindings := fun b hb =>
    hsub (mem_bindingsFields.mpr ⟨(q, slot), hzip, hb⟩)
  obtain ⟨target, htarget, hbind⟩ := List.forall₂_zip hslots hzip
  obtain ⟨dataType, htype, rfl⟩ := fieldToArrow_eq_ok.mp htarget
  obtain ⟨r, i, kind, hr, hposition, hkind, rfl⟩ | ⟨-, hunbound⟩ := bindField_eq_ok.mp hbind
  · have hrmem : r ∈ recorded.flatten := hfields r (List.mem_of_find?_eq_some hr)
    have hrid : r.fieldId = q.fieldId := by
      have hfound := List.find?_some hr
      exact beq_iff_eq.mp hfound
    have hplace : fieldAt physical (place ++ [(i : ℕ)]) = some (source.get i) := by
      rw [hat, List.getElem?_eq_getElem i.isLt]
      rfl
    rw [bindingsField_bound] at hmem hall
    obtain rfl | hmem := List.mem_cons.mp hmem
    · refine ⟨_, hplace, ?_⟩
      obtain hid | ⟨hname, hid⟩ := ((position_eq_ok.mp hposition).2 i).mp rfl
      · exact .inl (hrid ▸ hid)
      · exact .inr ⟨hid, .inl ⟨r, hrmem, hrid, hname⟩⟩
    · exact ih q hq (hpositive q hq) hrmem htype hkind hplace (hall _ List.mem_cons_self)
        (fun b hb => hall b (List.mem_cons_of_mem _ hb)) b hmem
  · obtain ⟨hoptional, -, value, -, rfl⟩ := unbound_eq_ok.mp hunbound
    rw [bindingsField_missing] at hmem
    obtain rfl := List.mem_singleton.mp hmem
    exact hoptional

/-- A field at its intrinsic position in a bound collection is soundly bound. -/
theorem element_sound {q c r : Field} {element : ArrowField} {slot : Slot} {place : List ℕ}
    {index : ℕ} (ih : SoundBelow nullOf recorded physical bindings c)
    (hpositive : ∀ g ∈ c.flatten, g.fieldId ≠ 0) (hr : r ∈ recorded.flatten)
    (hslot : IsElement nullOf r element index c slot)
    (hat : fieldAt physical (place ++ [index]) = some element) (hself : ⟨q, some place⟩ ∈ bindings)
    (hcollection : LogicalType.isCollection q.fieldType = true) (hc : q.children[index]? = some c)
    (hsub : bindingsField place c slot ⊆ bindings) :
    ∀ b ∈ bindingsField place c slot, b.Sound recorded physical bindings := by
  obtain ⟨target, htarget, hbind⟩ := hslot
  obtain ⟨hid, hphysical, kind, hkind, rfl⟩ := bindCollection_eq_ok.mp hbind
  obtain ⟨dataType, htype, rfl⟩ := fieldToArrow_eq_ok.mp htarget
  rw [bindingsField_bound] at hsub ⊢
  rw [List.forall_mem_cons]
  refine ⟨⟨element, hat, ?_⟩, ?_⟩
  · obtain hnone | hsome := hphysical
    · exact .inr ⟨hnone, .inr ⟨⟨q, some place⟩, hself, place, index, rfl, rfl, hcollection, hc⟩⟩
    · rw [← hid] at hsome
      exact .inl hsome
  · exact ih hpositive hr htype hkind hat (hsub List.mem_cons_self)
      (fun b hb => hsub (List.mem_cons_of_mem _ hb))

/-- **Binding follows identifiers at every level.** Below a bound field, each binding leads to a
physical field that stands for its query field, whatever is nested in what. -/
theorem soundBelow (q : Field) : SoundBelow nullOf recorded physical bindings q := by
  induction q using Field.induction with
  | h q ih =>
    intro name r target kind place p hpositive hr htarget hbind hat hself hsub
    have hchild : ∀ c ∈ r.children, c ∈ recorded.flatten :=
      fun c hc => Schema.mem_flatten_of_mem_children hc hr
    obtain ⟨qs, rs, ss, slots, hq, hrt, hs, hslots, rfl⟩ |
      ⟨qe, re, se, mapping, hq, hrt, hs, hslot, rfl⟩ |
      ⟨qk, qv, rk, rv, source, sorted, sk, sv, key, value, hq, hrt, hs, hss, hkey, hvalue, rfl⟩ |
      ⟨rfl, -, hcompatible⟩ := bound_cases htarget hbind
    · have hchildren : q.children = qs := congrArg LogicalType.children hq
      have hrchildren : r.children = rs := congrArg LogicalType.children hrt
      rw [hq] at hsub ⊢
      refine siblings_sound (fun c hc => ih c (hchildren ▸ hc))
        (fun c hc => positive_children hpositive (hchildren ▸ hc))
        (fun c hc => hchild c (hrchildren ▸ hc)) hslots (fun i => ?_) hsub
      rw [fieldAt_append hat, hs]
      rfl
    · have hchildren : q.children = [qe] := congrArg LogicalType.children hq
      have hrchildren : r.children = [re] := congrArg LogicalType.children hrt
      have hmem : qe ∈ q.children := hchildren ▸ List.mem_cons_self
      rw [hq] at hsub ⊢
      refine element_sound (ih qe hmem) (positive_children hpositive hmem)
        (hchild re (hrchildren ▸ List.mem_cons_self)) hslot ?_ hself (by rw [hq]; rfl)
        (by rw [hchildren]; rfl) hsub
      rw [fieldAt_append hat, hs]
      rfl
    · have hchildren : q.children = [qk, qv] := congrArg LogicalType.children hq
      have hrchildren : r.children = [rk, rv] := congrArg LogicalType.children hrt
      have hkmem : qk ∈ q.children := hchildren ▸ List.mem_cons_self
      have hvmem : qv ∈ q.children := hchildren ▸ List.mem_cons_of_mem _ List.mem_cons_self
      have hat' : ∀ i : ℕ, fieldAt physical (place ++ [i]) = [sk, sv][i]? := by
        intro i
        rw [fieldAt_append hat, hs]
        cases source with
        | mk name dataType nullable metadata =>
          obtain rfl : dataType = .struct [sk, sv] := hss
          rfl
      have hcollection : LogicalType.isCollection q.fieldType = true := by
        rw [hq]
        rfl
      rw [hq] at hsub ⊢
      intro b hb
      obtain hb | hb := List.mem_append.mp hb
      · exact element_sound (ih qk hkmem) (positive_children hpositive hkmem)
          (hchild rk (hrchildren ▸ List.mem_cons_self)) hkey (hat' 0) hself hcollection
          (by rw [hchildren]; rfl) (fun b hb => hsub (List.mem_append_left _ hb)) b hb
      · exact element_sound (ih qv hvmem) (positive_children hpositive hvmem)
          (hchild rv (hrchildren ▸ List.mem_cons_of_mem _ List.mem_cons_self)) hvalue (hat' 1) hself
          hcollection (by rw [hchildren]; rfl) (fun b hb => hsub (List.mem_append_right _ hb)) b hb
    · rw [bindingsType_primitive, wholeType_eq]
      intro b hb
      obtain ⟨i, c, hc, hb⟩ := mem_wholeFields.mp hb
      have hmem : c ∈ q.children := List.mem_of_getElem? hc
      obtain ⟨column, hcolumn, hnested⟩ := getElem?_of_forall₂ (forall₂_children htarget) hc
      refine wholeField_sound c (positive_children hpositive hmem) hnested ?_ b hb
      rw [fieldAt_append hat, Nat.zero_add, fields_of_compatible hcompatible]
      exact hcolumn

end Sound

end Otmp.DataFusion
