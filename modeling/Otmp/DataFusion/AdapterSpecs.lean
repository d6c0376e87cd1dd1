import Otmp.DataFusion.SchemaAdapter
import Otmp.Protocol.SchemaFacts

/-!
# What each step of the adapter does

A recorded field is found where exactly one physical field answers to it. A query field is bound
there, or it is optional and filled with its default.
-/

namespace Otmp.DataFusion

open Foundation

/-- A physical field answers to a recorded one: by its identifier, or without one by its name. -/
def Answers (r : Field) (p : ArrowField) : Prop :=
  physicalId p = .ok (some r.fieldId) ∨ p.name = r.name ∧ physicalId p = .ok none

/-- Every field of a level has a readable identifier, if any. -/
def IdsReadable (physical : List ArrowField) : Prop :=
  ∀ p ∈ physical, ∃ id, physicalId p = .ok id

section Position

variable {recorded : Field} {physical : List ArrowField}

/-- A physical field carries the identifier of a recorded one. -/
def carriesId (recorded : Field) (p : ArrowField) : Bool :=
  decide ((physicalId p).toOption = some (some recorded.fieldId))

/-- A physical field has no identifier and the name of a recorded one. -/
def carriesName (recorded : Field) (p : ArrowField) : Bool :=
  decide (p.name = recorded.name) && decide ((physicalId p).toOption = some none)

/-- A physical field answers a recorded one by its identifier, or by its name if it carries none. -/
theorem answers_iff {p : ArrowField} :
    Answers recorded p ↔ carriesId recorded p = true ∨ carriesName recorded p = true := by
  rw [carriesId, carriesName, Bool.and_eq_true, decide_eq_true_eq, decide_eq_true_eq,
    decide_eq_true_eq, toOption_eq_some, toOption_eq_some, Answers]

/-- Recording a find in an empty slot appends it to what the slot lists. -/
private theorem toList_update {α : Type} (o : Option α) (a : α) (p : Prop) [Decidable p]
    {o' : Option α}
    (h : ¬(p ∧ o.isSome = true)) :
    (o' = if p then some a else o) ↔ o'.toList = o.toList ++ if p then [a] else [] := by
  by_cases hp : p
  · have hnone : o = none := Option.not_isSome_iff_eq_none.mp fun hsome => h ⟨hp, hsome⟩
    subst hnone
    rw [if_pos hp, if_pos hp]
    cases o' <;> simp
  · rw [if_neg hp, if_neg hp, List.append_nil]
    cases o' <;> cases o <;> simp

/-- What an optional value lists determines it. -/
private theorem toList_inj {α : Type} {o o' : Option α} : o.toList = o'.toList ↔ o = o' := by
  cases o <;> cases o' <;> simp

/-- A part of what an optional value lists is what some optional value lists. -/
private theorem exists_toList_of_append {α : Type} {o : Option α} {as bs : List α}
    (h : as ++ bs = o.toList) : ∃ o' : Option α, o'.toList = as := by
  cases as with
  | nil => exact ⟨none, rfl⟩
  | cons a as =>
    refine ⟨some a, ?_⟩
    cases o with
    | none => cases h
    | some b =>
      have htail : as ++ bs = [] := (List.cons.inj h).2
      rw [(List.append_eq_nil_iff.mp htail).1]
      rfl

/-- The test of an identifier is a comparison once the identifier has been read. -/
private theorem carriesId_eq {p : ArrowField} {id : Option UInt32} (h : physicalId p = .ok id) :
    carriesId recorded p = decide (id = some recorded.fieldId) := by
  simp [carriesId, h, Except.toOption]

/-- The test of a name is a comparison once the identifier has been read. -/
private theorem carriesName_eq {p : ArrowField} {id : Option UInt32} (h : physicalId p = .ok id) :
    carriesName recorded p = decide (p.name = recorded.name ∧ id = none) := by
  simp [carriesName, h, Except.toOption]

/-- Filtering a single element keeps it or drops it. -/
private theorem filter_single {α : Type} {p : α → Bool} {a : α} {c : Prop} [Decidable c]
    (h : p a = decide c) : [a].filter p = if c then [a] else [] := by
  rw [List.filter_cons, List.filter_nil, h]
  simp only [decide_eq_true_eq]

/-- A slot that grows by a find was empty before. -/
private theorem not_isSome_of_append {α : Type} {o o' : Option α} {a : α}
    (h : o'.toList = o.toList ++ [a]) : ¬ o.isSome = true := by
  intro hsome
  obtain ⟨b, rfl⟩ := Option.isSome_iff_exists.mp hsome
  cases o' <;> simp at h

/-- One step of the search adds the field to the findings that it belongs to. -/
private theorem look_eq_ok {found found' : Found physical} {index : Fin physical.length} :
    found.look recorded physical index = .ok found' ↔
      (∃ id, physicalId (physical.get index) = .ok id) ∧
        found'.byId.toList = found.byId.toList ++
          [index].filter (fun i => carriesId recorded (physical.get i)) ∧
        found'.byName.toList = found.byName.toList ++
          [index].filter (fun i => carriesName recorded (physical.get i)) := by
  rw [Found.look, bind_eq_ok, ← exists_and_right]
  refine exists_congr fun id => and_congr_right fun hid => ?_
  have hids : [index].filter (fun i => carriesId recorded (physical.get i)) =
      if id = some recorded.fieldId then [index] else [] := filter_single (carriesId_eq hid)
  have hnames : [index].filter (fun i => carriesName recorded (physical.get i)) =
      if (physical.get index).name = recorded.name ∧ id = none then [index] else [] :=
    filter_single (carriesName_eq hid)
  rw [hids, hnames, ite_error_eq_ok, ite_error_eq_ok, Except.ok.injEq]
  constructor
  · rintro ⟨hfirst, hsecond, rfl⟩
    exact ⟨(toList_update _ _ _ hfirst).mp rfl,
      (toList_update _ _ _ fun h => hsecond ⟨h.1.1, h.1.2, h.2⟩).mp rfl⟩
  · rintro ⟨hbyId, hbyName⟩
    have hfirst : ¬(id = some recorded.fieldId ∧ found.byId.isSome = true) := by
      rintro ⟨hid, hsome⟩
      rw [if_pos hid] at hbyId
      exact not_isSome_of_append hbyId hsome
    have hsecond : ¬((physical.get index).name = recorded.name ∧ id = none ∧
        found.byName.isSome = true) := by
      rintro ⟨hname, hnone, hsome⟩
      rw [if_pos ⟨hname, hnone⟩] at hbyName
      exact not_isSome_of_append hbyName hsome
    refine ⟨hfirst, hsecond, ?_⟩
    rw [← (toList_update _ _ _ hfirst).mpr hbyId,
      ← (toList_update _ _ _ fun h => hsecond ⟨h.1.1, h.1.2, h.2⟩).mpr hbyName]

/-- The search succeeds exactly when all identifiers can be read and at most one column of each kind
is found. -/
private theorem run_eq_ok {found found' : Found physical} {indices : List (Fin physical.length)} :
    runAll (Found.look recorded physical) found indices = .ok found' ↔
      (∀ i ∈ indices, ∃ id, physicalId (physical.get i) = .ok id) ∧
        found'.byId.toList = found.byId.toList ++
          indices.filter (fun i => carriesId recorded (physical.get i)) ∧
        found'.byName.toList = found.byName.toList ++
          indices.filter (fun i => carriesName recorded (physical.get i)) := by
  induction indices generalizing found with
  | nil =>
    obtain ⟨byId, byName⟩ := found
    obtain ⟨byId', byName'⟩ := found'
    simp [runAll, toList_inj, eq_comm]
  | cons index indices ih =>
    rw [runAll_cons_ok, List.forall_mem_cons, ← List.singleton_append, List.filter_append,
      List.filter_append, ← List.append_assoc, ← List.append_assoc]
    constructor
    · rintro ⟨mid, hstep, hrest⟩
      obtain ⟨hreadable, hid, hname⟩ := look_eq_ok.mp hstep
      obtain ⟨hall, hids, hnames⟩ := ih.mp hrest
      rw [hid] at hids
      rw [hname] at hnames
      exact ⟨⟨hreadable, hall⟩, hids, hnames⟩
    · rintro ⟨⟨hreadable, hall⟩, hids, hnames⟩
      obtain ⟨byId, hbyId⟩ := exists_toList_of_append hids.symm
      obtain ⟨byName, hbyName⟩ := exists_toList_of_append hnames.symm
      refine ⟨⟨byId, byName⟩, look_eq_ok.mpr ⟨hreadable, hbyId, hbyName⟩, ih.mpr ⟨hall, ?_, ?_⟩⟩
      · rw [hids, hbyId]
      · rw [hnames, hbyName]

/-- The findings are one position exactly when their lists make one. -/
private theorem or_eq_iff {α : Type} {as bs : List α} {o : Option α} :
    (∃ byId byName : Option α, byId.toList = as ∧ byName.toList = bs ∧
      ¬(byId.isSome = true ∧ byName.isSome = true) ∧ byId.or byName = o) ↔ as ++ bs = o.toList := by
  constructor
  · rintro ⟨byId, byName, rfl, rfl, hnot, rfl⟩
    cases byId with
    | none => rfl
    | some a =>
      cases byName with
      | none => rfl
      | some b => exact absurd ⟨rfl, rfl⟩ hnot
  · intro h
    cases as with
    | nil => exact ⟨none, o, rfl, h.symm, by simp, rfl⟩
    | cons a as =>
      cases o with
      | none => cases h
      | some b =>
        obtain ⟨rfl, htail⟩ := List.cons.inj h
        obtain ⟨rfl, rfl⟩ := List.append_eq_nil_iff.mp htail
        exact ⟨some a, none, rfl, rfl, by simp, rfl⟩

/-- A list without duplicates is an option exactly when it has the same members. -/
private theorem eq_toList_iff {α : Type} {as : List α} (h : as.Nodup) {o : Option α} :
    as = o.toList ↔ ∀ a, o = some a ↔ a ∈ as := by
  constructor
  · rintro rfl a
    rw [Option.mem_toList]
  · intro hmem
    have hperm : as.Perm o.toList := by
      refine (List.perm_ext_iff_of_nodup h (by cases o <;> simp)).mpr fun a => ?_
      rw [Option.mem_toList]
      exact (hmem a).symm
    cases o with
    | none => exact List.perm_nil.mp hperm
    | some a => exact List.perm_singleton.mp hperm

/-- **Where a recorded field is found.** All identifiers are readable, and the position is the only
one that answers to the field. -/
theorem position_eq_ok {o : Option (Fin physical.length)} :
    position recorded physical = .ok o ↔
      IdsReadable physical ∧ ∀ i, o = some i ↔ Answers recorded (physical.get i) := by
  have hreadable : (∀ i ∈ List.finRange physical.length,
      ∃ id, physicalId (physical.get i) = .ok id) ↔ IdsReadable physical := by
    constructor
    · intro h p hp
      obtain ⟨i, rfl⟩ := List.get_of_mem hp
      exact h i (List.mem_finRange i)
    · exact fun h i _ => h _ (List.get_mem physical i)
  have hlists : position recorded physical = .ok o ↔ IdsReadable physical ∧
      (List.finRange physical.length).filter (fun i => carriesId recorded (physical.get i)) ++
        (List.finRange physical.length).filter (fun i => carriesName recorded (physical.get i)) =
          o.toList := by
    rw [position, bind_eq_ok, ← or_eq_iff]
    simp only [run_eq_ok, ite_error_eq_ok, Except.ok.injEq, hreadable, Option.toList_none,
      List.nil_append]
    constructor
    · rintro ⟨found, ⟨hids, hbyId, hbyName⟩, hnot, hor⟩
      exact ⟨hids, found.byId, found.byName, hbyId, hbyName, hnot, hor⟩
    · rintro ⟨hids, byId, byName, hbyId, hbyName, hnot, hor⟩
      exact ⟨⟨byId, byName⟩, ⟨hids, hbyId, hbyName⟩, hnot, hor⟩
  have hnodup : ((List.finRange physical.length).filter
      (fun i => carriesId recorded (physical.get i)) ++ (List.finRange physical.length).filter
        (fun i => carriesName recorded (physical.get i))).Nodup := by
    refine List.nodup_append'.mpr ⟨(List.nodup_finRange _).filter _,
      (List.nodup_finRange _).filter _, fun i hi hi' => ?_⟩
    have hid := (List.mem_filter.mp hi).2
    have hname := (List.mem_filter.mp hi').2
    rw [carriesId, decide_eq_true_eq] at hid
    rw [carriesName, Bool.and_eq_true, decide_eq_true_eq, decide_eq_true_eq, hid] at hname
    cases hname.2
  rw [hlists, eq_toList_iff hnodup]
  refine and_congr_right fun _ => forall_congr' fun i => ?_
  rw [List.mem_append, List.mem_filter, List.mem_filter, answers_iff]
  simp only [List.mem_finRange, true_and]

end Position

section Bind

variable {nullOf : DataType → Option ScalarValue} {query : Field} {recorded : Option Field}
  {physical : List ArrowField} {target : ArrowField} {slot : Slot}

/-- The value that fills a query field: its initial default as a scalar of the column, or no
value when it has none. -/
def Fills (nullOf : DataType → Option ScalarValue) (query : Field) (target : ArrowField)
    (value : Option ScalarValue) : Prop :=
  match query.initialDefault with
  | none => value = none
  | some v => value = scalar nullOf v target.dataType ∧ value ≠ none

/-- A field without a column is filled exactly when nothing requires it and there is a value to fill
it with. -/
theorem unbound_eq_ok :
    unbound nullOf query recorded target = .ok slot ↔
      query.required = false ∧ (∀ r ∈ recorded, r.required = false) ∧
        ∃ value, Fills nullOf query target value ∧
          slot = .mk none (.mk target (.missing value)) := by
  have hrecorded : recorded.any Field.required = false ↔ ∀ r ∈ recorded, r.required = false := by
    cases recorded <;> simp
  rw [unbound, ite_error_eq_ok, Bool.or_eq_true, not_or, Bool.not_eq_true, Bool.not_eq_true,
    hrecorded, and_assoc]
  refine and_congr_right fun _ => and_congr_right fun _ => ?_
  cases hdefault : query.initialDefault with
  | none => simp [Fills, hdefault, eq_comm]
  | some v =>
    cases hscalar : scalar nullOf v target.dataType <;>
      simp [Fills, hdefault, hscalar, eq_comm]

/-- What the cases of a bound field are. -/
theorem bindType_eq_ok {name : String} {q r : LogicalType} {source target : DataType} {kind : Kind}
    (h : bindType nullOf name q r source target = .ok kind) :
    (∃ qs rs ss ts slots, q = .struct qs ∧ r = .struct rs ∧ source = .struct ss ∧
        target = .struct ts ∧ bindFields nullOf qs rs ss ts = .ok slots ∧ kind = .struct slots) ∨
      (∃ qe re se te slot, q = .list qe ∧ r = .list re ∧ source = .list se ∧ target = .list te ∧
        bindCollection (bindField nullOf qe) qe.fieldId re se te 0 = .ok slot ∧
          kind = .list slot.mapping) ∨
      (∃ qk qv rk rv source' sorted target' sorted' sk sv tk tv key value,
        q = .map qk qv ∧ r = .map rk rv ∧ source = .map source' sorted ∧
          target = .map target' sorted' ∧ source'.dataType = .struct [sk, sv] ∧
          target'.dataType = .struct [tk, tv] ∧
          bindCollection (bindField nullOf qk) qk.fieldId rk sk tk 0 = .ok key ∧
          bindCollection (bindField nullOf qv) qv.fieldId rv sv tv 1 = .ok value ∧
          kind = .map key value) ∨
      (kind = .primitive ∧ q.eq r = true ∧ compatible source target = true) := by
  rw [bindType.eq_def] at h
  split at h
  · obtain ⟨slots, hslots, h⟩ := bind_eq_ok.mp h
    cases h
    exact .inl ⟨_, _, _, _, slots, rfl, rfl, rfl, rfl, hslots, rfl⟩
  · obtain ⟨slot, hslot, h⟩ := bind_eq_ok.mp h
    cases h
    exact .inr (.inl ⟨_, _, _, _, slot, rfl, rfl, rfl, rfl, hslot, rfl⟩)
  · split at h
    · obtain ⟨key, hkey, h⟩ := bind_eq_ok.mp h
      obtain ⟨value, hvalue, h⟩ := bind_eq_ok.mp h
      cases h
      exact .inr (.inr (.inl ⟨_, _, _, _, _, _, _, _, _, _, _, _, key, value, rfl, rfl, rfl, rfl,
        ‹_›, ‹_›, hkey, hvalue, rfl⟩))
    · cases h
    · cases h
  · rw [ite_ok_eq_ok, Bool.and_eq_true] at h
    cases h.2
    exact .inr (.inr (.inr ⟨rfl, h.1.1, h.1.2⟩))

/-- A field of a primitive type is taken as it is, when the types agree. -/
theorem bindType_of_isPrimitive {name : String} {t r : LogicalType} {source target : DataType}
    (h : t.isPrimitive = true) :
    bindType nullOf name t r source target =
      if t.eq r && compatible source target then .ok .primitive
      else .error (.unsupportedConversion name source target) := by
  cases t <;> first | rfl | cases h

/-- A query field is bound where its recorded field is found, and filled when it is not found. -/
theorem bindField_eq_ok :
    bindField nullOf query recorded physical target = .ok slot ↔
      (∃ r i kind, recorded = some r ∧ position r physical = .ok (some i) ∧
        bindType nullOf query.name query.fieldType r.fieldType (physical.get i).dataType
          target.dataType = .ok kind ∧ slot = .mk (some i) (.mk target kind)) ∨
      ((∀ r ∈ recorded, position r physical = .ok none) ∧
        unbound nullOf query recorded target = .ok slot) := by
  cases query with
  | mk fieldId name required fieldType doc initialDefault writeDefault =>
    rw [bindField.eq_def]
    dsimp only
    cases recorded with
    | none => simp
    | some r =>
      simp only [bind_eq_ok, Option.some.injEq, Option.mem_def]
      constructor
      · rintro ⟨index, hposition, h⟩
        cases index with
        | none =>
          refine .inr ⟨?_, h⟩
          rintro r' rfl
          exact hposition
        | some i =>
          obtain ⟨kind, hkind, h⟩ := bind_eq_ok.mp h
          cases h
          exact .inl ⟨r, i, kind, rfl, hposition, hkind, rfl⟩
      · rintro (⟨r', i, kind, rfl, hposition, hkind, rfl⟩ | ⟨hposition, h⟩)
        · exact ⟨some i, hposition, bind_eq_ok.mpr ⟨kind, hkind, rfl⟩⟩
        · exact ⟨none, hposition r rfl, h⟩

/-- A field at an intrinsic position is bound there, when no identifier contradicts it. -/
theorem bindCollection_eq_ok {r : Field} {p : ArrowField} {index : ℕ} :
    bindCollection (bindField nullOf query) query.fieldId r p target index = .ok slot ↔
      query.fieldId = r.fieldId ∧
        (physicalId p = .ok none ∨ physicalId p = .ok (some r.fieldId)) ∧
        ∃ kind, bindType nullOf query.name query.fieldType r.fieldType p.dataType
          target.dataType = .ok kind ∧ slot = .mk (some index) (.mk target kind) := by
  have hnamed : physicalId (p.withName r.name) = physicalId p := rfl
  have hposition : (physicalId p = .ok none ∨ physicalId p = .ok (some r.fieldId)) →
      position r [p.withName r.name] = .ok (some ⟨0, by simp⟩) := by
    intro hid
    refine position_eq_ok.mpr ⟨?_, fun i => ?_⟩
    · intro p' hp'
      obtain rfl := List.mem_singleton.mp hp'
      obtain hid | hid := hid
      · exact ⟨_, hid⟩
      · exact ⟨_, hid⟩
    · have hi : i = ⟨0, by simp⟩ := Fin.ext (Nat.lt_one_iff.mp i.isLt)
      subst hi
      refine ⟨fun _ => ?_, fun _ => rfl⟩
      obtain hid | hid := hid
      · exact .inr ⟨rfl, hid⟩
      · exact .inl hid
  rw [bindCollection, ite_error_eq_ok, not_not]
  refine and_congr_right fun hquery => ?_
  rw [bind_eq_ok]
  constructor
  · rintro ⟨id, hid, h⟩
    rw [ite_error_eq_ok] at h
    obtain ⟨hagrees, h⟩ := h
    have hid' : physicalId p = .ok none ∨ physicalId p = .ok (some r.fieldId) := by
      cases id with
      | none => exact .inl hid
      | some id =>
        have heq : id = r.fieldId := by simpa using hagrees
        exact .inr (heq ▸ hid)
    obtain ⟨inner, hinner, h⟩ := bind_eq_ok.mp h
    cases h
    obtain ⟨r', i, kind, hr, hfound, hkind, rfl⟩ | ⟨hnone, -⟩ := bindField_eq_ok.mp hinner
    · cases hr
      have hi : i = ⟨0, by simp⟩ := Fin.ext (Nat.lt_one_iff.mp i.isLt)
      subst hi
      exact ⟨hid', kind, hkind, rfl⟩
    · have hcontra := (hposition hid').symm.trans (hnone r rfl)
      cases hcontra
  · rintro ⟨hid, kind, hkind, rfl⟩
    have hbind : bindField nullOf query (some r) [p.withName r.name] target =
        .ok (.mk (some 0) (.mk target kind)) :=
      bindField_eq_ok.mpr (.inl ⟨r, ⟨0, by simp⟩, kind, rfl, hposition hid, hkind, rfl⟩)
    obtain hid | hid := hid
    · refine ⟨none, hid, ?_⟩
      rw [if_neg (by simp), bind_eq_ok]
      exact ⟨_, hbind, rfl⟩
    · refine ⟨some r.fieldId, hid, ?_⟩
      rw [if_neg (by simp), bind_eq_ok]
      exact ⟨_, hbind, rfl⟩

/-- Sibling fields are bound one by one. -/
theorem bindFields_eq_ok {queries recorded : List Field} {source targets : List ArrowField}
    {slots : List Slot} :
    bindFields nullOf queries recorded source targets = .ok slots ↔
      List.Forall₂ (fun (qt : Field × ArrowField) slot =>
        bindField nullOf qt.1 (recorded.find? fun f => f.fieldId == qt.1.fieldId) source qt.2 =
          .ok slot) (queries.zip targets) slots := by
  induction queries generalizing targets slots with
  | nil => simp [bindFields, eq_comm]
  | cons q qs ih =>
    cases targets with
    | nil => simp [bindFields, eq_comm]
    | cons t ts =>
      rw [bindFields, bind_eq_ok, List.zip_cons_cons, List.forall₂_cons_left_iff]
      constructor
      · rintro ⟨slot, hslot, h⟩
        obtain ⟨rest, hrest, h⟩ := bind_eq_ok.mp h
        cases h
        exact ⟨slot, rest, hslot, ih.mp hrest, rfl⟩
      · rintro ⟨slot, rest, hslot, hrest, rfl⟩
        exact ⟨slot, hslot, bind_eq_ok.mpr ⟨rest, ih.mpr hrest, rfl⟩⟩

end Bind

section ToArrow

/-- The column of a field has its name, its type and its identifier, and is nullable unless the
field is required. -/
theorem fieldToArrow_eq_ok {f : Field} {p : ArrowField} :
    fieldToArrow f = .ok p ↔ ∃ dataType, LogicalType.toArrow f.fieldType = .ok dataType ∧
      p = .mk f.name dataType (!f.required) (fieldIdMetadata f.fieldId) := by
  cases f with
  | mk fieldId name required fieldType doc initialDefault writeDefault =>
    rw [fieldToArrow, bind_eq_ok]
    simp only [Except.ok.injEq, eq_comm (b := p)]
    rfl

/-- A list of fields becomes columns exactly when each of them does. -/
theorem fieldsToArrow_eq_ok {fields : List Field} {columns : List ArrowField} :
    fieldsToArrow fields = .ok columns ↔
      List.Forall₂ (fun f p => fieldToArrow f = .ok p) fields columns := by
  induction fields generalizing columns with
  | nil => simp [fieldsToArrow, eq_comm]
  | cons f fs ih =>
    rw [fieldsToArrow, bind_eq_ok, List.forall₂_cons_left_iff]
    constructor
    · rintro ⟨first, hfirst, h⟩
      obtain ⟨rest, hrest, h⟩ := bind_eq_ok.mp h
      cases h
      exact ⟨first, rest, hfirst, ih.mp hrest, rfl⟩
    · rintro ⟨first, rest, hfirst, hrest, rfl⟩
      exact ⟨first, hfirst, bind_eq_ok.mpr ⟨rest, ih.mpr hrest, rfl⟩⟩

end ToArrow

end Otmp.DataFusion
