import Std.Data.ExtTreeMap
import Std.Data.ExtTreeSet
import Otmp.Foundation.Run
import Otmp.Protocol.SchemaJson

/-!
# Schema validation

`Schema.validate` walks the field tree once and records every field it meets. The
walk is characterised by properties of the tree alone: the shape of each field,
distinct names among siblings and distinct positive identifiers in the whole
schema. The record it leaves is the list of visits in order.
-/

namespace Otmp

open Foundation

/-- A schema error, with the text of the check that failed. -/
def invalidSchema {α : Type} (message : String) : Except ProtocolError α :=
  .error (.invalidSchema message)

/-- The fields met so far: their identifiers, and for each the field and whether some
container above it is optional. -/
structure Visited where
  ids : Std.ExtTreeSet UInt32 compare
  paths : Std.ExtTreeMap UInt32 (Field × Bool) compare

/-- The check of a type's own parameters: a decimal's digits and a fixed length. -/
def validateType : LogicalType → Except ProtocolError Unit
  | .decimal precision scale =>
    if precision = 0 ∨ scale > precision then
      invalidSchema "decimal requires precision > 0 and scale <= precision"
    else .ok ()
  | .fixed length =>
    if length = 0 then invalidSchema "fixed length must be positive" else .ok ()
  | _ => .ok ()

/-- The check of one default of a field: in range, of the field's type, and not null where a value
is required. -/
def validateDefault (field : Field) (value : TypedScalar) : Except ProtocolError Unit := do
  value.validate
  if !field.fieldType.accepts value || (field.required && value == .null) then
    invalidSchema "field default is not type compatible"
  else .ok ()

/-- The checks of the defaults of a field, in order. -/
def validateDefaults (field : Field) : List TypedScalar → Except ProtocolError Unit
  | [] => .ok ()
  | value :: values => do
    validateDefault field value
    validateDefaults field values

namespace Visited

/-- Record one field: its identifier, and itself under its identifier. -/
def add (seen : Visited) (visit : Field × Bool) : Visited where
  ids := seen.ids.insert visit.1.fieldId
  paths := seen.paths.insert visit.1.fieldId visit

/-- The checks of one field against its siblings and the fields seen so far. -/
def field (seen : Visited) (names : Std.ExtTreeSet String compare) (underOptional : Bool)
    (f : Field) : Except ProtocolError Visited :=
  if f.fieldId = 0 ∨ f.fieldId ∈ seen.ids then
    invalidSchema "field IDs must be unique and positive"
  else if f.name = "" ∨ f.name ∈ names then
    invalidSchema "sibling field names must be unique and nonempty"
  else do
    validateType f.fieldType
    validateDefaults f f.defaults
    return seen.add (f, underOptional)

end Visited

/-- The nesting limit of a list of siblings, which is checked before any of them. -/
def checkDepth (depth : ℕ) : Except ProtocolError Unit :=
  if depth > 64 then invalidSchema "maximum nesting depth is 64" else .ok ()

mutual

/-- Validate the fields nested in a type, one level deeper than the type. -/
def LogicalType.validateNested (depth : ℕ) (underOptional : Bool) (seen : Visited) :
    LogicalType → Except ProtocolError Visited
  | .struct fields => do
    checkDepth (depth + 1)
    Field.validateSiblings (depth + 1) underOptional ∅ seen fields
  | .list element => do
    checkDepth (depth + 1)
    element.validate (depth + 1) underOptional ∅ seen
  | .map key value =>
    if !key.required || !key.fieldType.isPrimitive then
      invalidSchema "map keys must be required primitives"
    else do
      checkDepth (depth + 1)
      let seen ← key.validate (depth + 1) underOptional ∅ seen
      value.validate (depth + 1) underOptional ∅ seen
  | _ => .ok seen
termination_by structural t => t

/-- Validate one field and the fields nested in it. -/
def Field.validate (depth : ℕ) (underOptional : Bool) (names : Std.ExtTreeSet String compare)
    (seen : Visited) : Field → Except ProtocolError Visited
  | .mk fieldId name required fieldType doc initialDefault writeDefault => do
    let seen ← seen.field names underOptional
      (.mk fieldId name required fieldType doc initialDefault writeDefault)
    fieldType.validateNested depth (underOptional || !required) seen
termination_by structural f => f

/-- Validate a list of siblings; the names met so far are shared. -/
def Field.validateSiblings (depth : ℕ) (underOptional : Bool)
    (names : Std.ExtTreeSet String compare) (seen : Visited) :
    List Field → Except ProtocolError Visited
  | [] => .ok seen
  | field :: fields => do
    let seen ← field.validate depth underOptional names seen
    Field.validateSiblings depth underOptional (names.insert field.name) seen fields
termination_by structural fields => fields

end

namespace Schema

/-- The check of the identifier fields against the recorded fields. -/
def validateIdentifiers (seen : Visited) (identifiers : Std.ExtTreeSet UInt32 compare) :
    List UInt32 → Except ProtocolError Unit
  | [] => .ok ()
  | id :: ids =>
    if id ∈ identifiers then invalidSchema "duplicate identifier field ID"
    else
      match seen.paths[id]? with
      | none => invalidSchema "identifier field does not exist"
      | some (field, underOptional) =>
        if !field.required || underOptional || !field.fieldType.isIdentifierPrimitive then
          invalidSchema
            "identifier fields must be required non-floating primitives outside optional containers"
        else validateIdentifiers seen (identifiers.insert id) ids

/-- The checks of a schema: its identifiers, all of its fields, and its identifier fields. -/
def validate (s : Schema) : Except ProtocolError Unit := do
  if s.schemaId = 0 then invalidSchema "schema_id must be positive"
  else
    checkDepth 1
    let seen ← Field.validateSiblings 1 false ∅ ⟨∅, ∅⟩ s.fields
    validateIdentifiers seen ∅ s.identifierFieldIds

end Schema

mutual

/-- The fields nested in a type in the order of the walk, each with its optional mark. -/
def LogicalType.visits (underOptional : Bool) : LogicalType → List (Field × Bool)
  | .struct fields => Field.visitsList underOptional fields
  | .list element => element.visits underOptional
  | .map key value => key.visits underOptional ++ value.visits underOptional
  | _ => []
termination_by structural t => t

/-- A field and the fields nested in it in the order of the walk. -/
def Field.visits (underOptional : Bool) : Field → List (Field × Bool)
  | .mk fieldId name required fieldType doc initialDefault writeDefault =>
    (.mk fieldId name required fieldType doc initialDefault writeDefault, underOptional) ::
      fieldType.visits (underOptional || !required)
termination_by structural f => f

/-- The visits of a list of fields, each with what it says about the fields above it. -/
def Field.visitsList (underOptional : Bool) : List Field → List (Field × Bool)
  | [] => []
  | field :: fields => field.visits underOptional ++ Field.visitsList underOptional fields
termination_by structural fields => fields

end

namespace Field

/-- The walk over a list of fields is the walks over its fields, one after the other. -/
@[simp] theorem visitsList_eq (u : Bool) (fields : List Field) :
    visitsList u fields = fields.flatMap (visits u) := by
  induction fields with
  | nil => rfl
  | cons field fields ih => rw [visitsList, ih, List.flatMap_cons]

/-- A type's visits are those of its nested fields. -/
theorem visits_fieldType (u : Bool) (t : LogicalType) :
    t.visits u = t.children.flatMap (visits u) := by
  cases t <;> simp [LogicalType.visits, LogicalType.children]

/-- A field is visited before the fields nested in it. -/
theorem visits_eq (u : Bool) (f : Field) :
    f.visits u = (f, u) :: f.children.flatMap (visits (u || !f.required)) := by
  cases f with
  | mk fieldId name required fieldType doc initialDefault writeDefault =>
    rw [visits, visits_fieldType]
    rfl

/-- The fields of a tree in the order of the walk. -/
def flatten (f : Field) : List Field := (f.visits false).map Prod.fst

/-- The fields met do not depend on the optional marks. -/
theorem map_fst_visits (u : Bool) (f : Field) : (f.visits u).map Prod.fst = f.flatten := by
  unfold flatten
  induction f using Field.induction generalizing u with
  | h f ih =>
    rw [visits_eq, visits_eq, List.map_cons, List.map_cons, List.map_flatMap, List.map_flatMap]
    congr 1
    apply List.flatMap_congr
    intro c hc
    rw [ih c hc, ih c hc (false || !f.required)]

/-- The fields of a tree are the field itself and those of its nested fields. -/
theorem flatten_eq (f : Field) : f.flatten = f :: f.children.flatMap flatten := by
  rw [flatten, visits_eq, List.map_cons, List.map_flatMap]
  congr 1
  apply List.flatMap_congr
  intro c _
  exact map_fst_visits _ c

/-- A property of all defaults of a tree holds of the defaults of each of its fields. -/
theorem allDefaults_iff (p : TypedScalar → Bool) (f : Field) :
    f.allDefaults p = true ↔ ∀ g ∈ f.flatten, g.defaults.all p = true := by
  induction f using Field.induction with
  | h f ih =>
    rw [allDefaults_eq, flatten_eq, Bool.and_eq_true,
      List.all_eq_true (p := allDefaults p), List.forall_mem_cons]
    refine and_congr_right fun _ => ?_
    simp only [List.mem_flatMap, forall_exists_index, and_imp]
    constructor
    · intro h g c hc hg
      exact (ih c hc).mp (h c hc) g hg
    · intro h c hc
      exact (ih c hc).mpr fun g hg => h g c hc hg

end Field

/-- The checks of a field that involve nothing but the field. -/
structure Field.OwnOk (f : Field) : Prop where
  name_ne : f.name ≠ ""
  type_ok : validateType f.fieldType = .ok ()
  defaults_ok : validateDefaults f f.defaults = .ok ()

/-- The checks of a type's nested fields among each other, at a given depth. -/
def LogicalType.groupOk (depth : ℕ) : LogicalType → Prop
  | .struct fields => depth + 1 ≤ 64 ∧ (fields.map Field.name).Nodup
  | .list _ => depth + 1 ≤ 64
  | .map key _ => key.required = true ∧ key.fieldType.isPrimitive = true ∧ depth + 1 ≤ 64
  | _ => True

/-- The checks of a whole tree, apart from the identifiers. -/
inductive Field.Shape : ℕ → Field → Prop where
  | intro {depth : ℕ} {f : Field} (own : f.OwnOk) (group : f.fieldType.groupOk depth)
    (nested : ∀ c ∈ f.children, Field.Shape (depth + 1) c) : Field.Shape depth f

/-- A tree is well shaped when its root and its nested fields are. -/
theorem Field.shape_iff {depth : ℕ} {f : Field} :
    f.Shape depth ↔
      f.OwnOk ∧ f.fieldType.groupOk depth ∧ ∀ c ∈ f.children, c.Shape (depth + 1) := by
  constructor
  · rintro ⟨own, group, nested⟩
    exact ⟨own, group, nested⟩
  · rintro ⟨own, group, nested⟩
    exact ⟨own, group, nested⟩

namespace Visited

/-- Record a list of visits, in the order of the visits. -/
def addAll (seen : Visited) (visits : List (Field × Bool)) : Visited := visits.foldl add seen

/-- The identifiers of a list of fields are distinct, positive and not seen before. -/
structure Fresh (seen : Visited) (fields : List Field) : Prop where
  nodup : (fields.map Field.fieldId).Nodup
  positive : ∀ f ∈ fields, f.fieldId ≠ 0
  unseen : ∀ f ∈ fields, f.fieldId ∉ seen.ids

/-- Recording two walks is recording one after the other. -/
theorem addAll_append (seen : Visited) (vs ws : List (Field × Bool)) :
    seen.addAll (vs ++ ws) = (seen.addAll vs).addAll ws := List.foldl_append

/-- The identifiers recorded are the old ones and those visited. -/
theorem mem_ids_addAll {seen : Visited} {vs : List (Field × Bool)} {id : UInt32} :
    id ∈ (seen.addAll vs).ids ↔ id ∈ seen.ids ∨ id ∈ (vs.map Prod.fst).map Field.fieldId := by
  induction vs generalizing seen with
  | nil => simp [addAll]
  | cons v vs ih =>
    have hstep : id ∈ (seen.add v).ids ↔ id = v.1.fieldId ∨ id ∈ seen.ids := by
      simp only [add, Std.ExtTreeSet.mem_insert, Std.LawfulEqCmp.compare_eq_iff_eq,
        eq_comm (a := v.1.fieldId)]
    change id ∈ ((seen.add v).addAll vs).ids ↔ _
    rw [ih, hstep, List.map_cons, List.map_cons, List.mem_cons]
    tauto

/-- Freshness of a list splits at any point, with the first part recorded. -/
theorem fresh_append {seen : Visited} {vs : List (Field × Bool)} {rest : List Field} :
    seen.Fresh (vs.map Prod.fst ++ rest) ↔
      seen.Fresh (vs.map Prod.fst) ∧ (seen.addAll vs).Fresh rest := by
  constructor
  · rintro ⟨hnodup, hpos, hnew⟩
    rw [List.map_append, List.nodup_append] at hnodup
    obtain ⟨hfirst, hrest, hdisjoint⟩ := hnodup
    refine ⟨⟨hfirst, fun f hf => hpos f (List.mem_append_left _ hf),
      fun f hf => hnew f (List.mem_append_left _ hf)⟩,
      ⟨hrest, fun f hf => hpos f (List.mem_append_right _ hf), ?_⟩⟩
    intro f hf hmem
    obtain hseen | hvisited := mem_ids_addAll.mp hmem
    · exact hnew f (List.mem_append_right _ hf) hseen
    · exact hdisjoint _ hvisited _ (List.mem_map_of_mem hf) rfl
  · rintro ⟨⟨hfirst, hposf, hnewf⟩, ⟨hrest, hposr, hnewr⟩⟩
    refine ⟨?_, ?_, ?_⟩
    · rw [List.map_append, List.nodup_append]
      refine ⟨hfirst, hrest, ?_⟩
      rintro a ha b hb rfl
      obtain ⟨f, hf, rfl⟩ := List.mem_map.mp hb
      exact hnewr f hf (mem_ids_addAll.mpr (.inr ha))
    · intro f hf
      obtain h | h := List.mem_append.mp hf
      · exact hposf f h
      · exact hposr f h
    · intro f hf
      obtain h | h := List.mem_append.mp hf
      · exact hnewf f h
      · exact fun hseen => hnewr f h (mem_ids_addAll.mpr (.inl hseen))

/-- The checks of one field succeed exactly on a fresh identifier, a fresh name and sound
own parts. -/
theorem field_eq_ok {seen seen' : Visited} {names : Std.ExtTreeSet String compare} {u : Bool}
    {f : Field} :
    seen.field names u f = .ok seen' ↔
      (f.fieldId ≠ 0 ∧ f.fieldId ∉ seen.ids) ∧ f.name ∉ names ∧ f.OwnOk ∧
        seen' = seen.add (f, u) := by
  simp only [field, invalidSchema, ite_error_eq_ok, not_or, check_eq_ok, Pure.pure, Except.pure,
    Except.ok.injEq]
  constructor
  · rintro ⟨hid, ⟨hname, hnames⟩, htype, hdefaults, rfl⟩
    exact ⟨hid, hnames, ⟨hname, htype, hdefaults⟩, rfl⟩
  · rintro ⟨hid, hnames, ⟨hname, htype, hdefaults⟩, rfl⟩
    exact ⟨hid, ⟨hname, hnames⟩, htype, hdefaults, rfl⟩

end Visited

/-- The nesting limit, as a condition on the depth of the siblings. -/
theorem checkDepth_eq_ok {depth : ℕ} : checkDepth depth = .ok () ↔ depth ≤ 64 := by
  simp only [checkDepth, invalidSchema, ite_error_eq_ok, and_true, not_lt, gt_iff_lt]

namespace Field

open Visited

/-- What a successful validation of a field amounts to. -/
abbrev ValidateSpec (f : Field) : Prop :=
  ∀ (depth : ℕ) (u : Bool) (names : Std.ExtTreeSet String compare) (seen seen' : Visited),
    f.validate depth u names seen = .ok seen' ↔
      f.name ∉ names ∧ f.Shape depth ∧ seen.Fresh f.flatten ∧ seen' = seen.addAll (f.visits u)

/-- Siblings are validated exactly when their names are distinct and new and each of them is
validated in its turn. -/
theorem validateSiblings_spec {fields : List Field} (h : ∀ c ∈ fields, c.ValidateSpec)
    {depth : ℕ} {u : Bool} {names : Std.ExtTreeSet String compare} {seen seen' : Visited} :
    validateSiblings depth u names seen fields = .ok seen' ↔
      ((fields.map name).Nodup ∧ ∀ c ∈ fields, c.name ∉ names) ∧
        (∀ c ∈ fields, c.Shape depth) ∧ seen.Fresh (fields.flatMap flatten) ∧
        seen' = seen.addAll (fields.flatMap (visits u)) := by
  induction fields generalizing names seen with
  | nil =>
    simp only [validateSiblings, Except.ok.injEq, List.map_nil, List.nodup_nil, List.not_mem_nil,
      false_implies, implies_true, and_true, true_and, List.flatMap_nil, addAll, List.foldl_nil]
    constructor
    · rintro rfl
      exact ⟨⟨List.nodup_nil, by simp, by simp⟩, rfl⟩
    · rintro ⟨-, rfl⟩
      rfl
  | cons field fields ih =>
    have hfield := h field List.mem_cons_self
    have hnames : ∀ c : Field, c.name ∉ names.insert field.name ↔
        c.name ≠ field.name ∧ c.name ∉ names := by
      intro c
      rw [Std.ExtTreeSet.mem_insert, Std.LawfulEqCmp.compare_eq_iff_eq, not_or, ne_comm]
    simp only [validateSiblings, bind_eq_ok, hfield,
      ih (fun c hc => h c (List.mem_cons_of_mem _ hc)), hnames, List.map_cons, List.nodup_cons,
      List.forall_mem_cons, List.flatMap_cons]
    rw [← map_fst_visits u field, fresh_append, addAll_append]
    constructor
    · rintro ⟨next, ⟨hname, hshape, hfresh, rfl⟩, ⟨hnodup, hother⟩, hshapes, hrest, rfl⟩
      refine ⟨⟨⟨?_, hnodup⟩, hname, fun c hc => (hother c hc).2⟩, ⟨hshape, hshapes⟩,
        ⟨hfresh, hrest⟩, rfl⟩
      intro hmem
      obtain ⟨c, hc, hcname⟩ := List.mem_map.mp hmem
      exact (hother c hc).1 hcname
    · rintro ⟨⟨⟨hnew, hnodup⟩, hname, hother⟩, ⟨hshape, hshapes⟩, ⟨hfresh, hrest⟩, rfl⟩
      refine ⟨_, ⟨hname, hshape, hfresh, rfl⟩, ⟨hnodup, ?_⟩, hshapes, hrest, rfl⟩
      exact fun c hc => ⟨fun heq => hnew (heq ▸ List.mem_map_of_mem hc), hother c hc⟩

/-- A nested type is validated exactly when its group is sound and its fields are. -/
private theorem validateNested_spec {t : LogicalType} (h : ∀ c ∈ t.children, c.ValidateSpec)
    {depth : ℕ} {u : Bool} {seen seen' : Visited} :
    t.validateNested depth u seen = .ok seen' ↔
      t.groupOk depth ∧ (∀ c ∈ t.children, c.Shape (depth + 1)) ∧
        seen.Fresh (t.children.flatMap flatten) ∧
        seen' = seen.addAll (t.children.flatMap (visits u)) := by
  cases t with
  | struct fields =>
    rw [LogicalType.validateNested, check_eq_ok, checkDepth_eq_ok,
      validateSiblings_spec (show ∀ c ∈ fields, c.ValidateSpec from h)]
    simp only [LogicalType.groupOk, LogicalType.children, Std.ExtTreeSet.not_mem_empty,
      not_false_eq_true, implies_true, and_true]
    tauto
  | list element =>
    have helement : element.ValidateSpec := h element (by simp [LogicalType.children])
    simp only [LogicalType.validateNested, check_eq_ok, checkDepth_eq_ok, helement,
      LogicalType.groupOk, LogicalType.children, List.forall_mem_singleton, List.flatMap_cons,
      List.flatMap_nil, List.append_nil, Std.ExtTreeSet.not_mem_empty, not_false_eq_true, true_and]
  | map key value =>
    have hkey : key.ValidateSpec := h key (by simp [LogicalType.children])
    have hvalue : value.ValidateSpec := h value (by simp [LogicalType.children])
    rw [LogicalType.validateNested, invalidSchema, ite_error_eq_ok, check_eq_ok, checkDepth_eq_ok]
    simp only [bind_eq_ok, hkey _ _ _ _ _, hvalue _ _ _ _ _, LogicalType.groupOk,
      LogicalType.children, List.forall_mem_cons, List.not_mem_nil, false_implies, implies_true,
      and_true, List.flatMap_cons, List.flatMap_nil, List.append_nil,
      Std.ExtTreeSet.not_mem_empty, not_false_eq_true, true_and, Bool.or_eq_true,
      Bool.not_eq_true', not_or, Bool.not_eq_false]
    rw [← map_fst_visits u key, fresh_append, addAll_append]
    constructor
    · rintro ⟨⟨hreq, hprim⟩, hdepth, next, ⟨hshape, hfresh, rfl⟩, hshape', hfresh', rfl⟩
      exact ⟨⟨hreq, hprim, hdepth⟩, ⟨hshape, hshape'⟩, ⟨hfresh, hfresh'⟩, rfl⟩
    · rintro ⟨⟨hreq, hprim, hdepth⟩, ⟨hshape, hshape'⟩, ⟨hfresh, hfresh'⟩, rfl⟩
      exact ⟨⟨hreq, hprim⟩, hdepth, _, ⟨hshape, hfresh, rfl⟩, hshape', hfresh', rfl⟩
  | _ =>
    simp only [LogicalType.validateNested, Except.ok.injEq, LogicalType.groupOk,
      LogicalType.children, List.not_mem_nil, false_implies, implies_true, true_and,
      List.flatMap_nil, addAll, List.foldl_nil]
    constructor
    · rintro rfl
      exact ⟨⟨List.nodup_nil, by simp, by simp⟩, rfl⟩
    · rintro ⟨-, rfl⟩
      rfl

/-- Validation of a field succeeds exactly on a fresh name, a well-shaped tree and fresh
identifiers, and records the visits. -/
theorem validate_spec (f : Field) : f.ValidateSpec := by
  induction f using Field.induction with
  | h f ih =>
    intro depth u names seen seen'
    have hunfold : f.validate depth u names seen =
        (seen.field names u f >>= fun s =>
          f.fieldType.validateNested depth (u || !f.required) s) := by
      cases f
      rfl
    have hcons : seen.Fresh f.flatten ↔ seen.Fresh [f] ∧
        (seen.add (f, u)).Fresh (f.children.flatMap flatten) := by
      rw [flatten_eq]
      exact @fresh_append seen [(f, u)] (f.children.flatMap flatten)
    have hsingle : seen.Fresh [f] ↔ f.fieldId ≠ 0 ∧ f.fieldId ∉ seen.ids := by
      constructor
      · rintro ⟨-, hpos, hnew⟩
        exact ⟨hpos f (by simp), hnew f (by simp)⟩
      · rintro ⟨hpos, hnew⟩
        exact ⟨by simp, by simpa using hpos, by simpa using hnew⟩
    rw [hunfold, bind_eq_ok, visits_eq, hcons, hsingle, shape_iff]
    simp only [field_eq_ok]
    constructor
    · rintro ⟨next, ⟨hid, hname, hown, rfl⟩, hnested⟩
      obtain ⟨hgroup, hshape, hfresh, rfl⟩ := (validateNested_spec ih).mp hnested
      exact ⟨hname, ⟨hown, hgroup, hshape⟩, ⟨hid, hfresh⟩, rfl⟩
    · rintro ⟨hname, ⟨hown, hgroup, hshape⟩, ⟨hid, hfresh⟩, rfl⟩
      exact ⟨_, ⟨hid, hname, hown, rfl⟩,
        (validateNested_spec ih).mpr ⟨hgroup, hshape, hfresh, rfl⟩⟩

end Field

end Otmp
