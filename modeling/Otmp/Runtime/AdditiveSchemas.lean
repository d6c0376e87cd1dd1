import Otmp.Protocol.SchemaEquality
import Otmp.Runtime.Requests

/-!
# Which schemas are additive

A schema extends another one when it keeps every field and only appends fields at the end of
the root list or of existing structs. The source compares defaults as floating-point numbers
and requires every appended field to be optional, even the key of a map, which validation
requires to be required.
-/

namespace Otmp

open Foundation

mutual

/-- A type keeps the nested fields of another one. -/
def LogicalType.Keeps : LogicalType → LogicalType → Prop
  | .struct old, .struct new => Field.KeepsList old new
  | .list old, .list new => old.Keeps new
  | .map oldKey oldValue, .map newKey newValue => oldKey = newKey ∧ oldValue.Keeps newValue
  | old, new => old = new
termination_by structural old => old

/-- A field is kept, apart from the fields that are appended below it. -/
def Field.Keeps : Field → Field → Prop
  | .mk fieldId name required fieldType doc initialDefault writeDefault, new =>
    fieldId = new.fieldId ∧ name = new.name ∧ required = new.required ∧ doc = new.doc ∧
      initialDefault = new.initialDefault ∧ writeDefault = new.writeDefault ∧
      fieldType.Keeps new.fieldType
termination_by structural old => old

/-- Fields are kept in their order at the front of a list. -/
def Field.KeepsList : List Field → List Field → Prop
  | [], _ => True
  | _ :: _, [] => False
  | old :: olds, new :: news => old.Keeps new ∧ Field.KeepsList olds news
termination_by structural olds => olds

end

mutual

/-- The fields that are appended below a type, at every depth. -/
def LogicalType.appended : LogicalType → LogicalType → List Field
  | .struct old, .struct new => Field.appendedList old new
  | .list old, .list new => old.appended new
  | .map _ oldValue, .map _ newValue => oldValue.appended newValue
  | _, _ => []
termination_by structural old => old

/-- The fields that are appended below a field, at every depth. -/
def Field.appended : Field → Field → List Field
  | .mk _ _ _ fieldType _ _ _, new => fieldType.appended new.fieldType
termination_by structural old => old

/-- The fields that are appended below kept fields, and then behind them. -/
def Field.appendedList : List Field → List Field → List Field
  | [], news => news
  | _ :: _, [] => []
  | old :: olds, new :: news => old.appended new ++ Field.appendedList olds news
termination_by structural olds => olds

end

/-- The nested fields of a type are optional, apart from the key of a map. -/
def LogicalType.nestedOptional : LogicalType → Bool
  | .map _ value => !value.required
  | t => t.children.all fun c => !c.required

/-- A type of a map, whose key and value must stay as they are. -/
def LogicalType.isMap : LogicalType → Bool
  | .map _ _ => true
  | _ => false

namespace Field

/-- A field and all its descendants are optional, apart from the keys of maps. -/
def appendable (f : Field) : Bool :=
  !f.required && f.flatten.all fun g => g.fieldType.nestedOptional

/-- A field and all its descendants are optional, as rows without them exist already. -/
def allOptional (f : Field) : Bool := f.flatten.all fun g => !g.required

/-- Neither a field nor a descendant is a map. -/
def noMaps (f : Field) : Bool := f.flatten.all fun g => !g.fieldType.isMap

/-- Add the identifiers of fields and of all their descendants. -/
def addIds (ids : NewIds) (fields : List Field) : NewIds :=
  (fields.flatMap flatten).foldl (fun ids f => ids.insert f.fieldId) ids

/-- Collecting from two lists is collecting from one after the other. -/
theorem addIds_append (ids : NewIds) (fields rest : List Field) :
    addIds ids (fields ++ rest) = addIds (addIds ids fields) rest := by
  rw [addIds, List.flatMap_append, List.foldl_append]
  rfl

/-- The identifiers of a field are its own and those below it. -/
theorem addIds_cons (ids : NewIds) (f : Field) (rest : List Field) :
    addIds ids (f :: rest) = addIds (addIds (ids.insert f.fieldId) f.children) rest := by
  rw [addIds, List.flatMap_cons, flatten_eq, List.foldl_append, List.foldl_cons]
  rfl

section Collect

variable {ids ids' : NewIds}

/-- Identifiers are collected from a list exactly when all its fields are optional throughout. -/
private theorem collectNewList_iff {fields : List Field}
    (h : ∀ c ∈ fields, ∀ ids ids', c.collectNew ids = .ok ids' ↔
      c.allOptional = true ∧ ids' = addIds ids [c]) :
    collectNewList ids fields = .ok ids' ↔
      (∀ c ∈ fields, c.allOptional = true) ∧ ids' = addIds ids fields := by
  induction fields generalizing ids with
  | nil =>
    rw [collectNewList, Except.ok.injEq]
    exact ⟨fun h => ⟨fun c hc => absurd hc List.not_mem_nil, h.symm⟩, fun h => h.2.symm⟩
  | cons c cs ih =>
    have hstep : addIds ids (c :: cs) = addIds (addIds ids [c]) cs := addIds_append ids [c] cs
    rw [collectNewList, bind_eq_ok, List.forall_mem_cons, hstep]
    constructor
    · rintro ⟨mid, hfirst, hrest⟩
      obtain ⟨hc, rfl⟩ := (h c List.mem_cons_self _ _).mp hfirst
      obtain ⟨hcs, heq⟩ := (ih fun d hd => h d (List.mem_cons_of_mem _ hd)).mp hrest
      exact ⟨⟨hc, hcs⟩, heq⟩
    · rintro ⟨⟨hc, hcs⟩, heq⟩
      exact ⟨_, (h c List.mem_cons_self _ _).mpr ⟨hc, rfl⟩,
        (ih fun d hd => h d (List.mem_cons_of_mem _ hd)).mpr ⟨hcs, heq⟩⟩

/-- Collecting from a type is collecting from its nested fields. -/
private theorem collectNew_type (t : LogicalType) (ids : NewIds) :
    t.collectNew ids = collectNewList ids t.children := by
  cases t with
  | list element => exact (bind_pure _).symm
  | map key value =>
    have hvalue : ∀ ids, (value.collectNew ids >>= pure) = value.collectNew ids :=
      fun ids => bind_pure _
    exact congrArg _ (funext fun ids => (hvalue ids).symm)
  | _ => rfl

/-- Collecting the identifiers of an appended field. -/
theorem collectNew_iff (f : Field) {ids ids' : NewIds} :
    f.collectNew ids = .ok ids' ↔ f.allOptional = true ∧ ids' = addIds ids [f] := by
  induction f using Field.induction generalizing ids ids' with
  | h f ih =>
    have hunfold : f.collectNew ids = if f.required then invalid "new fields must be optional"
        else collectNewList (ids.insert f.fieldId) f.children := by
      cases f
      rw [collectNew, collectNew_type]
      rfl
    have hall : f.allOptional = true ↔
        f.required = false ∧ ∀ c ∈ f.children, c.allOptional = true := by
      rw [allOptional, flatten_eq, List.all_cons, Bool.and_eq_true, Bool.not_eq_true',
        List.all_flatMap, List.all_eq_true]
      rfl
    rw [hunfold, invalid, ite_error_eq_ok, collectNewList_iff fun c hc _ _ => ih c hc, hall,
      addIds_cons, Bool.not_eq_true, and_assoc]
    rfl

end Collect

/-- Kept fields are at the front of the new ones. -/
theorem KeepsList.length_le {olds news : List Field} (h : KeepsList olds news) :
    olds.length ≤ news.length := by
  induction olds generalizing news with
  | nil => exact Nat.zero_le _
  | cons old olds ih =>
    cases news with
    | nil => exact h.elim
    | cons new news => exact Nat.succ_le_succ (ih h.2)

section Additive

variable {ids ids' : NewIds}

/-- A primitive type is kept by itself only. -/
theorem keeps_primitive_iff {t u : LogicalType} (h : t.isPrimitive = true) :
    t.Keeps u ↔ t = u := by
  cases t with
  | struct _ | list _ | map _ _ => cases h
  | _ => cases u <;> rfl

/-- Nothing is appended below a primitive type. -/
theorem appended_primitive {t u : LogicalType} (h : t.isPrimitive = true) :
    t.appended u = [] := by
  cases t with
  | struct _ | list _ | map _ _ => cases h
  | _ => cases u <;> rfl

/-- A primitive type equals itself only, whatever happens to the defaults. -/
private theorem primitive_eq_iff {t u : LogicalType} (h : t.isPrimitive = true) :
    t.eq u = true ↔ t.mapDefaults TypedScalar.loose = u.mapDefaults TypedScalar.loose := by
  cases t with
  | struct _ | list _ | map _ _ => cases h
  | _ => cases u <;> simp [LogicalType.eq, LogicalType.mapDefaults]

/-- The walk of additive fields at a primitive type. -/
private theorem additive_primitive_iff {t u : LogicalType} (h : t.isPrimitive = true) :
    t.additive ids u = .ok ids' ↔
      (t.mapDefaults TypedScalar.loose).Keeps (u.mapDefaults TypedScalar.loose) ∧
        (∀ f ∈ t.appended u, f.allOptional = true) ∧ ids' = addIds ids (t.appended u) := by
  have hunfold : t.additive ids u =
      if t.eq u then .ok ids else invalid "type change is not additive" := by
    cases t with
    | struct _ | list _ | map _ _ => cases h
    | _ => cases u <;> rfl
  have hself : (t.mapDefaults TypedScalar.loose).isPrimitive = true :=
    (isPrimitive_mapDefaults _ t).trans h
  rw [hunfold, invalid, ite_ok_eq_ok, primitive_eq_iff h, keeps_primitive_iff hself,
    appended_primitive h, Except.ok.injEq]
  exact and_congr_right fun _ =>
    ⟨fun heq => ⟨fun f hf => absurd hf List.not_mem_nil, heq.symm⟩, fun heq => heq.2.symm⟩

/-- Two types in the walk of additive fields: the same container on both sides, or the rest. -/
private theorem additive_type_iff {t u : LogicalType}
    (hnan : t.allDefaults (fun s => !s.isNan) = true)
    (h : ∀ c ∈ t.children, c.nanFree = true → ∀ new ids ids',
      c.additive ids new = .ok ids' ↔ c.loose.Keeps new.loose ∧
        (∀ f ∈ c.appended new, f.allOptional = true) ∧ ids' = addIds ids (c.appended new))
    (hlist : ∀ olds, t = .struct olds → olds.all nanFree = true → ∀ news ids ids',
      additiveFields ids olds news = .ok ids' ↔
        KeepsList (olds.map loose) (news.map loose) ∧
        (∀ f ∈ appendedList olds news, f.allOptional = true) ∧
        ids' = addIds ids (appendedList olds news)) :
    t.additive ids u = .ok ids' ↔
      (t.mapDefaults TypedScalar.loose).Keeps (u.mapDefaults TypedScalar.loose) ∧
        (∀ f ∈ t.appended u, f.allOptional = true) ∧ ids' = addIds ids (t.appended u) := by
  rw [allDefaults_fieldType, List.all_eq_true] at hnan
  have hrefused : ∀ {P Q R : Prop}, ¬P →
      ((invalid "type change is not additive" : Except RuntimeError NewIds) = .ok ids' ↔
        P ∧ Q ∧ R) := fun hP => iff_of_false (fun h => nomatch h) fun h => hP h.1
  cases t with
  | struct olds =>
    cases u with
    | struct news =>
      rw [LogicalType.additive, hlist olds rfl (List.all_eq_true.mpr hnan),
        LogicalType.mapDefaults, LogicalType.mapDefaults, LogicalType.Keeps, LogicalType.appended,
        mapDefaultsList_eq, mapDefaultsList_eq]
    | _ => exact hrefused (by simp [LogicalType.mapDefaults, LogicalType.Keeps])
  | list old =>
    cases u with
    | list new =>
      rw [LogicalType.additive, h old List.mem_cons_self (hnan old List.mem_cons_self)]
      rfl
    | _ => exact hrefused (by simp [LogicalType.mapDefaults, LogicalType.Keeps])
  | map oldKey oldValue =>
    cases u with
    | map newKey newValue =>
      have hvalue := List.mem_cons_of_mem oldKey (List.mem_singleton_self oldValue)
      have hkey : oldKey.eq newKey = true ↔ oldKey.loose = newKey.loose := by
        rw [eq_iff]
        exact and_iff_right (hnan oldKey List.mem_cons_self)
      have hmap : oldKey.eq newKey = false →
          (LogicalType.map oldKey oldValue).eq (.map newKey newValue) = false := by
        intro hfalse
        rw [LogicalType.eq, hfalse, Bool.false_and]
      rw [LogicalType.additive, LogicalType.mapDefaults, LogicalType.mapDefaults,
        LogicalType.Keeps, ← hkey, LogicalType.appended]
      cases heq : oldKey.eq newKey with
      | true =>
        rw [if_pos rfl, h oldValue hvalue (hnan oldValue hvalue)]
        simp only [true_and]
      | false =>
        rw [if_neg Bool.false_ne_true, hmap heq, if_neg Bool.false_ne_true]
        exact hrefused fun hkeeps => Bool.false_ne_true hkeeps.1
    | _ => exact hrefused (by simp [LogicalType.mapDefaults, LogicalType.Keeps])
  | _ => exact additive_primitive_iff rfl

/-- The walk of a list of fields, when it is right on each of them. -/
theorem additiveFields_iff {olds news : List Field} {ids ids' : NewIds}
    (h : ∀ c ∈ olds, ∀ new ids ids', c.additive ids new = .ok ids' ↔
      c.nanFree = true ∧ c.loose.Keeps new.loose ∧
        (∀ f ∈ c.appended new, f.allOptional = true) ∧ ids' = addIds ids (c.appended new)) :
    additiveFields ids olds news = .ok ids' ↔
      olds.all nanFree = true ∧ KeepsList (olds.map loose) (news.map loose) ∧
        (∀ f ∈ appendedList olds news, f.allOptional = true) ∧
        ids' = addIds ids (appendedList olds news) := by
  induction olds generalizing news ids with
  | nil =>
    rw [additiveFields, collectNewList_iff fun c _ _ _ => collectNew_iff c]
    simp [KeepsList, appendedList]
  | cons old olds ih =>
    cases news with
    | nil => simp [additiveFields, KeepsList, invalid]
    | cons new news =>
      have ih := fun ids => @ih news ids
        fun c hc => h c (List.mem_cons_of_mem _ hc)
      have hlength : KeepsList (olds.map loose) (news.map loose) →
          ¬news.length < olds.length := by
        intro hkeeps hlt
        have hle := hkeeps.length_le
        rw [List.length_map, List.length_map] at hle
        omega
      rw [additiveFields, invalid, ite_error_eq_ok, bind_eq_ok, List.all_cons, Bool.and_eq_true,
        List.map_cons, List.map_cons, KeepsList, appendedList, addIds_append,
        List.forall_mem_append]
      constructor
      · rintro ⟨-, mid, hold, hrest⟩
        obtain ⟨hnan, hkeeps, hopt, rfl⟩ := (h old List.mem_cons_self _ _ _).mp hold
        obtain ⟨hnans, hkeepsRest, hoptRest, hids⟩ := (ih _).mp hrest
        exact ⟨⟨hnan, hnans⟩, ⟨hkeeps, hkeepsRest⟩, ⟨hopt, hoptRest⟩, hids⟩
      · rintro ⟨⟨hnan, hnans⟩, ⟨hkeeps, hkeepsRest⟩, ⟨hopt, hoptRest⟩, hids⟩
        exact ⟨hlength hkeepsRest, _,
          (h old List.mem_cons_self _ _ _).mpr ⟨hnan, hkeeps, hopt, rfl⟩,
          (ih _).mpr ⟨hnans, hkeepsRest, hoptRest, hids⟩⟩

/-- **The walk of additive fields.** It succeeds when the old field has no NaN default and is kept
up to the sign of zeros, and all that is appended below it is optional. -/
theorem additive_iff (old new : Field) {ids ids' : NewIds} :
    old.additive ids new = .ok ids' ↔
      old.nanFree = true ∧ old.loose.Keeps new.loose ∧
        (∀ f ∈ old.appended new, f.allOptional = true) ∧
        ids' = addIds ids (old.appended new) := by
  induction old using Field.induction generalizing new ids ids' with
  | h old ih =>
    have htype : old.nanFree = true → (old.fieldType.additive ids new.fieldType = .ok ids' ↔
        (old.fieldType.mapDefaults TypedScalar.loose).Keeps
          (new.fieldType.mapDefaults TypedScalar.loose) ∧
        (∀ f ∈ old.fieldType.appended new.fieldType, f.allOptional = true) ∧
        ids' = addIds ids (old.fieldType.appended new.fieldType)) := by
      intro hnan
      rw [nanFree, allDefaults_eq, Bool.and_eq_true, children, ← allDefaults_fieldType] at hnan
      refine additive_type_iff hnan.2 (fun c hc hcnan new _ _ => ?_)
        fun olds hstruct holds news _ _ => ?_
      · exact (ih c hc new).trans (and_iff_right hcnan)
      · have hchildren : old.children = olds := by rw [children, hstruct, LogicalType.children]
        rw [additiveFields_iff fun c hc new _ _ => ih c (hchildren ▸ hc) new]
        exact and_iff_right holds
    have hkeep : old.eq (.mk new.fieldId new.name new.required old.fieldType new.doc
        new.initialDefault new.writeDefault) = true ∧
          (old.fieldType.mapDefaults TypedScalar.loose).Keeps
            (new.fieldType.mapDefaults TypedScalar.loose) ↔
        old.nanFree = true ∧ old.loose.Keeps new.loose := by
      rw [eq_iff]
      cases old with
      | mk fieldId name required fieldType doc initialDefault writeDefault =>
        cases new with
        | mk fieldId' name' required' fieldType' doc' initialDefault' writeDefault' =>
          simp only [loose, mapDefaults, Keeps, Field.fieldId, Field.name, Field.required,
            Field.fieldType, Field.doc, Field.initialDefault, Field.writeDefault, mk.injEq,
            true_and, and_assoc]
    have hunfold : old.additive ids new =
        if !old.eq (.mk new.fieldId new.name new.required old.fieldType new.doc
            new.initialDefault new.writeDefault) then
          invalid "existing field changed or reordered"
        else old.fieldType.additive ids new.fieldType := by
      cases old
      rfl
    have happended : old.appended new = old.fieldType.appended new.fieldType := by
      cases old
      rfl
    rw [hunfold, invalid, ite_error_eq_ok, Bool.not_eq_true', Bool.not_eq_false, happended]
    constructor
    · rintro ⟨heq, hadd⟩
      obtain ⟨hkeeps, happ⟩ := (htype ((eq_iff _ _).mp heq).1).mp hadd
      obtain ⟨hnan, hkeeps⟩ := hkeep.mp ⟨heq, hkeeps⟩
      exact ⟨hnan, hkeeps, happ⟩
    · rintro ⟨hnan, hkeeps, happ⟩
      obtain ⟨heq, hkeeps⟩ := hkeep.mpr ⟨hnan, hkeeps⟩
      exact ⟨heq, (htype hnan).mpr ⟨hkeeps, happ⟩⟩

end Additive

end Field

end Otmp
