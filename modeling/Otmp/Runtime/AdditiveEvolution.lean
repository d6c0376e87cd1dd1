import Otmp.Runtime.AdditiveSchemas

/-!
# What additive evolution accepts

The identifiers of a new schema are those of the old one and those of the appended fields. From
this follows what the source accepts, and where it departs from its own rule: it refuses appended
maps, whose keys are required, and existing NaN defaults, and it overlooks the sign of a zero.
-/

namespace Otmp

open Foundation

/-- Kept types have the same constructor, with kept parts below it. -/
theorem LogicalType.Keeps.cases {t u : LogicalType} (h : t.Keeps u) :
    (∃ olds news, t = .struct olds ∧ u = .struct news ∧ Field.KeepsList olds news) ∨
      (∃ old new, t = .list old ∧ u = .list new ∧ old.Keeps new) ∨
      (∃ key old new, t = .map key old ∧ u = .map key new ∧ old.Keeps new) ∨
      (t.isPrimitive = true ∧ t = u) := by
  cases t with
  | struct olds =>
    cases u with
    | struct news => exact .inl ⟨olds, news, rfl, rfl, h⟩
    | _ => exact absurd h (by simp [Keeps])
  | list old =>
    cases u with
    | list new => exact .inr (.inl ⟨old, new, rfl, rfl, h⟩)
    | _ => exact absurd h (by simp [Keeps])
  | map oldKey oldValue =>
    cases u with
    | map newKey newValue =>
      obtain ⟨rfl, hvalue⟩ := h
      exact .inr (.inr (.inl ⟨oldKey, oldValue, newValue, rfl, rfl, hvalue⟩))
    | _ => exact absurd h (by simp [Keeps])
  | _ => exact .inr (.inr (.inr ⟨rfl, (Field.keeps_primitive_iff rfl).mp h⟩))

namespace Field

/-- The field identifiers of trees, with everything nested in them. -/
def idsOf (fields : List Field) : List UInt32 := (fields.flatMap flatten).map fieldId

/-- The identifiers of a list of fields: the first field's, those nested in it, and the rest. -/
theorem idsOf_cons (f : Field) (fields : List Field) :
    idsOf (f :: fields) = f.fieldId :: idsOf f.children ++ idsOf fields := by
  rw [idsOf, List.flatMap_cons, flatten_eq, List.map_append, List.map_cons]
  rfl

/-- The identifiers of two lists are those of the first and those of the second. -/
theorem idsOf_append (fields rest : List Field) :
    idsOf (fields ++ rest) = idsOf fields ++ idsOf rest := by
  rw [idsOf, List.flatMap_append, List.map_append]
  rfl

/-- Mapping defaults keeps all identifiers. -/
theorem idsOf_mapDefaults (g : TypedScalar → TypedScalar) (fields : List Field) :
    idsOf (fields.map (mapDefaults g)) = idsOf fields := by
  have hid : fieldId ∘ mapDefaults g = fieldId := funext fun f => fieldId_mapDefaults g f
  rw [idsOf, List.flatMap_map, idsOf]
  simp only [flatten_mapDefaults]
  rw [← List.map_flatMap, List.map_map, hid]

/-- A field whose kept children account for the new ones accounts for its new version. -/
private theorem perm_list {olds news : List Field}
    (h : ∀ c ∈ olds, ∀ new : Field, c.Keeps new → c.fieldId = new.fieldId ∧
      (idsOf new.children).Perm (idsOf c.children ++ idsOf (c.appended new)))
    (hkeeps : KeepsList olds news) :
    (idsOf news).Perm (idsOf olds ++ idsOf (appendedList olds news)) := by
  induction olds generalizing news with
  | nil => exact List.Perm.refl _
  | cons old olds ih =>
    cases news with
    | nil => exact hkeeps.elim
    | cons new news =>
      obtain ⟨hid, hfirst⟩ := h old List.mem_cons_self new hkeeps.1
      have hrest := ih (fun c hc => h c (List.mem_cons_of_mem _ hc)) hkeeps.2
      rw [appendedList, idsOf_cons, idsOf_cons, idsOf_append, ← hid, List.cons_append,
        List.cons_append, List.cons_append]
      refine (List.perm_cons _).mpr ((hfirst.append hrest).trans ?_)
      rw [List.append_assoc, List.append_assoc]
      refine List.Perm.append_left _ ?_
      rw [← List.append_assoc, ← List.append_assoc]
      exact List.Perm.append_right _ List.perm_append_comm

/-- The identifiers below a kept type are the old ones and the appended ones. -/
private theorem perm_type {t u : LogicalType}
    (h : ∀ c ∈ t.children, ∀ new : Field, c.Keeps new → c.fieldId = new.fieldId ∧
      (idsOf new.children).Perm (idsOf c.children ++ idsOf (c.appended new)))
    (hkeeps : t.Keeps u) :
    (idsOf u.children).Perm (idsOf t.children ++ idsOf (t.appended u)) := by
  have hsingle : ∀ {old new : Field}, old ∈ t.children → old.Keeps new →
      (idsOf [new]).Perm (idsOf [old] ++ idsOf (old.appended new)) := by
    intro old new hold hkeep
    have hlist : KeepsList [old] [new] := ⟨hkeep, trivial⟩
    have hperm := perm_list (fun c hc => h c (List.mem_singleton.mp hc ▸ hold)) hlist
    rw [appendedList, appendedList, List.append_nil] at hperm
    exact hperm
  obtain ⟨olds, news, rfl, rfl, hkeep⟩ | ⟨old, new, rfl, rfl, hkeep⟩ |
    ⟨key, old, new, rfl, rfl, hkeep⟩ | ⟨hprimitive, rfl⟩ := hkeeps.cases
  · exact perm_list h hkeep
  · exact hsingle List.mem_cons_self hkeep
  · have hsplit : ∀ value : Field, idsOf [key, value] = idsOf [key] ++ idsOf [value] :=
      fun value => idsOf_append [key] [value]
    rw [LogicalType.children, LogicalType.children, LogicalType.appended, hsplit, hsplit,
      List.append_assoc]
    exact List.Perm.append_left _
      (hsingle (List.mem_cons_of_mem _ List.mem_cons_self) hkeep)
  · rw [appended_primitive hprimitive]
    exact (List.append_nil (idsOf t.children)).symm ▸ List.Perm.refl _

/-- The identifiers below a kept field are the old ones and the appended ones. -/
private theorem perm_children (old : Field) {new : Field} (h : old.Keeps new) :
    old.fieldId = new.fieldId ∧
      (idsOf new.children).Perm (idsOf old.children ++ idsOf (old.appended new)) := by
  induction old using Field.induction generalizing new with
  | h old ih =>
    have hperm : old.fieldType.Keeps new.fieldType →
        (idsOf new.children).Perm
          (idsOf old.children ++ idsOf (old.fieldType.appended new.fieldType)) :=
      perm_type fun c hc _ hkeep => ih c hc hkeep
    cases old with
    | mk fieldId name required fieldType doc initialDefault writeDefault =>
      obtain ⟨hid, -, -, -, -, -, htype⟩ := h
      exact ⟨hid, hperm htype⟩

/-- **The identifiers of kept fields.** The new fields hold those of the old ones and those of the
appended ones. -/
theorem KeepsList.perm {olds news : List Field} (h : KeepsList olds news) :
    (idsOf news).Perm (idsOf olds ++ idsOf (appendedList olds news)) :=
  perm_list (fun c _ _ hkeep => perm_children c hkeep) h

section MapDefaults

variable (g : TypedScalar → TypedScalar)

/-- Replacing the defaults of the elements commutes with appending, when it does for the old
fields. -/
private theorem appendedList_map {olds news : List Field}
    (h : ∀ c ∈ olds, ∀ new : Field, (c.mapDefaults g).appended (new.mapDefaults g) =
      (c.appended new).map (mapDefaults g)) :
    appendedList (olds.map (mapDefaults g)) (news.map (mapDefaults g)) =
      (appendedList olds news).map (mapDefaults g) := by
  induction olds generalizing news with
  | nil => rfl
  | cons old olds ih =>
    cases news with
    | nil => rfl
    | cons new news =>
      rw [List.map_cons, List.map_cons, appendedList, h old List.mem_cons_self,
        ih fun c hc => h c (List.mem_cons_of_mem _ hc), appendedList, List.map_append]

/-- Replacing defaults commutes with appending, as defaults do not decide what is appended. -/
private theorem appended_mapDefaults (old new : Field) :
    (old.mapDefaults g).appended (new.mapDefaults g) = (old.appended new).map (mapDefaults g) := by
  induction old using Field.induction generalizing new with
  | h old ih =>
    have htype : ∀ u : LogicalType, (old.fieldType.mapDefaults g).appended (u.mapDefaults g) =
        (old.fieldType.appended u).map (mapDefaults g) := by
      unfold children at ih
      intro u
      cases ht : old.fieldType with
      | struct olds =>
        rw [ht] at ih
        cases u with
        | struct news =>
          rw [LogicalType.mapDefaults, LogicalType.mapDefaults, mapDefaultsList_eq,
            mapDefaultsList_eq]
          exact appendedList_map g fun c hc new => ih c hc new
        | _ => rfl
      | list old =>
        rw [ht] at ih
        cases u with
        | list new => exact ih old List.mem_cons_self new
        | _ => rfl
      | map key old =>
        rw [ht] at ih
        cases u with
        | map newKey new => exact ih old (List.mem_cons_of_mem _ List.mem_cons_self) new
        | _ => rfl
      | _ => cases u <;> rfl
    cases old
    cases new
    exact htype _

/-- The fields that are appended do not depend on the defaults of the kept ones. -/
theorem appendedList_mapDefaults (olds news : List Field) :
    appendedList (olds.map (mapDefaults g)) (news.map (mapDefaults g)) =
      (appendedList olds news).map (mapDefaults g) :=
  appendedList_map g fun c _ new => appended_mapDefaults g c new

/-- Mapping defaults on both sides keeps that each field keeps the other. -/
private theorem keepsList_map {olds news : List Field}
    (h : ∀ c ∈ olds, ∀ new : Field, c.Keeps new → (c.mapDefaults g).Keeps (new.mapDefaults g))
    (hkeeps : KeepsList olds news) :
    KeepsList (olds.map (mapDefaults g)) (news.map (mapDefaults g)) := by
  induction olds generalizing news with
  | nil => trivial
  | cons old olds ih =>
    cases news with
    | nil => exact hkeeps.elim
    | cons new news =>
      exact ⟨h old List.mem_cons_self new hkeeps.1,
        ih (fun c hc => h c (List.mem_cons_of_mem _ hc)) hkeeps.2⟩

/-- A kept field is still kept when the defaults are replaced. -/
private theorem Keeps.mapDefaults {old new : Field} (h : old.Keeps new) :
    (old.mapDefaults g).Keeps (new.mapDefaults g) := by
  induction old using Field.induction generalizing new with
  | h old ih =>
    have htype : ∀ u : LogicalType, old.fieldType.Keeps u →
        (old.fieldType.mapDefaults g).Keeps (u.mapDefaults g) := by
      unfold children at ih
      intro u hkeeps
      obtain ⟨olds, news, ht, rfl, hkeep⟩ | ⟨old, new, ht, rfl, hkeep⟩ |
        ⟨key, old, new, ht, rfl, hkeep⟩ | ⟨hprimitive, rfl⟩ := hkeeps.cases
      · rw [ht] at ih ⊢
        rw [LogicalType.mapDefaults, LogicalType.mapDefaults, mapDefaultsList_eq,
          mapDefaultsList_eq]
        exact keepsList_map g (fun c hc _ hkeep => ih c hc hkeep) hkeep
      · rw [ht] at ih ⊢
        exact ih old List.mem_cons_self hkeep
      · rw [ht] at ih ⊢
        exact ⟨rfl, ih old (List.mem_cons_of_mem _ List.mem_cons_self) hkeep⟩
      · exact (keeps_primitive_iff ((isPrimitive_mapDefaults g _).trans hprimitive)).mpr rfl
    cases old
    cases new
    obtain ⟨rfl, rfl, rfl, rfl, rfl, rfl, hkeeps⟩ := h
    exact ⟨rfl, rfl, rfl, rfl, rfl, rfl, htype _ hkeeps⟩

/-- Kept fields are still kept when the defaults are replaced. -/
theorem KeepsList.mapDefaults {olds news : List Field} (h : KeepsList olds news) :
    KeepsList (olds.map (Field.mapDefaults g)) (news.map (Field.mapDefaults g)) :=
  keepsList_map g (fun _ _ _ hkeep => Keeps.mapDefaults g hkeep) h

end MapDefaults

/-- A property holds of all fields of a tree when it holds of the root and of all nested fields. -/
private theorem forall_flatten_iff (p : Field → Bool) (f : Field) :
    f.flatten.all p = true ↔ p f = true ∧ ∀ g ∈ f.flatten, ∀ c ∈ g.children, p c = true := by
  induction f using Field.induction with
  | h f ih =>
    rw [flatten_eq, List.all_cons, Bool.and_eq_true, List.all_flatMap, List.all_eq_true,
      List.forall_mem_cons]
    refine and_congr_right fun _ => ?_
    constructor
    · intro h
      refine ⟨fun c hc => ((ih c hc).mp (h c hc)).1, fun g hg => ?_⟩
      obtain ⟨c, hc, hg⟩ := List.mem_flatMap.mp hg
      exact ((ih c hc).mp (h c hc)).2 g hg
    · rintro ⟨hroot, hnested⟩ c hc
      exact (ih c hc).mpr ⟨hroot c hc, fun g hg => hnested g (List.mem_flatMap.mpr ⟨c, hc, hg⟩)⟩

/-- The key of a well-shaped map is required. -/
private theorem nested_optional_iff {f : Field} {depth : ℕ} (h : f.Shape depth) :
    (∀ c ∈ f.children, c.required = false) ↔
      f.fieldType.nestedOptional = true ∧ f.fieldType.isMap = false := by
  have hgroup := (shape_iff.mp h).2.1
  unfold children
  cases ht : f.fieldType with
  | map key value =>
    rw [ht] at hgroup
    refine iff_of_false (fun hall => ?_) fun hmap => Bool.false_ne_true hmap.2.symm
    have hkey := hall key List.mem_cons_self
    rw [hgroup.1] at hkey
    cases hkey
  | _ => simp [LogicalType.nestedOptional, LogicalType.isMap, LogicalType.children]

/-- All of a well-shaped tree is optional when it can be appended and holds no map. -/
theorem allOptional_iff {f : Field} {depth : ℕ} (h : f.Shape depth) :
    f.allOptional = true ↔ f.appendable = true ∧ f.noMaps = true := by
  have hnested : (∀ g ∈ f.flatten, ∀ c ∈ g.children, (!c.required) = true) ↔
      ∀ g ∈ f.flatten, g.fieldType.nestedOptional = true ∧ (!g.fieldType.isMap) = true := by
    refine forall₂_congr fun g hg => ?_
    obtain ⟨depth, hshape⟩ := h.of_mem_flatten hg
    simp only [Bool.not_eq_true']
    exact nested_optional_iff hshape
  rw [allOptional, forall_flatten_iff, hnested, appendable, noMaps, Bool.and_eq_true,
    List.all_eq_true, List.all_eq_true, and_assoc, ← forall₂_and]

/-- What is appended below fields and behind them is part of the new trees. -/
private theorem appendedList_subset_of {olds news : List Field}
    (h : ∀ c ∈ olds, ∀ new : Field, c.appended new ⊆ new.children.flatMap flatten) :
    appendedList olds news ⊆ news.flatMap flatten := by
  induction olds generalizing news with
  | nil =>
    intro f hf
    refine List.mem_flatMap.mpr ⟨f, hf, ?_⟩
    rw [flatten_eq]
    exact List.mem_cons_self
  | cons old olds ih =>
    cases news with
    | nil => exact List.nil_subset _
    | cons new news =>
      rw [appendedList, List.flatMap_cons, flatten_eq]
      refine List.append_subset.mpr ⟨fun f hf => ?_, fun f hf => ?_⟩
      · exact List.mem_append_left _ (List.mem_cons_of_mem _ (h old List.mem_cons_self new hf))
      · exact List.mem_append_right _ (ih (fun c hc => h c (List.mem_cons_of_mem _ hc)) hf)

/-- What is appended below a field is below its new version. -/
private theorem appended_subset (old new : Field) :
    old.appended new ⊆ new.children.flatMap flatten := by
  induction old using Field.induction generalizing new with
  | h old ih =>
    have hself : ∀ {f g : Field}, f ∈ g.children.flatMap flatten → f ∈ g.flatten := by
      intro f g hf
      rw [flatten_eq]
      exact List.mem_cons_of_mem _ hf
    have htype : ∀ u : LogicalType, old.fieldType.appended u ⊆ u.children.flatMap flatten := by
      unfold children at ih
      intro u
      cases ht : old.fieldType with
      | struct olds =>
        rw [ht] at ih
        cases u with
        | struct news => exact appendedList_subset_of fun c hc new => ih c hc new
        | _ => exact List.nil_subset _
      | list old =>
        rw [ht] at ih
        cases u with
        | list new =>
          intro f hf
          exact List.mem_flatMap.mpr
            ⟨new, List.mem_cons_self, hself (ih old List.mem_cons_self new hf)⟩
        | _ => exact List.nil_subset _
      | map key old =>
        rw [ht] at ih
        have hold := List.mem_cons_of_mem key (List.mem_singleton_self old)
        cases u with
        | map newKey new =>
          intro f hf
          exact List.mem_flatMap.mpr ⟨new, List.mem_cons_of_mem _ List.mem_cons_self,
            hself (ih old hold new hf)⟩
        | _ => exact List.nil_subset _
      | _ => cases u <;> exact List.nil_subset _
    cases old
    exact htype new.fieldType

/-- What is appended is part of the new trees. -/
theorem appendedList_subset (olds news : List Field) :
    appendedList olds news ⊆ news.flatMap flatten :=
  appendedList_subset_of fun c _ new => appended_subset c new

/-- The identifiers collected are those from before and those of the fields. -/
theorem mem_addIds {ids : NewIds} {fields : List Field} {id : UInt32} :
    id ∈ addIds ids fields ↔ id ∈ ids ∨ id ∈ idsOf fields := by
  rw [addIds, idsOf]
  induction fields.flatMap flatten generalizing ids with
  | nil => simp
  | cons f fs ih =>
    rw [List.foldl_cons, ih, Std.ExtTreeSet.mem_insert, Std.LawfulEqCmp.compare_eq_iff_eq,
      List.map_cons, List.mem_cons]
    tauto

end Field

/-- Choosing the NaN first changes nothing up to the sign of zeros. -/
theorem TypedScalar.loose_canonNan (s : TypedScalar) : s.canonNan.loose = s.loose := by
  cases s with
  | float32 bits =>
    by_cases hnan : f32IsNan bits = true
    · simp [canonNan, loose, hnan, show f32IsNan 0x7fc00000 = true by decide]
    · simp [canonNan, loose, hnan]
  | float64 bits =>
    by_cases hnan : f64IsNan bits = true
    · simp [canonNan, loose, hnan, show f64IsNan 0x7ff8000000000000 = true by decide]
    · simp [canonNan, loose, hnan]
  | _ => rfl

/-- Replacing defaults twice is replacing them once with both functions. -/
theorem Field.mapDefaults_mapDefaults (g h : TypedScalar → TypedScalar) (f : Field) :
    (f.mapDefaults g).mapDefaults h = f.mapDefaults (h ∘ g) := by
  induction f using Field.induction with
  | h f ih =>
    have htype : (f.fieldType.mapDefaults g).mapDefaults h = f.fieldType.mapDefaults (h ∘ g) := by
      unfold children at ih
      cases ht : f.fieldType with
      | struct fields =>
        rw [ht] at ih
        rw [LogicalType.mapDefaults, LogicalType.mapDefaults, LogicalType.mapDefaults,
          mapDefaultsList_eq, mapDefaultsList_eq, mapDefaultsList_eq, List.map_map]
        exact congrArg _ (List.map_congr_left fun c hc => ih c hc)
      | list element =>
        rw [ht] at ih
        exact congrArg _ (ih element List.mem_cons_self)
      | map key value =>
        rw [ht] at ih
        exact congrArg₂ LogicalType.map (ih key List.mem_cons_self)
          (ih value (List.mem_cons_of_mem _ List.mem_cons_self))
      | _ => rfl
    cases f with
    | mk fieldId name required fieldType doc initialDefault writeDefault =>
      rw [mapDefaults, mapDefaults, mapDefaults, Option.map_map, Option.map_map]
      exact congrArg (fun t => Field.mk fieldId name required t doc _ _) htype

/-- A new schema extends an old one, when defaults are compared after a replacement. -/
structure AdditiveUpTo (g : TypedScalar → TypedScalar) (old new : Schema) : Prop where
  valid : new.validate = .ok ()
  parent : new.parentSchemaId = some old.schemaId
  identifiers : new.identifierFieldIds = old.identifierFieldIds
  kept : Field.KeepsList (old.fields.map (Field.mapDefaults g))
    (new.fields.map (Field.mapDefaults g))
  optional : ∀ f ∈ Field.appendedList old.fields new.fields, f.appendable = true

/-- A new schema extends an old one; defaults are compared bit for bit with all NaNs equal. -/
abbrev Additive (old new : Schema) : Prop := AdditiveUpTo TypedScalar.canonNan old new

/-- The ascending list of the field identifiers that are in the new schema only. -/
def IsNewIds (old new : Schema) (ids : List UInt32) : Prop :=
  ids.Pairwise (· < ·) ∧
    ∀ id, id ∈ ids ↔ id ∈ new.flatten.map Field.fieldId ∧ id ∉ old.flatten.map Field.fieldId

/-- No default of a schema is a NaN, so that each field equals itself. -/
def Schema.noNans (s : Schema) : Bool := s.fields.all Field.nanFree

/-- Every existing field is kept, its defaults bit for bit with all NaNs equal. Among the schemas
that extend the old one up to the sign of zeros, the others change the sign of a zero. -/
def KeepsFields (old new : Schema) : Prop :=
  Field.KeepsList (old.fields.map Field.canonNan) (new.fields.map Field.canonNan)

/-- No field that is appended holds a map, at any depth. -/
def appendsNoMaps (old new : Schema) : Bool :=
  (Field.appendedList old.fields new.fields).all Field.noMaps

section Schemas

variable {old new : Schema} {ids : List UInt32}

/-- There is one list of new identifiers. -/
theorem IsNewIds.unique {ids' : List UInt32} (h : IsNewIds old new ids)
    (h' : IsNewIds old new ids') : ids = ids' := by
  refine List.Subset.antisymm_of_pairwise h.1 h'.1 (fun id hid => ?_) fun id hid => ?_
  · exact (h'.2 id).mpr ((h.2 id).mp hid)
  · exact (h.2 id).mpr ((h'.2 id).mp hid)

/-- An additive schema extends the old one up to the sign of zeros, too. -/
theorem AdditiveUpTo.toLoose (h : Additive old new) : AdditiveUpTo TypedScalar.loose old new where
  valid := h.valid
  parent := h.parent
  identifiers := h.identifiers
  kept := by
    have hcomp : Field.mapDefaults TypedScalar.loose ∘ Field.mapDefaults TypedScalar.canonNan =
        Field.loose := by
      funext f
      have hscalar : TypedScalar.loose ∘ TypedScalar.canonNan = TypedScalar.loose :=
        funext TypedScalar.loose_canonNan
      rw [Function.comp_apply, Field.mapDefaults_mapDefaults, hscalar]
    have hkeeps := h.kept.mapDefaults TypedScalar.loose
    rw [List.map_map, List.map_map, hcomp] at hkeeps
    exact hkeeps
  optional := h.optional

/-- The identifiers of the appended fields are the new ones. -/
theorem AdditiveUpTo.isNewIds {g : TypedScalar → TypedScalar} (h : AdditiveUpTo g old new) :
    IsNewIds old new
      (Field.addIds ∅ (Field.appendedList old.fields new.fields)).toList := by
  have hperm := h.kept.perm
  rw [Field.appendedList_mapDefaults, Field.idsOf_mapDefaults, Field.idsOf_mapDefaults,
    Field.idsOf_mapDefaults] at hperm
  have hnodup := hperm.nodup_iff.mp (Schema.nodup_of_validate h.valid)
  refine ⟨?_, fun id => ?_⟩
  · refine Std.ExtTreeSet.ordered_toList.imp fun hlt => ?_
    exact Std.compare_eq_lt.mp hlt
  · have hnew : id ∈ new.flatten.map Field.fieldId ↔
        id ∈ Field.idsOf old.fields ∨
          id ∈ Field.idsOf (Field.appendedList old.fields new.fields) :=
      hperm.mem_iff.trans List.mem_append
    have hdisjoint := (List.nodup_append'.mp hnodup).2.2
    rw [Std.ExtTreeSet.mem_toList, Field.mem_addIds, hnew]
    constructor
    · rintro (hempty | hid)
      · exact absurd hempty Std.ExtTreeSet.not_mem_empty
      · exact ⟨.inr hid, fun hold => hdisjoint hold hid⟩
    · rintro ⟨hold | hid, hnot⟩
      · exact absurd hold hnot
      · exact .inr hid

/-- Appended fields are accepted when they can be appended and hold no map. -/
theorem AdditiveUpTo.allOptional_iff (hvalid : new.validate = .ok ()) :
    (∀ f ∈ Field.appendedList old.fields new.fields, f.allOptional = true) ↔
      (∀ f ∈ Field.appendedList old.fields new.fields, f.appendable = true) ∧
        appendsNoMaps old new = true := by
  rw [appendsNoMaps, List.all_eq_true, ← forall₂_and]
  refine forall₂_congr fun f hf => ?_
  obtain ⟨depth, hshape⟩ :=
    Schema.shape_of_mem_flatten hvalid (Field.appendedList_subset old.fields new.fields hf)
  exact Field.allOptional_iff hshape

/-- **What the source accepts.** The schemas that extend the old one up to the sign of zeros, when
the old one has no NaN default and no appended field holds a map. -/
theorem additiveSchema_iff :
    additiveSchema old new = .ok ids ↔
      AdditiveUpTo TypedScalar.loose old new ∧ old.noNans = true ∧
        appendsNoMaps old new = true ∧ IsNewIds old new ids := by
  have hfields : ∀ f ∈ old.fields, ∀ new ids ids', f.additive ids new = .ok ids' ↔ _ :=
    fun f _ new ids ids' => Field.additive_iff f new
  rw [additiveSchema, check_eq_ok, liftProtocol_eq_ok, invalid, ite_error_eq_ok, bind_eq_ok, not_or,
    not_not, not_not]
  simp only [Field.additiveFields_iff hfields]
  constructor
  · rintro ⟨hvalid, ⟨hparent, hident⟩, _, ⟨hnan, hkeeps, hopt, rfl⟩, hids⟩
    obtain ⟨happ, hmaps⟩ := (AdditiveUpTo.allOptional_iff hvalid).mp hopt
    have hadditive : AdditiveUpTo TypedScalar.loose old new :=
      ⟨hvalid, hparent, hident, hkeeps, happ⟩
    cases hids
    exact ⟨hadditive, hnan, hmaps, hadditive.isNewIds⟩
  · rintro ⟨hadditive, hnan, hmaps, hids⟩
    refine ⟨hadditive.valid, ⟨hadditive.parent, hadditive.identifiers⟩, _,
      ⟨hnan, hadditive.kept,
        (AdditiveUpTo.allOptional_iff hadditive.valid).mpr ⟨hadditive.optional, hmaps⟩, rfl⟩, ?_⟩
    rw [hids.unique hadditive.isNewIds]
    rfl

/-- Among the extensions up to the sign of zeros, the additive ones keep the signs. -/
theorem AdditiveUpTo.additive_iff (h : AdditiveUpTo TypedScalar.loose old new) :
    Additive old new ↔ KeepsFields old new :=
  ⟨fun hadd => hadd.kept, fun hkeeps => ⟨h.valid, h.parent, h.identifiers, hkeeps, h.optional⟩⟩

/-- The source is exact on an extension up to the sign of zeros when it accepts it for the signs
that are kept. -/
theorem additiveSchema_exact_of_loose (h : AdditiveUpTo TypedScalar.loose old new) :
    (∀ ids, additiveSchema old new = .ok ids ↔ Additive old new ∧ IsNewIds old new ids) ↔
      (old.noNans = true ∧ appendsNoMaps old new = true ↔ KeepsFields old new) := by
  rw [← h.additive_iff]
  constructor
  · intro hexact
    have hids := hexact (Field.addIds ∅ (Field.appendedList old.fields new.fields)).toList
    rw [additiveSchema_iff] at hids
    exact ⟨fun hfine => (hids.mp ⟨h, hfine.1, hfine.2, h.isNewIds⟩).1,
      fun hadd => ⟨(hids.mpr ⟨hadd, h.isNewIds⟩).2.1, (hids.mpr ⟨hadd, h.isNewIds⟩).2.2.1⟩⟩
  · intro hfine ids
    rw [additiveSchema_iff, ← hfine]
    exact ⟨fun ⟨_, hnan, hmaps, hids⟩ => ⟨⟨hnan, hmaps⟩, hids⟩,
      fun ⟨⟨hnan, hmaps⟩, hids⟩ => ⟨h, hnan, hmaps, hids⟩⟩

/-- **When additive evolution is exact.** On three kinds of schemas: the new one does not extend
the old one even up to the sign of zeros; or it does, all signs are kept, the old schema has no NaN
default and no appended field holds a map; or a sign changes and the source refuses that for a NaN
default or an appended map. -/
theorem additiveSchema_exact_iff (old new : Schema) :
    (∀ ids, additiveSchema old new = .ok ids ↔ Additive old new ∧ IsNewIds old new ids) ↔
      ¬AdditiveUpTo TypedScalar.loose old new ∨
        (KeepsFields old new ∧ old.noNans = true ∧ appendsNoMaps old new = true) ∨
        ¬KeepsFields old new ∧ (old.noNans = false ∨ appendsNoMaps old new = false) := by
  by_cases hloose : AdditiveUpTo TypedScalar.loose old new
  · rw [additiveSchema_exact_of_loose hloose]
    by_cases hkeeps : KeepsFields old new
    · simp only [hkeeps, hloose, iff_true, not_true, false_or, true_and, false_and, or_false]
    · simp only [hkeeps, hloose, iff_false, not_true, false_or, false_and, not_false_iff, true_and,
        not_and_or, Bool.not_eq_true]
  · refine iff_of_true (fun ids => ?_) (.inl hloose)
    rw [additiveSchema_iff]
    exact iff_of_false (fun h => hloose h.1) fun h => hloose h.1.toLoose

end Schemas

/-- A schema with one integer field. -/
private def oneField : Schema where
  schemaId := 1
  parentSchemaId := none
  fields := [.mk 1 "a" true .int64 none none none]
  identifierFieldIds := []
  doc := none

/-- The same schema with an optional map behind the field. -/
private def withMap : Schema where
  schemaId := 2
  parentSchemaId := some 1
  fields := [.mk 1 "a" true .int64 none none none,
    .mk 2 "m" false (.map (.mk 3 "key" true .string none none none)
      (.mk 4 "value" false .int64 none none none)) none none none]
  identifierFieldIds := []
  doc := none

/-- An optional map cannot be appended, although its key has to be required. -/
theorem not_additiveSchema_exact :
    ¬ ∀ old new ids, old.validate = .ok () →
      (additiveSchema old new = .ok ids ↔ Additive old new ∧ IsNewIds old new ids) := by
  intro h
  have hadditive : Additive oneField withMap :=
    ⟨by decide +kernel, rfl, rfl, ⟨⟨rfl, rfl, rfl, rfl, rfl, rfl, rfl⟩, trivial⟩, by decide⟩
  have hvalid : oneField.validate = .ok () := by decide +kernel
  obtain ⟨-, -, hmaps, -⟩ :=
    additiveSchema_iff.mp ((h oneField withMap _ hvalid).mpr ⟨hadditive, hadditive.isNewIds⟩)
  cases hmaps

end Otmp
