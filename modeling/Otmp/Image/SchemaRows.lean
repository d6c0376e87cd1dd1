import Otmp.Image.Schemas

/-!
# The rows of a stored schema

The map that the readers build from the rows of a schema holds each field at its
place. Under a parent it finds exactly the nested fields, in the order of their
identifiers; sorted by position they are the nested fields in declaration order.
The image check of a schema then comes down to the comparison of each nested
field with itself, which fails only on a NaN.
-/

namespace Otmp

open Foundation List

/-- Siblings at consecutive positions under a parent, from a first position on. -/
def siblings (parent : Option UInt32) (ordinal : ℕ) : List Field → List NormalizedField
  | [] => []
  | field :: fields => ⟨parent, ordinal, field⟩ :: siblings parent (ordinal + 1) fields

/-- There is one place for each of the fields side by side. -/
@[simp] theorem length_siblings (parent : Option UInt32) (ordinal : ℕ) (fields : List Field) :
    (siblings parent ordinal fields).length = fields.length := by
  induction fields generalizing ordinal with
  | nil => rfl
  | cons field fields ih => rw [siblings, length_cons, length_cons, ih]

/-- The places side by side hold the fields in order. -/
@[simp] theorem map_field_siblings (parent : Option UInt32) (ordinal : ℕ) (fields : List Field) :
    (siblings parent ordinal fields).map NormalizedField.field = fields := by
  induction fields generalizing ordinal with
  | nil => rfl
  | cons field fields ih => rw [siblings, map_cons, ih]

/-- The places side by side are numbered without a gap. -/
@[simp] theorem map_ordinal_siblings (parent : Option UInt32) (ordinal : ℕ)
    (fields : List Field) :
    (siblings parent ordinal fields).map NormalizedField.ordinal =
      range' ordinal fields.length := by
  induction fields generalizing ordinal with
  | nil => rfl
  | cons field fields ih => rw [siblings, map_cons, ih, length_cons, range'_succ]

/-- The places side by side have the same parent. -/
theorem parent_of_mem_siblings {parent : Option UInt32} {ordinal : ℕ} {fields : List Field}
    {n : NormalizedField} (h : n ∈ siblings parent ordinal fields) : n.parent = parent := by
  induction fields generalizing ordinal with
  | nil => cases h
  | cons field fields ih =>
    obtain rfl | h := mem_cons.mp h
    · rfl
    · exact ih h

/-- Siblings ascend strictly in their positions. -/
theorem siblings_ascending (parent : Option UInt32) (ordinal : ℕ) (fields : List Field) :
    (siblings parent ordinal fields).Pairwise fun a b => a.ordinal < b.ordinal := by
  have h : ((siblings parent ordinal fields).map NormalizedField.ordinal).Pairwise (· < ·) := by
    rw [map_ordinal_siblings]
    exact pairwise_lt_range'
  rwa [pairwise_map] at h

/-- A place is that of a sibling of the list, or of a field nested in one of its trees. -/
theorem mem_placesList_of {fields : List Field}
    (h : ∀ c ∈ fields, ∀ p o n, n ∈ c.places p o ↔
      n = ⟨p, o, c⟩ ∨ ∃ g ∈ c.flatten, n ∈ siblings (some g.fieldId) 0 g.children)
    {p : Option UInt32} {o : ℕ} {n : NormalizedField} :
    n ∈ Field.placesList p o fields ↔
      n ∈ siblings p o fields ∨
        ∃ g ∈ fields.flatMap Field.flatten, n ∈ siblings (some g.fieldId) 0 g.children := by
  induction fields generalizing o with
  | nil => simp [Field.placesList, siblings]
  | cons c cs ih =>
    rw [Field.placesList, mem_append, h c mem_cons_self,
      ih fun d hd => h d (mem_cons_of_mem _ hd), siblings, mem_cons, flatMap_cons]
    constructor
    · rintro ((rfl | ⟨g, hg, hn⟩) | (hn | ⟨g, hg, hn⟩))
      · exact .inl (.inl rfl)
      · exact .inr ⟨g, mem_append_left _ hg, hn⟩
      · exact .inl (.inr hn)
      · exact .inr ⟨g, mem_append_right _ hg, hn⟩
    · rintro ((rfl | hn) | ⟨g, hg, hn⟩)
      · exact .inl (.inl rfl)
      · exact .inr (.inl hn)
      · obtain hg | hg := mem_append.mp hg
        · exact .inl (.inr ⟨g, hg, hn⟩)
        · exact .inr (.inr ⟨g, hg, hn⟩)

/-- The places of a tree are its root and the siblings nested in its fields. -/
theorem Field.mem_places (f : Field) (p : Option UInt32) (o : ℕ) (n : NormalizedField) :
    n ∈ f.places p o ↔
      n = ⟨p, o, f⟩ ∨ ∃ g ∈ f.flatten, n ∈ siblings (some g.fieldId) 0 g.children := by
  induction f using Field.induction generalizing p o n with
  | h f ih =>
    rw [places_eq, mem_cons, mem_placesList_of fun c hc p o n => ih c hc p o n, flatten_eq]
    simp only [mem_cons, exists_eq_or_imp]

/-- The places of a schema are its roots and the siblings nested in its fields. -/
theorem Schema.mem_places (s : Schema) (n : NormalizedField) :
    n ∈ s.places ↔
      n ∈ siblings none 0 s.fields ∨
        ∃ g ∈ s.flatten, n ∈ siblings (some g.fieldId) 0 g.children :=
  mem_placesList_of fun c _ p o n => c.mem_places p o n

/-- The fields below a field of a tree are fields of the tree. -/
theorem Field.flatten_trans {f g k : Field} (hg : g ∈ f.flatten) (hf : f ∈ k.flatten) :
    g ∈ k.flatten := by
  induction k using Field.induction with
  | h k ih =>
    rw [flatten_eq, mem_cons, mem_flatMap] at hf
    obtain rfl | ⟨d, hd, hf⟩ := hf
    · exact hg
    · rw [flatten_eq, mem_cons, mem_flatMap]
      exact .inr ⟨d, hd, ih d hd hf⟩

/-- The nested fields of a field of a schema are fields of the schema. -/
theorem Schema.mem_flatten_of_mem_children {s : Schema} {f c : Field} (hc : c ∈ f.children)
    (hf : f ∈ s.flatten) : c ∈ s.flatten := by
  obtain ⟨g, hg, hf⟩ := mem_flatMap.mp hf
  have hchild : c ∈ f.flatten := by
    rw [Field.flatten_eq, mem_cons, mem_flatMap]
    exact .inr ⟨c, hc, by rw [Field.flatten_eq]; exact mem_cons_self⟩
  exact mem_flatMap.mpr ⟨g, hg, Field.flatten_trans hchild hf⟩

/-- The roots of a schema are among all its fields. -/
theorem Schema.mem_flatten_of_mem_fields {s : Schema} {f : Field} (hf : f ∈ s.fields) :
    f ∈ s.flatten :=
  mem_flatMap.mpr ⟨f, hf, by rw [Field.flatten_eq]; exact mem_cons_self⟩

/-- The rows of a schema by field identifier, as both readers collect them. -/
def rowsOf (s : Schema) : FieldRows :=
  .ofList (s.places.map fun n => (n.field.fieldId, n)) compare

section RowsOf

variable {s : Schema} (hnodup : (s.flatten.map Field.fieldId).Nodup)
include hnodup

/-- The rows of a schema have distinct keys when its identifiers are distinct. -/
private theorem nodup_keys :
    ((s.places.map fun n => (n.field.fieldId, n)).map Prod.fst).Nodup := by
  rw [map_map]
  rw [← s.map_field_places, map_map] at hnodup
  exact hnodup

/-- A row is found under its field identifier exactly when it is a place of the schema. -/
theorem getElem?_rowsOf {id : UInt32} {n : NormalizedField} :
    (rowsOf s)[id]? = some n ↔ n ∈ s.places ∧ n.field.fieldId = id := by
  rw [rowsOf, getElem?_ofList (nodup_keys hnodup), mem_map]
  constructor
  · rintro ⟨m, hm, heq⟩
    obtain ⟨rfl, rfl⟩ := Prod.mk.inj heq
    exact ⟨hm, rfl⟩
  · rintro ⟨hn, rfl⟩
    exact ⟨n, hn, rfl⟩

/-- The rows are the places of the schema. -/
theorem values_perm : (rowsOf s).values ~ s.places := by
  have hperm := toList_perm (nodup_keys hnodup) (m := rowsOf s)
    (fun k v => getElem?_ofList (nodup_keys hnodup))
  have hmap := hperm.map Prod.snd
  rw [map_map] at hmap
  simpa [FieldRows.values, Function.comp_def] using hmap

/-- There is one row for each field. -/
theorem size_rowsOf : (rowsOf s).size = s.flatten.length := by
  rw [← Std.ExtTreeMap.length_toList, ← s.map_field_places, length_map,
    ← (values_perm hnodup).length_eq, FieldRows.values, length_map]

/-- The rows ascend strictly in their field identifiers. -/
theorem values_ascending :
    (rowsOf s).values.Pairwise fun a b => a.field.fieldId.toNat < b.field.fieldId.toNat := by
  have hkeys : ∀ e ∈ (rowsOf s).toList, e.1 = e.2.field.fieldId := by
    intro e he
    have hget := Std.ExtTreeMap.mem_toList_iff_getElem?_eq_some.mp he
    exact ((getElem?_rowsOf hnodup).mp hget).2.symm
  have hordered := (rowsOf s).ordered_keys_toList
  rw [FieldRows.values, pairwise_map]
  apply hordered.imp_of_mem
  intro a b ha hb hlt
  rw [← hkeys a ha, ← hkeys b hb]
  exact UInt32.lt_iff_toNat_lt.mp (Std.compare_eq_lt.mp hlt)

/-- The rows under a parent are the places side by side there, in some order. -/
private theorem under_perm {parent : Option UInt32} {fields : List Field}
    (h : ∀ n, n ∈ s.places ∧ n.parent = parent ↔ n ∈ siblings parent 0 fields) :
    (rowsOf s).under parent ~ siblings parent 0 fields := by
  have hvalues := values_perm hnodup
  have hplaces : s.places.Nodup := by
    have hkeys := nodup_keys hnodup
    rw [map_map] at hkeys
    exact Nodup.of_map _ hkeys
  have hsiblings : (siblings parent 0 fields).Nodup :=
    (siblings_ascending _ _ _).imp fun h heq => by simp [heq] at h
  have hunder : ((rowsOf s).under parent).Nodup := (hvalues.nodup_iff.mpr hplaces).filter _
  refine (perm_ext_iff_of_nodup hunder hsiblings).mpr ?_
  intro n
  rw [← h n, ← hvalues.mem_iff]
  simp [FieldRows.under]

/-- Under a field, the rows are the fields nested in it. -/
theorem under_field {f : Field} (hf : f ∈ s.flatten) :
    (rowsOf s).under (some f.fieldId) ~ siblings (some f.fieldId) 0 f.children := by
  apply under_perm hnodup
  intro n
  rw [s.mem_places]
  constructor
  · rintro ⟨hn | ⟨g, hg, hn⟩, hparent⟩
    · rw [parent_of_mem_siblings hn] at hparent
      cases hparent
    · rw [parent_of_mem_siblings hn] at hparent
      have hgf : g = f := inj_on_of_nodup_map hnodup hg hf (Option.some.inj hparent)
      exact hgf ▸ hn
  · intro hn
    exact ⟨.inr ⟨f, hf, hn⟩, parent_of_mem_siblings hn⟩

/-- Without a parent, the rows are the roots of the schema. -/
theorem under_none : (rowsOf s).under none ~ siblings none 0 s.fields := by
  apply under_perm hnodup
  intro n
  rw [s.mem_places]
  constructor
  · rintro ⟨hn | ⟨g, hg, hn⟩, hparent⟩
    · exact hn
    · rw [parent_of_mem_siblings hn] at hparent
      cases hparent
  · intro hn
    exact ⟨.inl hn, parent_of_mem_siblings hn⟩

end RowsOf

end Otmp
