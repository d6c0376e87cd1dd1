import Mathlib.Data.List.Pairwise
import Otmp.Image.StoredSchemas

/-!
# Which valid schemas can be stored

Storing a schema inserts a row for each field in the order of the walk. Identifiers are
unique in the whole schema, but names only among the fields that validation takes for
siblings: it checks the key and the value of a map apart, while both are stored under the
map. So a valid schema violates a constraint exactly when such a pair of one name is
written.
-/

namespace Otmp

open Foundation List SchemaTables

/-- The type of a field is written as canonical text. -/
def NormalizedField.Writable (n : NormalizedField) : Prop :=
  n.field.fieldType.toValue.depth ≤ CanonicalValue.maxDepth

/-- Whether a row can be written is decided by its depth. -/
instance (n : NormalizedField) : Decidable n.Writable := inferInstanceAs (Decidable (_ ≤ _))

/-- The fields that are inserted before the first one whose type nests too deep. -/
def Schema.written (s : Schema) : List NormalizedField := s.places.takeWhile fun n => n.Writable

/-- Two fields are stored under one parent with one name. -/
def NormalizedField.SameName (m n : NormalizedField) : Prop :=
  m.parent = n.parent ∧ m.field.name = n.field.name

namespace SchemaTables

/-- Insert fields one after the other at given places, as the recursion over a schema does. -/
def insertPlaces (schemaId : UInt32) (version : ℕ) (t : SchemaTables) :
    List NormalizedField → Except RuntimeError SchemaTables
  | [] => .ok t
  | n :: ns => do
    let t ← t.insertField schemaId version n.parent n.ordinal n.field
    insertPlaces schemaId version t ns

/-- Inserting two lists of places is inserting one after the other. -/
theorem insertPlaces_append {schemaId : UInt32} {version : ℕ} {t : SchemaTables}
    {ns ms : List NormalizedField} :
    insertPlaces schemaId version t (ns ++ ms) =
      (insertPlaces schemaId version t ns >>= fun t => insertPlaces schemaId version t ms) := by
  induction ns generalizing t with
  | nil => rfl
  | cons n ns ih =>
    rw [cons_append, insertPlaces, insertPlaces, bind_assoc]
    exact congrArg _ (funext fun t => ih)

end SchemaTables

/-- Inserting fields side by side is inserting their places. -/
private theorem insertFields_places {schemaId : UInt32} {version : ℕ} {fields : List Field}
    (h : ∀ c ∈ fields, ∀ parent ordinal t, c.insertTree schemaId version parent ordinal t =
      insertPlaces schemaId version t (c.places parent ordinal))
    (parent : Option UInt32) (ordinal : ℕ) (t : SchemaTables) :
    Field.insertFields schemaId version parent ordinal t fields =
      insertPlaces schemaId version t (Field.placesList parent ordinal fields) := by
  induction fields generalizing ordinal t with
  | nil => rfl
  | cons c cs ih =>
    rw [Field.insertFields, Field.placesList, insertPlaces_append, h c mem_cons_self]
    exact congrArg _ (funext fun t => ih (fun d hd => h d (mem_cons_of_mem _ hd)) _ t)

/-- Inserting a tree inserts the fields at its places. -/
theorem Field.insertTree_places (f : Field) {schemaId : UInt32} {version : ℕ}
    (parent : Option UInt32) (ordinal : ℕ) (t : SchemaTables) :
    f.insertTree schemaId version parent ordinal t =
      insertPlaces schemaId version t (f.places parent ordinal) := by
  induction f using Field.induction generalizing parent ordinal t with
  | h f ih =>
    rw [insertTree_eq, places_eq, insertPlaces]
    refine congrArg _ (funext fun t => ?_)
    exact insertFields_places (fun c hc => ih c hc) _ _ t

section Inserting

variable {schemaId : UInt32} {version : ℕ} {t t' : SchemaTables} {n m : NormalizedField}

/-- Rows of one parent and name are places of one parent and name. -/
theorem NormalizedField.row_sameName (schemaId : UInt32) :
    (m.row schemaId).parentFieldId = (n.row schemaId).parentFieldId ∧
      (m.row schemaId).name = (n.row schemaId).name ↔ m.SameName n := by
  refine and_congr_left fun _ => ?_
  cases hm : m.parent with
  | none => cases hn : n.parent <;> simp [row, hm, hn]
  | some a =>
    cases hn : n.parent with
    | none => simp [row, hm, hn]
    | some b => simp [row, hm, hn, UInt32.toNat_inj]

/-- The tables before the insert of a field of a schema: the schema and the rows of the fields
before it are there. -/
structure Ready (schemaId : UInt32) (base : List FieldRow) (before : List NormalizedField)
    (t : SchemaTables) : Prop where
  schema : t.schemas.any (·.schemaId == schemaId.toNat) = true
  fields : t.fields = base ++ before.map (NormalizedField.row schemaId)
  ids : ∀ n ∈ before, ∃ r ∈ t.fieldIds, r.fieldId = n.field.fieldId.toNat

/-- A field identifier is there after its insert. -/
theorem insertFieldId_spec (t : SchemaTables) (row : FieldIdRow) (hpositive : 0 < row.fieldId)
    (hversion : 0 ≤ row.createdVersion)
    (hschema : t.schemas.any (·.schemaId == row.firstSchemaId) = true) :
    ∃ ids, t.insertFieldId row = .ok { t with fieldIds := ids } ∧ t.fieldIds ⊆ ids ∧
      ∃ r ∈ ids, r.fieldId = row.fieldId := by
  unfold insertFieldId
  by_cases hold : t.fieldIds.any (·.fieldId == row.fieldId) = true
  · obtain ⟨r, hr, hid⟩ := any_eq_true.mp hold
    exact ⟨t.fieldIds, by rw [if_pos (.inl hold)], List.Subset.refl _, r, hr, by simpa using hid⟩
  · refine ⟨t.fieldIds ++ [row], ?_, subset_append_left _ _, row, by simp, rfl⟩
    rw [if_neg (by rintro (h | h | h) <;> [exact hold h; omega; omega]), if_pos hschema]

/-- Optional scalars always have a canonical text, since scalars are shallow. -/
theorem optionalCanonical_eq (o : Option TypedScalar) :
    optionalCanonical o = .ok (o.map TypedScalar.toValue) := by
  cases o with
  | none => rfl
  | some scalar =>
    rw [optionalCanonical, canonicalString_eq_ok.mpr ⟨depth_toValue_le scalar, rfl⟩]
    rfl

/-- The insert of a field comes to the insert of its identifier and its row. -/
theorem insertField_eq {ids : List FieldIdRow} (hversion : version ≤ i64Max)
    (hordinal : n.ordinal ≤ i64Max)
    (hids : t.insertFieldId ⟨n.field.fieldId.toNat, schemaId.toNat, version⟩ =
      .ok { t with fieldIds := ids }) :
    (n.Writable ∧ t.insertField schemaId version n.parent n.ordinal n.field =
        SchemaTables.insertFieldRow { t with fieldIds := ids } (n.row schemaId)) ∨
      (¬ n.Writable ∧ ∃ e, t.insertField schemaId version n.parent n.ordinal n.field =
        .error (.protocol e)) := by
  have hcreated : sqliteI64 version "field version" = .ok (version : ℤ) := if_pos hversion
  rw [insertField, ok_bind hcreated, ok_bind hids, if_neg (Nat.not_lt.mpr hordinal)]
  by_cases hwritable : n.Writable
  · refine .inl ⟨hwritable, ?_⟩
    rw [ok_bind (liftProtocol_eq_ok.mpr (canonicalString_eq_ok.mpr ⟨hwritable, rfl⟩)),
      ok_bind (liftProtocol_eq_ok.mpr (optionalCanonical_eq _)),
      ok_bind (liftProtocol_eq_ok.mpr (optionalCanonical_eq _))]
    rfl
  · refine .inr ⟨hwritable, ?_⟩
    cases htype : canonicalString n.field.fieldType.toValue with
    | error e => exact ⟨e, rfl⟩
    | ok text => exact absurd (canonicalString_eq_ok.mp htype).1 hwritable

/-- What the insert of a field comes to. -/
theorem Ready.insertField {base : List FieldRow} {before : List NormalizedField}
    (h : Ready schemaId base before t) (hbase : ∀ r ∈ base, r.schemaId ≠ schemaId.toNat)
    (hversion : version ≤ i64Max) (hpositive : n.field.fieldId ≠ 0) (hordinal : n.ordinal ≤ i64Max)
    (hfresh : ∀ m ∈ before, m.field.fieldId ≠ n.field.fieldId) :
    (¬ n.Writable ∧ ∃ e, t.insertField schemaId version n.parent n.ordinal n.field =
        .error (.protocol e)) ∨
      (n.Writable ∧ (∃ m ∈ before, m.SameName n) ∧
        ∃ message, t.insertField schemaId version n.parent n.ordinal n.field =
          .error (.sqlite message)) ∨
      (n.Writable ∧ (∀ m ∈ before, ¬ m.SameName n) ∧
        ∃ t', t.insertField schemaId version n.parent n.ordinal n.field = .ok t' ∧
          t'.schemas = t.schemas ∧ t'.identifiers = t.identifiers ∧
          Ready schemaId base (before ++ [n]) t') := by
  have hid : 0 < n.field.fieldId.toNat := by
    have hne : n.field.fieldId.toNat ≠ 0 := fun heq => hpositive (UInt32.toNat_inj.mp heq)
    omega
  obtain ⟨ids, hids, hsub, r, hr, hrid⟩ := insertFieldId_spec t
    ⟨n.field.fieldId.toNat, schemaId.toNat, version⟩
    (show (0 : ℤ) < _ by dsimp only; omega) (show (0 : ℤ) ≤ _ by dsimp only; omega) h.schema
  rcases insertField_eq hversion hordinal hids with ⟨hwritable, heq⟩ | ⟨hwritable, e, heq⟩
  swap
  · exact .inl ⟨hwritable, e, heq⟩
  refine .inr ?_
  have hmem : ∀ q : FieldRow → Bool, t.fields.any q = true ↔
      (∃ r ∈ base, q r = true) ∨ ∃ m ∈ before, q (m.row schemaId) = true := by
    intro q
    rw [h.fields, any_append, Bool.or_eq_true, any_eq_true, any_map, any_eq_true]
    rfl
  have hkey : ¬ t.fields.any (fun r => r.schemaId == (n.row schemaId).schemaId &&
      r.fieldId == (n.row schemaId).fieldId) = true := by
    rw [hmem]
    rintro (⟨r, hr, hq⟩ | ⟨m, hm, hq⟩)
    · rw [Bool.and_eq_true, beq_iff_eq] at hq
      exact hbase r hr hq.1
    · rw [Bool.and_eq_true, beq_iff_eq, beq_iff_eq] at hq
      exact hfresh m hm (UInt32.toNat_inj.mp (Int.natCast_inj.mp hq.2))
  have hname : t.fields.any (fun r => r.schemaId == (n.row schemaId).schemaId &&
      r.parentFieldId == (n.row schemaId).parentFieldId && r.name == (n.row schemaId).name) = true ↔
      ∃ m ∈ before, m.SameName n := by
    rw [hmem]
    constructor
    · rintro (⟨r, hr, hq⟩ | ⟨m, hm, hq⟩)
      · rw [Bool.and_eq_true, Bool.and_eq_true, beq_iff_eq] at hq
        exact absurd hq.1.1 (hbase r hr)
      · rw [Bool.and_eq_true, Bool.and_eq_true, beq_iff_eq, beq_iff_eq, beq_iff_eq] at hq
        exact ⟨m, hm, (NormalizedField.row_sameName schemaId).mp ⟨hq.1.2, hq.2⟩⟩
    · rintro ⟨m, hm, hsame⟩
      refine .inr ⟨m, hm, ?_⟩
      rw [Bool.and_eq_true, Bool.and_eq_true, beq_iff_eq, beq_iff_eq, beq_iff_eq]
      obtain ⟨hparent, hname⟩ := (NormalizedField.row_sameName schemaId).mpr hsame
      exact ⟨⟨rfl, hparent⟩, hname⟩
  have hforeign : ids.any (·.fieldId == (n.row schemaId).fieldId) = true :=
    any_eq_true.mpr ⟨r, hr, beq_iff_eq.mpr hrid⟩
  rw [heq, insertFieldRow, if_neg hkey]
  by_cases hclash : ∃ m ∈ before, m.SameName n
  · rw [if_pos (hname.mpr hclash)]
    exact .inl ⟨hwritable, hclash, _, rfl⟩
  · have hnone : ∀ m ∈ before, ¬ m.SameName n := fun m hm hsame => hclash ⟨m, hm, hsame⟩
    have hcheck : ¬ ((n.row schemaId).ordinal < 0 ∨
        ¬ ((n.row schemaId).required = 0 ∨ (n.row schemaId).required = 1)) := by
      have hordinal : 0 ≤ (n.row schemaId).ordinal := Int.natCast_nonneg _
      have hrequired : (n.row schemaId).required = if n.field.required then 1 else 0 := rfl
      rw [hrequired]
      split <;> omega
    rw [if_neg (fun hany => hclash (hname.mp hany)), if_neg (by rw [hforeign]; decide),
      if_neg hcheck]
    refine .inr ⟨hwritable, hnone, _, rfl, rfl, rfl, h.schema, ?_, ?_⟩
    · simp only [h.fields, map_append, append_assoc]
      rfl
    · intro m hm
      rcases mem_append.mp hm with hm | hm
      · obtain ⟨r, hr, heq⟩ := h.ids m hm
        exact ⟨r, hsub hr, heq⟩
      · obtain rfl := mem_singleton.mp hm
        exact ⟨r, hr, hrid⟩

/-- No two fields of a list have one parent and one name. -/
def NamesApart (ns : List NormalizedField) : Prop := ns.Pairwise fun m n => ¬ m.SameName n

/-- What the insert of a list of fields comes to. -/
theorem Ready.insertPlaces {base : List FieldRow} {before rest : List NormalizedField}
    (h : Ready schemaId base before t) (hbase : ∀ r ∈ base, r.schemaId ≠ schemaId.toNat)
    (hversion : version ≤ i64Max) (hpositive : ∀ n ∈ rest, n.field.fieldId ≠ 0)
    (hordinal : ∀ n ∈ rest, n.ordinal ≤ i64Max)
    (hids : ((before ++ rest).map fun n => n.field.fieldId).Nodup) (hapart : NamesApart before) :
    ((∃ e, SchemaTables.insertPlaces schemaId version t rest = .error (.protocol e)) ∧
        (¬ ∀ n ∈ rest, n.Writable) ∧
        NamesApart (before ++ rest.takeWhile fun n => n.Writable)) ∨
      ((∃ message, SchemaTables.insertPlaces schemaId version t rest = .error (.sqlite message)) ∧
        ¬ NamesApart (before ++ rest.takeWhile fun n => n.Writable)) ∨
      ((∃ t', SchemaTables.insertPlaces schemaId version t rest = .ok t' ∧
          t'.schemas = t.schemas ∧ t'.identifiers = t.identifiers ∧
          Ready schemaId base (before ++ rest) t') ∧
        (∀ n ∈ rest, n.Writable) ∧
        NamesApart (before ++ rest.takeWhile fun n => n.Writable)) := by
  induction rest generalizing before t with
  | nil =>
    refine .inr (.inr ⟨⟨t, rfl, rfl, rfl, ?_⟩, fun _ hn => absurd hn not_mem_nil, ?_⟩)
    · rwa [append_nil]
    · rwa [takeWhile_nil, append_nil]
  | cons n rest ih =>
    obtain ⟨hpos, hpositive⟩ := forall_mem_cons.mp hpositive
    obtain ⟨hord, hordinal⟩ := forall_mem_cons.mp hordinal
    have hfresh : ∀ m ∈ before, m.field.fieldId ≠ n.field.fieldId := by
      intro m hm
      rw [map_append, nodup_append] at hids
      exact hids.2.2 _ (mem_map_of_mem hm) _ (mem_map_of_mem mem_cons_self)
    rw [SchemaTables.insertPlaces]
    rcases h.insertField hbase hversion hpos hord hfresh with
      ⟨hwritable, e, heq⟩ | ⟨hwritable, ⟨m, hm, hsame⟩, message, heq⟩ |
      ⟨hwritable, hnone, t₁, heq, hschemas, hidents, hready⟩
    · refine .inl ⟨⟨e, by rw [heq]; rfl⟩, fun hall => hwritable (hall n mem_cons_self), ?_⟩
      rwa [takeWhile_cons_of_neg (by simpa using hwritable), append_nil]
    · refine .inr (.inl ⟨⟨message, by rw [heq]; rfl⟩, fun hdistinct => ?_⟩)
      rw [takeWhile_cons_of_pos (by simpa using hwritable)] at hdistinct
      exact (pairwise_append.mp hdistinct).2.2 m hm n mem_cons_self hsame
    · have hstep : NamesApart (before ++ [n]) :=
        pairwise_append.mpr ⟨hapart, pairwise_singleton _ _, fun m hm k hk => by
          obtain rfl := mem_singleton.mp hk
          exact hnone m hm⟩
      have hmore : before ++ n :: rest = before ++ [n] ++ rest := by
        rw [append_assoc, singleton_append]
      have hwhile : before ++ (n :: rest).takeWhile (fun n => decide n.Writable) =
          before ++ [n] ++ rest.takeWhile fun n => decide n.Writable := by
        rw [takeWhile_cons_of_pos (by simpa using hwritable), append_assoc, singleton_append]
      rw [ok_bind heq, hwhile, forall_mem_cons]
      have hrest := ih hready hpositive hordinal (hmore ▸ hids) hstep
      rw [hschemas, hidents, ← hmore] at hrest
      exact hrest.imp (fun ⟨he, hall, hd⟩ => ⟨he, fun hboth => hall hboth.2, hd⟩)
        (Or.imp_right fun ⟨hok, hall, hd⟩ => ⟨hok, ⟨hwritable, hall⟩, hd⟩)

/-- The identifier rows of a schema can be inserted. -/
theorem insertIdentifiers_spec {ordinal : ℕ} {ids : List UInt32} (hids : ids.Nodup)
    (hschema : t.schemas.any (·.schemaId == schemaId.toNat) = true)
    (hfields : ∀ id ∈ ids, ∃ r ∈ t.fieldIds, r.fieldId = id.toNat)
    (hold : ∀ r ∈ t.identifiers, r.schemaId = schemaId.toNat →
      r.ordinal < ordinal ∧ ∀ id ∈ ids, r.fieldId ≠ id.toNat)
    (hbound : ordinal + ids.length ≤ i64Max) :
    ∃ t', insertIdentifiers schemaId ordinal t ids = .ok t' := by
  induction ids generalizing ordinal t with
  | nil => exact ⟨t, rfl⟩
  | cons id ids ih =>
    obtain ⟨hid, hids⟩ := nodup_cons.mp hids
    obtain ⟨⟨r, hr, hrid⟩, hfields⟩ := forall_mem_cons.mp hfields
    rw [length_cons] at hbound
    have hunique : ¬ (t.identifiers.any (fun r => r.schemaId == (schemaId.toNat : ℤ) &&
        r.ordinal == (ordinal : ℤ)) = true ∨ t.identifiers.any (fun r =>
          r.schemaId == (schemaId.toNat : ℤ) && r.fieldId == (id.toNat : ℤ)) = true) := by
      rintro (hany | hany)
      · obtain ⟨q, hq, heq⟩ := any_eq_true.mp hany
        rw [Bool.and_eq_true, beq_iff_eq, beq_iff_eq] at heq
        have hlt := (hold q hq heq.1).1
        omega
      · obtain ⟨q, hq, heq⟩ := any_eq_true.mp hany
        rw [Bool.and_eq_true, beq_iff_eq, beq_iff_eq] at heq
        exact (hold q hq heq.1).2 id mem_cons_self heq.2
    have hforeign : t.fieldIds.any (·.fieldId == (id.toNat : ℤ)) = true :=
      any_eq_true.mpr ⟨r, hr, beq_iff_eq.mpr hrid⟩
    have hrow : t.insertIdentifierRow ⟨schemaId.toNat, ordinal, id.toNat⟩ =
        .ok { t with identifiers := t.identifiers ++ [⟨schemaId.toNat, ordinal, id.toNat⟩] } := by
      rw [insertIdentifierRow, if_neg hunique, if_neg (by rw [hschema, hforeign]; decide)]
    rw [insertIdentifiers, if_neg (by omega), ok_bind hrow]
    refine ih hids hschema hfields (fun q hq hqid => ?_) (by omega)
    rcases mem_append.mp hq with hq | hq
    · obtain ⟨hlt, hne⟩ := hold q hq hqid
      exact ⟨by omega, fun id hid => hne id (mem_cons_of_mem _ hid)⟩
    · obtain rfl := mem_singleton.mp hq
      refine ⟨by dsimp only; omega, fun other hother heq => ?_⟩
      have hsame : id = other := UInt32.toNat_inj.mp (Int.natCast_inj.mp heq)
      exact hid (hsame ▸ hother)

end Inserting

section Names

variable {s : Schema} {m n : NormalizedField}

/-- Siblings of different names are different. -/
theorem eq_of_mem_siblings {parent : Option UInt32} {ordinal : ℕ} {fields : List Field}
    (hnames : (fields.map Field.name).Nodup) (hm : m ∈ siblings parent ordinal fields)
    (hn : n ∈ siblings parent ordinal fields) (h : m.field.name = n.field.name) : m = n := by
  have hnodup : ((siblings parent ordinal fields).map fun n => n.field.name).Nodup := by
    have hmap : (siblings parent ordinal fields).map (fun n => n.field.name) =
        fields.map Field.name := by
      rw [← map_field_siblings parent ordinal fields, map_map, map_field_siblings]
      rfl
    rwa [hmap]
  exact inj_on_of_nodup_map hnodup hm hn h

/-- The places of a valid schema are different. -/
theorem Schema.nodup_places (h : s.validate = .ok ()) :
    (s.places.map fun n => n.field.fieldId).Nodup := by
  have hnodup := nodup_of_validate h
  rwa [← s.map_field_places, map_map] at hnodup

/-- Only the key and the value of a map can be stored with one parent and one name. -/
theorem Schema.map_of_sameName (h : s.validate = .ok ()) (hm : m ∈ s.places) (hn : n ∈ s.places)
    (hne : m ≠ n) (hsame : m.SameName n) :
    ∃ g ∈ s.flatten, ∃ key value, g.fieldType = .map key value ∧ key.name = value.name ∧
      (m = ⟨some g.fieldId, 0, key⟩ ∧ n = ⟨some g.fieldId, 1, value⟩ ∨
        n = ⟨some g.fieldId, 0, key⟩ ∧ m = ⟨some g.fieldId, 1, value⟩) := by
  obtain ⟨hparent, hname⟩ := hsame
  rcases (s.mem_places m).mp hm with hm | ⟨g, hg, hm⟩
  · rcases (s.mem_places n).mp hn with hn | ⟨k, -, hn⟩
    · exact absurd (eq_of_mem_siblings (validate_eq_ok.mp h).2.1 hm hn hname) hne
    · rw [parent_of_mem_siblings hm, parent_of_mem_siblings hn] at hparent
      cases hparent
  · rcases (s.mem_places n).mp hn with hn | ⟨k, hk, hn⟩
    · rw [parent_of_mem_siblings hm, parent_of_mem_siblings hn] at hparent
      cases hparent
    · rw [parent_of_mem_siblings hm, parent_of_mem_siblings hn] at hparent
      obtain rfl : g = k :=
        inj_on_of_nodup_map (nodup_of_validate h) hg hk (Option.some.inj hparent)
      obtain ⟨depth, hshape⟩ := shape_of_mem_flatten h hg
      have hgroup := (Field.shape_iff.mp hshape).2.1
      refine ⟨g, hg, ?_⟩
      unfold Field.children at hm hn
      cases htype : g.fieldType with
      | struct fields =>
        rw [htype] at hgroup hm hn
        exact absurd (eq_of_mem_siblings hgroup.2 hm hn hname) hne
      | list element =>
        rw [htype] at hm hn
        exact absurd ((mem_singleton.mp hm).trans (mem_singleton.mp hn).symm) hne
      | map key value =>
        rw [htype] at hm hn
        refine ⟨key, value, rfl, ?_⟩
        simp only [LogicalType.children, siblings, mem_cons, not_mem_nil, or_false] at hm hn
        rcases hm with rfl | rfl
        · rcases hn with rfl | rfl
          · exact absurd rfl hne
          · exact ⟨hname, .inl ⟨rfl, rfl⟩⟩
        · rcases hn with rfl | rfl
          · exact ⟨hname.symm, .inr ⟨rfl, rfl⟩⟩
          · exact absurd rfl hne
      | _ =>
        rw [htype] at hm
        cases hm

/-- No map has a key and a value of one name that are both written. -/
def Schema.MapNamesApart (s : Schema) : Prop :=
  ∀ g ∈ s.flatten, ∀ key value, g.fieldType = .map key value →
    ⟨some g.fieldId, 0, key⟩ ∈ s.written → ⟨some g.fieldId, 1, value⟩ ∈ s.written →
    key.name ≠ value.name

/-- The names of the rows of a valid schema collide only where a map names its key and value alike.
-/
theorem Schema.namesApart_written (h : s.validate = .ok ()) :
    NamesApart s.written ↔ s.MapNamesApart := by
  have hsub : s.written <+ s.places := takeWhile_sublist _
  have hnodup : s.written.Nodup := (Nodup.of_map _ (nodup_places h)).sublist hsub
  constructor
  · intro hapart g hg key value htype hkey hvalue hname
    have hsymm : Std.Symm fun a b : NormalizedField => ¬ a.SameName b :=
      ⟨fun a b hab hba => hab ⟨hba.1.symm, hba.2.symm⟩⟩
    have hne : NormalizedField.mk (some g.fieldId) 0 key ≠ ⟨some g.fieldId, 1, value⟩ := by simp
    exact List.Pairwise.forall hapart hkey hvalue hne ⟨rfl, hname⟩
  · intro hmaps
    refine hnodup.pairwise_of_forall_ne fun m hm n hn hne hsame => ?_
    obtain ⟨g, hg, key, value, htype, hname, ⟨rfl, rfl⟩ | ⟨rfl, rfl⟩⟩ :=
      map_of_sameName h (hsub.subset hm) (hsub.subset hn) hne hsame
    · exact hmaps g hg key value htype hm hn hname
    · exact hmaps g hg key value htype hn hm hname

end Names

section Storing

variable {s : Schema} {t t' : SchemaTables} {version : ℕ}

/-- The tables do not hold a schema: no row of any of them carries its identifier. -/
structure SchemaTables.Lacks (t : SchemaTables) (schemaId : UInt32) : Prop where
  schemas : ∀ r ∈ t.schemas, r.schemaId ≠ schemaId.toNat
  fields : ∀ r ∈ t.fields, r.schemaId ≠ schemaId.toNat
  identifiers : ∀ r ∈ t.identifiers, r.schemaId ≠ schemaId.toNat

/-- The deferred foreign keys of the schema tables: parents of schemas and of fields are there. -/
structure SchemaTables.DeferredKeys (t : SchemaTables) : Prop where
  parentSchema : ∀ r ∈ t.schemas, ∀ parent, r.parentSchemaId = some parent →
    ∃ q ∈ t.schemas, q.schemaId = parent
  schema : ∀ r ∈ t.fields, ∃ q ∈ t.schemas, q.schemaId = r.schemaId
  parentField : ∀ r ∈ t.fields, ∀ parent, r.parentFieldId = some parent →
    ∃ q ∈ t.fields, q.schemaId = r.schemaId ∧ q.fieldId = parent

/-- An insert violates no constraint: it does not fail with one, and what it leaves satisfies the
deferred foreign keys. -/
def StoredCleanly (t : SchemaTables) (s : Schema) (version : ℕ) : Prop :=
  (∀ message, t.insertSchema s version ≠ .error (.sqlite message)) ∧
    ∀ t', t.insertSchema s version = .ok t' → t'.DeferredKeys

/-- The parent that a schema names is in the tables, or it is the schema itself. -/
def SchemaTables.HasParent (t : SchemaTables) (s : Schema) : Prop :=
  ∀ parent, s.parentSchemaId = some parent →
    parent = s.schemaId ∨ ∃ r ∈ t.schemas, r.schemaId = parent.toNat

/-- The deferred foreign keys after a successful insert. -/
theorem deferredKeys_insertSchema (hkeys : t.DeferredKeys)
    (h : t.insertSchema s version = .ok t') : t'.DeferredKeys ↔ t.HasParent s := by
  obtain ⟨-, hschemas, hfields, -, -⟩ := insertSchema_ok h
  have hself : schemaRow s version ∈ t'.schemas := hschemas ▸ mem_append_right _ mem_cons_self
  have hplace : ∀ g ∈ s.flatten, ∃ q ∈ t'.fields, q.schemaId = s.schemaId.toNat ∧
      q.fieldId = g.fieldId.toNat := by
    intro g hg
    rw [← s.map_field_places] at hg
    obtain ⟨n, hn, rfl⟩ := mem_map.mp hg
    exact ⟨n.row s.schemaId, hfields ▸ mem_append_right _ (mem_map_of_mem hn), rfl, rfl⟩
  constructor
  · intro hafter parent hparent
    obtain ⟨q, hq, hid⟩ := hafter.parentSchema _ hself parent.toNat (by
      rw [schemaRow, hparent]
      rfl)
    rw [hschemas, mem_append, mem_singleton] at hq
    rcases hq with hq | rfl
    · exact .inr ⟨q, hq, hid⟩
    · exact .inl (UInt32.toNat_inj.mp (Int.natCast_inj.mp hid)).symm
  · intro hhas
    refine ⟨fun r hr parent hparent => ?_, fun r hr => ?_, fun r hr parent hparent => ?_⟩
    · rw [hschemas, mem_append, mem_singleton] at hr
      rcases hr with hr | rfl
      · obtain ⟨q, hq, hid⟩ := hkeys.parentSchema r hr parent hparent
        exact ⟨q, hschemas ▸ mem_append_left _ hq, hid⟩
      · obtain ⟨id, hid, rfl⟩ := Option.map_eq_some_iff.mp hparent
        rcases hhas id hid with rfl | ⟨q, hq, hqid⟩
        · exact ⟨_, hself, rfl⟩
        · exact ⟨q, hschemas ▸ mem_append_left _ hq, hqid⟩
    · rw [hfields, mem_append] at hr
      rcases hr with hr | hr
      · obtain ⟨q, hq, hid⟩ := hkeys.schema r hr
        exact ⟨q, hschemas ▸ mem_append_left _ hq, hid⟩
      · obtain ⟨n, -, rfl⟩ := mem_map.mp hr
        exact ⟨_, hself, rfl⟩
    · rw [hfields, mem_append] at hr
      rcases hr with hr | hr
      · obtain ⟨q, hq, hid⟩ := hkeys.parentField r hr parent hparent
        exact ⟨q, hfields ▸ mem_append_left _ hq, hid⟩
      · obtain ⟨n, hn, rfl⟩ := mem_map.mp hr
        obtain ⟨id, hid, rfl⟩ := Option.map_eq_some_iff.mp hparent
        rcases (s.mem_places n).mp hn with hroot | ⟨g, hg, hnested⟩
        · rw [parent_of_mem_siblings hroot] at hid
          cases hid
        · rw [parent_of_mem_siblings hnested] at hid
          cases hid
          exact hplace g hg

/-- What the insert of a valid schema comes to. -/
theorem insertSchema_spec (version : ℕ) (h : s.validate = .ok ()) (hlacks : t.Lacks s.schemaId) :
    (i64Max < version ∧ ∃ message, t.insertSchema s version = .error (.invalidAppend message)) ∨
      version ≤ i64Max ∧
        ((¬ s.MapNamesApart ∧ ∃ message, t.insertSchema s version = .error (.sqlite message)) ∨
          (s.MapNamesApart ∧ (¬ ∀ n ∈ s.places, n.Writable) ∧
            ∃ e, t.insertSchema s version = .error (.protocol e)) ∨
          (s.MapNamesApart ∧ (∀ n ∈ s.places, n.Writable) ∧
            ∃ t', t.insertSchema s version = .ok t')) := by
  by_cases hversion : version ≤ i64Max
  swap
  · refine .inl ⟨Nat.not_le.mp hversion, "schema version" ++ " exceeds SQLite INTEGER", ?_⟩
    rw [insertSchema, sqliteI64, if_neg hversion]
    rfl
  refine .inr ⟨hversion, ?_⟩
  have hcreated : sqliteI64 version "schema version" = .ok (version : ℤ) := if_pos hversion
  have hpositive : 0 < s.schemaId.toNat := by
    have hne : s.schemaId.toNat ≠ 0 := fun heq =>
      (Schema.validate_eq_ok.mp h).1 (UInt32.toNat_inj.mp heq)
    omega
  have hmax : i64Max = 9223372036854775807 := rfl
  have hnew : ¬ t.schemas.any (·.schemaId == (schemaRow s version).schemaId) = true := by
    intro hany
    obtain ⟨r, hr, heq⟩ := any_eq_true.mp hany
    exact hlacks.schemas r hr (beq_iff_eq.mp heq)
  have hrow : t.insertSchemaRow (schemaRow s version) =
      .ok { t with schemas := t.schemas ++ [schemaRow s version] } := by
    rw [insertSchemaRow, if_neg hnew, if_neg (by rw [schemaRow]; dsimp only; omega)]
  have hschema : (t.schemas ++ [schemaRow s version]).any
      (·.schemaId == (s.schemaId.toNat : ℤ)) = true :=
    any_eq_true.mpr ⟨_, mem_append_right _ mem_cons_self, beq_self_eq_true _⟩
  have hready : Ready s.schemaId t.fields []
      { t with schemas := t.schemas ++ [schemaRow s version] } :=
    ⟨hschema, (append_nil _).symm, fun _ hn => absurd hn not_mem_nil⟩
  have hnodup := Schema.nodup_of_validate h
  have hplaces := hready.insertPlaces hlacks.fields hversion
    (show ∀ n ∈ s.places, _ from fun n hn => Schema.fieldId_ne_zero_of_validate h
      (s.map_field_places ▸ mem_map_of_mem hn))
    (fun n hn => by
      have hlt := Schema.ordinal_lt hnodup hn
      omega)
    (by rw [nil_append]; exact Schema.nodup_places h) Pairwise.nil
  rw [nil_append, nil_append] at hplaces
  change (_ ∧ _ ∧ NamesApart s.written) ∨ (_ ∧ ¬ NamesApart s.written) ∨
    (_ ∧ _ ∧ NamesApart s.written) at hplaces
  rw [Schema.namesApart_written h] at hplaces
  have hinsert : t.insertSchema s version =
      (SchemaTables.insertPlaces s.schemaId version
          { t with schemas := t.schemas ++ [schemaRow s version] } s.places >>= fun t =>
        insertIdentifiers s.schemaId 0 t s.identifierFieldIds) := by
    rw [insertSchema, ok_bind hcreated]
    refine (ok_bind hrow).trans ?_
    rw [insertFields_places fun c _ parent ordinal t => c.insertTree_places parent ordinal t]
    rfl
  rw [hinsert]
  rcases hplaces with ⟨⟨e, heq⟩, hdeep, hmaps⟩ | ⟨⟨message, heq⟩, hmaps⟩ |
    ⟨⟨t₁, heq, hschemas, hidents, hready'⟩, hwritable, hmaps⟩
  · exact .inr (.inl ⟨hmaps, hdeep, e, by rw [heq]; rfl⟩)
  · exact .inl ⟨hmaps, message, by rw [heq]; rfl⟩
  · rw [ok_bind heq]
    refine .inr (.inr ⟨hmaps, hwritable, ?_⟩)
    obtain ⟨hids, hsub⟩ := Schema.identifiers_of_validate h
    have hcount := length_le_of_nodup hids
    refine insertIdentifiers_spec hids hready'.schema (fun id hid => ?_) (fun r hr hrid => ?_)
      (by omega)
    · obtain ⟨f, hf, rfl⟩ := mem_map.mp (hsub hid)
      rw [← s.map_field_places] at hf
      obtain ⟨n, hn, rfl⟩ := mem_map.mp hf
      exact hready'.ids n hn
    · rw [hidents] at hr
      exact absurd hrid (hlacks.identifiers r hr)

/-- **Which valid schemas can be stored.** Inserting a valid schema into tables that do not hold
it violates no constraint exactly when no map that is written has a key and a value of one
name, and the parent that it names is there; for a version that no table holds, or a type that
nests too deep, nothing is stored. -/
theorem storedCleanly_iff (h : s.validate = .ok ()) (hlacks : t.Lacks s.schemaId)
    (hkeys : t.DeferredKeys) :
    StoredCleanly t s version ↔ i64Max < version ∨
      s.MapNamesApart ∧ ((∀ n ∈ s.places, n.Writable) → t.HasParent s) := by
  unfold StoredCleanly
  rcases insertSchema_spec version h hlacks with
    ⟨hversion, message, heq⟩ | ⟨hversion, ⟨hmaps, message, heq⟩ | ⟨hmaps, hdeep, e, heq⟩ |
      ⟨hmaps, hwritable, t', heq⟩⟩
  · simp [heq, hversion]
  · simp [heq, hmaps, hversion]
  · simp [heq, hmaps, hdeep]
  · have hdeferred := deferredKeys_insertSchema hkeys heq
    constructor
    · intro hclean
      exact .inr ⟨hmaps, fun _ => hdeferred.mp (hclean.2 t' heq)⟩
    · rintro (hlt | ⟨-, hparent⟩)
      · omega
      · refine ⟨fun message herror => ?_, fun t₂ hok => ?_⟩
        · cases heq.symm.trans herror
        · obtain rfl := Except.ok.inj (heq.symm.trans hok)
          exact hdeferred.mpr (hparent hwritable)

/-- A schema of one map with given names for its key and its value. -/
def mapSchema (key value : String) : Schema where
  schemaId := 1
  parentSchemaId := none
  fields := [.mk 1 "m" true (.map (.mk 2 key true .int64 none none none)
    (.mk 3 value true .int64 none none none)) none none none]
  identifierFieldIds := []
  doc := none

/-- The empty tables have no rows of any schema. -/
theorem lacks_empty (schemaId : UInt32) : SchemaTables.empty.Lacks schemaId :=
  ⟨fun _ h => absurd h not_mem_nil, fun _ h => absurd h not_mem_nil,
    fun _ h => absurd h not_mem_nil⟩

/-- The empty tables violate no deferred key. -/
theorem deferredKeys_empty : SchemaTables.empty.DeferredKeys :=
  ⟨fun _ h => absurd h not_mem_nil, fun _ h => absurd h not_mem_nil,
    fun _ h => absurd h not_mem_nil⟩

/-- A map with different names can be stored. -/
theorem storedCleanly_map : StoredCleanly SchemaTables.empty (mapSchema "key" "value") 0 := by
  refine (storedCleanly_iff (by decide +kernel) (lacks_empty _) deferredKeys_empty).mpr
    (.inr ⟨?_, fun _ parent hparent => by cases hparent⟩)
  intro g hg key value htype _ _ hname
  have hflatten : (mapSchema "key" "value").flatten = (mapSchema "key" "value").fields ++
      [.mk 2 "key" true .int64 none none none, .mk 3 "value" true .int64 none none none] := rfl
  rw [hflatten] at hg
  rcases mem_cons.mp hg with rfl | hg
  · cases htype
    exact absurd hname (by decide)
  · rcases mem_cons.mp hg with rfl | hg
    · cases htype
    · obtain rfl := mem_singleton.mp hg
      cases htype

/-- A valid schema whose map has a key and a value of one name cannot be stored. -/
theorem not_storedCleanly_map :
    (mapSchema "entry" "entry").validate = .ok () ∧
      SchemaTables.empty.Lacks (mapSchema "entry" "entry").schemaId ∧
      SchemaTables.empty.DeferredKeys ∧
      ¬ StoredCleanly SchemaTables.empty (mapSchema "entry" "entry") 0 := by
  refine ⟨by decide +kernel, lacks_empty _, deferredKeys_empty, fun hclean => ?_⟩
  refine hclean.1 "UNIQUE constraint failed: field name" ?_
  rfl

end Storing

end Otmp
