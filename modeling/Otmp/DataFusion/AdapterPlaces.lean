import Otmp.DataFusion.AdapterBindings

/-!
# Distinct query fields have distinct physical fields

The place of a binding begins with the position of the slot that it lies under. Two siblings are
never bound at one position, because a physical field answers to one recorded field only. Every
query field is bound or lies in an unbound one.
-/

namespace Otmp.DataFusion

open Foundation

/-- The bindings below a field are those of its nested fields, with slots or as they are. -/
theorem mem_bindingsType {place : List ℕ} {t : LogicalType} {kind : Kind} {b : Binding}
    (h : b ∈ bindingsType place t kind) :
    (∃ c ∈ t.children, ∃ slot, b ∈ bindingsField place c slot) ∨
      ∃ i c, t.children[i]? = some c ∧ b ∈ wholeField place i c := by
  have hwhole : kind = .primitive → ∃ i c, t.children[i]? = some c ∧ b ∈ wholeField place i c := by
    rintro rfl
    rw [bindingsType_primitive, wholeType_eq] at h
    obtain ⟨i, c, hc, hb⟩ := mem_wholeFields.mp h
    exact ⟨i, c, hc, by rwa [Nat.zero_add] at hb⟩
  cases kind with
  | primitive => exact .inr (hwhole rfl)
  | struct slots =>
    cases t with
    | struct queries =>
      obtain ⟨⟨c, slot⟩, hzip, hb⟩ := mem_bindingsFields.mp h
      exact .inl ⟨c, (List.of_mem_zip hzip).1, slot, hb⟩
    | _ => cases h
  | list mapping =>
    cases t with
    | list element => exact .inl ⟨element, List.mem_cons_self, _, h⟩
    | _ => cases h
  | map key value =>
    cases t with
    | map k v =>
      obtain hb | hb := List.mem_append.mp h
      · exact .inl ⟨k, List.mem_cons_self, _, hb⟩
      · exact .inl ⟨v, List.mem_cons_of_mem _ List.mem_cons_self, _, hb⟩
    | _ => cases h
  | missing value => cases t <;> cases h

/-- What is taken as it is lies under its position. -/
theorem under_wholeField (f : Field) {place : List ℕ} {index : ℕ} {b : Binding} {p : List ℕ}
    (h : b ∈ wholeField place index f) (hp : b.place = some p) : place ++ [index] <+: p := by
  induction f using Field.induction generalizing place index with
  | h f ih =>
    rw [wholeField_eq] at h
    obtain rfl | h := List.mem_cons.mp h
    · cases hp
      exact List.prefix_refl _
    · rw [wholeType_eq] at h
      obtain ⟨i, c, hc, h⟩ := mem_wholeFields.mp h
      exact (List.prefix_append _ _).trans (ih c (List.mem_of_getElem? hc) h)

/-- The bindings of a field lie under the position of its slot. -/
theorem under_bindingsField (q : Field) {place : List ℕ} {slot : Slot} {b : Binding} {p : List ℕ}
    (h : b ∈ bindingsField place q slot) (hp : b.place = some p) :
    ∃ i, slot.index = some i ∧ place ++ [i] <+: p := by
  induction q using Field.induction generalizing place slot with
  | h q ih =>
    cases slot with
    | mk index mapping =>
      cases index with
      | none =>
        rw [bindingsField_missing] at h
        obtain rfl := List.mem_singleton.mp h
        cases hp
      | some i =>
        refine ⟨i, rfl, ?_⟩
        rw [bindingsField_bound] at h
        obtain rfl | h := List.mem_cons.mp h
        · cases hp
          exact List.prefix_refl _
        · obtain ⟨c, hc, slot, hb⟩ | ⟨j, c, hc, hb⟩ := mem_bindingsType h
          · obtain ⟨j, -, hprefix⟩ := ih c hc hb
            exact (List.prefix_append _ _).trans hprefix
          · exact (List.prefix_append _ _).trans (under_wholeField c hb hp)

/-- The bindings below a field lie under some position below its place. -/
theorem under_bindingsType {place : List ℕ} {t : LogicalType} {kind : Kind} {b : Binding}
    {p : List ℕ} (h : b ∈ bindingsType place t kind) (hp : b.place = some p) :
    ∃ i, place ++ [i] <+: p := by
  obtain ⟨c, -, slot, hb⟩ | ⟨i, c, -, hb⟩ := mem_bindingsType h
  · obtain ⟨i, -, hprefix⟩ := under_bindingsField c hb hp
    exact ⟨i, hprefix⟩
  · exact ⟨i, under_wholeField c hb hp⟩

/-- A place lies under one position only. -/
theorem index_unique {place p : List ℕ} {i j : ℕ} (hi : place ++ [i] <+: p)
    (hj : place ++ [j] <+: p) : i = j := by
  obtain ⟨rest, rfl⟩ := hi
  obtain ⟨rest', h⟩ := hj
  rw [List.append_assoc, List.append_assoc, List.append_cancel_left_eq] at h
  exact ((List.cons.inj h).1).symm

/-- The place of a field is not one below it. -/
theorem not_prefix_self {place : List ℕ} {i : ℕ} : ¬ place ++ [i] <+: place := by
  intro h
  have hlength := h.length_le
  rw [List.length_append, List.length_singleton] at hlength
  omega

/-- Bindings with one place are those of one query field. -/
def Apart (bindings : List Binding) : Prop :=
  ∀ b ∈ bindings, ∀ b' ∈ bindings, ∀ p, b.place = some p → b'.place = some p → b.query = b'.query

/-- A field in front of bindings that lie below it. -/
theorem Apart.cons {q : Field} {place : List ℕ} {below : List Binding} (h : Apart below)
    (hunder : ∀ b ∈ below, ∀ p, b.place = some p → ∃ i, place ++ [i] <+: p) :
    Apart (⟨q, some place⟩ :: below) := by
  intro b hb b' hb' p hp hp'
  obtain rfl | hb := List.mem_cons.mp hb
  · obtain rfl | hb' := List.mem_cons.mp hb'
    · rfl
    · cases hp
      obtain ⟨i, hprefix⟩ := hunder b' hb' _ hp'
      exact absurd hprefix not_prefix_self
  · obtain rfl | hb' := List.mem_cons.mp hb'
    · cases hp'
      obtain ⟨i, hprefix⟩ := hunder b hb _ hp
      exact absurd hprefix not_prefix_self
    · exact h b hb b' hb' p hp hp'

/-- Fields that are taken as they are lie apart. -/
theorem apart_wholeField (f : Field) (place : List ℕ) (index : ℕ) :
    Apart (wholeField place index f) := by
  induction f using Field.induction generalizing place index with
  | h f ih =>
    rw [wholeField_eq]
    refine Apart.cons (fun b hb b' hb' p hp hp' => ?_) fun b hb p hp => ?_
    · rw [wholeType_eq] at hb hb'
      obtain ⟨i, c, hc, hb⟩ := mem_wholeFields.mp hb
      obtain ⟨j, c', hc', hb'⟩ := mem_wholeFields.mp hb'
      have hij : 0 + i = 0 + j :=
        index_unique (under_wholeField c hb hp) (under_wholeField c' hb' hp')
      obtain rfl : i = j := by omega
      obtain rfl : c = c' := Option.some.inj (hc.symm.trans hc')
      exact ih c (List.mem_of_getElem? hc) _ _ b hb b' hb' p hp hp'
    · rw [← bindingsType_primitive] at hb
      exact under_bindingsType hb hp

section Siblings

variable {nullOf : DataType → Option ScalarValue} {queries fields : List Field}
  {source : List ArrowField}

/-- A physical field answers to one of several recorded fields with distinct names. -/
theorem fieldId_eq_of_answers (hnames : (fields.map Field.name).Nodup) {r r' : Field}
    (hr : r ∈ fields) (hr' : r' ∈ fields) {p : ArrowField} (h : Answers r p) (h' : Answers r' p) :
    r.fieldId = r'.fieldId := by
  obtain h | ⟨hname, h⟩ := h
  · obtain h' | ⟨hname', h'⟩ := h'
    · exact Option.some.inj (Except.ok.inj (h.symm.trans h'))
    · cases h.symm.trans h'
  · obtain h' | ⟨hname', h'⟩ := h'
    · cases h.symm.trans h'
    · have heq := List.inj_on_of_nodup_map hnames hr hr' (hname.symm.trans hname')
      rw [heq]

/-- Two slots at one position are those of one query field. -/
theorem IsSlot.eq_of_index (hnames : (fields.map Field.name).Nodup)
    (hids : (queries.map Field.fieldId).Nodup) {q q' : Field} {slot slot' : Slot}
    (hq : q ∈ queries) (hq' : q' ∈ queries) (h : IsSlot nullOf fields source q slot)
    (h' : IsSlot nullOf fields source q' slot') {i : ℕ} (hi : slot.index = some i)
    (hi' : slot'.index = some i) : q = q' ∧ slot = slot' := by
  have hfound : ∀ {q : Field} {slot : Slot}, IsSlot nullOf fields source q slot →
      slot.index = some i → ∃ r ∈ fields, r.fieldId = q.fieldId ∧
        ∃ p, source[i]? = some p ∧ Answers r p := by
    rintro q slot ⟨target, -, hbind⟩ hi
    obtain ⟨r, j, kind, hr, hposition, -, rfl⟩ | ⟨-, hunbound⟩ := bindField_eq_ok.mp hbind
    · obtain rfl : (j : ℕ) = i := Option.some.inj hi
      have hid := List.find?_some hr
      refine ⟨r, List.mem_of_find?_eq_some hr, beq_iff_eq.mp hid, source.get j, ?_,
        ((position_eq_ok.mp hposition).2 j).mp rfl⟩
      rw [List.getElem?_eq_getElem j.isLt]
      rfl
    · obtain ⟨-, -, value, -, rfl⟩ := unbound_eq_ok.mp hunbound
      cases hi
  obtain ⟨r, hr, hid, p, hp, hanswers⟩ := hfound h hi
  obtain ⟨r', hr', hid', p', hp', hanswers'⟩ := hfound h' hi'
  obtain rfl : p = p' := Option.some.inj (hp.symm.trans hp')
  have hsame := fieldId_eq_of_answers hnames hr hr' hanswers hanswers'
  obtain rfl : q = q' :=
    List.inj_on_of_nodup_map hids hq hq' (hid.symm.trans (hsame.trans hid'))
  refine ⟨rfl, ?_⟩
  obtain ⟨target, htarget, hbind⟩ := h
  obtain ⟨target', htarget', hbind'⟩ := h'
  cases htarget.symm.trans htarget'
  cases hbind.symm.trans hbind'
  rfl

/-- A query field whose tree has distinct identifiers, as those of a valid schema have. -/
def HasDistinctIds (q : Field) : Prop := (q.flatten.map Field.fieldId).Nodup

/-- A recorded field all of whose structs have distinctly named fields. -/
def HasDistinctNames (r : Field) : Prop :=
  ∀ g ∈ r.flatten, ∀ fields, g.fieldType = .struct fields → (fields.map Field.name).Nodup

/-- Trees with distinct identifiers have distinct roots, and each of them has distinct
identifiers. -/
theorem nodup_of_flatMap {fields : List Field}
    (h : (fields.flatMap fun c => c.flatten.map Field.fieldId).Nodup) :
    (fields.map Field.fieldId).Nodup ∧ ∀ c ∈ fields, HasDistinctIds c := by
  obtain ⟨hall, hdisjoint⟩ := List.nodup_flatMap.mp h
  refine ⟨List.pairwise_map.mpr (hdisjoint.imp fun {c c'} hapart heq => ?_), hall⟩
  have hroot : ∀ f : Field, f.fieldId ∈ f.flatten.map Field.fieldId := fun f => by
    rw [Field.flatten_eq]
    exact List.mem_cons_self
  exact hapart (hroot c) (heq ▸ hroot c')

/-- Distinct identifiers throughout a field are distinct among its nested fields and within each. -/
theorem HasDistinctIds.children {q : Field} (h : HasDistinctIds q) :
    (q.children.map Field.fieldId).Nodup ∧ ∀ c ∈ q.children, HasDistinctIds c := by
  rw [HasDistinctIds, Field.flatten_eq, List.map_cons, List.map_flatMap] at h
  exact nodup_of_flatMap (List.nodup_cons.mp h).2

/-- Distinct names throughout a field are distinct throughout each nested field. -/
theorem HasDistinctNames.child {r c : Field} (h : HasDistinctNames r) (hc : c ∈ r.children) :
    HasDistinctNames c := by
  intro g hg
  refine h g ?_
  rw [Field.flatten_eq]
  exact List.mem_cons_of_mem _ (List.mem_flatMap.mpr ⟨c, hc, hg⟩)

/-- The bindings below a bound field lie apart, so that no physical field is read for two query
fields. -/
def ApartBelow (nullOf : DataType → Option ScalarValue) (q : Field) : Prop :=
  ∀ {name : String} {r : Field} {source target : DataType} {kind : Kind} (place : List ℕ),
    HasDistinctIds q → HasDistinctNames r → LogicalType.toArrow q.fieldType = .ok target →
    bindType nullOf name q.fieldType r.fieldType source target = .ok kind →
    Apart (bindingsType place q.fieldType kind)

/-- The bindings of a bound field lie apart when those below it do. -/
theorem apart_bindingsField {q : Field} {place : List ℕ} {index : ℕ} {mapping : Mapping}
    (h : Apart (bindingsType (place ++ [index]) q.fieldType mapping.kind)) :
    Apart (bindingsField place q (.mk (some index) mapping)) := by
  rw [bindingsField_bound]
  exact h.cons fun b hb p hp => under_bindingsType hb hp

/-- A slot of a query field has bindings that lie apart. -/
theorem IsSlot.apart {q : Field} {slot : Slot} (h : IsSlot nullOf fields source q slot)
    (ih : ApartBelow nullOf q) (hids : HasDistinctIds q)
    (hnames : ∀ r ∈ fields, HasDistinctNames r) (place : List ℕ) :
    Apart (bindingsField place q slot) := by
  obtain ⟨target, htarget, hbind⟩ := h
  obtain ⟨dataType, htype, rfl⟩ := fieldToArrow_eq_ok.mp htarget
  obtain ⟨r, j, kind, hr, -, hkind, rfl⟩ | ⟨-, hunbound⟩ := bindField_eq_ok.mp hbind
  · exact apart_bindingsField (ih _ hids (hnames r (List.mem_of_find?_eq_some hr)) htype hkind)
  · obtain ⟨-, -, value, -, rfl⟩ := unbound_eq_ok.mp hunbound
    rw [bindingsField_missing]
    intro b hb b' hb' p hp
    obtain rfl := List.mem_singleton.mp hb
    cases hp

/-- Sibling fields are bound apart when their identifiers differ and each of them is bound apart
below itself. -/
theorem apart_siblings {slots : List Slot} (ih : ∀ c ∈ queries, ApartBelow nullOf c)
    (hids : (queries.map Field.fieldId).Nodup) (hbelow : ∀ c ∈ queries, HasDistinctIds c)
    (hnames : (fields.map Field.name).Nodup) (hrecorded : ∀ r ∈ fields, HasDistinctNames r)
    (hslots : List.Forall₂ (IsSlot nullOf fields source) queries slots) (place : List ℕ) :
    Apart (bindingsFields place queries slots) := by
  intro b hb b' hb' p hp hp'
  obtain ⟨⟨q, slot⟩, hzip, hmem⟩ := mem_bindingsFields.mp hb
  obtain ⟨⟨q', slot'⟩, hzip', hmem'⟩ := mem_bindingsFields.mp hb'
  obtain ⟨i, hi, hprefix⟩ := under_bindingsField q hmem hp
  obtain ⟨j, hj, hprefix'⟩ := under_bindingsField q' hmem' hp'
  obtain rfl := index_unique hprefix hprefix'
  have hslot := List.forall₂_zip hslots hzip
  have hq : q ∈ queries := (List.of_mem_zip hzip).1
  obtain ⟨rfl, rfl⟩ := hslot.eq_of_index hnames hids hq (List.of_mem_zip hzip').1
    (List.forall₂_zip hslots hzip') hi hj
  exact hslot.apart (ih q hq) (hbelow q hq) hrecorded place b hmem b' hmem' p hp hp'

/-- A field at its intrinsic position has bindings that lie apart. -/
theorem apart_element {c r : Field} {element : ArrowField} {slot : Slot} {index : ℕ}
    (ih : ApartBelow nullOf c) (hids : HasDistinctIds c) (hnames : HasDistinctNames r)
    (hslot : IsElement nullOf r element index c slot) (place : List ℕ) :
    slot.index = some index ∧ Apart (bindingsField place c slot) := by
  obtain ⟨target, htarget, hbind⟩ := hslot
  obtain ⟨-, -, kind, hkind, rfl⟩ := bindCollection_eq_ok.mp hbind
  obtain ⟨dataType, htype, rfl⟩ := fieldToArrow_eq_ok.mp htarget
  exact ⟨rfl, apart_bindingsField (ih _ hids hnames htype hkind)⟩

/-- The bindings below a bound field lie apart. -/
theorem apartBelow (q : Field) : ApartBelow nullOf q := by
  induction q using Field.induction with
  | h q ih =>
    intro name r source target kind place hids hnames htarget hbind
    obtain ⟨hchildIds, hbelow⟩ := hids.children
    obtain ⟨qs, rs, ss, slots, hq, hrt, hs, hslots, rfl⟩ |
      ⟨qe, re, se, mapping, hq, hrt, hs, hslot, rfl⟩ |
      ⟨qk, qv, rk, rv, source, sorted, sk, sv, key, value, hq, hrt, hs, hss, hkey, hvalue, rfl⟩ |
      ⟨rfl, -, -⟩ := bound_cases htarget hbind
    · have hchildren : q.children = qs := congrArg LogicalType.children hq
      have hrchildren : r.children = rs := congrArg LogicalType.children hrt
      rw [hq]
      refine apart_siblings (fun c hc => ih c (hchildren ▸ hc)) (hchildren ▸ hchildIds)
        (fun c hc => hbelow c (hchildren ▸ hc)) (hnames r ?_ rs hrt)
        (fun c hc => hnames.child (hrchildren ▸ hc)) hslots place
      rw [Field.flatten_eq]
      exact List.mem_cons_self
    · have hchildren : q.children = [qe] := congrArg LogicalType.children hq
      have hrchildren : r.children = [re] := congrArg LogicalType.children hrt
      have hmem : qe ∈ q.children := hchildren ▸ List.mem_cons_self
      rw [hq]
      exact (apart_element (ih qe hmem) (hbelow qe hmem)
        (hnames.child (hrchildren ▸ List.mem_cons_self)) hslot place).2
    · have hchildren : q.children = [qk, qv] := congrArg LogicalType.children hq
      have hrchildren : r.children = [rk, rv] := congrArg LogicalType.children hrt
      have hkmem : qk ∈ q.children := hchildren ▸ List.mem_cons_self
      have hvmem : qv ∈ q.children := hchildren ▸ List.mem_cons_of_mem _ List.mem_cons_self
      obtain ⟨hkeyIndex, hkeyApart⟩ := apart_element (ih qk hkmem) (hbelow qk hkmem)
        (hnames.child (hrchildren ▸ List.mem_cons_self)) hkey place
      obtain ⟨hvalueIndex, hvalueApart⟩ := apart_element (ih qv hvmem) (hbelow qv hvmem)
        (hnames.child (hrchildren ▸ List.mem_cons_of_mem _ List.mem_cons_self)) hvalue place
      have hcross : ∀ {b b' : Binding} {p : List ℕ}, b ∈ bindingsField place qk key →
          b' ∈ bindingsField place qv value → b.place = some p → b'.place = some p → False := by
        intro b b' p hb hb' hp hp'
        obtain ⟨i, hi, hprefix⟩ := under_bindingsField qk hb hp
        obtain ⟨j, hj, hprefix'⟩ := under_bindingsField qv hb' hp'
        cases hkeyIndex.symm.trans hi
        cases hvalueIndex.symm.trans hj
        exact absurd (index_unique hprefix hprefix') (by decide)
      rw [hq]
      intro b hb b' hb' p hp hp'
      obtain hb | hb := List.mem_append.mp hb
      · obtain hb' | hb' := List.mem_append.mp hb'
        · exact hkeyApart b hb b' hb' p hp hp'
        · exact (hcross hb hb' hp hp').elim
      · obtain hb' | hb' := List.mem_append.mp hb'
        · exact (hcross hb' hb hp' hp).elim
        · exact hvalueApart b hb b' hb' p hp hp'
    · rw [bindingsType_primitive, wholeType_eq]
      intro b hb b' hb' p hp hp'
      obtain ⟨i, c, hc, hb⟩ := mem_wholeFields.mp hb
      obtain ⟨j, c', hc', hb'⟩ := mem_wholeFields.mp hb'
      have hij := index_unique (under_wholeField c hb hp) (under_wholeField c' hb' hp')
      obtain rfl : i = j := by omega
      obtain rfl : c = c' := Option.some.inj (hc.symm.trans hc')
      exact apart_wholeField c _ _ b hb b' hb' p hp hp'

/-- A query field is bound or unbound itself, or lies in an unbound field. -/
def Covers (bindings : List Binding) (f : Field) : Prop :=
  ∃ b ∈ bindings, b.query = f ∨ b.place = none ∧ f ∈ b.query.flatten

/-- A field that is covered by some bindings is covered by more of them. -/
theorem Covers.mono {bindings bindings' : List Binding} {f : Field} (h : Covers bindings f)
    (hsub : bindings ⊆ bindings') : Covers bindings' f := by
  obtain ⟨b, hb, hf⟩ := h
  exact ⟨b, hsub hb, hf⟩

/-- The fields below a bound field are covered: each is bound or unbound itself, or lies in an
unbound field. -/
def CoversBelow (nullOf : DataType → Option ScalarValue) (q : Field) : Prop :=
  ∀ {name : String} {r : LogicalType} {source target : DataType} {kind : Kind} (place : List ℕ),
    LogicalType.toArrow q.fieldType = .ok target →
    bindType nullOf name q.fieldType r source target = .ok kind →
    ∀ f ∈ q.children.flatMap Field.flatten, Covers (bindingsType place q.fieldType kind) f

/-- A field that is taken as it is covers its tree. -/
theorem covers_wholeField (q : Field) (place : List ℕ) (index : ℕ) :
    ∀ f ∈ q.flatten, Covers (wholeField place index q) f := by
  induction q using Field.induction generalizing place index with
  | h q ih =>
    rw [wholeField_eq, Field.flatten_eq, List.forall_mem_cons]
    refine ⟨⟨_, List.mem_cons_self, .inl rfl⟩, fun f hf => ?_⟩
    obtain ⟨c, hc, hf⟩ := List.mem_flatMap.mp hf
    obtain ⟨i, hi⟩ := List.getElem?_of_mem hc
    refine (ih c hc (place ++ [index]) (0 + i) f hf).mono fun b hb => List.mem_cons_of_mem _ ?_
    rw [wholeType_eq, mem_wholeFields]
    exact ⟨i, c, hi, hb⟩

/-- A bound field covers its tree when it covers what is below it. -/
theorem covers_bound {q : Field} {place : List ℕ} {index : ℕ} {mapping : Mapping}
    (h : ∀ f ∈ q.children.flatMap Field.flatten,
      Covers (bindingsType (place ++ [index]) q.fieldType mapping.kind) f) :
    ∀ f ∈ q.flatten, Covers (bindingsField place q (.mk (some index) mapping)) f := by
  rw [bindingsField_bound, Field.flatten_eq, List.forall_mem_cons]
  exact ⟨⟨_, List.mem_cons_self, .inl rfl⟩, fun f hf =>
    (h f hf).mono fun b hb => List.mem_cons_of_mem _ hb⟩

/-- A slot covers the tree of its query field. -/
theorem IsSlot.covers {q : Field} {slot : Slot} (h : IsSlot nullOf fields source q slot)
    (ih : CoversBelow nullOf q) (place : List ℕ) :
    ∀ f ∈ q.flatten, Covers (bindingsField place q slot) f := by
  obtain ⟨target, htarget, hbind⟩ := h
  obtain ⟨dataType, htype, rfl⟩ := fieldToArrow_eq_ok.mp htarget
  obtain ⟨r, j, kind, hr, -, hkind, rfl⟩ | ⟨-, hunbound⟩ := bindField_eq_ok.mp hbind
  · exact covers_bound (ih _ htype hkind)
  · obtain ⟨-, -, value, -, rfl⟩ := unbound_eq_ok.mp hunbound
    rw [bindingsField_missing]
    exact fun f hf => ⟨_, List.mem_cons_self, .inr ⟨rfl, hf⟩⟩

/-- A slot at an intrinsic position covers the tree of its query field. -/
theorem IsElement.covers {q r : Field} {p : ArrowField} {index : ℕ} {slot : Slot}
    (h : IsElement nullOf r p index q slot) (ih : CoversBelow nullOf q) (place : List ℕ) :
    ∀ f ∈ q.flatten, Covers (bindingsField place q slot) f := by
  obtain ⟨target, htarget, hbind⟩ := h
  obtain ⟨-, -, kind, hkind, rfl⟩ := bindCollection_eq_ok.mp hbind
  obtain ⟨dataType, htype, rfl⟩ := fieldToArrow_eq_ok.mp htarget
  exact covers_bound (ih _ htype hkind)

/-- Slots of siblings cover their trees when each of them covers what is below it. -/
theorem covers_siblings {slots : List Slot} (ih : ∀ c ∈ queries, CoversBelow nullOf c)
    (hslots : List.Forall₂ (IsSlot nullOf fields source) queries slots) (place : List ℕ) :
    ∀ f ∈ queries.flatMap Field.flatten, Covers (bindingsFields place queries slots) f := by
  intro f hf
  obtain ⟨c, hc, hf⟩ := List.mem_flatMap.mp hf
  obtain ⟨i, hi⟩ := List.getElem?_of_mem hc
  obtain ⟨slot, hslot, his⟩ := getElem?_of_forall₂ hslots hi
  refine (his.covers (ih c hc) place f hf).mono fun b hb => ?_
  refine mem_bindingsFields.mpr ⟨(c, slot), List.mem_of_getElem? (i := i) ?_, hb⟩
  rw [List.getElem?_zip_eq_some]
  exact ⟨hi, hslot⟩

/-- **Every query field is accounted for.** Below a bound field, each query field is bound or
unbound itself, or lies in an unbound one. -/
theorem coversBelow (q : Field) : CoversBelow nullOf q := by
  induction q using Field.induction with
  | h q ih =>
    intro name r source target kind place htarget hbind
    obtain ⟨qs, rs, ss, slots, hq, -, -, hslots, rfl⟩ |
      ⟨qe, re, se, mapping, hq, -, -, hslot, rfl⟩ |
      ⟨qk, qv, rk, rv, source, sorted, sk, sv, key, value, hq, -, -, -, hkey, hvalue, rfl⟩ |
      ⟨rfl, -, -⟩ := bound_cases htarget hbind
    · have hchildren : q.children = qs := congrArg LogicalType.children hq
      rw [hq, hchildren]
      exact covers_siblings (fun c hc => ih c (hchildren ▸ hc)) hslots place
    · have hchildren : q.children = [qe] := congrArg LogicalType.children hq
      rw [hq, hchildren]
      intro f hf
      rw [List.flatMap_singleton] at hf
      exact hslot.covers (ih qe (hchildren ▸ List.mem_cons_self)) place f hf
    · have hchildren : q.children = [qk, qv] := congrArg LogicalType.children hq
      rw [hq, hchildren]
      intro f hf
      rw [List.flatMap_cons, List.flatMap_singleton] at hf
      obtain hf | hf := List.mem_append.mp hf
      · exact (hkey.covers (ih qk (hchildren ▸ List.mem_cons_self)) place f hf).mono
          (List.subset_append_left _ _)
      · exact (hvalue.covers (ih qv (hchildren ▸ List.mem_cons_of_mem _ List.mem_cons_self)) place f
          hf).mono (List.subset_append_right _ _)
    · rw [bindingsType_primitive, wholeType_eq]
      intro f hf
      obtain ⟨c, hc, hf⟩ := List.mem_flatMap.mp hf
      obtain ⟨i, hi⟩ := List.getElem?_of_mem hc
      refine (covers_wholeField c place (0 + i) f hf).mono fun b hb => ?_
      exact mem_wholeFields.mpr ⟨i, c, hi, hb⟩

end Siblings

end Otmp.DataFusion
