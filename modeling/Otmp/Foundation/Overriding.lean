import Mathlib.Data.List.Nodup
import Mathlib.Data.List.TakeWhile
import Otmp.Foundation.Sorting

/-!
# Lists overridden by changes

The items of an ascending list that are kept are overridden by changes when an item of a changed
key gives way to the change. What overrides two lists side by side overrides them part by part, as
long as the keys of the first part, old and changed, come before those of the second.
-/

namespace Foundation

open List

variable {α : Type*}

/-- A list holds the changes, and the old items that are kept and whose keys are not changed. -/
structure Overrides (key : α → ℕ) (keep : α → Prop) (old changes new : List α) : Prop where
  ascending : new.Pairwise fun a b => key a < key b
  mem_iff : ∀ a, a ∈ new ↔ a ∈ changes ∨ a ∈ old ∧ keep a ∧ ∀ c ∈ changes, key c ≠ key a

namespace Overrides

variable {key : α → ℕ} {keep : α → Prop} {old changes new old' changes' new' : List α}

/-- A list that is kept as a whole overrides itself. -/
theorem kept (hsorted : old.Pairwise fun a b => key a < key b) (hkeep : ∀ a ∈ old, keep a) :
    Overrides key keep old [] old := by
  refine ⟨hsorted, fun a => ⟨fun ha => .inr ⟨ha, hkeep a ha, nofun⟩, ?_⟩⟩
  rintro (ha | ⟨ha, -, -⟩)
  · cases ha
  · exact ha

/-- Nothing is left when no item is kept or changed. -/
theorem dropped (hkeep : ∀ a ∈ old, ¬keep a) : Overrides key keep old [] [] := by
  refine ⟨Pairwise.nil, fun a => ⟨nofun, ?_⟩⟩
  rintro (ha | ⟨ha, hkept, -⟩)
  · exact ha
  · exact absurd hkept (hkeep a ha)

/-- Lists side by side are overridden part by part. -/
theorem append (h : Overrides key keep old changes new) (h' : Overrides key keep old' changes' new')
    (hbefore : ∀ a ∈ old ++ changes, ∀ b ∈ old' ++ changes', key a < key b) :
    Overrides key keep (old ++ old') (changes ++ changes') (new ++ new') := by
  have hfirst : ∀ a ∈ new, a ∈ old ++ changes := fun a ha => by
    obtain hchange | ⟨hold, -⟩ := (h.mem_iff a).mp ha
    · exact mem_append_right _ hchange
    · exact mem_append_left _ hold
  have hsecond : ∀ a ∈ new', a ∈ old' ++ changes' := fun a ha => by
    obtain hchange | ⟨hold, -⟩ := (h'.mem_iff a).mp ha
    · exact mem_append_right _ hchange
    · exact mem_append_left _ hold
  refine ⟨pairwise_append.mpr ⟨h.ascending, h'.ascending, fun a ha b hb =>
    hbefore a (hfirst a ha) b (hsecond b hb)⟩, fun a => ?_⟩
  rw [mem_append, mem_append, mem_append, h.mem_iff, h'.mem_iff]
  constructor
  · rintro ((ha | ⟨ha, hkeep, hunchanged⟩) | (ha | ⟨ha, hkeep, hunchanged⟩))
    · exact .inl (.inl ha)
    · refine .inr ⟨.inl ha, hkeep, fun c hc => ?_⟩
      obtain hc | hc := mem_append.mp hc
      · exact hunchanged c hc
      · have hlt := hbefore a (mem_append_left _ ha) c (mem_append_right _ hc)
        omega
    · exact .inl (.inr ha)
    · refine .inr ⟨.inr ha, hkeep, fun c hc => ?_⟩
      obtain hc | hc := mem_append.mp hc
      · have hlt := hbefore c (mem_append_right _ hc) a (mem_append_left _ ha)
        omega
      · exact hunchanged c hc
  · rintro ((ha | ha) | ⟨ha | ha, hkeep, hunchanged⟩)
    · exact .inl (.inl ha)
    · exact .inr (.inl ha)
    · exact .inl (.inr ⟨ha, hkeep, fun c hc => hunchanged c (mem_append_left _ hc)⟩)
    · exact .inr (.inr ⟨ha, hkeep, fun c hc => hunchanged c (mem_append_right _ hc)⟩)

end Overrides

section Split

variable {key : α → ℕ} {items : List α} {k : ℕ}

/-- What is behind the first items up to a key has greater keys. -/
theorem lt_of_mem_dropWhile (h : items.Pairwise fun a b => key a < key b) :
    ∀ a ∈ items.dropWhile fun a => decide (key a ≤ k), k < key a := by
  induction items with
  | nil => nofun
  | cons first items ih =>
    obtain ⟨hfirst, h⟩ := pairwise_cons.mp h
    rw [dropWhile_cons]
    split
    · exact ih h
    · next hbehind =>
      have hlt : k < key first := by simpa using hbehind
      exact forall_mem_cons.mpr ⟨hlt, fun a ha => hlt.trans (hfirst a ha)⟩

/-- An ascending list is cut at a key. -/
theorem cut_at_key (h : items.Pairwise fun a b => key a < key b) {count : ℕ}
    (hcount : count = (items.takeWhile fun a => decide (key a ≤ k)).length) :
    (∀ a ∈ items.take count, key a ≤ k) ∧ ∀ a ∈ items.drop count, k < key a := by
  have hparts := takeWhile_append_dropWhile (p := fun a => decide (key a ≤ k)) (l := items)
  have htake : (takeWhile (fun a => decide (key a ≤ k)) items ++
      dropWhile (fun a => decide (key a ≤ k)) items).take count = _ := take_left' hcount.symm
  have hdrop : (takeWhile (fun a => decide (key a ≤ k)) items ++
      dropWhile (fun a => decide (key a ≤ k)) items).drop count = _ := drop_left' hcount.symm
  rw [hparts] at htake hdrop
  rw [htake, hdrop]
  exact ⟨fun a ha => of_decide_eq_true (mem_takeWhile_imp (p := fun a => decide (key a ≤ k)) ha),
    lt_of_mem_dropWhile h⟩

end Split

section Tables

variable {key : α → ℕ} {keep : α → Bool} {old changes : List α}

/-- The items of a list under their keys, in the order of the list. -/
def keyedBy (key : α → ℕ) (items : List α) : List (ℕ × α) := items.map fun a => (key a, a)

/-- An item stands under its key. -/
theorem mem_keyedBy {items : List α} {k : ℕ} {a : α} :
    (k, a) ∈ keyedBy key items ↔ a ∈ items ∧ key a = k := by
  simp only [keyedBy, mem_map, Prod.mk.injEq]
  constructor
  · rintro ⟨b, hb, hkey, rfl⟩
    exact ⟨hb, hkey⟩
  · rintro ⟨ha, hkey⟩
    exact ⟨a, ha, hkey, rfl⟩

/-- Items in the order of their keys have different keys. -/
theorem nodup_keyedBy {items : List α} (h : items.Pairwise fun a b => key a < key b) :
    ((keyedBy key items).map Prod.fst).Nodup := by
  rw [keyedBy, map_map]
  exact (pairwise_map.mpr h).imp Nat.ne_of_lt

/-- The lookups of a table after items of distinct keys are inserted. -/
theorem getElem?_insertMany {m : Std.ExtTreeMap ℕ α compare} {l : List (ℕ × α)}
    (hdistinct : (l.map Prod.fst).Nodup) {k : ℕ} {a : α} :
    (m.insertMany l)[k]? = some a ↔ (k, a) ∈ l ∨ m[k]? = some a ∧ k ∉ l.map Prod.fst := by
  have hpair : l.Pairwise fun a b => ¬compare a.1 b.1 = .eq := by
    rw [Nodup, pairwise_map] at hdistinct
    exact hdistinct.imp fun hne heq => hne (Std.LawfulEqCmp.compare_eq_iff_eq.mp heq)
  by_cases hk : k ∈ l.map Prod.fst
  · obtain ⟨⟨k', b⟩, hmem, rfl⟩ := mem_map.mp hk
    rw [Std.ExtTreeMap.getElem?_insertMany_list_of_mem Std.ReflCmp.compare_self hpair hmem]
    constructor
    · rintro heq
      cases heq
      exact .inl hmem
    · rintro (ha | ⟨-, hnot⟩)
      · by_contra hne
        have hunique := inj_on_of_nodup_map hdistinct hmem ha rfl
        cases hunique
        exact hne rfl
      · exact absurd hk hnot
  · rw [Std.ExtTreeMap.getElem?_insertMany_list_of_contains_eq_false (by simpa using hk)]
    constructor
    · intro ha
      exact .inr ⟨ha, hk⟩
    · rintro (ha | ⟨ha, -⟩)
      · exact absurd (mem_map_of_mem (f := Prod.fst) ha) hk
      · exact ha

/-- The values of a table of the kept items, after the changes are inserted, override the list. -/
theorem overrides_insertMany (hold : old.Pairwise fun a b => key a < key b)
    (hchanges : changes.Pairwise fun a b => key a < key b) :
    Overrides key (fun a => keep a = true) old changes
      (((Std.ExtTreeMap.ofList (keyedBy key (old.filter keep)) compare).insertMany
        (keyedBy key changes)).toList.map Prod.snd) := by
  have hlookup : ∀ k a, (k, a) ∈ ((Std.ExtTreeMap.ofList (keyedBy key (old.filter keep))
      compare).insertMany (keyedBy key changes)).toList ↔
      key a = k ∧ (a ∈ changes ∨ a ∈ old ∧ keep a = true ∧ ∀ c ∈ changes, key c ≠ key a) := by
    intro k a
    rw [Std.ExtTreeMap.mem_toList_iff_getElem?_eq_some,
      getElem?_insertMany (nodup_keyedBy hchanges),
      getElem?_ofList (nodup_keyedBy (hold.sublist filter_sublist)), mem_keyedBy, mem_keyedBy,
      mem_filter]
    have hkeys : k ∉ (keyedBy key changes).map Prod.fst ↔ ∀ c ∈ changes, key c ≠ k := by
      simp [keyedBy]
    rw [hkeys]
    constructor
    · rintro (⟨ha, rfl⟩ | ⟨⟨⟨ha, hkeep⟩, rfl⟩, hunchanged⟩)
      · exact ⟨rfl, .inl ha⟩
      · exact ⟨rfl, .inr ⟨ha, hkeep, hunchanged⟩⟩
    · rintro ⟨rfl, ha | ⟨ha, hkeep, hunchanged⟩⟩
      · exact .inl ⟨ha, rfl⟩
      · exact .inr ⟨⟨⟨ha, hkeep⟩, rfl⟩, hunchanged⟩
  constructor
  · rw [pairwise_map]
    refine (Std.ExtTreeMap.ordered_keys_toList).imp_of_mem fun {p q} hp hq hlt => ?_
    rw [((hlookup p.1 p.2).mp hp).1, ((hlookup q.1 q.2).mp hq).1]
    exact Nat.compare_eq_lt.mp hlt
  · intro a
    rw [mem_map]
    constructor
    · rintro ⟨⟨k, b⟩, hmem, rfl⟩
      exact ((hlookup k b).mp hmem).2
    · intro ha
      exact ⟨(key a, a), (hlookup _ _).mpr ⟨rfl, ha⟩, rfl⟩

end Tables

end Foundation
