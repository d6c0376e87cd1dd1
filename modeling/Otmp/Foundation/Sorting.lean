import Mathlib.Data.List.Sort
import Std.Data.ExtTreeMap

/-!
# Sorting by a key, and the entries of an ordered map

A stable sort by a numeric key puts a list into the one strictly ascending order
that is a permutation of it. An ordered map lists its entries by ascending key, so
a map built from entries with distinct keys is a permutation of them.
-/

namespace Foundation

open List

variable {α κ ν : Type*}

/-- Stable sort by a numeric key, as the code's sort by key is. -/
def sortByKey (key : α → ℕ) (l : List α) : List α := l.insertionSort fun a b => key a ≤ key b

/-- Two permutations of a list that both ascend strictly in a key are equal. -/
theorem eq_of_perm_of_ascending {key : α → ℕ} {l e : List α} (h : l ~ e)
    (hl : l.Pairwise fun a b => key a < key b) (he : e.Pairwise fun a b => key a < key b) :
    l = e :=
  h.eq_of_pairwise (fun _ _ _ _ hab hba => absurd (hab.trans hba) (lt_irrefl _)) hl he

/-- In a list with ascending keys the key says which element it is. -/
private theorem eq_of_key_eq {key : α → ℕ} {e : List α}
    (he : e.Pairwise fun a b => key a < key b) {a b : α} (ha : a ∈ e) (hb : b ∈ e)
    (hkey : key a = key b) : a = b := by
  have hnodup : (e.map key).Nodup := by
    rw [Nodup, pairwise_map]
    exact he.imp fun h => h.ne
  exact inj_on_of_nodup_map hnodup ha hb hkey

/-- Sorting gives the strictly ascending permutation, when there is one. -/
theorem sortByKey_eq {key : α → ℕ} {l e : List α} (h : l ~ e)
    (he : e.Pairwise fun a b => key a < key b) : sortByKey key l = e := by
  have hperm : sortByKey key l ~ e := (perm_insertionSort _ l).trans h
  have htotal : Std.Total fun a b : α => key a ≤ key b := ⟨fun a b => Nat.le_total _ _⟩
  have htrans : IsTrans α fun a b : α => key a ≤ key b := ⟨fun a b c => Nat.le_trans⟩
  have hsorted : (sortByKey key l).Pairwise fun a b => key a ≤ key b :=
    pairwise_insertionSort _ l
  refine List.Perm.eq_of_pairwise (fun a b ha hb hab hba => ?_) hsorted (he.imp Nat.le_of_lt) hperm
  exact eq_of_key_eq he (hperm.mem_iff.mp ha) hb (Nat.le_antisymm hab hba)

/-- Sorting by a key rearranges the list. -/
theorem sortByKey_perm (key : α → ℕ) (l : List α) : sortByKey key l ~ l := perm_insertionSort _ l

/-- Sorting commutes with a map that carries the key. -/
theorem sortByKey_map {β : Type*} (key : β → ℕ) (f : α → β) (l : List α) :
    sortByKey key (l.map f) = (sortByKey (fun a => key (f a)) l).map f :=
  (map_insertionSort _ _ f l fun _ _ _ _ => Iff.rfl).symm

section Maps

variable [Ord κ] [Std.TransOrd κ] [Std.LawfulEqOrd κ]

/-- The entries of a map with the same lookups as a list of distinct keys. -/
theorem toList_perm {m : Std.ExtTreeMap κ ν compare} {l : List (κ × ν)}
    (hdistinct : (l.map Prod.fst).Nodup) (h : ∀ k v, m[k]? = some v ↔ (k, v) ∈ l) :
    m.toList ~ l := by
  have hkeys : m.toList.Pairwise fun a b => a ≠ b := by
    apply m.distinct_keys_toList.imp
    rintro a b hab rfl
    exact hab (Std.LawfulEqCmp.compare_eq_iff_eq.mpr rfl)
  apply (perm_ext_iff_of_nodup hkeys (Nodup.of_map _ hdistinct)).mpr
  rintro ⟨k, v⟩
  rw [Std.ExtTreeMap.mem_toList_iff_getElem?_eq_some, h]

/-- The lookups of a map built from a list of distinct keys. -/
theorem getElem?_ofList [DecidableEq κ] {l : List (κ × ν)} (hdistinct : (l.map Prod.fst).Nodup)
    {k : κ} {v : ν} :
    (Std.ExtTreeMap.ofList l compare)[k]? = some v ↔ (k, v) ∈ l := by
  have hpair : l.Pairwise fun a b => ¬compare a.1 b.1 = .eq := by
    rw [Nodup, pairwise_map] at hdistinct
    exact hdistinct.imp fun hne heq => hne (Std.LawfulEqCmp.compare_eq_iff_eq.mp heq)
  constructor
  · intro hsome
    by_cases hk : k ∈ l.map Prod.fst
    · obtain ⟨⟨k', v'⟩, hmem, rfl⟩ := mem_map.mp hk
      rw [Std.ExtTreeMap.getElem?_ofList_of_mem (Std.ReflCmp.compare_self) hpair hmem] at hsome
      cases hsome
      exact hmem
    · have hnone : (Std.ExtTreeMap.ofList l compare)[k]? = none := by
        apply Std.ExtTreeMap.getElem?_eq_none
        rw [Std.ExtTreeMap.mem_ofList, List.contains_iff_mem]
        exact hk
      rw [hnone] at hsome
      cases hsome
  · intro hmem
    exact Std.ExtTreeMap.getElem?_ofList_of_mem (Std.ReflCmp.compare_self) hpair hmem

/-- A map does not depend on the order of the entries it is built from. -/
theorem ofList_eq_of_perm [DecidableEq κ] {l e : List (κ × ν)} (h : l ~ e)
    (hdistinct : (l.map Prod.fst).Nodup) :
    Std.ExtTreeMap.ofList l compare = Std.ExtTreeMap.ofList e compare := by
  apply Std.ExtTreeMap.ext_getElem?
  intro k
  apply Option.ext
  intro v
  rw [getElem?_ofList hdistinct, getElem?_ofList ((h.map Prod.fst).nodup_iff.mp hdistinct),
    h.mem_iff]

end Maps

end Foundation
