import Mathlib.Data.List.Basic
import Mathlib.Data.List.Perm.Basic
import Mathlib.Logic.Function.Basic

/-!
# Stores of versioned objects and claims to them

Objects are created under keys that are free and deleted when they still have an expected version.
Each owner keeps a list of the objects that it may still delete or use. When owners only list what
they created, a deletion never touches an object that somebody else lists.
-/

namespace Foundation

variable {ι κ T : Type*}

/-- A stored object, with its version and the owner who created it. -/
structure StoredObject (ι T : Type*) where
  version : T
  creator : ι

/-- A store of objects by their keys, where each object knows its version and its creator. -/
abbrev ObjectStore (ι κ T : Type*) := κ → Option (StoredObject ι T)

namespace ObjectStore

variable [DecidableEq κ]

/-- Create an object under a key, with the creator on record. -/
def create (s : ObjectStore ι κ T) (key : κ) (version : T) (creator : ι) : ObjectStore ι κ T :=
  Function.update s key (some ⟨version, creator⟩)

/-- A created object is stored with its version and its creator. -/
theorem create_self {s : ObjectStore ι κ T} {key : κ} {version : T} {creator : ι} :
    s.create key version creator key = some ⟨version, creator⟩ :=
  Function.update_self _ _ _

/-- Delete an object if it has a version; an object of another version is left alone. -/
def deleteIfVersion [DecidableEq T] (s : ObjectStore ι κ T) (key : κ) (version : T) :
    ObjectStore ι κ T :=
  if (s key).map StoredObject.version = some version then Function.update s key none else s

end ObjectStore

/-- Every listed object is stored in its version and was created by who lists it, and nobody lists
a key twice. -/
structure Claims (s : ObjectStore ι κ T) (claims : ι → List (κ × T)) : Prop where
  nodup : ∀ i, ((claims i).map Prod.fst).Nodup
  stored : ∀ i, ∀ c ∈ claims i, s c.1 = some ⟨c.2, i⟩

/-- Every object is listed by its creator, so that no object is left without an owner. -/
def Accounted (s : ObjectStore ι κ T) (claims : ι → List (κ × T)) : Prop :=
  ∀ key o, s key = some o → key ∈ (claims o.creator).map Prod.fst

namespace Claims

variable {s : ObjectStore ι κ T} {claims claims' : ι → List (κ × T)} {i : ι} {key : κ} {version : T}

/-- Nobody lists a key that is free. -/
theorem not_mem_of_free (h : Claims s claims) (hfree : s key = none) (j : ι) :
    key ∉ (claims j).map Prod.fst := by
  intro hmem
  obtain ⟨c, hc, rfl⟩ := List.mem_map.mp hmem
  rw [h.stored j c hc] at hfree
  cases hfree

/-- A key is listed by one owner. -/
theorem owner_eq (h : Claims s claims) {j : ι} (hi : key ∈ (claims i).map Prod.fst)
    (hj : key ∈ (claims j).map Prod.fst) : i = j := by
  obtain ⟨c, hc, rfl⟩ := List.mem_map.mp hi
  obtain ⟨d, hd, hkey⟩ := List.mem_map.mp hj
  have hci := h.stored i c hc
  rw [← hkey, h.stored j d hd] at hci
  exact (congrArg StoredObject.creator (Option.some.inj hci)).symm

/-- Owners may forget objects; what they still list is stored as before. -/
theorem forget (h : Claims s claims) (hsub : ∀ j, (claims' j).Subperm (claims j)) :
    Claims s claims' where
  nodup j := by
    obtain ⟨l, hperm, hsublist⟩ := hsub j
    have hnodup := (h.nodup j).sublist (hsublist.map Prod.fst)
    exact (hperm.map Prod.fst).nodup_iff.mp hnodup
  stored j c hc := h.stored j c ((hsub j).subset hc)

variable [DecidableEq κ]

/-- An owner lists an object that it creates under a free key. -/
theorem create (h : Claims s claims) (hfree : s key = none)
    (hown : (claims' i).Perm ((key, version) :: claims i))
    (hother : ∀ j ≠ i, claims' j = claims j) :
    Claims (s.create key version i) claims' where
  nodup j := by
    by_cases hj : j = i
    · subst hj
      rw [(hown.map Prod.fst).nodup_iff, List.map_cons, List.nodup_cons]
      exact ⟨h.not_mem_of_free hfree j, h.nodup j⟩
    · rw [hother j hj]
      exact h.nodup j
  stored j c hc := by
    have hold : ∀ k, c ∈ claims k → s.create key version i c.1 = some ⟨c.2, k⟩ := by
      intro k hk
      have hne : c.1 ≠ key := fun heq => h.not_mem_of_free hfree k (List.mem_map.mpr ⟨c, hk, heq⟩)
      rw [ObjectStore.create, Function.update_of_ne hne, h.stored k c hk]
    by_cases hj : j = i
    · subst hj
      obtain rfl | hc := List.mem_cons.mp (hown.subset hc)
      · rw [ObjectStore.create, Function.update_self]
      · exact hold j hc
    · exact hold j (hother j hj ▸ hc)

/-- A listed object is deleted when its version is the listed one. -/
theorem deleteIfVersion_eq [DecidableEq T] (h : Claims s claims)
    (hmem : (key, version) ∈ claims i) :
    s.deleteIfVersion key version = Function.update s key none := by
  have hstored := h.stored i _ hmem
  dsimp only at hstored
  rw [ObjectStore.deleteIfVersion, hstored, Option.map_some, if_pos rfl]

/-- An owner deletes an object that it lists, and lists it no more. -/
theorem delete [DecidableEq T] (h : Claims s claims)
    (hown : (claims i).Perm ((key, version) :: claims' i))
    (hother : ∀ j ≠ i, claims' j = claims j) :
    Claims (s.deleteIfVersion key version) claims' := by
  have hmem : (key, version) ∈ claims i := hown.mem_iff.mpr List.mem_cons_self
  have hnodup := h.nodup i
  rw [(hown.map Prod.fst).nodup_iff, List.map_cons, List.nodup_cons] at hnodup
  have hkey : key ∈ (claims i).map Prod.fst := List.mem_map.mpr ⟨_, hmem, rfl⟩
  have hold : ∀ j, ∀ c ∈ claims' j, c.1 ≠ key ∧ c ∈ claims j := by
    intro j c hc
    by_cases hj : j = i
    · subst hj
      exact ⟨fun heq => hnodup.1 (List.mem_map.mpr ⟨c, hc, heq⟩),
        hown.mem_iff.mpr (List.mem_cons_of_mem _ hc)⟩
    · rw [hother j hj] at hc
      exact ⟨fun heq => hj (h.owner_eq (List.mem_map.mpr ⟨c, hc, heq⟩) hkey), hc⟩
  rw [h.deleteIfVersion_eq hmem]
  refine ⟨fun j => ?_, fun j c hc => ?_⟩
  · by_cases hj : j = i
    · subst hj
      exact hnodup.2
    · rw [hother j hj]
      exact h.nodup j
  · obtain ⟨hne, hc⟩ := hold j c hc
    rw [Function.update_of_ne hne, h.stored j c hc]

end Claims

namespace Accounted

variable {s : ObjectStore ι κ T} {claims claims' : ι → List (κ × T)} {i : ι} {key : κ} {version : T}

/-- Objects stay accounted for when no owner lists less. -/
theorem mono (h : Accounted s claims) (hsub : ∀ j, claims j ⊆ claims' j) : Accounted s claims' := by
  intro k o hk
  obtain ⟨c, hc, rfl⟩ := List.mem_map.mp (h k o hk)
  exact List.mem_map.mpr ⟨c, hsub _ hc, rfl⟩

variable [DecidableEq κ]

/-- A created object is accounted for when its creator lists it. -/
theorem create (h : Accounted s claims) (hown : (key, version) ∈ claims' i)
    (hsub : ∀ j, claims j ⊆ claims' j) : Accounted (s.create key version i) claims' := by
  intro k o hk
  by_cases hkey : k = key
  · subst hkey
    rw [ObjectStore.create, Function.update_self] at hk
    cases hk
    exact List.mem_map.mpr ⟨_, hown, rfl⟩
  · rw [ObjectStore.create, Function.update_of_ne hkey] at hk
    exact h.mono hsub k o hk

/-- Objects stay accounted for when an owner deletes one that it lists. -/
theorem delete [DecidableEq T] (h : Accounted s claims) (hclaims : Claims s claims)
    (hown : (claims i).Perm ((key, version) :: claims' i))
    (hother : ∀ j ≠ i, claims' j = claims j) :
    Accounted (s.deleteIfVersion key version) claims' := by
  rw [hclaims.deleteIfVersion_eq (hown.mem_iff.mpr List.mem_cons_self)]
  intro k o hk
  by_cases hkey : k = key
  · subst hkey
    rw [Function.update_self] at hk
    cases hk
  · rw [Function.update_of_ne hkey] at hk
    have hlisted := h k o hk
    by_cases hcreator : o.creator = i
    · rw [hcreator, (hown.map Prod.fst).mem_iff, List.map_cons] at hlisted
      rw [hcreator]
      obtain heq | hlisted := List.mem_cons.mp hlisted
      · exact absurd heq hkey
      · exact hlisted
    · rw [hother _ hcreator]
      exact hlisted

end Accounted

/-- What an owner does in one step: it lists the same objects in any order, creates one under a free
key, or deletes one that it lists. A leaky step only forgets objects. -/
inductive OwnerStep [DecidableEq κ] [DecidableEq T] (leaky : Prop) (i : ι) (s : ObjectStore ι κ T)
    (own : List (κ × T)) : ObjectStore ι κ T → List (κ × T) → Prop
  | same {own' : List (κ × T)} : own'.Perm own → OwnerStep leaky i s own s own'
  | created {key : κ} {version : T} {own' : List (κ × T)} : s key = none →
      own'.Perm ((key, version) :: own) →
      OwnerStep leaky i s own (s.create key version i) own'
  | deleted {key : κ} {version : T} {own' : List (κ × T)} : own.Perm ((key, version) :: own') →
      OwnerStep leaky i s own (s.deleteIfVersion key version) own'
  | lost {own' : List (κ × T)} : leaky → own'.Subperm own → OwnerStep leaky i s own s own'

section Step

variable [DecidableEq κ] [DecidableEq T] {leaky : Prop} {s s' : ObjectStore ι κ T}
  {claims claims' : ι → List (κ × T)} {i : ι} {own own' : List (κ × T)}

/-- An owner's other objects do not matter to its step. -/
theorem OwnerStep.append_left (h : OwnerStep leaky i s own s' own') (front : List (κ × T)) :
    OwnerStep leaky i s (front ++ own) s' (front ++ own') := by
  cases h with
  | same hperm => exact .same (hperm.append_left front)
  | created hfree hperm =>
    exact .created hfree ((hperm.append_left front).trans List.perm_middle)
  | deleted hperm => exact .deleted ((hperm.append_left front).trans List.perm_middle)
  | lost hleaky hsub => exact .lost hleaky ((List.subperm_append_left front).mpr hsub)

/-- Steps that keep all objects listed may be taken for steps that may lose some. -/
theorem OwnerStep.weaken {leaky' : Prop} (h : OwnerStep leaky i s own s' own')
    (hleaky : leaky → leaky') : OwnerStep leaky' i s own s' own' := by
  cases h with
  | same hperm => exact .same hperm
  | created hfree hperm => exact .created hfree hperm
  | deleted hperm => exact .deleted hperm
  | lost hlost hsub => exact .lost (hleaky hlost) hsub

/-- Every step keeps claims to what is stored. -/
theorem Claims.step (h : Claims s claims) (hstep : OwnerStep leaky i s (claims i) s' (claims' i))
    (hother : ∀ j ≠ i, claims' j = claims j) : Claims s' claims' := by
  have hforget : (claims' i).Subperm (claims i) → Claims s claims' := by
    refine fun hsub => h.forget fun j => ?_
    by_cases hj : j = i
    · exact hj ▸ hsub
    · rw [hother j hj]
  generalize hown : claims' i = own' at hstep hforget
  cases hstep with
  | same hperm => exact hforget hperm.subperm
  | created hfree hperm => exact h.create hfree (hown ▸ hperm) hother
  | deleted hperm => exact h.delete (hown ▸ hperm) hother
  | lost _ hsub => exact hforget hsub

/-- A step that is not leaky keeps every object accounted for. -/
theorem Accounted.step (h : Accounted s claims) (hclaims : Claims s claims) (hsound : ¬leaky)
    (hstep : OwnerStep leaky i s (claims i) s' (claims' i))
    (hother : ∀ j ≠ i, claims' j = claims j) : Accounted s' claims' := by
  have hsub : claims i ⊆ claims' i → ∀ j, claims j ⊆ claims' j := by
    intro hi j
    by_cases hj : j = i
    · exact hj ▸ hi
    · rw [hother j hj]
      exact List.Subset.refl _
  generalize hown : claims' i = own' at hstep hsub
  cases hstep with
  | same hperm => exact h.mono (hsub hperm.symm.subset)
  | created hfree hperm =>
    refine h.create (hown ▸ hperm.mem_iff.mpr List.mem_cons_self) (hsub fun c hc => ?_)
    exact hperm.mem_iff.mpr (List.mem_cons_of_mem _ hc)
  | deleted hperm => exact h.delete hclaims (hown ▸ hperm) hother
  | lost hleaky _ => exact absurd hleaky hsound

/-- What a step deletes was listed by its owner, and is not listed afterwards. -/
theorem Claims.of_deleted (h : Claims s claims)
    (hstep : OwnerStep leaky i s (claims i) s' own') {key : κ} {o : StoredObject ι T}
    (ho : s key = some o) (hnone : s' key = none) :
    key ∈ (claims i).map Prod.fst ∧ key ∉ own'.map Prod.fst := by
  cases hstep with
  | same => rw [ho] at hnone; cases hnone
  | lost => rw [ho] at hnone; cases hnone
  | @created key' version _ hfree hperm =>
    by_cases hkey : key = key'
    · rw [hkey, ObjectStore.create, Function.update_self] at hnone
      cases hnone
    · rw [ObjectStore.create, Function.update_of_ne hkey, ho] at hnone
      cases hnone
  | @deleted key' version _ hperm =>
    have hmem : (key', version) ∈ claims i := hperm.mem_iff.mpr List.mem_cons_self
    rw [h.deleteIfVersion_eq hmem] at hnone
    by_cases hkey : key = key'
    · subst hkey
      refine ⟨List.mem_map.mpr ⟨_, hmem, rfl⟩, ?_⟩
      have hall := h.nodup i
      rw [(hperm.map Prod.fst).nodup_iff, List.map_cons, List.nodup_cons] at hall
      exact hall.1
    · rw [Function.update_of_ne hkey, ho] at hnone
      cases hnone

end Step

end Foundation
