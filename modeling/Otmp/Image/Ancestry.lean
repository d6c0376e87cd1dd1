import Otmp.Foundation.Chain
import Otmp.Image.MutationSpecs

/-!
# The ancestry of a snapshot

The walk along parents returns the chain of its tip. Conversely every chain whose
sequence numbers descend is found, so in a database whose parents come first the walk
of a known snapshot succeeds.
-/

namespace Otmp

open Foundation CanonicalValue

/-- An identifier of the runtime passes the check. -/
theorem optionalIdFromBlob_eq_ok {id target : Option Id}
    (h : optionalIdFromBlob id = .ok target) : target = id := by
  cases id with
  | none =>
    cases h
    rfl
  | some id =>
    rw [optionalIdFromBlob, idFromBlob] at h
    by_cases hv : id.isV7 = true
    · rw [if_pos hv] at h
      cases h
      rfl
    · rw [if_neg hv] at h
      cases h

/-- An identifier that is read back is one of the runtime. -/
theorem optionalIdFromBlob_good {id target : Option Id}
    (h : optionalIdFromBlob id = .ok target) : ∀ i ∈ target, i.isV7 = true := by
  cases id with
  | none =>
    cases h
    nofun
  | some id =>
    rw [optionalIdFromBlob, idFromBlob] at h
    by_cases hv : id.isV7 = true
    · rw [if_pos hv] at h
      cases h
      exact fun i hi => Option.some.inj hi ▸ hv
    · rw [if_neg hv] at h
      cases h

/-- A stored identifier that the runtime made is read back. -/
theorem optionalIdFromBlob_of_v7 {id : Option Id} (h : ∀ i ∈ id, i.isV7 = true) :
    optionalIdFromBlob id = .ok id := by
  cases id with
  | none => rfl
  | some id =>
    rw [optionalIdFromBlob, idFromBlob, if_pos (h id rfl)]
    rfl

namespace Database

variable {db db' : Database}

/-- The parent of a known snapshot; an unknown snapshot has no answer, not even that it is a root.
-/
def parentOf (db : Database) (id : Id) : Option (Option Id) :=
  (db.findSnapshot id).map SnapshotRow.parentSnapshotId

/-- The ancestry of a tip, as a relation between the tip and the chain down to a root. -/
abbrev Ancestors (db : Database) : Option Id → List Id → Prop := Chain db.parentOf

/-- A found row has the identifier that was looked for. -/
theorem findSnapshot_eq_some {id : Id} {row : SnapshotRow} (h : db.findSnapshot id = some row) :
    row ∈ db.snapshots ∧ row.snapshotId = id := by
  rw [findSnapshot] at h
  have hid := List.find?_some h
  exact ⟨List.mem_of_find?_eq_some h, beq_iff_eq.mp hid⟩

/-- A walk returns the chain of its tip. -/
theorem ancestryFrom_sound {refuse : SnapshotRow → Bool} {missing : RuntimeError} {seen : List Id}
    {last : ℕ} {tip : Option Id} {chain : List Id}
    (h : db.ancestryFrom refuse missing seen last tip = .ok chain) : db.Ancestors tip chain := by
  induction last using Nat.strongRecOn generalizing seen tip chain with
  | ind last ih =>
    cases tip with
    | none =>
      rw [ancestryFrom] at h
      cases h
      exact .nil
    | some id =>
      rw [ancestryFrom] at h
      obtain ⟨-, h⟩ := ite_error_eq_ok.mp h
      cases hrow : db.findSnapshot id with
      | none =>
        rw [hrow] at h
        cases h
      | some row =>
        rw [hrow] at h
        dsimp only at h
        split at h
        · cases h
        · rename_i hlast
          obtain ⟨parent, hparent, h⟩ := bind_eq_ok.mp h
          obtain ⟨rest, hrest, h⟩ := bind_eq_ok.mp h
          cases h
          rw [optionalIdFromBlob_eq_ok hparent] at hrest
          have hlt : row.sequenceNumber < last := by
            rw [not_or] at hlast
            omega
          exact .cons (by rw [parentOf, hrow]; rfl) (ih _ hlt hrest)

/-- A walk finds every chain of descending sequence numbers. -/
theorem ancestryFrom_complete {refuse : SnapshotRow → Bool} {missing : RuntimeError}
    {seen : List Id} {last : ℕ} {tip : Option Id} {chain : List Id}
    (hv7 : ∀ s ∈ db.snapshots, s.snapshotId.isV7 = true)
    (hrefuse : ∀ s ∈ db.snapshots, refuse s = false)
    (hparents : ∀ s ∈ db.snapshots, ∀ p ∈ s.parentSnapshotId, ∀ row, db.findSnapshot p = some row →
      row.sequenceNumber < s.sequenceNumber)
    (hseen : ∀ id ∈ seen, ∀ row, db.findSnapshot id = some row → last ≤ row.sequenceNumber)
    (hlast : ∀ id ∈ tip, ∀ row, db.findSnapshot id = some row → row.sequenceNumber < last)
    (h : db.Ancestors tip chain) :
    db.ancestryFrom refuse missing seen last tip = .ok chain := by
  induction h generalizing seen last with
  | nil => rw [ancestryFrom]
  | @cons id next rest hparent hchain ih =>
    rw [parentOf] at hparent
    obtain ⟨row, hrow, rfl⟩ := Option.map_eq_some_iff.mp hparent
    obtain ⟨hmem, -⟩ := findSnapshot_eq_some hrow
    have hlt := hlast id rfl row hrow
    have hnot : id ∉ seen := fun hid => absurd (hseen id hid row hrow) (by omega)
    have hguard : ¬(last ≤ row.sequenceNumber ∨ refuse row = true) := by
      rw [hrefuse row hmem]
      simp only [Bool.false_eq_true, or_false]
      omega
    have hnext : ∀ p ∈ row.parentSnapshotId, p.isV7 = true := by
      intro p hp
      rw [hp] at hchain
      cases hchain with
      | cons hparent' _ =>
        rw [parentOf] at hparent'
        obtain ⟨parentRow, hfound, -⟩ := Option.map_eq_some_iff.mp hparent'
        obtain ⟨hmem', rfl⟩ := findSnapshot_eq_some hfound
        exact hv7 parentRow hmem'
    have hrest : db.ancestryFrom refuse missing (id :: seen) row.sequenceNumber
        row.parentSnapshotId = .ok rest := ih ?_ (hparents row hmem)
    · rw [ancestryFrom, if_neg hnot, hrow]
      dsimp only
      rw [dif_neg hguard, optionalIdFromBlob_of_v7 hnext, ok_bind rfl, hrest]
      rfl
    · intro other hother otherRow hfound
      rcases List.mem_cons.mp hother with rfl | hother
      · rw [hrow] at hfound
        cases hfound
        exact le_rfl
      · have := hseen other hother otherRow hfound
        omega

end Database

end Otmp
