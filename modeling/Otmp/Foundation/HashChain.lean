import Mathlib.Data.List.Basic

/-!
# Hash chains

A chain is a list of records, newest first, in which every record carries the hash of an
input made from it, and names the hash of its predecessor. When the hash does not collide
on the inputs of two chains, and a record is determined by its input and its hash, the
newest hash determines the whole chain.
-/

namespace Foundation

variable {C H I : Type*}

/-- The parts of a record: its hash, its predecessor's hash and the inputs that its hash may
have. -/
structure Hashing (C H I : Type*) where
  state : C → H
  previous : C → Option H
  Input : C → I → Prop

namespace Hashing

variable (k : Hashing C H I) (digest : I → H)

/-- The records carry the hashes of their inputs and name their predecessors. -/
def Linked : List C → Prop
  | [] => True
  | c :: cs => k.previous c = cs.head?.map k.state ∧
      (∃ i, k.Input c i ∧ k.state c = digest i) ∧ Linked cs

variable {k digest}

/-- The newest hash determines the chain, since each hash covers the one before it. -/
theorem Linked.eq_of_state {as bs : List C} (ha : k.Linked digest as) (hb : k.Linked digest bs)
    (hdetermined : ∀ c d i, k.Input c i → k.Input d i → k.state c = k.state d →
      c = d)
    (hinj : ∀ c ∈ as ++ bs, ∀ d ∈ as ++ bs, ∀ i j, k.Input c i → k.Input d j →
      digest i = digest j → i = j)
    (hstate : as.head?.map k.state = bs.head?.map k.state) : as = bs := by
  induction as generalizing bs with
  | nil =>
    cases bs with
    | nil => rfl
    | cons b bs => cases hstate
  | cons a as ih =>
    cases bs with
    | nil => cases hstate
    | cons b bs =>
      obtain ⟨haprevious, ⟨i, hai, hadigest⟩, ha⟩ := ha
      obtain ⟨hbprevious, ⟨j, hbj, hbdigest⟩, hb⟩ := hb
      have hheads : k.state a = k.state b := Option.some.inj hstate
      have hij : i = j := by
        refine hinj a (by simp) b (by simp) i j hai hbj ?_
        rw [← hadigest, ← hbdigest, hheads]
      subst hij
      have hab := hdetermined a b i hai hbj hheads
      subst hab
      rw [haprevious] at hbprevious
      have htail : as = bs := by
        refine ih ha hb (fun c hc d hd => hinj c ?_ d ?_) hbprevious
        · simp only [List.mem_append, List.mem_cons] at hc ⊢
          rcases hc with hc | hc
          · exact Or.inl (Or.inr hc)
          · exact Or.inr (Or.inr hc)
        · simp only [List.mem_append, List.mem_cons] at hd ⊢
          rcases hd with hd | hd
          · exact Or.inl (Or.inr hd)
          · exact Or.inr (Or.inr hd)
      rw [htail]

end Hashing

end Foundation
