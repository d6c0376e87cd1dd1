import Mathlib.Data.List.Basic

/-!
# Chains of ancestors

Nodes know their parents. The chain of a node is the list of the node, its parent and
so on up to a node without a parent. A chain is determined by its first node, exists
when parents have smaller rank, and stays as it is when new nodes become known.
-/

namespace Foundation

variable {α : Type*}

/-- The chain of an optional node; `parent` gives no answer for an unknown node. -/
inductive Chain (parent : α → Option (Option α)) : Option α → List α → Prop
  | nil : Chain parent none []
  | cons {a : α} {next : Option α} {rest : List α} :
      parent a = some next → Chain parent next rest → Chain parent (some a) (a :: rest)

namespace Chain

variable {parent parent' : α → Option (Option α)} {tip : Option α} {chain : List α}

/-- A node has one chain, since each node has at most one parent. -/
theorem unique {other : List α} (h : Chain parent tip chain) (h' : Chain parent tip other) :
    chain = other := by
  induction h generalizing other with
  | nil =>
    cases h'
    rfl
  | cons hparent _ ih =>
    cases h' with
    | cons hparent' hrest =>
      rw [hparent] at hparent'
      cases hparent'
      rw [ih hrest]

/-- The nodes of a chain are known. -/
theorem known {a : α} (h : Chain parent tip chain) (ha : a ∈ chain) :
    ∃ next, parent a = some next := by
  induction h with
  | nil => cases ha
  | cons hparent _ ih =>
    rcases List.mem_cons.mp ha with rfl | ha
    · exact ⟨_, hparent⟩
    · exact ih ha

/-- A chain does not depend on the parents of other nodes. -/
theorem congr (h : Chain parent tip chain) (hparent : ∀ a ∈ chain, parent' a = parent a) :
    Chain parent' tip chain := by
  induction h with
  | nil => exact .nil
  | cons hfirst _ ih =>
    refine .cons ((hparent _ List.mem_cons_self).trans hfirst) (ih fun a ha => ?_)
    exact hparent a (List.mem_cons_of_mem _ ha)

/-- A known node has a chain when parents are known and have smaller rank. -/
theorem exists_of_rank (rank : α → ℕ)
    (hrank : ∀ {a p}, parent a = some (some p) → (∃ next, parent p = some next) ∧ rank p < rank a)
    {a : α} (ha : ∃ next, parent a = some next) : ∃ chain, Chain parent (some a) chain := by
  induction hn : rank a using Nat.strongRecOn generalizing a with
  | ind n ih =>
    obtain ⟨next, hnext⟩ := ha
    cases next with
    | none => exact ⟨[a], .cons hnext .nil⟩
    | some p =>
      obtain ⟨hp, hlt⟩ := hrank hnext
      obtain ⟨rest, hrest⟩ := ih (rank p) (hn ▸ hlt) hp rfl
      exact ⟨a :: rest, .cons hnext hrest⟩

end Chain

end Foundation
