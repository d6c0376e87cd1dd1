import Mathlib.Data.List.Basic

/-!
# Fallible computations and their runs

A sequence of fallible computations succeeds when each part does. A run feeds a list
of actions to a step function and stops at the first error. Invariants and simulations
are proved for one step and hold along every run.
-/

namespace Foundation

universe u

variable {σ τ α ε : Type*}

/-- A sequence of two fallible computations succeeds through its first part. -/
theorem bind_eq_ok {α β : Type u} {x : Except ε α} {f : α → Except ε β} {b : β} :
    (x >>= f) = .ok b ↔ ∃ a, x = .ok a ∧ f a = .ok b := by
  cases x with
  | error e => simp [Bind.bind, Except.bind]
  | ok a => simp [Bind.bind, Except.bind]

/-- A function of a fallible computation's value. -/
theorem map_eq_ok {α β : Type u} {f : α → β} {x : Except ε α} {b : β} :
    x.map f = .ok b ↔ ∃ a, x = .ok a ∧ b = f a := by
  cases x with
  | error e => simp [Except.map]
  | ok a => simp [Except.map, eq_comm]

/-- The value of a fallible computation, when there is one. -/
theorem toOption_eq_some {α : Type u} {x : Except ε α} {a : α} :
    x.toOption = some a ↔ x = .ok a := by
  cases x <;> simp [Except.toOption]

/-- A successful first part hands its value on. -/
theorem ok_bind {α β : Type u} {x : Except ε α} {f : α → Except ε β} {a : α} (h : x = .ok a) :
    (x >>= f) = f a := by
  subst h
  rfl

/-- A check in front of a computation has to be passed. -/
theorem check_eq_ok {β : Type} {x : Except ε Unit} {y : Except ε β} {b : β} :
    (x >>= fun _ => y) = .ok b ↔ x = .ok () ∧ y = .ok b := by
  cases x with
  | error e => simp [Bind.bind, Except.bind]
  | ok a => simp [Bind.bind, Except.bind]

/-- A guard in front of a computation has to be passed. -/
theorem ite_error_eq_ok {α : Type*} {c : Prop} [Decidable c] {e : ε} {x : Except ε α} {a : α} :
    (if c then .error e else x) = .ok a ↔ ¬c ∧ x = .ok a := by
  split <;> simp_all

/-- A condition in front of a computation has to hold. -/
theorem ite_ok_eq_ok {α : Type*} {c : Prop} [Decidable c] {e : ε} {x : Except ε α} {a : α} :
    (if c then x else .error e) = .ok a ↔ c ∧ x = .ok a := by
  split <;> simp_all

/-- Two functions that identify the same elements identify the same lists. -/
theorem map_eq_map_iff {β γ : Type*} {f : α → β} {g : α → γ}
    (h : ∀ a b, f a = f b ↔ g a = g b) {as bs : List α} :
    as.map f = bs.map f ↔ as.map g = bs.map g := by
  induction as generalizing bs with
  | nil => simp
  | cons a as ih =>
    cases bs with
    | nil => simp
    | cons b bs => simp only [List.map_cons, List.cons.injEq, h a b, ih]

/-- Related lists are related position by position. -/
theorem getElem?_of_forall₂ {β : Type*} {R : α → β → Prop} {as : List α} {bs : List β}
    (h : List.Forall₂ R as bs) {i : ℕ} {a : α} (ha : as[i]? = some a) :
    ∃ b, bs[i]? = some b ∧ R a b := by
  induction h generalizing i with
  | nil => cases ha
  | cons hfirst _ ih =>
    cases i with
    | zero =>
      cases ha
      exact ⟨_, rfl, hfirst⟩
    | succ i => exact ih ha

/-- A member of one list has a partner in the other. -/
theorem exists_of_forall₂ {β : Type*} {R : α → β → Prop} {as : List α} {bs : List β}
    (h : List.Forall₂ R as bs) {a : α} (ha : a ∈ as) : ∃ b ∈ bs, R a b := by
  induction h with
  | nil => cases ha
  | @cons a' b' as' bs' hfirst _ ih =>
    rcases List.mem_cons.mp ha with rfl | ha
    · exact ⟨b', List.mem_cons_self, hfirst⟩
    · obtain ⟨b, hb, hab⟩ := ih ha
      exact ⟨b, List.mem_cons_of_mem _ hb, hab⟩

/-- Elements that all have partners form a list that has one. -/
theorem exists_forall₂ {β : Type*} {R : α → β → Prop} {as : List α} (h : ∀ a ∈ as, ∃ b, R a b) :
    ∃ bs, List.Forall₂ R as bs := by
  induction as with
  | nil => exact ⟨[], .nil⟩
  | cons a as ih =>
    obtain ⟨b, hb⟩ := h a List.mem_cons_self
    obtain ⟨bs, hbs⟩ := ih fun a ha => h a (List.mem_cons_of_mem _ ha)
    exact ⟨b :: bs, .cons hb hbs⟩

/-- Apply a check to every element; the first failure counts. -/
def checkAll (check : α → Except ε Unit) : List α → Except ε Unit
  | [] => .ok ()
  | a :: as => do
    check a
    checkAll check as

/-- A list of checks is passed when each one is. -/
theorem checkAll_eq_ok {check : α → Except ε Unit} {as : List α} :
    checkAll check as = .ok () ↔ ∀ a ∈ as, check a = .ok () := by
  induction as with
  | nil => simp [checkAll]
  | cons a as ih => rw [checkAll, check_eq_ok, ih, List.forall_mem_cons]

/-- A fallible map succeeds with the values of its elements. -/
theorem mapM_eq_ok {β γ : Type} {f : β → Except ε γ} {g : β → γ} {bs : List β}
    (h : ∀ b ∈ bs, f b = .ok (g b)) : bs.mapM f = .ok (bs.map g) := by
  induction bs with
  | nil => rfl
  | cons b bs ih =>
    rw [List.mapM_cons, h b List.mem_cons_self, ih fun c hc => h c (List.mem_cons_of_mem _ hc)]
    rfl

/-- A traversal of a mapped list succeeds when every step does. -/
theorem mapM_map_eq_ok {β γ δ : Type} {f : γ → Except ε δ} {g : β → γ} {k : β → δ} {bs : List β}
    (h : ∀ b ∈ bs, f (g b) = .ok (k b)) : (bs.map g).mapM f = .ok (bs.map k) := by
  rw [List.mapM_map]
  exact mapM_eq_ok h

/-- A traversal whose steps can only return given values returns these. -/
theorem mapM_eq_map {β γ : Type} {f : β → Except ε γ} {g : β → γ} {bs : List β} {cs : List γ}
    (h : bs.mapM f = .ok cs) (hstep : ∀ b c, f b = .ok c → c = g b) : cs = bs.map g := by
  induction bs generalizing cs with
  | nil =>
    cases h
    rfl
  | cons b bs ih =>
    rw [List.mapM_cons] at h
    obtain ⟨first, hfirst, h⟩ := bind_eq_ok.mp h
    obtain ⟨rest, hrest, h⟩ := bind_eq_ok.mp h
    cases h
    rw [hstep b first hfirst, ih hrest, List.map_cons]

/-- A list is computed when each element is. -/
theorem mapM_iff_forall₂ {β γ : Type} {f : β → Except ε γ} {bs : List β} {cs : List γ} :
    bs.mapM f = .ok cs ↔ List.Forall₂ (fun b c => f b = .ok c) bs cs := by
  induction bs generalizing cs with
  | nil =>
    constructor
    · intro h
      cases h
      exact .nil
    · intro h
      cases h
      rfl
  | cons b bs ih =>
    rw [List.mapM_cons, bind_eq_ok]
    constructor
    · rintro ⟨first, hfirst, h⟩
      obtain ⟨rest, hrest, h⟩ := bind_eq_ok.mp h
      cases h
      exact .cons hfirst (ih.mp hrest)
    · intro h
      cases h with
      | cons hfirst hrest => exact ⟨_, hfirst, bind_eq_ok.mpr ⟨_, ih.mpr hrest, rfl⟩⟩

/-- Relations that agree on a list's members relate it to the same lists. -/
theorem forall₂_congr {β : Type*} {R S : α → β → Prop} {as : List α}
    (h : ∀ a ∈ as, ∀ b, R a b ↔ S a b) {bs : List β} :
    List.Forall₂ R as bs ↔ List.Forall₂ S as bs := by
  induction as generalizing bs with
  | nil => constructor <;> (intro h; cases h; exact .nil)
  | cons a as ih =>
    cases bs with
    | nil => constructor <;> (intro h; cases h)
    | cons b bs =>
      have hrest := @ih (fun b hb => h b (List.mem_cons_of_mem _ hb)) bs
      rw [List.forall₂_cons, List.forall₂_cons, h a List.mem_cons_self, hrest]

/-- Every value of a traversal comes from an element. -/
theorem exists_of_mem_mapM {β γ : Type} {f : β → Except ε γ} {bs : List β} {cs : List γ}
    (h : bs.mapM f = .ok cs) {c : γ} (hc : c ∈ cs) : ∃ b ∈ bs, f b = .ok c := by
  induction bs generalizing cs with
  | nil =>
    cases h
    cases hc
  | cons b bs ih =>
    rw [List.mapM_cons] at h
    obtain ⟨first, hfirst, h⟩ := bind_eq_ok.mp h
    obtain ⟨rest, hrest, h⟩ := bind_eq_ok.mp h
    cases h
    rcases List.mem_cons.mp hc with rfl | hc
    · exact ⟨b, List.mem_cons_self, hfirst⟩
    · obtain ⟨b', hb', hc'⟩ := ih hrest hc
      exact ⟨b', List.mem_cons_of_mem _ hb', hc'⟩

/-- Apply a fallible step to every action in turn; the first error ends the run. -/
def runAll (step : σ → α → Except ε σ) : σ → List α → Except ε σ
  | s, [] => .ok s
  | s, a :: as =>
    match step s a with
    | .error e => .error e
    | .ok s' => runAll step s' as

/-- A run over a nonempty list of actions succeeds through its first step. -/
theorem runAll_cons_ok {step : σ → α → Except ε σ} {s s' : σ} {a : α} {as : List α} :
    runAll step s (a :: as) = .ok s' ↔ ∃ m, step s a = .ok m ∧ runAll step m as = .ok s' := by
  rw [runAll]
  cases h : step s a with
  | error e => simp
  | ok m => simp

/-- A relation kept by every successful step relates the results of whole runs. -/
theorem runAll_simulation {step : σ → α → Except ε σ} {next : τ → α → τ} {R : σ → τ → Prop}
    (hstep : ∀ {s t a s'}, R s t → step s a = .ok s' → R s' (next t a))
    {as : List α} {s s' : σ} {t : τ} (hinit : R s t) (hrun : runAll step s as = .ok s') :
    R s' (as.foldl next t) := by
  induction as generalizing s t with
  | nil =>
    cases hrun
    exact hinit
  | cons a as ih =>
    obtain ⟨m, hm, hrest⟩ := runAll_cons_ok.mp hrun
    exact ih (hstep hinit hm) hrest

/-- An invariant kept by every successful step holds along whole runs. -/
theorem runAll_invariant {step : σ → α → Except ε σ} {P : σ → Prop} {as : List α}
    (hstep : ∀ {s a s'}, a ∈ as → P s → step s a = .ok s' → P s') {s s' : σ} (hinit : P s)
    (hrun : runAll step s as = .ok s') : P s' := by
  induction as generalizing s with
  | nil =>
    cases hrun
    exact hinit
  | cons a as ih =>
    obtain ⟨m, hm, hrest⟩ := runAll_cons_ok.mp hrun
    exact ih (fun ha => hstep (List.mem_cons_of_mem _ ha)) (hstep List.mem_cons_self hinit hm)
      hrest

/-- When every step extends the state by the row of its action, a run extends it by the rows
of all actions. -/
theorem runAll_extend {β : Type*} {step : σ → α → Except ε σ} (extend : σ → List β → σ)
    (row : α → β) (hnil : ∀ s, extend s [] = s)
    (happend : ∀ s xs ys, extend (extend s xs) ys = extend s (xs ++ ys))
    (hstep : ∀ {s a s'}, step s a = .ok s' → s' = extend s [row a])
    {as : List α} {s s' : σ} (hrun : runAll step s as = .ok s') :
    s' = extend s (as.map row) := by
  induction as generalizing s with
  | nil =>
    cases hrun
    exact (hnil _).symm
  | cons a as ih =>
    obtain ⟨m, hm, hrest⟩ := runAll_cons_ok.mp hrun
    rw [ih hrest, hstep hm, happend, List.map_cons, List.singleton_append]

end Foundation
