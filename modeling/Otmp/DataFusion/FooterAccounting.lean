import Otmp.DataFusion.FooterCache

/-!
# The accounting of the footer cache

What is used is the sum of the live reservations, and each phase has as many reservations as its
counter says. Every operation of the budget keeps this for the list of live reservations, and
every call of a reader changes that list as it changes the budget. The queue and the recorded
identities agree with the cached footers.
-/

namespace Otmp.DataFusion

open Foundation Otmp.Reader

/-- The number of reservations in a phase, which the counter of that phase has to equal. -/
def phaseCount (phase : ReservationPhase) (l : List Reservation) : ℕ :=
  l.countP fun r => decide (r.phase = phase)

/-- A phase counts one more when a reservation in it is added. -/
@[simp] theorem phaseCount_cons (phase : ReservationPhase) (r : Reservation)
    (l : List Reservation) :
    phaseCount phase (r :: l) = phaseCount phase l + if r.phase = phase then 1 else 0 := by
  rw [phaseCount, List.countP_cons]
  simp [phaseCount]

namespace Budget

/-- The budget accounts for the live reservations: the used bytes are their sum, within the limit,
and each phase is counted. -/
structure Accounts (b : Budget) (live : List Reservation) : Prop where
  word : b.limit < wordSize
  used : b.used = (live.map Reservation.amount).sum
  limit : b.used ≤ b.limit
  transient : b.transient = phaseCount .payload live
  keys : b.keys = phaseCount .key live
  preflightHits : b.preflightHits = phaseCount .preflight live

variable {b : Budget} {live live' : List Reservation} {r : Reservation} {amount : ℕ}

/-- The accounting does not depend on the order of the live reservations. -/
theorem Accounts.perm (h : b.Accounts live) (hperm : live.Perm live') : b.Accounts live' where
  word := h.word
  used := h.used.trans (hperm.map _).sum_eq
  limit := h.limit
  transient := h.transient.trans (hperm.countP_eq _)
  keys := h.keys.trans (hperm.countP_eq _)
  preflightHits := h.preflightHits.trans (hperm.countP_eq _)

/-- A reservation that leaves its phase does not change the limit. -/
@[simp] theorem finishTransient_limit (b : Budget) (phase : ReservationPhase) :
    (b.finishTransient phase).limit = b.limit := by
  cases phase <;> rfl

/-- Taking one from a counter that is positive does not wrap. -/
private theorem fetchSub_succ (n : ℕ) : fetchSub (n + 1) 1 = n := by
  rw [fetchSub, if_pos (by omega), Nat.add_sub_cancel]

/-- A reservation leaves its phase; its counter is positive while it is live. -/
theorem Accounts.finishTransient (h : b.Accounts (r :: live)) :
    (b.finishTransient r.phase).Accounts ({ r with phase := .retained } :: live) := by
  obtain ⟨amount, phase⟩ := r
  obtain ⟨hword, hused, hlimit, htransient, hkeys, hhits⟩ := h
  simp only [phaseCount_cons] at htransient hkeys hhits
  cases phase <;>
    exact ⟨hword, hused, hlimit, by simp [Budget.finishTransient, htransient, fetchSub_succ],
      by simp [Budget.finishTransient, hkeys, fetchSub_succ],
      by simp [Budget.finishTransient, hhits, fetchSub_succ]⟩

/-- A reservation is smaller by what is taken from the budget. -/
theorem Accounts.shrink (h : b.Accounts (r :: live)) (hle : amount ≤ r.amount) :
    (b.shrink amount).Accounts ({ r with amount := r.amount - amount } :: live) := by
  have hused := h.used
  have hlimit := h.limit
  rw [List.map_cons, List.sum_cons] at hused
  have hsub : fetchSub b.used amount = b.used - amount := if_pos (by omega)
  refine ⟨h.word, ?_, ?_, h.transient.trans ?_, h.keys.trans ?_, h.preflightHits.trans ?_⟩
  · change fetchSub b.used amount = _
    rw [hsub, List.map_cons, List.sum_cons]
    dsimp only
    omega
  · change fetchSub b.used amount ≤ b.limit
    omega
  all_goals simp

/-- A dropped reservation is no longer live. -/
theorem Accounts.drop (h : b.Accounts (r :: live)) : (b.drop r).Accounts live := by
  have hfinished := (h.shrink (le_refl r.amount)).finishTransient
  obtain ⟨hword, hused, hlimit, htransient, hkeys, hhits⟩ := hfinished
  rw [Nat.sub_self, List.map_cons, List.sum_cons, Nat.zero_add] at hused
  change (((b.shrink r.amount).finishTransient r.phase).Accounts live)
  exact ⟨hword, hused, hlimit, by simpa using htransient, by simpa using hkeys,
    by simpa using hhits⟩

/-- Marking a live reservation as a load's keeps the accounting. -/
theorem Accounts.markKey (h : b.Accounts (r :: live)) :
    (b.markKey r.phase).Accounts ({ r with phase := .key } :: live) := by
  obtain ⟨amount, phase⟩ := r
  obtain ⟨hword, hused, hlimit, htransient, hkeys, hhits⟩ := h
  simp only [phaseCount_cons] at htransient hkeys hhits
  cases phase <;>
    exact ⟨hword, hused, hlimit,
      by simp [Budget.markKey, Budget.finishTransient, htransient, fetchSub_succ],
      by simp [Budget.markKey, Budget.finishTransient, hkeys, fetchSub_succ],
      by simp [Budget.markKey, Budget.finishTransient, hhits, fetchSub_succ]⟩

/-- Granting an amount that fits keeps the accounting, with one more live reservation. -/
theorem Accounts.grant (h : b.Accounts live) (hfits : b.Fits amount) :
    (b.grant amount).Accounts (⟨amount, .payload⟩ :: live) := by
  refine ⟨h.word, ?_, hfits.2, ?_, ?_, ?_⟩
  · change b.used + amount = _
    rw [h.used, List.map_cons, List.sum_cons, Nat.add_comm]
  · change b.transient + 1 = _
    rw [h.transient, phaseCount_cons, if_pos rfl]
  · exact h.keys.trans (by simp)
  · exact h.preflightHits.trans (by simp)

/-- A validated hit keeps the accounting, with one more live reservation of no bytes. -/
theorem Accounts.hit (h : b.Accounts live) : b.hit.Accounts (⟨0, .preflight⟩ :: live) := by
  refine ⟨h.word, ?_, h.limit, ?_, ?_, ?_⟩
  · change b.used = _
    rw [h.used, List.map_cons, List.sum_cons, Nat.zero_add]
  · exact h.transient.trans (by simp)
  · exact h.keys.trans (by simp)
  · change b.preflightHits + 1 = _
    rw [h.preflightHits, phaseCount_cons, if_pos rfl]

end Budget

namespace FooterCache

/-- The live reservations: those of readers, of entries and of loads. -/
def live (c : FooterCache) : List Reservation :=
  c.held.map Prod.snd ++
    (c.entries.map (fun p => p.2.reservation) ++ c.loads.map fun p => p.2.reservation)

/-- The budget accounts for what is live, and addresses are used once. -/
structure Budgeted (c : FooterCache) : Prop where
  budget : c.budget.Accounts c.live
  heldKeys : (c.held.map Prod.fst).Nodup
  entryKeys : (c.entries.map Prod.fst).Nodup
  loadKeys : (c.loads.map Prod.fst).Nodup
  heldFresh : ∀ r ∈ c.held.map Prod.fst, r < c.fresh
  entryFresh : ∀ a ∈ c.entries.map Prod.fst, a < c.fresh
  loadFresh : ∀ l ∈ c.loads.map Prod.fst, l < c.fresh
  retained : ∀ p ∈ c.entries, p.2.reservation.phase = .retained

/-- An entry is live exactly while the cache or a reader refers to it. -/
def Referenced (c : FooterCache) : Prop :=
  ∀ a, a ∈ c.entries.map Prod.fst ↔ a ∈ c.values.map Prod.snd ∨ a ∈ c.leases

/-- The queue and the recorded identities agree with the values. -/
structure Indexed (c : FooterCache) : Prop where
  valueKeys : (c.values.map Prod.fst).Nodup
  order : c.order.Perm (c.values.map Prod.fst)
  recorded : ∀ key ∈ c.values.map Prod.fst, valueOf key.uri c.identities = some key

/-- The invariant of the footer cache: its budget, its references and its index are consistent. -/
structure Accounted (c : FooterCache) : Prop where
  budgeted : c.Budgeted
  referenced : c.Referenced
  indexed : c.Indexed

section Operations

variable {c : FooterCache} {r a l amount : ℕ} {old : Reservation}

/-- The accounting does not depend on what the cache refers to. -/
theorem Budgeted.congr {c' : FooterCache} (h : c.Budgeted) (hbudget : c'.budget = c.budget)
    (hheld : c'.held = c.held) (hentries : c'.entries = c.entries) (hloads : c'.loads = c.loads)
    (hfresh : c'.fresh = c.fresh) : c'.Budgeted := by
  have hlive : c'.live = c.live := by rw [live, live, hheld, hentries, hloads]
  exact ⟨by rw [hbudget, hlive]; exact h.budget, by rw [hheld]; exact h.heldKeys,
    by rw [hentries]; exact h.entryKeys, by rw [hloads]; exact h.loadKeys,
    by rw [hheld, hfresh]; exact h.heldFresh, by rw [hentries, hfresh]; exact h.entryFresh,
    by rw [hloads, hfresh]; exact h.loadFresh, by rw [hentries]; exact h.retained⟩

/-- A held reservation is live, apart from the other live ones. -/
theorem live_held (h : c.Budgeted) (hr : (r, old) ∈ c.held) :
    c.live.Perm (old :: { c with held := eraseKey r c.held }.live) :=
  ((perm_eraseKey h.heldKeys hr).map Prod.snd).append_right _

/-- The reservation of an entry is live. -/
theorem live_entry {entry : FooterEntry} (h : c.Budgeted) (ha : (a, entry) ∈ c.entries) :
    c.live.Perm (entry.reservation :: { c with entries := eraseKey a c.entries }.live) := by
  have hperm := (perm_eraseKey h.entryKeys ha).map fun p => p.2.reservation
  exact ((hperm.append_right _).append_left _).trans List.perm_middle

/-- The reservation of a load is live. -/
theorem live_load {load : FooterLoad} (h : c.Budgeted) (hl : (l, load) ∈ c.loads) :
    c.live.Perm (load.reservation :: { c with loads := eraseKey l c.loads }.live) := by
  have hperm := (perm_eraseKey h.loadKeys hl).map fun p => p.2.reservation
  refine ((hperm.append_left _).append_left _).trans ?_
  rw [List.map_cons, ← List.append_assoc]
  exact List.perm_middle.trans (by rw [List.append_assoc]; rfl)

/-- Dropping a held reservation keeps the accounting. -/
theorem Budgeted.drop (h : c.Budgeted) (hr : (r, old) ∈ c.held) : (c.drop r old).Budgeted where
  budget := (h.budget.perm (live_held h hr)).drop
  heldKeys := nodup_eraseKey h.heldKeys
  entryKeys := h.entryKeys
  loadKeys := h.loadKeys
  heldFresh := fun s hs => h.heldFresh s (mem_map_fst_eraseKey.mp hs).1
  entryFresh := h.entryFresh
  loadFresh := h.loadFresh
  retained := h.retained

/-- A reservation of a reader changes with the budget. -/
theorem Budgeted.replace {new : Reservation} {budget : Budget} (h : c.Budgeted)
    (hr : (r, old) ∈ c.held)
    (hbudget : ∀ live, c.budget.Accounts (old :: live) → budget.Accounts (new :: live)) :
    { c with held := (r, new) :: eraseKey r c.held, budget }.Budgeted where
  budget := hbudget _ (h.budget.perm (live_held h hr))
  heldKeys := List.nodup_cons.mpr
    ⟨fun hmem => (mem_map_fst_eraseKey.mp hmem).2 rfl, nodup_eraseKey h.heldKeys⟩
  entryKeys := h.entryKeys
  loadKeys := h.loadKeys
  heldFresh := List.forall_mem_cons.mpr ⟨h.heldFresh r (List.mem_map.mpr ⟨_, hr, rfl⟩),
    fun s hs => h.heldFresh s (mem_map_fst_eraseKey.mp hs).1⟩
  entryFresh := h.entryFresh
  loadFresh := h.loadFresh
  retained := h.retained

/-- A new reservation of a reader keeps the accounting when the budget accounts for it. -/
theorem Budgeted.give {new : Reservation} {budget : Budget} (h : c.Budgeted)
    (hbudget : budget.Accounts (new :: c.live)) :
    { c with held := (c.fresh, new) :: c.held, budget, fresh := c.fresh + 1 }.Budgeted where
  budget := hbudget
  heldKeys :=
    List.nodup_cons.mpr ⟨fun hmem => absurd (h.heldFresh _ hmem) (lt_irrefl _), h.heldKeys⟩
  entryKeys := h.entryKeys
  loadKeys := h.loadKeys
  heldFresh := List.forall_mem_cons.mpr
    ⟨Nat.lt_succ_self _, fun s hs => Nat.lt_succ_of_lt (h.heldFresh s hs)⟩
  entryFresh := fun s hs => Nat.lt_succ_of_lt (h.entryFresh s hs)
  loadFresh := fun s hs => Nat.lt_succ_of_lt (h.loadFresh s hs)
  retained := h.retained

/-- Releasing an entry changes the entries and the budget only. -/
theorem Budgeted.release (h : c.Budgeted) : (c.release a).Budgeted ∧
    ∃ entries budget, c.release a = { c with entries, budget } ∧ budget.limit = c.budget.limit ∧
      entries ⊆ c.entries ∧ ∀ b, b ∈ entries.map Prod.fst ↔ b ∈ c.entries.map Prod.fst ∧
        (b = a → a ∈ c.values.map Prod.snd ∨ a ∈ c.leases) := by
  by_cases hused : a ∈ c.values.map Prod.snd ∨ a ∈ c.leases
  · have heq : c.release a = c := by rw [FooterCache.release, if_pos hused]
    rw [heq]
    exact ⟨h, c.entries, c.budget, rfl, rfl, List.Subset.refl _,
      fun b => (and_iff_left fun _ => hused).symm⟩
  · cases hvalue : valueOf a c.entries with
    | none =>
      have heq : c.release a = c := by rw [FooterCache.release, if_neg hused, hvalue]
      rw [heq]
      refine ⟨h, c.entries, c.budget, rfl, rfl, List.Subset.refl _,
        fun b => (and_iff_left_of_imp ?_).symm⟩
      rintro hb rfl
      exact absurd hb (valueOf_eq_none.mp hvalue)
    | some entry =>
      have heq : c.release a =
          { c with
            entries := eraseKey a c.entries
            budget := c.budget.drop entry.reservation } := by
        rw [FooterCache.release, if_neg hused, hvalue]
      have hmem := mem_of_valueOf hvalue
      rw [heq]
      refine ⟨?_, _, _, rfl, Budget.finishTransient_limit _ _, List.filter_subset_self _,
        fun b => ?_⟩
      · exact {
          budget := (h.budget.perm (live_entry h hmem)).drop
          heldKeys := h.heldKeys
          entryKeys := nodup_eraseKey h.entryKeys
          loadKeys := h.loadKeys
          heldFresh := h.heldFresh
          entryFresh := fun b hb => h.entryFresh b (mem_map_fst_eraseKey.mp hb).1
          loadFresh := h.loadFresh
          retained := fun p hp => h.retained p (mem_eraseKey.mp hp).1 }
      · rw [mem_map_fst_eraseKey]
        exact and_congr_right fun _ => ⟨fun hne heq => absurd heq hne, fun h heq => hused (h heq)⟩

/-- A reader's reference to an entry is dropped. -/
theorem Accounted.dropLease (h : c.Accounted) (ha : a ∈ c.leases) :
    (c.dropLease a).Accounted ∧ (c.dropLease a).budget.limit = c.budget.limit := by
  have hold : { c with leases := c.leases.erase a }.Budgeted :=
    h.budgeted.congr rfl rfl rfl rfl rfl
  obtain ⟨hbudgeted, entries, budget, heq, hlimit, -, hentries⟩ := hold.release (a := a)
  rw [FooterCache.dropLease]
  refine ⟨⟨hbudgeted, ?_, ?_⟩, by rw [heq, hlimit]⟩
  · rw [heq]
    intro b
    change b ∈ entries.map Prod.fst ↔ b ∈ c.values.map Prod.snd ∨ b ∈ c.leases.erase a
    rw [hentries]
    dsimp only
    rw [h.referenced b]
    by_cases hb : b = a
    · subst hb
      simp only [ha, or_true, true_and, forall_const]
    · rw [List.mem_erase_of_ne hb]
      simp [hb]
  · rw [heq]
    exact ⟨h.indexed.valueKeys, h.indexed.order, h.indexed.recorded⟩

/-- What an eviction leaves as it is. -/
structure Evicted (c c' : FooterCache) : Prop where
  limit : c'.budget.limit = c.budget.limit
  held : c'.held = c.held
  loads : c'.loads = c.loads
  registry : c'.registry = c.registry
  leases : c'.leases = c.leases
  entries : c'.entries ⊆ c.entries

/-- Evicting nothing leaves everything as it is. -/
theorem Evicted.refl (c : FooterCache) : Evicted c c :=
  ⟨rfl, rfl, rfl, rfl, rfl, List.Subset.refl _⟩

/-- Two evictions leave as they are what each of them leaves. -/
theorem Evicted.trans {c' c'' : FooterCache} (h : Evicted c c') (h' : Evicted c' c'') :
    Evicted c c'' :=
  ⟨h'.limit.trans h.limit, h'.held.trans h.held, h'.loads.trans h.loads,
    h'.registry.trans h.registry, h'.leases.trans h.leases,
    List.Subset.trans h'.entries h.entries⟩

/-- The values after an eviction are recorded as they were. -/
private theorem recorded_evict {key : FooterIdentity} (h : c.Indexed)
    {identities : List (String × FooterIdentity)}
    (hidentities : identities = if (eraseKey key c.values).any fun p => decide (p.1.uri = key.uri)
      then c.identities else eraseKey key.uri c.identities) :
    ∀ other ∈ (eraseKey key c.values).map Prod.fst, valueOf other.uri identities = some other := by
  intro other hother
  have hrecorded := h.recorded other (mem_map_fst_eraseKey.mp hother).1
  subst hidentities
  split
  · exact hrecorded
  · next hnone =>
    have huri : other.uri ≠ key.uri := by
      intro huri
      obtain ⟨p, hp, rfl⟩ := List.mem_map.mp hother
      exact hnone (List.any_eq_true.mpr ⟨p, hp, decide_eq_true huri⟩)
    rwa [valueOf_eraseKey_of_ne huri]

/-- The first key of the queue is evicted. -/
theorem Accounted.evict {key : FooterIdentity} {rest : List FooterIdentity} (h : c.Accounted)
    (horder : c.order = key :: rest) :
    (c.evict key rest).Accounted ∧ Evicted c (c.evict key rest) ∧
      (c.evict key rest).order = rest := by
  have hkey : key ∈ c.values.map Prod.fst :=
    h.indexed.order.mem_iff.mp (horder ▸ List.mem_cons_self)
  obtain ⟨⟨key, a⟩, hmem, rfl⟩ := List.mem_map.mp hkey
  have hperm := perm_eraseKey h.indexed.valueKeys hmem
  have hrest : rest.Perm ((eraseKey key c.values).map Prod.fst) := by
    have hboth := h.indexed.order.trans (hperm.map Prod.fst)
    rw [horder, List.map_cons] at hboth
    exact hboth.cons_inv
  have hold : { c with order := rest, values := eraseKey key c.values }.Budgeted :=
    h.budgeted.congr rfl rfl rfl rfl rfl
  obtain ⟨hbudgeted, entries, budget, heq, hlimit, hsub, hentries⟩ := hold.release (a := a)
  have hevict : c.evict key rest = { c with
      order := rest
      values := eraseKey key c.values
      entries := entries
      budget := budget
      identities := if (eraseKey key c.values).any fun p => decide (p.1.uri = key.uri)
        then c.identities else eraseKey key.uri c.identities } := by
    rw [FooterCache.evict, valueOf_of_mem h.indexed.valueKeys hmem]
    dsimp only
    rw [heq, FooterCache.forget]
    split <;> rfl
  rw [heq] at hbudgeted
  rw [hevict]
  refine ⟨⟨?_, ?_, ?_⟩, ⟨hlimit, rfl, rfl, rfl, rfl, hsub⟩, rfl⟩
  · exact hbudgeted.congr rfl rfl rfl rfl rfl
  · intro b
    change b ∈ entries.map Prod.fst ↔ b ∈ (eraseKey key c.values).map Prod.snd ∨ b ∈ c.leases
    rw [hentries]
    dsimp only
    rw [h.referenced b, (hperm.map Prod.snd).mem_iff, List.map_cons, List.mem_cons]
    by_cases hb : b = a
    · subst hb
      simp
    · simp [hb]
  · exact ⟨nodup_eraseKey h.indexed.valueKeys, hrest, recorded_evict h.indexed rfl⟩

end Operations

end FooterCache

end Otmp.DataFusion
