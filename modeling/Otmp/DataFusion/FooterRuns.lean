import Otmp.DataFusion.FooterAccounting

/-!
# Runs of the footer cache

Readers reserve, look up, insert, register and drop in any order. Every call keeps the accounting,
and an amount within the limit is reported not to fit only when no reservation that could come
free for the caller is live. What readers hold is what the calls and their answers say: a
reservation is gone once it is dropped or given away, a load once it is dropped.
-/

namespace Otmp.DataFusion

open Foundation Otmp.Reader

namespace FooterCache

section Calls

variable {c c' : FooterCache} {r a l amount : ℕ} {old : Reservation} {key : FooterIdentity}

/-- What holds of an admission: the invariant and the limit are kept, a granted reservation is the
only change for readers, and an amount is refused for good only when no reservation of others could
still be given back. -/
structure Admits (c : FooterCache) (amount : ℕ) (ownedKeys : Option ℕ) (ownedHits : ℕ)
    (result : Admission × FooterCache) : Prop where
  accounted : result.2.Accounted
  limit : result.2.budget.limit = c.budget.limit
  held : ∀ s, valueOf s result.2.held =
    if result.1 = .reserved s then some ⟨amount, .payload⟩ else valueOf s c.held
  leases : result.2.leases = c.leases
  loads : result.2.loads = c.loads
  entries : result.2.entries ⊆ c.entries
  cannotFit : result.1 = .cannotFit → Evicted c result.2 ∧
    phaseCount .payload result.2.live = 0 ∧ phaseCount .preflight result.2.live ≤ ownedHits ∧
    ∀ own ∈ ownedKeys, phaseCount .key result.2.live ≤ own

/-- A reservation that fits is handed out. -/
private theorem admits_grant {ownedKeys : Option ℕ} {ownedHits : ℕ} (h : c.Accounted)
    (hfits : c.budget.Fits amount) :
    Admits c amount ownedKeys ownedHits (.reserved c.fresh, { c with
      budget := c.budget.grant amount
      held := (c.fresh, ⟨amount, .payload⟩) :: c.held
      fresh := c.fresh + 1 }) where
  accounted := ⟨h.budgeted.give (h.budgeted.budget.grant hfits), h.referenced,
    ⟨h.indexed.valueKeys, h.indexed.order, h.indexed.recorded⟩⟩
  limit := rfl
  held s := by
    rw [valueOf_cons]
    simp only [Admission.reserved.injEq]
  leases := rfl
  loads := rfl
  entries := List.Subset.refl _
  cannotFit := fun hcannot => nomatch hcannot

/-- A reservation attempt keeps the invariant, whether it is granted, refused or put off. -/
theorem Accounted.tryReserveFrom (amount : ℕ) (ownedKeys : Option ℕ) (ownedHits : ℕ)
    {queue : List FooterIdentity} (h : c.Accounted) (hqueue : c.order = queue) :
    Admits c amount ownedKeys ownedHits (tryReserveFrom amount ownedKeys ownedHits queue c) := by
  induction queue generalizing c with
  | nil =>
    rw [FooterCache.tryReserveFrom]
    split
    · next hfits => exact admits_grant h hfits
    · split
      · exact ⟨h, rfl, fun _ => rfl, rfl, rfl, List.Subset.refl _, fun hcannot => nomatch hcannot⟩
      · next hnone =>
        have hbudget := h.budgeted.budget
        simp only [not_or, not_lt, gt_iff_lt, Nat.le_zero, hbudget.transient,
          hbudget.preflightHits, hbudget.keys] at hnone
        refine ⟨h, rfl, fun _ => rfl, rfl, rfl, List.Subset.refl _,
          fun _ => ⟨.refl c, hnone.1, hnone.2.1, fun own hown => ?_⟩⟩
        have hkeys := hnone.2.2
        rw [Option.mem_def.mp hown, Option.any_some, decide_eq_true_eq, not_lt] at hkeys
        exact hkeys
  | cons key rest ih =>
    rw [FooterCache.tryReserveFrom]
    split
    · next hfits => exact admits_grant h hfits
    · obtain ⟨haccounted, hevicted, horder⟩ := h.evict hqueue
      have hadmits := ih haccounted horder
      refine ⟨hadmits.accounted, hadmits.limit.trans hevicted.limit,
        fun s => by rw [hadmits.held, hevicted.held], hadmits.leases.trans hevicted.leases,
        hadmits.loads.trans hevicted.loads, List.Subset.trans hadmits.entries hevicted.entries,
        fun hresult => ?_⟩
      obtain ⟨hevicted', hcounts⟩ := hadmits.cannotFit hresult
      exact ⟨hevicted.trans hevicted', hcounts⟩

/-- A reference to a cached footer is handed out. -/
private theorem referenced_lease (h : c.Referenced) (ha : a ∈ c.values.map Prod.snd) (b : ℕ) :
    b ∈ c.entries.map Prod.fst ↔ b ∈ c.values.map Prod.snd ∨ b ∈ a :: c.leases := by
  rw [h b, List.mem_cons]
  constructor
  · rintro (hb | hb)
    · exact .inl hb
    · exact .inr (.inr hb)
  · rintro (hb | rfl | hb)
    · exact .inl hb
    · exact .inl ha
    · exact .inr hb

/-- A lookup keeps the invariant and the limit, whether or not it hands out a lease. -/
theorem Accounted.get {lease : Bool} (h : c.Accounted) :
    (c.get key lease).2.2.Accounted ∧ (c.get key lease).2.2.budget.limit = c.budget.limit := by
  unfold FooterCache.get
  split
  · exact ⟨h, rfl⟩
  · split
    · exact ⟨h, rfl⟩
    · next a hvalue =>
      have hvalues : a ∈ c.values.map Prod.snd :=
        List.mem_map.mpr ⟨_, mem_of_valueOf hvalue, rfl⟩
      have hreferenced := referenced_lease h.referenced hvalues
      have hindexed := h.indexed
      dsimp only
      split
      · have hbudgeted := h.budgeted.give h.budgeted.budget.hit
        exact ⟨⟨hbudgeted.congr rfl rfl rfl rfl rfl, hreferenced,
          ⟨hindexed.valueKeys, hindexed.order, hindexed.recorded⟩⟩, rfl⟩
      · exact ⟨⟨h.budgeted.congr rfl rfl rfl rfl rfl, hreferenced,
          ⟨hindexed.valueKeys, hindexed.order, hindexed.recorded⟩⟩, rfl⟩

/-- Dropping a reservation keeps the invariant and the limit. -/
theorem Accounted.drop (h : c.Accounted) (hr : (r, old) ∈ c.held) :
    (c.drop r old).Accounted ∧ (c.drop r old).budget.limit = c.budget.limit :=
  ⟨⟨h.budgeted.drop hr, h.referenced, ⟨h.indexed.valueKeys, h.indexed.order, h.indexed.recorded⟩⟩,
    Budget.finishTransient_limit _ _⟩

/-- A checked key agrees with the recorded identity of its URI. -/
theorem check_eq_ok (h : c.check key = .ok ()) :
    ∀ recorded, valueOf key.uri c.identities = some recorded → recorded = key := by
  intro recorded hrecorded
  rw [check, hrecorded, ite_error_eq_ok] at h
  simpa using h.1

/-- A new entry owns the reservation of its reader. -/
private theorem budgeted_entry {memorySize tailLength : ℕ} (h : c.Budgeted)
    (hr : (r, old) ∈ c.held) :
    { c with
      budget := c.budget.finishTransient old.phase
      held := eraseKey r c.held
      entries := (c.fresh, ⟨memorySize, tailLength, { old with phase := .retained }⟩) :: c.entries
      fresh := c.fresh + 1 }.Budgeted where
  budget := (h.budget.perm (live_held h hr)).finishTransient.perm List.perm_middle.symm
  heldKeys := nodup_eraseKey h.heldKeys
  entryKeys := List.nodup_cons.mpr
    ⟨fun hmem => absurd (h.entryFresh _ hmem) (lt_irrefl _), h.entryKeys⟩
  loadKeys := h.loadKeys
  heldFresh := fun s hs => Nat.lt_succ_of_lt (h.heldFresh s (mem_map_fst_eraseKey.mp hs).1)
  entryFresh := List.forall_mem_cons.mpr
    ⟨Nat.lt_succ_self _, fun s hs => Nat.lt_succ_of_lt (h.entryFresh s hs)⟩
  loadFresh := fun s hs => Nat.lt_succ_of_lt (h.loadFresh s hs)
  retained := List.forall_mem_cons.mpr ⟨rfl, h.retained⟩

/-- A checked key that is not cached joins the queue. -/
private theorem indexed_insert (address : ℕ) (h : c.Indexed)
    (hcheck : ∀ recorded, valueOf key.uri c.identities = some recorded → recorded = key)
    (hnew : key ∉ c.values.map Prod.fst) :
    { c with
      identities := (key.uri, key) :: eraseKey key.uri c.identities
      order := c.order ++ [key]
      values := (key, address) :: c.values }.Indexed where
  valueKeys := List.nodup_cons.mpr ⟨hnew, h.valueKeys⟩
  order := (List.perm_append_singleton _ _).trans ((List.perm_cons key).mpr h.order)
  recorded := by
    refine List.forall_mem_cons.mpr ⟨valueOf_cons_self, fun other hother => ?_⟩
    have hrecorded := h.recorded other hother
    by_cases huri : other.uri = key.uri
    · rw [huri] at hrecorded
      obtain rfl := hcheck other hrecorded
      exact absurd hother hnew
    · dsimp only
      rw [valueOf_cons_of_ne fun heq => huri heq.symm, valueOf_eraseKey_of_ne huri]
      exact hrecorded

/-- An insert keeps the invariant and the limit, whether or not the cache takes the value. -/
theorem Accounted.insert {memorySize tailLength : ℕ} (h : c.Accounted) (hr : (r, old) ∈ c.held) :
    (c.insert key memorySize tailLength r old).2.Accounted ∧
      (c.insert key memorySize tailLength r old).2.budget.limit = c.budget.limit := by
  have hindexed := h.indexed
  unfold FooterCache.insert
  split
  · exact h.drop hr
  · split
    · exact h.drop hr
    · next hcheck =>
      split
      · next a hvalue =>
        have hvalues : a ∈ c.values.map Prod.snd :=
          List.mem_map.mpr ⟨_, mem_of_valueOf hvalue, rfl⟩
        obtain ⟨hdropped, hlimit⟩ := h.drop hr
        exact ⟨⟨hdropped.budgeted.congr rfl rfl rfl rfl rfl, referenced_lease h.referenced hvalues,
          ⟨hindexed.valueKeys, hindexed.order, hindexed.recorded⟩⟩, hlimit⟩
      · next hvalue =>
        have hinsert := indexed_insert c.fresh hindexed (check_eq_ok hcheck)
          (valueOf_eq_none.mp hvalue)
        refine ⟨⟨(budgeted_entry h.budgeted hr).congr rfl rfl rfl rfl rfl, fun b => ?_,
          ⟨hinsert.valueKeys, hinsert.order, hinsert.recorded⟩⟩, Budget.finishTransient_limit _ _⟩
        simp only [List.map_cons, List.mem_cons, h.referenced b]
        tauto

/-- Registering a load keeps the invariant; the load takes the reservation over. -/
theorem Accounted.register (h : c.Accounted) (hr : (r, old) ∈ c.held) :
    (c.register key r old).Accounted := by
  have hb := h.budgeted
  refine ⟨⟨?_, nodup_eraseKey hb.heldKeys, hb.entryKeys, ?_, ?_, ?_, ?_, hb.retained⟩, h.referenced,
    ⟨h.indexed.valueKeys, h.indexed.order, h.indexed.recorded⟩⟩
  · refine hb.budget.perm ((live_held hb hr).trans ?_)
    have hmiddle : (c.entries.map (fun p => p.2.reservation) ++
        old :: c.loads.map fun p => p.2.reservation).Perm (old :: (c.entries.map
          (fun p => p.2.reservation) ++ c.loads.map fun p => p.2.reservation)) := List.perm_middle
    exact List.perm_middle.symm.trans (hmiddle.symm.append_left _)
  · exact List.nodup_cons.mpr ⟨fun hmem => absurd (hb.loadFresh _ hmem) (lt_irrefl _), hb.loadKeys⟩
  · exact fun s hs => Nat.lt_succ_of_lt (hb.heldFresh s (mem_map_fst_eraseKey.mp hs).1)
  · exact fun s hs => Nat.lt_succ_of_lt (hb.entryFresh s hs)
  · exact List.forall_mem_cons.mpr
      ⟨Nat.lt_succ_self _, fun s hs => Nat.lt_succ_of_lt (hb.loadFresh s hs)⟩

/-- Dropping a load keeps the invariant and drops the load's reservation. -/
theorem Accounted.dropLoad {load : FooterLoad} (h : c.Accounted) (hl : (l, load) ∈ c.loads) :
    (c.dropLoad l load).Accounted := by
  have hb := h.budgeted
  exact ⟨⟨(hb.budget.perm (live_load hb hl)).drop, hb.heldKeys, hb.entryKeys,
    nodup_eraseKey hb.loadKeys, hb.heldFresh, hb.entryFresh,
    fun s hs => hb.loadFresh s (mem_map_fst_eraseKey.mp hs).1, hb.retained⟩, h.referenced,
    ⟨h.indexed.valueKeys, h.indexed.order, h.indexed.recorded⟩⟩

/-- Every call keeps the accounting and the limit. -/
theorem Accounted.step {call : Call} {answer : Answer} (h : c.Accounted)
    (hstep : c.step call = some (answer, c')) :
    c'.Accounted ∧ c'.budget.limit = c.budget.limit := by
  cases call with
  | tryReserve amount ownedKeys ownedHits =>
    cases hstep
    unfold FooterCache.tryReserve
    split
    · exact ⟨h, rfl⟩
    · have hadmits := h.tryReserveFrom amount ownedKeys ownedHits rfl
      exact ⟨hadmits.accounted, hadmits.limit⟩
  | markKey r =>
    obtain ⟨old, hvalue, heq⟩ := Option.map_eq_some_iff.mp hstep
    cases heq
    have hbudgeted := h.budgeted.replace (mem_of_valueOf hvalue) fun live hlive => hlive.markKey
    exact ⟨⟨hbudgeted, h.referenced, ⟨h.indexed.valueKeys, h.indexed.order, h.indexed.recorded⟩⟩,
      Budget.finishTransient_limit _ _⟩
  | shrink r amount =>
    obtain ⟨old, hvalue, hshrink⟩ := Option.bind_eq_some_iff.mp hstep
    split at hshrink
    · next hle =>
      cases hshrink
      have hbudgeted :=
        h.budgeted.replace (mem_of_valueOf hvalue) fun live hlive => hlive.shrink hle
      exact ⟨⟨hbudgeted, h.referenced,
        ⟨h.indexed.valueKeys, h.indexed.order, h.indexed.recorded⟩⟩, rfl⟩
    · cases hshrink
  | finishTransient r =>
    obtain ⟨old, hvalue, heq⟩ := Option.map_eq_some_iff.mp hstep
    cases heq
    have hbudgeted := h.budgeted.replace (mem_of_valueOf hvalue)
      fun live hlive => hlive.finishTransient
    exact ⟨⟨hbudgeted, h.referenced, ⟨h.indexed.valueKeys, h.indexed.order, h.indexed.recorded⟩⟩,
      Budget.finishTransient_limit _ _⟩
  | drop r =>
    obtain ⟨old, hvalue, heq⟩ := Option.map_eq_some_iff.mp hstep
    cases heq
    exact h.drop (mem_of_valueOf hvalue)
  | get key lease =>
    cases hstep
    exact h.get
  | insert key memorySize tailLength r =>
    obtain ⟨old, hvalue, heq⟩ := Option.map_eq_some_iff.mp hstep
    cases heq
    exact h.insert (mem_of_valueOf hvalue)
  | dropLease a =>
    simp only [FooterCache.step] at hstep
    split at hstep
    · next ha =>
      cases hstep
      exact h.dropLease ha
    · cases hstep
  | register key r =>
    obtain ⟨old, hvalue, heq⟩ := Option.map_eq_some_iff.mp hstep
    cases heq
    exact ⟨h.register (mem_of_valueOf hvalue), rfl⟩
  | dropLoad l =>
    obtain ⟨load, hvalue, heq⟩ := Option.map_eq_some_iff.mp hstep
    cases heq
    exact ⟨h.dropLoad (mem_of_valueOf hvalue), Budget.finishTransient_limit _ _⟩

/-- An empty cache satisfies the invariant when its limit fits the word. -/
theorem Accounted.new {limit : ℕ} (hlimit : limit < wordSize) : (new limit).Accounted := by
  refine ⟨⟨⟨hlimit, rfl, Nat.zero_le _, rfl, rfl, rfl⟩, ?_, ?_, ?_, ?_, ?_, ?_, ?_⟩, ?_,
    ⟨?_, ?_, ?_⟩⟩ <;> simp [FooterCache.new, Referenced]

end Calls

section Readers

variable {c c' : FooterCache} {trace : List (Call × Answer)} {call : Call} {answer : Answer}
  {r : ℕ} {old : Reservation}

/-- Readers hold what the calls and their answers say, and every live entry was given to the cache
with the reservation that it owns. -/
structure Told (trace : List (Call × Answer)) (c : FooterCache) : Prop where
  held : ∀ s, valueOf s c.held = heldAfter trace s
  leases : ∀ b, c.leases.count b = leasedAfter trace b
  loads : ∀ l, valueOf l c.loads = loadsAfter trace l
  given : ∀ p ∈ c.entries, Given trace p.1 p.2

/-- What was given to the cache stays given when more calls follow. -/
theorem Given.cons {event : Call × Answer} {a : ℕ} {entry : FooterEntry}
    (h : Given trace a entry) : Given (event :: trace) a entry := by
  obtain ⟨later, key, r, earlier, old, rfl, hentry⟩ := h
  exact ⟨event :: later, key, r, earlier, old, rfl, hentry⟩

/-- A reservation that a reader holds and changes. -/
theorem valueOf_replaced {change : Reservation → Reservation} (hvalue : valueOf r c.held = some old)
    (s : ℕ) : valueOf s ((r, change old) :: eraseKey r c.held) =
      (valueOf s c.held).map fun old => if r = s then change old else old := by
  rw [valueOf_cons, valueOf_eraseKey]
  by_cases hs : r = s
  · subst hs
    simp [hvalue]
  · simp [hs]

/-- Changing a reservation leaves all else as it is told. -/
theorem Told.replaced {budget : Budget} (change : Reservation → Reservation) (h : Told trace c)
    (hvalue : valueOf r c.held = some old)
    (hheld : ∀ s, heldAfter ((call, answer) :: trace) s =
      (heldAfter trace s).map fun old => if r = s then change old else old)
    (hleases : ∀ b, leasedAfter ((call, answer) :: trace) b = leasedAfter trace b)
    (hloads : ∀ l, loadsAfter ((call, answer) :: trace) l = loadsAfter trace l) :
    Told ((call, answer) :: trace)
      { c with held := (r, change old) :: eraseKey r c.held, budget } where
  held s := by rw [valueOf_replaced hvalue, hheld, h.held]
  leases b := (h.leases b).trans (hleases b).symm
  loads l := (h.loads l).trans (hloads l).symm
  given p hp := (h.given p hp).cons

/-- Releasing an entry leaves what readers hold. -/
theorem Told.release (h : Told trace c) (hbudgeted : c.Budgeted) (a : ℕ) :
    Told trace (c.release a) := by
  obtain ⟨-, entries, budget, heq, -, hsub, -⟩ := hbudgeted.release (a := a)
  rw [heq]
  exact ⟨h.held, h.leases, h.loads, fun p hp => h.given p (hsub hp)⟩

/-- After a reservation attempt the trace still tells what readers hold. -/
theorem Told.tryReserve {amount ownedHits : ℕ} {ownedKeys : Option ℕ} (h : Told trace c)
    (hc : c.Accounted) :
    Told ((.tryReserve amount ownedKeys ownedHits,
      .admission (c.tryReserve amount ownedKeys ownedHits).1) :: trace)
      (c.tryReserve amount ownedKeys ownedHits).2 := by
  unfold FooterCache.tryReserve
  split
  · exact ⟨fun s => (h.held s).trans (by simp [heldAfter, Call.takes]),
      fun b => h.leases b, h.loads, fun p hp => (h.given p hp).cons⟩
  · have hadmits := hc.tryReserveFrom amount ownedKeys ownedHits rfl
    generalize FooterCache.tryReserveFrom amount ownedKeys ownedHits c.order c = result at hadmits ⊢
    obtain ⟨admission, c'⟩ := result
    refine ⟨fun s => ?_, fun b => ?_, fun l => ?_,
      fun p hp => (h.given p (hadmits.entries hp)).cons⟩
    · rw [hadmits.held, h.held]
      cases admission <;> simp [heldAfter, Call.takes]
    · rw [hadmits.leases, h.leases]
      rfl
    · rw [hadmits.loads, h.loads]
      rfl

/-- After a lookup the trace still tells what readers hold. -/
theorem Told.get {key : FooterIdentity} {lease : Bool} (h : Told trace c) :
    Told ((.get key lease, .found (c.get key lease).1 (c.get key lease).2.1) :: trace)
      (c.get key lease).2.2 := by
  have hsame : ∀ result : Except String (Option ℕ), (Answer.found result none).hands = none →
      Told ((.get key lease, .found result none) :: trace) c := by
    intro result hresult
    refine ⟨fun s => (h.held s).trans (by simp [heldAfter, Call.takes]), fun b => ?_, h.loads,
      fun p hp => (h.given p hp).cons⟩
    change _ = leasedAfter trace b + if (Answer.found result none).hands = some b then 1 else 0
    rw [hresult, h.leases]
    rfl
  have hhanded : ∀ a b, (a :: c.leases).count b =
      leasedAfter trace b + if some a = some b then 1 else 0 := by
    intro a b
    rw [List.count_cons, h.leases]
    simp
  unfold FooterCache.get
  split
  · exact hsame _ rfl
  · split
    · exact hsame _ rfl
    · next a _ =>
      dsimp only
      split
      · refine ⟨fun s => ?_, hhanded a, h.loads, fun p hp => (h.given p hp).cons⟩
        change valueOf s ((c.fresh, _) :: c.held) = _
        rw [valueOf_cons, h.held]
        rfl
      · exact ⟨fun s => (h.held s).trans (by simp [heldAfter, Call.takes]), hhanded a, h.loads,
          fun p hp => (h.given p hp).cons⟩

/-- A reservation that is dropped with a call. -/
theorem Told.taken {budget : Budget} (h : Told trace c)
    (hheld : ∀ s, heldAfter ((call, answer) :: trace) s =
      if r = s then none else heldAfter trace s)
    (hleases : ∀ b, leasedAfter ((call, answer) :: trace) b = leasedAfter trace b)
    (hloads : ∀ l, loadsAfter ((call, answer) :: trace) l = loadsAfter trace l) :
    Told ((call, answer) :: trace) { c with held := eraseKey r c.held, budget } where
  held s := by rw [valueOf_eraseKey, hheld, h.held]
  leases b := (h.leases b).trans (hleases b).symm
  loads l := (h.loads l).trans (hloads l).symm
  given p hp := (h.given p hp).cons

/-- After an insert the trace still tells what readers hold, and what the cache was given. -/
theorem Told.insert {key : FooterIdentity} {memorySize tailLength : ℕ} (h : Told trace c)
    (hvalue : valueOf r c.held = some old) :
    Told ((.insert key memorySize tailLength r,
      .inserted (c.insert key memorySize tailLength r old).1) :: trace)
      (c.insert key memorySize tailLength r old).2 := by
  have htaken : ∀ answer : Answer, ∀ s,
      heldAfter ((.insert key memorySize tailLength r, answer) :: trace) s =
        if r = s then none else heldAfter trace s := by
    intro answer s
    simp [heldAfter, Call.takes]
  have hhanded : ∀ a b, (a :: c.leases).count b =
      leasedAfter trace b + if some a = some b then 1 else 0 := by
    intro a b
    rw [List.count_cons, h.leases]
    simp
  have hheld : ∀ s, valueOf s (eraseKey r c.held) = if r = s then none else heldAfter trace s :=
    fun s => by rw [valueOf_eraseKey, h.held]
  unfold FooterCache.insert
  split
  · exact h.taken (htaken _) (fun _ => rfl) fun _ => rfl
  · split
    · exact h.taken (htaken _) (fun _ => rfl) fun _ => rfl
    · split
      · next a _ =>
        exact ⟨fun s => (hheld s).trans (htaken _ s).symm, hhanded a, h.loads,
          fun p hp => (h.given p hp).cons⟩
      · refine ⟨fun s => (hheld s).trans (htaken _ s).symm, hhanded c.fresh, h.loads, ?_⟩
        refine List.forall_mem_cons.mpr ⟨?_, fun p hp => (h.given p hp).cons⟩
        exact ⟨[], key, r, trace, old, rfl, (h.held r).symm.trans hvalue, rfl⟩

/-- Every call changes what readers hold as it and its answer say. -/
theorem Told.step (h : Told trace c) (hc : c.Accounted) (hstep : c.step call = some (answer, c')) :
    Told ((call, answer) :: trace) c' := by
  cases call with
  | tryReserve amount ownedKeys ownedHits =>
    cases hstep
    exact h.tryReserve hc
  | markKey r =>
    obtain ⟨old, hvalue, heq⟩ := Option.map_eq_some_iff.mp hstep
    cases heq
    exact h.replaced (fun old => { old with phase := .key }) hvalue (fun _ => rfl)
      (fun _ => rfl) fun _ => rfl
  | shrink r amount =>
    obtain ⟨old, hvalue, hshrink⟩ := Option.bind_eq_some_iff.mp hstep
    split at hshrink
    · cases hshrink
      exact h.replaced (fun old => { old with amount := old.amount - amount }) hvalue
        (fun _ => rfl) (fun _ => rfl) fun _ => rfl
    · cases hshrink
  | finishTransient r =>
    obtain ⟨old, hvalue, heq⟩ := Option.map_eq_some_iff.mp hstep
    cases heq
    exact h.replaced (fun old => { old with phase := .retained }) hvalue (fun _ => rfl)
      (fun _ => rfl) fun _ => rfl
  | drop r =>
    obtain ⟨old, -, heq⟩ := Option.map_eq_some_iff.mp hstep
    cases heq
    exact h.taken (fun s => by simp [heldAfter, Call.takes]) (fun _ => rfl) fun _ => rfl
  | get key lease =>
    cases hstep
    exact h.get
  | insert key memorySize tailLength r =>
    obtain ⟨old, hvalue, heq⟩ := Option.map_eq_some_iff.mp hstep
    cases heq
    exact h.insert hvalue
  | dropLease a =>
    simp only [FooterCache.step] at hstep
    split at hstep
    · cases hstep
      have hbudgeted : { c with leases := c.leases.erase a }.Budgeted :=
        hc.budgeted.congr rfl rfl rfl rfl rfl
      refine Told.release (c := { c with leases := c.leases.erase a }) ?_ hbudgeted a
      refine ⟨fun s => (h.held s).trans (by simp [heldAfter, Call.takes]), fun b => ?_, h.loads,
        fun p hp => (h.given p hp).cons⟩
      change (c.leases.erase a).count b = leasedAfter trace b - _
      rw [List.count_erase, h.leases]
      simp only [beq_iff_eq]
    · cases hstep
  | register key r =>
    obtain ⟨old, hvalue, heq⟩ := Option.map_eq_some_iff.mp hstep
    cases heq
    refine ⟨fun s => ?_, h.leases, fun l => ?_, fun p hp => (h.given p hp).cons⟩
    · change valueOf s (eraseKey r c.held) = _
      rw [valueOf_eraseKey, h.held]
      simp [heldAfter, Call.takes]
    · change valueOf l ((c.fresh, ⟨key, old⟩) :: c.loads) = _
      rw [valueOf_cons, h.loads, loadsAfter, ← h.held, hvalue]
      rfl
  | dropLoad l =>
    obtain ⟨load, -, heq⟩ := Option.map_eq_some_iff.mp hstep
    cases heq
    refine ⟨fun s => (h.held s).trans (by simp [heldAfter, Call.takes]), h.leases, fun k => ?_,
      fun p hp => (h.given p hp).cons⟩
    change valueOf k (eraseKey l c.loads) = _
    rw [valueOf_eraseKey, h.loads, loadsAfter]

end Readers

/-- The accounting holds in every state of a run, and readers hold what the calls say. -/
theorem Run.accounted {limit : ℕ} {trace : List (Call × Answer)} {c : FooterCache}
    (hlimit : limit < wordSize) (h : Run limit trace c) :
    c.Accounted ∧ c.budget.limit = limit ∧ Told trace c := by
  induction h with
  | start =>
    exact ⟨.new hlimit, rfl, fun _ => rfl, fun _ => rfl, fun _ => rfl,
      fun _ hp => absurd hp List.not_mem_nil⟩
  | step _ hstep ih =>
    obtain ⟨haccounted, rfl, htold⟩ := ih
    obtain ⟨haccounted', hlimit'⟩ := haccounted.step hstep
    exact ⟨haccounted', hlimit', htold.step haccounted hstep⟩

/-- **The accounting of the footer cache.** In every state that any order of calls reaches, what is
used is the sum of the live reservations and within the limit, and each counter is the number of
live reservations of its phase; readers hold the reservations, leases and loads that the calls and
their answers say, and an entry owns the reservation that a reader gave away with it; an entry is
live exactly while it is referred to; the queue holds
each cached identity once, and all cached footers of a URI have the recorded identity; an amount
within the limit is reported not to fit only when no payload is being decoded, no hit but the
caller's own is being validated, and no load but the caller's own is registered, if it may wait for
loads; and a dropped load takes no newer load out of the registry. -/
theorem footer_accounting {limit : ℕ} {trace : List (Call × Answer)} {c : FooterCache}
    (hlimit : limit < wordSize) (h : Run limit trace c) :
    (c.budget.used = (c.live.map Reservation.amount).sum ∧ c.budget.used ≤ limit) ∧
      (c.budget.transient = phaseCount .payload c.live ∧ c.budget.keys = phaseCount .key c.live ∧
        c.budget.preflightHits = phaseCount .preflight c.live) ∧
      ((∀ r, valueOf r c.held = heldAfter trace r) ∧
        (∀ a, c.leases.count a = leasedAfter trace a) ∧
        (∀ l, valueOf l c.loads = loadsAfter trace l) ∧
        ∀ a entry, valueOf a c.entries = some entry → Given trace a entry) ∧
      (∀ a, a ∈ c.entries.map Prod.fst ↔ a ∈ c.values.map Prod.snd ∨ a ∈ c.leases) ∧
      (c.order.Nodup ∧ (c.values.map Prod.fst).Nodup ∧
        (∀ key, key ∈ c.order ↔ key ∈ c.values.map Prod.fst) ∧
        ∀ key ∈ c.values.map Prod.fst, valueOf key.uri c.identities = some key) ∧
      (∀ amount ownedKeys ownedHits c', amount ≤ limit →
        c.tryReserve amount ownedKeys ownedHits = (.cannotFit, c') →
          (c'.held = c.held ∧ c'.loads = c.loads) ∧ phaseCount .payload c'.live = 0 ∧
            phaseCount .preflight c'.live ≤ ownedHits ∧
            ∀ own ∈ ownedKeys, phaseCount .key c'.live ≤ own) ∧
      ∀ l load, valueOf l c.loads = some load → ∀ key newer, newer ≠ l →
        valueOf key c.registry = some newer →
          valueOf key (c.dropLoad l load).registry = some newer := by
  obtain ⟨haccounted, rfl, htold⟩ := h.accounted hlimit
  have hbudget := haccounted.budgeted.budget
  have hindexed := haccounted.indexed
  refine ⟨⟨hbudget.used, hbudget.limit⟩, ⟨hbudget.transient, hbudget.keys, hbudget.preflightHits⟩,
    ⟨htold.held, htold.leases, htold.loads, fun a entry ha => htold.given _ (mem_of_valueOf ha)⟩,
    haccounted.referenced, ⟨hindexed.order.nodup_iff.mpr hindexed.valueKeys, hindexed.valueKeys,
      fun key => hindexed.order.mem_iff, hindexed.recorded⟩, ?_, ?_⟩
  · intro amount ownedKeys ownedHits c' hle hresult
    rw [tryReserve, if_neg (not_lt.mpr hle)] at hresult
    have hadmits := haccounted.tryReserveFrom amount ownedKeys ownedHits rfl
    rw [hresult] at hadmits
    obtain ⟨hevicted, hcounts⟩ := hadmits.cannotFit rfl
    exact ⟨⟨hevicted.held, hevicted.loads⟩, hcounts⟩
  · intro l load _ key newer hne hnewer
    change valueOf key (if _ then _ else _) = _
    split
    · next hown =>
      have hkey : key ≠ load.key := by
        rintro rfl
        exact hne (Option.some.inj (hnewer.symm.trans hown))
      rw [valueOf_eraseKey_of_ne hkey, hnewer]
    · exact hnewer

/-- The identity of a footer of 300 bytes. -/
private def sampleFooter : FooterIdentity := ⟨"data/a.parquet", none, 4096, "1"⟩

/-- A reader reserves, inserts a footer and looks it up again for validation; another registers a
load, and the first lease is dropped. -/
theorem footer_accounting_lookup :
    ∃ trace c, Run 400 trace c ∧ c.leases = [1] ∧ c.held = [(2, ⟨0, .preflight⟩)] ∧
      loadsAfter trace 4 = some ⟨sampleFooter, ⟨60, .key⟩⟩ ∧
      (c.budget.used = (c.live.map Reservation.amount).sum ∧ c.budget.used ≤ 400) ∧
      (c.budget.transient = phaseCount .payload c.live ∧ c.budget.keys = phaseCount .key c.live ∧
        c.budget.preflightHits = phaseCount .preflight c.live) ∧
      ((∀ r, valueOf r c.held = heldAfter trace r) ∧
        (∀ a, c.leases.count a = leasedAfter trace a) ∧
        (∀ l, valueOf l c.loads = loadsAfter trace l) ∧
        ∀ a entry, valueOf a c.entries = some entry → Given trace a entry) := by
  have hreserve : Run 400 _ _ :=
    .step .start (show step _ (.tryReserve 300 none 0) = some (_, _) from rfl)
  have hinsert := hreserve.step
    (show step _ (.insert sampleFooter 280 20 0) = some (_, _) from rfl)
  have hget := hinsert.step (show step _ (.get sampleFooter true) = some (_, _) from rfl)
  have hsecond := hget.step (show step _ (.tryReserve 60 (some 0) 0) = some (_, _) from rfl)
  have hmark := hsecond.step (show step _ (.markKey 3) = some (_, _) from rfl)
  have hregister := hmark.step (show step _ (.register sampleFooter 3) = some (_, _) from rfl)
  have hdrop := hregister.step (show step _ (.dropLease 1) = some (_, _) from rfl)
  obtain ⟨hused, hcounters, hreaders, -⟩ := footer_accounting (by decide) hdrop
  refine ⟨_, _, hdrop, ?_, ?_, ?_, hused, hcounters, hreaders⟩
  · rfl
  · rfl
  · rfl

end FooterCache

end Otmp.DataFusion
