import Otmp.Reader.Cache

/-!
# The invariant of the reader's cache

What is used is the sum of the live reservations; a byte string is live while the cache or a
reader refers to it; the queue and the counts of the identities agree with the cached keys.
Eviction keeps all this and everything that is held outside the cache.
-/

namespace Otmp.Reader

open Foundation

namespace Cache

/-- The sum of the reservations that clients hold, and that no byte string owns yet. -/
def heldSum (c : Cache) : ℕ := (c.held.map fun p => p.2).sum

/-- The sum of the reservations of shared byte strings. -/
def sharedSum (c : Cache) : ℕ := (c.shared.map fun p => p.2.amount).sum

/-- A key is a range of an object, told by the object's URI. -/
def Key.isRangeOf (uri : String) : Key → Bool
  | .objectRange uri' _ _ => decide (uri' = uri)
  | .authenticatedPage _ => false

/-- A metadata page is no range of any object. -/
@[simp] theorem Key.isRangeOf_page (uri : String) (page : PageKey) :
    Key.isRangeOf uri (.authenticatedPage page) = false := rfl

/-- A range belongs to the object of its own URI. -/
@[simp] theorem Key.isRangeOf_range (uri uri' : String) (first last : ℕ) :
    Key.isRangeOf uri (.objectRange uri' first last) = decide (uri' = uri) := rfl

/-- The number of cached ranges of an object, which its identity is kept for. -/
def ranges (c : Cache) (uri : String) : ℕ := c.values.countP fun p => Key.isRangeOf uri p.1

/-- The live reservations are accounted for: the used bytes are their sum, within the limit, and
addresses are never used twice. -/
structure Budgeted (c : Cache) : Prop where
  word : c.limit < wordSize
  used : c.used = c.heldSum + c.sharedSum
  limit : c.used ≤ c.limit
  heldKeys : (c.held.map Prod.fst).Nodup
  sharedKeys : (c.shared.map Prod.fst).Nodup
  heldFresh : ∀ r ∈ c.held.map Prod.fst, r < c.fresh
  sharedFresh : ∀ a ∈ c.shared.map Prod.fst, a < c.fresh

/-- A shared byte string is live exactly while it is referred to. -/
def Live (c : Cache) : Prop :=
  ∀ a, a ∈ c.shared.map Prod.fst ↔ a ∈ c.values.map Prod.snd ∨ a ∈ c.leases

/-- The queue and the identities agree with the values. -/
structure Indexed (c : Cache) : Prop where
  valueKeys : (c.values.map Prod.fst).Nodup
  order : c.order.Perm (c.values.map Prod.fst)
  identityKeys : (c.identities.map Prod.fst).Nodup
  counts : ∀ uri, (valueOf uri c.identities).map Prod.snd =
    if c.ranges uri = 0 then none else some (c.ranges uri)
  uris : ∀ p ∈ c.identities, p.2.1.uri = p.1

/-- Subtracting what is there does not wrap. -/
theorem fetchSub_eq {used amount : ℕ} (hle : amount ≤ used) :
    fetchSub used amount = used - amount := if_pos hle

section Memory

variable {c : Cache} {a r amount : ℕ}

/-- A client's reservation is part of the sum. -/
theorem heldSum_eq (h : c.Budgeted) (hr : (r, amount) ∈ c.held) :
    c.heldSum = amount + ((eraseKey r c.held).map fun p => p.2).sum :=
  sum_eraseKey (f := fun n => n) h.heldKeys hr

/-- The bytes of all live objects are those of one of them and of the others. -/
theorem sharedSum_eq {object : CachedBytes} (h : c.Budgeted) (ha : (a, object) ∈ c.shared) :
    c.sharedSum = object.amount + ((eraseKey a c.shared).map fun p => p.2.amount).sum :=
  sum_eraseKey (f := CachedBytes.amount) h.sharedKeys ha

/-- Releasing an object keeps the budget exact. -/
theorem Budgeted.release (h : c.Budgeted) : (c.release a).Budgeted := by
  unfold Cache.release
  split
  · exact h
  · split
    · exact h
    · next object hvalue =>
      have hmem := mem_of_valueOf hvalue
      have hsum := sharedSum_eq h hmem
      have hused := h.used
      have hlimit := h.limit
      have hsub : fetchSub c.used object.amount = c.used - object.amount :=
        fetchSub_eq (by omega)
      exact {
        word := h.word
        used := by
          change fetchSub c.used object.amount =
            c.heldSum + ((eraseKey a c.shared).map fun p => p.2.amount).sum
          omega
        limit := by
          change fetchSub c.used object.amount ≤ c.limit
          omega
        heldKeys := h.heldKeys
        sharedKeys := nodup_eraseKey h.sharedKeys
        heldFresh := h.heldFresh
        sharedFresh := fun b hb => h.sharedFresh b (mem_map_fst_eraseKey.mp hb).1 }

/-- Dropping a reservation keeps the budget exact and gives its bytes back. -/
theorem Budgeted.dropReservation (h : c.Budgeted) (hr : (r, amount) ∈ c.held) :
    (c.dropReservation r).Budgeted ∧ (c.dropReservation r).held = eraseKey r c.held ∧
      (c.dropReservation r).used + amount = c.used := by
  have hsum := heldSum_eq h hr
  have hused := h.used
  have hlimit := h.limit
  have hsub : fetchSub c.used amount = c.used - amount := fetchSub_eq (by omega)
  have heq : c.dropReservation r =
      { c with held := eraseKey r c.held, used := fetchSub c.used amount } := by
    rw [Cache.dropReservation, valueOf_of_mem h.heldKeys hr]
  rw [heq]
  refine ⟨?_, rfl, by change fetchSub c.used amount + amount = c.used; omega⟩
  exact {
    word := h.word
    used := by
      change fetchSub c.used amount = ((eraseKey r c.held).map fun p => p.2).sum + c.sharedSum
      omega
    limit := by
      change fetchSub c.used amount ≤ c.limit
      omega
    heldKeys := nodup_eraseKey h.heldKeys
    sharedKeys := h.sharedKeys
    heldFresh := fun b hb => h.heldFresh b (mem_map_fst_eraseKey.mp hb).1
    sharedFresh := h.sharedFresh }

/-- Shrinking a reservation keeps the budget exact. -/
theorem Budgeted.shrinkTo (h : c.Budgeted) : (c.shrinkTo r amount).Budgeted := by
  unfold Cache.shrinkTo
  split
  · exact h
  · next old hvalue =>
    split
    · next hle =>
      have hmem := mem_of_valueOf hvalue
      have hsum := heldSum_eq h hmem
      have hused := h.used
      have hlimit := h.limit
      have hsub : fetchSub c.used (old - amount) = c.used - (old - amount) :=
        fetchSub_eq (by omega)
      exact {
        word := h.word
        used := by
          change fetchSub c.used (old - amount) =
            amount + ((eraseKey r c.held).map fun p => p.2).sum + c.sharedSum
          omega
        limit := by
          change fetchSub c.used (old - amount) ≤ c.limit
          omega
        heldKeys := List.nodup_cons.mpr
          ⟨fun hr => (mem_map_fst_eraseKey.mp hr).2 rfl, nodup_eraseKey h.heldKeys⟩
        sharedKeys := h.sharedKeys
        heldFresh := List.forall_mem_cons.mpr
          ⟨h.heldFresh r (List.mem_map.mpr ⟨_, hmem, rfl⟩),
            fun b hb => h.heldFresh b (mem_map_fst_eraseKey.mp hb).1⟩
        sharedFresh := h.sharedFresh }
    · exact h

/-- Granting an amount that fits keeps the budget exact. -/
theorem Budgeted.grant (h : c.Budgeted) (hfits : c.Fits amount) : (c.grant amount).Budgeted where
  word := h.word
  used := by
    have hused := h.used
    change c.used + amount = amount + c.heldSum + c.sharedSum
    omega
  limit := hfits.2
  heldKeys := List.nodup_cons.mpr
    ⟨fun hr => lt_irrefl _ (h.heldFresh _ hr), h.heldKeys⟩
  sharedKeys := h.sharedKeys
  heldFresh := List.forall_mem_cons.mpr
    ⟨Nat.lt_succ_self _, fun r hr => Nat.lt_succ_of_lt (h.heldFresh r hr)⟩
  sharedFresh a ha := Nat.lt_succ_of_lt (h.sharedFresh a ha)

/-- Handing a reservation over to stored bytes keeps the budget exact. -/
theorem Budgeted.put {key : Key} {bytes : Bytes} (h : c.Budgeted) (hr : (r, amount) ∈ c.held) :
    (c.put key bytes r amount).Budgeted where
  word := h.word
  used := by
    have hsum := heldSum_eq h hr
    have hused := h.used
    change c.used = ((eraseKey r c.held).map fun p => p.2).sum + (amount + c.sharedSum)
    omega
  limit := h.limit
  heldKeys := nodup_eraseKey h.heldKeys
  sharedKeys := List.nodup_cons.mpr ⟨fun ha => lt_irrefl _ (h.sharedFresh _ ha), h.sharedKeys⟩
  heldFresh b hb := Nat.lt_succ_of_lt (h.heldFresh b (mem_map_fst_eraseKey.mp hb).1)
  sharedFresh := List.forall_mem_cons.mpr
    ⟨Nat.lt_succ_self _, fun a ha => Nat.lt_succ_of_lt (h.sharedFresh a ha)⟩

/-- After a reference is gone, only the byte string it referred to may have to go. -/
theorem live_release (hrefs : ∀ b, b ∈ c.values.map Prod.snd ∨ b ∈ c.leases →
      b ∈ c.shared.map Prod.fst)
    (hshared : ∀ b ∈ c.shared.map Prod.fst, b ≠ a → b ∈ c.values.map Prod.snd ∨ b ∈ c.leases) :
    (c.release a).Live := by
  unfold Cache.release
  split
  · next ha =>
    intro b
    refine ⟨fun hb => ?_, hrefs b⟩
    by_cases hab : b = a
    · exact hab ▸ ha
    · exact hshared b hb hab
  · next ha =>
    split
    · next hnone =>
      rw [valueOf_eq_none] at hnone
      intro b
      refine ⟨fun hb => hshared b hb ?_, hrefs b⟩
      rintro rfl
      exact hnone hb
    · intro b
      refine mem_map_fst_eraseKey.trans ⟨fun h => hshared b h.1 h.2, fun hb => ?_⟩
      refine ⟨hrefs b hb, ?_⟩
      rintro rfl
      exact ha hb

end Memory

section Index

variable {c c' : Cache} {a : ℕ} {uri : String} {key : Key} {rest : List Key}
  {identity : Identity}

/-- Releasing touches only the shared byte strings and the budget. -/
theorem release_eq (c : Cache) (a : ℕ) :
    ∃ shared used, c.release a = { c with shared := shared, used := used } ∧
      shared ⊆ c.shared := by
  unfold Cache.release
  split
  · exact ⟨c.shared, c.used, rfl, List.Subset.refl _⟩
  · split
    · exact ⟨c.shared, c.used, rfl, List.Subset.refl _⟩
    · exact ⟨_, _, rfl, List.filter_subset_self _⟩

/-- Forgetting a range touches only the identities. -/
theorem forget_eq (c : Cache) (key : Key) :
    ∃ identities, c.forget key = { c with identities := identities } := by
  cases key with
  | authenticatedPage key => exact ⟨c.identities, rfl⟩
  | objectRange uri first last =>
    rw [Cache.forget]
    cases valueOf uri c.identities with
    | none => exact ⟨c.identities, rfl⟩
    | some pair =>
      by_cases hzero : pair.2 - 1 = 0
      · exact ⟨_, if_pos hzero⟩
      · exact ⟨_, if_neg hzero⟩

/-- Counting a use of an identity changes the recorded identities only. -/
theorem count_eq (c : Cache) (identity : Identity) :
    ∃ identities, c.count identity = { c with identities := identities } := by
  unfold Cache.count
  split
  · exact ⟨_, rfl⟩
  · exact ⟨_, rfl⟩

/-- The index does not depend on what is live. -/
theorem Indexed.congr (h : c.Indexed) (hvalues : c'.values = c.values) (horder : c'.order = c.order)
    (hidentities : c'.identities = c.identities) : c'.Indexed := by
  obtain ⟨hkeys, hperm, hnodup, hcounts, huris⟩ := h
  refine ⟨hvalues ▸ hkeys, ?_, hidentities ▸ hnodup, ?_, hidentities ▸ huris⟩
  · rw [hvalues, horder]
    exact hperm
  · rw [hidentities]
    unfold ranges at hcounts ⊢
    rw [hvalues]
    exact hcounts

/-- The identity of an object that has cached ranges. -/
theorem Indexed.identity_of_range (h : c.Indexed) {first last : ℕ}
    (hkey : (Key.objectRange uri first last, a) ∈ c.values) :
    ∃ identity, valueOf uri c.identities = some (identity, c.ranges uri) ∧
      0 < c.ranges uri := by
  have hpos : 0 < c.ranges uri :=
    List.countP_pos_iff.mpr ⟨_, hkey, decide_eq_true rfl⟩
  have hcount := h.counts uri
  rw [if_neg (by omega)] at hcount
  obtain ⟨⟨identity, n⟩, hvalue, rfl⟩ := Option.map_eq_some_iff.mp hcount
  exact ⟨identity, hvalue, hpos⟩

/-- Counting one range less keeps the index, when a range has left the values. -/
theorem Indexed.forget (h : c.Indexed) {values : List (Key × ℕ)}
    (hcount : ∀ uri, (c.values.countP fun p => Key.isRangeOf uri p.1) =
      (if Key.isRangeOf uri key then 1 else 0) + values.countP fun p => Key.isRangeOf uri p.1)
    (hkeys : (values.map Prod.fst).Nodup) (horder : rest.Perm (values.map Prod.fst)) :
    (Cache.forget { c with values := values, order := rest } key).Indexed := by
  cases key with
  | authenticatedPage page =>
    refine ⟨hkeys, horder, h.identityKeys, fun uri => ?_, h.uris⟩
    have hsame := hcount uri
    have hold := h.counts uri
    unfold ranges at hold ⊢
    rw [hsame, Key.isRangeOf_page, if_neg Bool.false_ne_true, Nat.zero_add] at hold
    exact hold
  | objectRange uri first last =>
    have hself : c.ranges uri = 1 + values.countP fun p => Key.isRangeOf uri p.1 := by
      have hcount := hcount uri
      rwa [Key.isRangeOf_range, if_pos (decide_eq_true rfl)] at hcount
    have hother : ∀ uri' ≠ uri,
        c.ranges uri' = values.countP fun p => Key.isRangeOf uri' p.1 := by
      intro uri' hne
      have hcount := hcount uri'
      rw [if_neg (by simpa using hne.symm)] at hcount
      exact hcount.trans (Nat.zero_add _)
    have hold := h.counts uri
    rw [if_neg (by omega)] at hold
    obtain ⟨⟨identity, n⟩, hvalue, rfl⟩ := Option.map_eq_some_iff.mp hold
    have hmem := mem_of_valueOf hvalue
    have hkeep : ∀ uri' ≠ uri, (valueOf uri' (eraseKey uri c.identities)).map Prod.snd =
        if values.countP (fun p => Key.isRangeOf uri' p.1) = 0 then none
        else some (values.countP fun p => Key.isRangeOf uri' p.1) := by
      intro uri' hne
      rw [valueOf_eraseKey_of_ne hne, h.counts uri', hother uri' hne]
    have huris : ∀ p ∈ eraseKey uri c.identities, p.2.1.uri = p.1 :=
      fun p hp => h.uris p (mem_eraseKey.mp hp).1
    change c.ranges uri = _ at hself
    simp only [Cache.forget, hvalue]
    split
    · next hzero =>
      refine ⟨hkeys, horder, nodup_eraseKey h.identityKeys, fun uri' => ?_, huris⟩
      change (valueOf uri' (eraseKey uri c.identities)).map Prod.snd =
        if values.countP (fun p => Key.isRangeOf uri' p.1) = 0 then none
        else some (values.countP fun p => Key.isRangeOf uri' p.1)
      by_cases hne : uri' = uri
      · subst hne
        rw [valueOf_eraseKey_self, if_pos (by omega)]
        rfl
      · exact hkeep uri' hne
    · next hpos =>
      refine ⟨hkeys, horder, List.nodup_cons.mpr ⟨fun hu => (mem_map_fst_eraseKey.mp hu).2 rfl,
        nodup_eraseKey h.identityKeys⟩, fun uri' => ?_,
        List.forall_mem_cons.mpr ⟨h.uris (uri, identity, c.ranges uri) hmem, huris⟩⟩
      change (valueOf uri' ((uri, identity, c.ranges uri - 1) ::
          eraseKey uri c.identities)).map Prod.snd =
        if values.countP (fun p => Key.isRangeOf uri' p.1) = 0 then none
        else some (values.countP fun p => Key.isRangeOf uri' p.1)
      by_cases hne : uri' = uri
      · subst hne
        rw [valueOf_cons_self, if_neg (by omega), Option.map_some, hself, Nat.add_sub_cancel_left]
      · rw [valueOf_cons_of_ne (Ne.symm hne)]
        exact hkeep uri' hne

/-- What a check of an identity says about the one that is recorded. -/
theorem check_eq_ok (h : c.check identity = .ok ()) {old : Identity} {n : ℕ}
    (hvalue : valueOf identity.uri c.identities = some (old, n)) : old = identity := by
  unfold Cache.check at h
  rw [hvalue] at h
  by_contra hne
  rw [if_pos (by simpa using hne)] at h
  cases h

/-- Counting one range more keeps the index, when a range joins the values. -/
theorem Indexed.count_put (h : c.Indexed) {first last r amount : ℕ} {bytes : Bytes}
    (habsent : valueOf (.objectRange identity.uri first last) c.values = none) :
    ((c.count identity).put (.objectRange identity.uri first last) bytes r amount).Indexed := by
  have hnew := valueOf_eq_none.mp habsent
  have hself : (((Key.objectRange identity.uri first last, c.fresh) :: c.values).countP
      fun p => Key.isRangeOf identity.uri p.1) = c.ranges identity.uri + 1 :=
    List.countP_cons_of_pos (decide_eq_true rfl)
  have hother : ∀ uri ≠ identity.uri,
      (((Key.objectRange identity.uri first last, c.fresh) :: c.values).countP
        fun p => Key.isRangeOf uri p.1) = c.ranges uri := fun uri hne =>
    List.countP_cons_of_neg (by simpa [Key.isRangeOf] using hne.symm)
  have hkeys : (((Key.objectRange identity.uri first last, c.fresh) :: c.values).map
      Prod.fst).Nodup := List.nodup_cons.mpr ⟨hnew, h.valueKeys⟩
  have horder : (c.order ++ [Key.objectRange identity.uri first last]).Perm
      (((Key.objectRange identity.uri first last, c.fresh) :: c.values).map Prod.fst) :=
    List.perm_append_comm.trans (h.order.cons _)
  have hcounts := h.counts identity.uri
  cases hvalue : valueOf identity.uri c.identities with
  | none =>
    rw [hvalue] at hcounts
    have hzero : c.ranges identity.uri = 0 := by
      by_contra hne
      rw [if_neg hne] at hcounts
      cases hcounts
    simp only [Cache.count, hvalue]
    refine ⟨hkeys, horder, List.nodup_cons.mpr ⟨valueOf_eq_none.mp hvalue, h.identityKeys⟩,
      fun uri => ?_, List.forall_mem_cons.mpr ⟨rfl, h.uris⟩⟩
    unfold ranges
    change (valueOf uri ((identity.uri, identity, 1) :: c.identities)).map Prod.snd =
      if List.countP _ ((_, c.fresh) :: c.values) = 0 then none
      else some (List.countP _ ((_, c.fresh) :: c.values))
    by_cases hne : uri = identity.uri
    · subst hne
      rw [valueOf_cons_self, hself, hzero]
      rfl
    · rw [valueOf_cons_of_ne (Ne.symm hne), hother uri hne]
      exact h.counts uri
  | some pair =>
    obtain ⟨old, n⟩ := pair
    rw [hvalue, Option.map_some] at hcounts
    have hn : n = c.ranges identity.uri := by
      split at hcounts
      · cases hcounts
      · exact Option.some.inj hcounts
    subst hn
    have hmem := mem_of_valueOf hvalue
    simp only [Cache.count, hvalue]
    refine ⟨hkeys, horder, List.nodup_cons.mpr ⟨fun hu => (mem_map_fst_eraseKey.mp hu).2 rfl,
      nodup_eraseKey h.identityKeys⟩, fun uri => ?_, List.forall_mem_cons.mpr
        ⟨h.uris (identity.uri, old, c.ranges identity.uri) hmem,
          fun p hp => h.uris p (mem_eraseKey.mp hp).1⟩⟩
    unfold ranges
    change (valueOf uri ((identity.uri, old, c.ranges identity.uri + 1) ::
        eraseKey identity.uri c.identities)).map Prod.snd =
      if List.countP _ ((_, c.fresh) :: c.values) = 0 then none
      else some (List.countP _ ((_, c.fresh) :: c.values))
    by_cases hne : uri = identity.uri
    · subst hne
      rw [valueOf_cons_self, hself]
      rfl
    · rw [valueOf_cons_of_ne (Ne.symm hne), valueOf_eraseKey_of_ne hne, hother uri hne]
      exact h.counts uri

/-- Admitting a page keeps the index, and counts for no object. -/
theorem Indexed.put_page (h : c.Indexed) {page : PageKey} {r amount : ℕ} {bytes : Bytes}
    (habsent : valueOf (.authenticatedPage page) c.values = none) :
    (c.put (.authenticatedPage page) bytes r amount).Indexed := by
  have hnew := valueOf_eq_none.mp habsent
  refine ⟨List.nodup_cons.mpr ⟨hnew, h.valueKeys⟩, ?_, h.identityKeys, fun uri => ?_, h.uris⟩
  · exact List.perm_append_comm.trans (h.order.cons _)
  · have hcount := h.counts uri
    unfold ranges at hcount ⊢
    change _ = if List.countP _ (_ :: c.values) = 0 then none
      else some (List.countP _ (_ :: c.values))
    rw [List.countP_cons_of_neg (by simp [Key.isRangeOf])]
    exact hcount

/-- The first key of the queue is a value. -/
theorem Indexed.value_of_first (h : c.Indexed) (horder : c.order = key :: rest) :
    ∃ a, valueOf key c.values = some a ∧ (key, a) ∈ c.values := by
  have hmem : key ∈ c.values.map Prod.fst :=
    h.order.subset (horder ▸ List.mem_cons_self)
  obtain ⟨⟨key', a⟩, ha, rfl⟩ := List.mem_map.mp hmem
  exact ⟨a, valueOf_of_mem h.valueKeys ha, ha⟩

/-- Evicting the first key releases the object of its value and forgets one range of it. -/
theorem evict_eq (h : c.Indexed) (horder : c.order = key :: rest) :
    ∃ a, (key, a) ∈ c.values ∧ c.evict key rest =
      Cache.forget (Cache.release
        { c with order := rest, values := eraseKey key c.values } a) key := by
  obtain ⟨a, hvalue, ha⟩ := h.value_of_first horder
  refine ⟨a, ha, ?_⟩
  unfold Cache.evict
  dsimp only
  rw [hvalue]

/-- An eviction keeps the index, takes the key from the queue and removes its value. -/
theorem Indexed.evict (h : c.Indexed) (horder : c.order = key :: rest) :
    (c.evict key rest).Indexed ∧ (c.evict key rest).order = rest ∧
      (c.evict key rest).values = eraseKey key c.values := by
  obtain ⟨a, ha, heq⟩ := evict_eq h horder
  obtain ⟨shared, used, hrelease, -⟩ :=
    release_eq { c with order := rest, values := eraseKey key c.values } a
  have hkeys := nodup_eraseKey (k := key) h.valueKeys
  have hperm : rest.Perm ((eraseKey key c.values).map Prod.fst) := by
    have hnodup : (key :: rest).Nodup := horder ▸ h.order.nodup_iff.mpr h.valueKeys
    have hfilter := (horder ▸ h.order).filter (· ≠ key)
    rw [map_fst_eraseKey]
    refine List.Perm.trans ?_ hfilter
    rw [List.filter_cons_of_neg (by simp), List.filter_eq_self.mpr]
    intro k hk
    refine decide_eq_true ?_
    rintro rfl
    exact (List.nodup_cons.mp hnodup).1 hk
  have hforget : (Cache.forget { c with
      shared := shared
      used := used
      order := rest
      values := eraseKey key c.values } key).Indexed :=
    Indexed.forget (c := { c with shared := shared, used := used }) (h.congr rfl rfl rfl)
    (fun uri => countP_eraseKey (f := Key.isRangeOf uri) h.valueKeys ha) hkeys hperm
  rw [heq, hrelease]
  obtain ⟨identities, hidentities⟩ := forget_eq
    { c with shared := shared, used := used, order := rest, values := eraseKey key c.values } key
  refine ⟨hforget, ?_, ?_⟩
  · rw [hidentities]
  · rw [hidentities]

end Index

/-- The invariant of the cache: its budget is exact, what is referred to is live, and its index is
consistent. -/
structure Accounted (c : Cache) : Prop where
  budgeted : c.Budgeted
  live : c.Live
  indexed : c.Indexed

/-- What is held outside the cache: the reservations of clients and those of leased byte
strings. -/
def outside (c : Cache) : ℕ :=
  c.heldSum + ((c.shared.filter fun p => p.1 ∈ c.leases).map fun p => p.2.amount).sum

/-- What eviction leaves: some of the values, and everything that is held outside the cache. -/
structure Evicted (c c' : Cache) : Prop where
  limit : c'.limit = c.limit
  held : c'.held = c.held
  leases : c'.leases = c.leases
  fresh : c'.fresh = c.fresh
  values : c'.values ⊆ c.values
  shared : c'.shared ⊆ c.shared
  identities : ∀ uri identity n, (uri, identity, n) ∈ c'.identities →
    ∃ m, (uri, identity, m) ∈ c.identities
  outside : c'.outside = c.outside

section Eviction

variable {c c' c'' : Cache} {key : Key} {rest : List Key}

/-- Evicting nothing leaves everything as it is. -/
theorem Evicted.refl (c : Cache) : Evicted c c :=
  ⟨rfl, rfl, rfl, rfl, List.Subset.refl _, List.Subset.refl _, fun _ _ n h => ⟨n, h⟩, rfl⟩

/-- Two evictions leave as they are what each of them leaves. -/
theorem Evicted.trans (h : Evicted c c') (h' : Evicted c' c'') : Evicted c c'' where
  limit := h'.limit.trans h.limit
  held := h'.held.trans h.held
  leases := h'.leases.trans h.leases
  fresh := h'.fresh.trans h.fresh
  values := List.Subset.trans h'.values h.values
  shared := List.Subset.trans h'.shared h.shared
  identities uri identity n hn := by
    obtain ⟨m, hm⟩ := h'.identities uri identity n hn
    exact h.identities uri identity m hm
  outside := h'.outside.trans h.outside

/-- Releasing a byte string that is not leased keeps what is held outside. -/
theorem outside_release (c : Cache) (a : ℕ) : (c.release a).outside = c.outside := by
  unfold Cache.release
  split
  · rfl
  · next ha =>
    split
    · rfl
    · have hfilter : (eraseKey a c.shared).filter (fun p => p.1 ∈ c.leases) =
          c.shared.filter fun p => p.1 ∈ c.leases := by
        rw [eraseKey, List.filter_filter]
        congr 1
        funext p
        by_cases hp : p.1 = a
        · have hnot : p.1 ∉ c.leases := hp ▸ fun hmem => ha (.inr hmem)
          simp [hnot]
        · simp [hp]
      exact congrArg (fun l => c.heldSum + (l.map fun p : ℕ × CachedBytes => p.2.amount).sum)
        hfilter

/-- Forgetting a range keeps the identities of the others. -/
theorem mem_identities_forget {uri : String} {identity : Identity} {n : ℕ}
    (h : (uri, identity, n) ∈ (c.forget key).identities) :
    ∃ m, (uri, identity, m) ∈ c.identities := by
  cases key with
  | authenticatedPage page => exact ⟨n, h⟩
  | objectRange uri' first last =>
    rw [Cache.forget] at h
    cases hvalue : valueOf uri' c.identities with
    | none =>
      rw [hvalue] at h
      exact ⟨n, h⟩
    | some pair =>
      obtain ⟨old, m⟩ := pair
      simp only [hvalue] at h
      split at h
      · exact ⟨n, (mem_eraseKey.mp h).1⟩
      · rcases List.mem_cons.mp h with heq | hmem
        · cases heq
          exact ⟨m, mem_of_valueOf hvalue⟩
        · exact ⟨n, (mem_eraseKey.mp hmem).1⟩

/-- Evicting one key keeps the invariant, and adds nothing. -/
theorem Accounted.evict (h : c.Accounted) (horder : c.order = key :: rest) :
    (c.evict key rest).Accounted ∧ Evicted c (c.evict key rest) := by
  obtain ⟨hindexed, -, hvalues⟩ := h.indexed.evict horder
  obtain ⟨a, ha, heq⟩ := evict_eq h.indexed horder
  have hbudgeted : (Cache.release
      { c with order := rest, values := eraseKey key c.values } a).Budgeted :=
    Budgeted.release { h.budgeted with }
  have hlive : (Cache.release
      { c with order := rest, values := eraseKey key c.values } a).Live := by
    refine live_release (fun b hb => (h.live b).mpr ?_) fun b hb hne => ?_
    · refine hb.imp_left fun hb => ?_
      obtain ⟨p, hp, rfl⟩ := List.mem_map.mp hb
      exact List.mem_map.mpr ⟨p, (mem_eraseKey.mp hp).1, rfl⟩
    · refine ((h.live b).mp hb).imp_left fun hb => ?_
      obtain ⟨p, hp, rfl⟩ := List.mem_map.mp hb
      refine List.mem_map.mpr ⟨p, mem_eraseKey.mpr ⟨hp, ?_⟩, rfl⟩
      rintro rfl
      exact hne (eq_of_mem_keyed h.indexed.valueKeys (show (p.1, p.2) ∈ _ from hp) ha)
  have houtside := outside_release { c with order := rest, values := eraseKey key c.values } a
  obtain ⟨shared, used, hrelease, hsub⟩ :=
    release_eq { c with order := rest, values := eraseKey key c.values } a
  rw [hrelease] at hbudgeted hlive houtside
  have hidentities : ∀ uri identity n, (uri, identity, n) ∈ (c.evict key rest).identities →
      ∃ m, (uri, identity, m) ∈ c.identities := by
    intro uri identity n hn
    rw [heq, hrelease] at hn
    exact mem_identities_forget (c := { c with
      shared := shared, used := used, order := rest, values := eraseKey key c.values }) hn
  rw [heq, hrelease] at hindexed hidentities ⊢
  obtain ⟨identities, hforget⟩ := forget_eq
    { c with shared := shared, used := used, order := rest, values := eraseKey key c.values } key
  rw [hforget] at hindexed hidentities ⊢
  refine ⟨⟨{ hbudgeted with }, hlive, hindexed⟩, ?_⟩
  exact ⟨rfl, rfl, rfl, rfl, List.filter_subset_self _, hsub, hidentities, houtside⟩

/-- What reserving does: it evicts keys until the amount fits, or until none is left. -/
theorem reserveFrom_spec (amount : ℕ) {order : List Key} (h : c.Accounted)
    (horder : c.order = order) :
    ∃ c', c'.Accounted ∧ Evicted c c' ∧
      ((c'.Fits amount ∧ reserveFrom amount order c = (.ok c'.fresh, c'.grant amount)) ∨
        (¬ c'.Fits amount ∧ c'.order = [] ∧
          ∃ e, reserveFrom amount order c = (.error e, c'))) := by
  induction order generalizing c with
  | nil =>
    refine ⟨c, h, .refl c, ?_⟩
    unfold reserveFrom
    split
    · next hfits => exact .inl ⟨hfits, rfl⟩
    · next hfits => exact .inr ⟨hfits, horder, _, rfl⟩
  | cons key rest ih =>
    unfold reserveFrom
    split
    · next hfits => exact ⟨c, h, .refl c, .inl ⟨hfits, rfl⟩⟩
    · obtain ⟨haccounted, hevicted⟩ := h.evict horder
      obtain ⟨c', hc', hevicted', hresult⟩ := ih haccounted (h.indexed.evict horder).2.1
      exact ⟨c', hc', hevicted.trans hevicted', hresult⟩

/-- When every entry is evicted, all that is used is held outside. -/
theorem Accounted.used_of_empty (h : c.Accounted) (horder : c.order = []) :
    c.values = [] ∧ c.used = c.outside := by
  have hvalues : c.values = [] := by
    have hperm := h.indexed.order
    rw [horder] at hperm
    exact List.map_eq_nil_iff.mp (List.nil_perm.mp hperm)
  refine ⟨hvalues, ?_⟩
  have hall : c.shared.filter (fun p => p.1 ∈ c.leases) = c.shared := by
    refine List.filter_eq_self.mpr fun p hp => decide_eq_true ?_
    have hlive := (h.live p.1).mp (List.mem_map.mpr ⟨p, hp, rfl⟩)
    rw [hvalues] at hlive
    exact hlive.resolve_left List.not_mem_nil
  rw [h.budgeted.used, Cache.outside, hall]
  rfl

end Eviction

end Cache

end Otmp.Reader
