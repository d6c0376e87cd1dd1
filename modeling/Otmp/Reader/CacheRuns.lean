import Otmp.Reader.CacheInvariant

/-!
# Runs of the reader's cache

Clients reserve, insert, look up and drop in any order. Every call keeps the invariant of
the cache, and every cached range stands for bytes that a client inserted for the recorded
identity of its object. What clients hold is what the calls and their answers say: a reservation
is gone once it is dropped or given away, a lease once it is dropped.
-/

namespace Otmp.Reader

open Foundation

namespace Cache

/-- A call of a client, with the reservations and leases that it gives away. -/
inductive Call where
  | reserve (amount : ℕ)
  | shrinkTo (r amount : ℕ)
  | dropReservation (r : ℕ)
  | dropLease (a : ℕ)
  | insert (identity : Identity) (first last : ℕ) (vec : ByteVec) (r : ℕ)
  | insertPage (key : PageKey) (vec : ByteVec) (r : ℕ)
  | get (identity : Identity) (first last : ℕ)
  | getPage (key : PageKey)
  | metadataFor (reference : PageObjectReference)

/-- What a call returns; reservations and byte strings are given by their addresses. -/
inductive Answer where
  | dropped
  | reserved (result : Except RuntimeError ℕ)
  | inserted (result : Except RuntimeError ℕ)
  | admitted (result : Except RuntimeError Unit)
  | found (result : Except RuntimeError (Option ℕ))
  | metadata (result : Except RuntimeError (Option ObjectMetadata))

/-- One call, which is possible when the client owns what it gives away. -/
def step (c : Cache) : Call → Option (Answer × Cache)
  | .reserve amount => some (.reserved (c.reserve amount).1, (c.reserve amount).2)
  | .shrinkTo r amount => (valueOf r c.held).map fun _ => (.dropped, c.shrinkTo r amount)
  | .dropReservation r => (valueOf r c.held).map fun _ => (.dropped, c.dropReservation r)
  | .dropLease a => if a ∈ c.leases then some (.dropped, c.dropLease a) else none
  | .insert identity first last vec r => (valueOf r c.held).map fun amount =>
      (.inserted (c.insert identity first last vec r amount).1,
        (c.insert identity first last vec r amount).2)
  | .insertPage key vec r => (valueOf r c.held).map fun amount =>
      (.admitted (c.insertPage key vec r amount).1, (c.insertPage key vec r amount).2)
  | .get identity first last =>
      some (.found (c.get identity first last).1, (c.get identity first last).2)
  | .getPage key => some (.found (c.getPage key).1, (c.getPage key).2)
  | .metadataFor reference => some (.metadata (c.metadataFor reference), c)

/-- The calls of a run and their answers, the last call first. -/
inductive Run (limit : ℕ) : List (Call × Answer) → Cache → Prop
  | start : Run limit [] (new limit)
  | step {trace : List (Call × Answer)} {c c' : Cache} {call : Call} {answer : Answer} :
      Run limit trace c → c.step call = some (answer, c') →
      Run limit ((call, answer) :: trace) c'

/-- The reservation that a call takes from its client for good. -/
def Call.takes : Call → Option ℕ
  | .dropReservation r => some r
  | .insert _ _ _ _ r => some r
  | .insertPage _ _ r => some r
  | _ => none

/-- The bytes that a call gives to the cache. -/
def Call.gives : Call → Option Bytes
  | .insert _ _ _ vec _ => some vec.bytes
  | .insertPage _ vec _ => some vec.bytes
  | _ => none

/-- The byte string that an answer hands to a client. -/
def Answer.hands : Answer → Option ℕ
  | .inserted (.ok a) => some a
  | .found (.ok (some a)) => some a
  | _ => none

/-- The amounts that clients hold after these calls: a reservation starts with what was granted,
may shrink, and is gone once a call takes it. -/
def heldAfter : List (Call × Answer) → ℕ → Option ℕ
  | [], _ => none
  | (.reserve amount, .reserved (.ok r)) :: earlier, s =>
    if r = s then some amount else heldAfter earlier s
  | (.shrinkTo r amount, _) :: earlier, s =>
    (heldAfter earlier s).map fun old => if r = s then min amount old else old
  | (call, _) :: earlier, s => if call.takes = some s then none else heldAfter earlier s

/-- The number of leases of a byte string after these calls. -/
def leasedAfter : List (Call × Answer) → ℕ → ℕ
  | [], _ => 0
  | (.dropLease b, _) :: earlier, a => leasedAfter earlier a - if b = a then 1 else 0
  | (_, answer) :: earlier, a => leasedAfter earlier a + if answer.hands = some a then 1 else 0

/-- A call gave these bytes to the cache, with a reservation that its client held until then. -/
def Given (trace : List (Call × Answer)) (object : CachedBytes) : Prop :=
  ∃ later call answer earlier r, trace = later ++ (call, answer) :: earlier ∧
    call.takes = some r ∧ call.gives = some object.bytes ∧
    heldAfter earlier r = some object.amount

/-- An accepted call inserted these bytes for an identity and a range. -/
def Inserted (trace : List (Call × Answer)) (identity : Identity) (first last a : ℕ)
    (bytes : Bytes) : Prop :=
  ∃ vec r, (Call.insert identity first last vec r, Answer.inserted (.ok a)) ∈ trace ∧
    vec.bytes = bytes

/-- The bytes at an address were inserted for the recorded identity of an object. -/
def SourcedAt (trace : List (Call × Answer)) (c : Cache) (uri : String) (first last a : ℕ) :
    Prop :=
  ∃ identity n object, (uri, identity, n) ∈ c.identities ∧ (a, object) ∈ c.shared ∧
    Inserted trace identity first last a object.bytes

/-- Every cached range was inserted for the recorded identity of its object. -/
def Sourced (trace : List (Call × Answer)) (c : Cache) : Prop :=
  ∀ uri first last a, (Key.objectRange uri first last, a) ∈ c.values →
    SourcedAt trace c uri first last a

/-- A call adds only fresh byte strings, and never changes a recorded identity. -/
structure Kept (c c' : Cache) : Prop where
  limit : c'.limit = c.limit
  values : ∀ p ∈ c'.values, p.2 < c.fresh → p ∈ c.values
  shared : ∀ p ∈ c'.shared, p.1 < c.fresh → p ∈ c.shared
  identities : ∀ uri identity n, (uri, identity, n) ∈ c'.identities →
    uri ∈ c.identities.map Prod.fst → ∃ m, (uri, identity, m) ∈ c.identities

section Operations

variable {c c' : Cache} {a r amount : ℕ} {trace trace' : List (Call × Answer)}

/-- A call that adds nothing keeps what it should. -/
theorem Kept.of_subset (hlimit : c'.limit = c.limit) (hvalues : c'.values ⊆ c.values)
    (hshared : c'.shared ⊆ c.shared) (hidentities : c'.identities = c.identities) :
    Kept c c' where
  limit := hlimit
  values _ hp _ := hvalues hp
  shared _ hp _ := hshared hp
  identities _ _ n hn _ := ⟨n, hidentities ▸ hn⟩

/-- Doing nothing keeps everything. -/
theorem Kept.refl (c : Cache) : Kept c c :=
  .of_subset rfl (List.Subset.refl _) (List.Subset.refl _) rfl

/-- An eviction only removes, so it keeps what it should. -/
theorem Evicted.kept (h : Evicted c c') : Kept c c' where
  limit := h.limit
  values _ hp _ := h.values hp
  shared _ hp _ := h.shared hp
  identities uri identity n hn _ := h.identities uri identity n hn

/-- The values of the cache are live. -/
theorem Accounted.object_of_value {key : Key} (h : c.Accounted) (ha : (key, a) ∈ c.values) :
    a < c.fresh ∧ ∃ object, (a, object) ∈ c.shared := by
  have hlive := (h.live a).mpr (.inl (List.mem_map.mpr ⟨_, ha, rfl⟩))
  refine ⟨h.budgeted.sharedFresh a hlive, ?_⟩
  obtain ⟨⟨a, object⟩, hmem, rfl⟩ := List.mem_map.mp hlive
  exact ⟨object, hmem⟩

/-- What a call keeps stays sourced; it is enough to look at what is new. -/
theorem Sourced.of_kept (h : Sourced trace c) (hc : c.Accounted) (hc' : c'.Accounted)
    (hkept : Kept c c') (htrace : trace ⊆ trace')
    (hnew : ∀ uri first last a, (Key.objectRange uri first last, a) ∈ c'.values → c.fresh ≤ a →
      SourcedAt trace' c' uri first last a) :
    Sourced trace' c' := by
  intro uri first last a ha
  by_cases hfresh : c.fresh ≤ a
  · exact hnew uri first last a ha hfresh
  · have hlt : a < c.fresh := Nat.lt_of_not_le hfresh
    have hold := hkept.values _ ha hlt
    obtain ⟨identity, n, object, hidentity, hobject, vec, r, hmem, hbytes⟩ :=
      h uri first last a hold
    obtain ⟨identity', hvalue, -⟩ := hc'.indexed.identity_of_range ha
    have hidentity' := mem_of_valueOf hvalue
    obtain ⟨m, hm⟩ := hkept.identities _ _ _ hidentity' (List.mem_map.mpr ⟨_, hidentity, rfl⟩)
    have hsame := eq_of_mem_keyed hc.indexed.identityKeys hm hidentity
    obtain ⟨-, object', hobject'⟩ := hc'.object_of_value ha
    have heq := eq_of_mem_keyed hc.budgeted.sharedKeys (hkept.shared _ hobject' hlt) hobject
    cases hsame
    subst heq
    exact ⟨_, _, _, hidentity', hobject', vec, r, htrace hmem, hbytes⟩

/-- An empty cache satisfies the invariant when its limit fits the word. -/
theorem Accounted.new {limit : ℕ} (hlimit : limit < wordSize) : (new limit).Accounted where
  budgeted := ⟨hlimit, rfl, Nat.zero_le _, List.nodup_nil, List.nodup_nil,
    fun _ h => absurd h List.not_mem_nil, fun _ h => absurd h List.not_mem_nil⟩
  live _ := ⟨fun h => absurd h List.not_mem_nil,
    fun h => h.elim (fun h => absurd h List.not_mem_nil) fun h => absurd h List.not_mem_nil⟩
  indexed := ⟨List.nodup_nil, List.Perm.refl _, List.nodup_nil, fun _ => rfl,
    fun _ h => absurd h List.not_mem_nil⟩

/-- Dropping a reservation changes the reservations and the counter only. -/
theorem dropReservation_eq (c : Cache) (r : ℕ) :
    ∃ held used, c.dropReservation r = { c with held := held, used := used } := by
  unfold Cache.dropReservation
  split
  · exact ⟨c.held, c.used, rfl⟩
  · exact ⟨_, _, rfl⟩

/-- Shrinking a reservation changes the reservations and the counter only. -/
theorem shrinkTo_eq (c : Cache) (r amount : ℕ) :
    ∃ held used, c.shrinkTo r amount = { c with held := held, used := used } := by
  unfold Cache.shrinkTo
  split
  · exact ⟨c.held, c.used, rfl⟩
  · next old _ =>
    by_cases hle : amount ≤ old
    · exact ⟨_, _, if_pos hle⟩
    · exact ⟨c.held, c.used, if_neg hle⟩

/-- Dropping a reservation keeps the invariant, and adds nothing to the cache. -/
theorem Accounted.dropReservation (h : c.Accounted) (hr : (r, amount) ∈ c.held) :
    (c.dropReservation r).Accounted ∧ Kept c (c.dropReservation r) := by
  have hbudgeted := (h.budgeted.dropReservation hr).1
  obtain ⟨held, used, heq⟩ := dropReservation_eq c r
  rw [heq] at hbudgeted ⊢
  exact ⟨⟨hbudgeted, h.live, h.indexed.congr rfl rfl rfl⟩,
    .of_subset rfl (List.Subset.refl _) (List.Subset.refl _) rfl⟩

/-- Shrinking a reservation keeps the invariant, and adds nothing to the cache. -/
theorem Accounted.shrinkTo (h : c.Accounted) :
    (c.shrinkTo r amount).Accounted ∧ Kept c (c.shrinkTo r amount) := by
  have hbudgeted : (c.shrinkTo r amount).Budgeted := h.budgeted.shrinkTo
  obtain ⟨held, used, heq⟩ := shrinkTo_eq c r amount
  rw [heq] at hbudgeted ⊢
  exact ⟨⟨hbudgeted, h.live, h.indexed.congr rfl rfl rfl⟩,
    .of_subset rfl (List.Subset.refl _) (List.Subset.refl _) rfl⟩

/-- Granting an amount that fits keeps the invariant. -/
theorem Accounted.grant (h : c.Accounted) (hfits : c.Fits amount) : (c.grant amount).Accounted :=
  ⟨h.budgeted.grant hfits, h.live, h.indexed.congr rfl rfl rfl⟩

/-- A reservation attempt keeps the invariant, with its evictions and whatever its outcome. -/
theorem Accounted.reserve (h : c.Accounted) :
    (c.reserve amount).2.Accounted ∧ Kept c (c.reserve amount).2 := by
  obtain ⟨c', hc', hevicted, ⟨hfits, hresult⟩ | ⟨-, -, e, hresult⟩⟩ :=
    reserveFrom_spec amount h rfl
  · rw [Cache.reserve, hresult]
    have hkept := hevicted.kept
    exact ⟨hc'.grant hfits, hkept.limit, hkept.values, hkept.shared, hkept.identities⟩
  · rw [Cache.reserve, hresult]
    exact ⟨hc', hevicted.kept⟩

/-- One more reference to a value of the cache. -/
theorem Accounted.lease {key : Key} (h : c.Accounted) (ha : (key, a) ∈ c.values) :
    (c.lease a).Accounted ∧ Kept c (c.lease a) := by
  refine ⟨⟨{ h.budgeted with }, fun b => (h.live b).trans ?_, h.indexed.congr rfl rfl rfl⟩,
    .of_subset rfl (List.Subset.refl _) (List.Subset.refl _) rfl⟩
  change _ ↔ b ∈ c.values.map Prod.snd ∨ b ∈ a :: c.leases
  rw [List.mem_cons]
  constructor
  · exact Or.imp_right .inr
  · rintro (hb | rfl | hb)
    · exact .inl hb
    · exact .inl (List.mem_map.mpr ⟨_, ha, rfl⟩)
    · exact .inr hb

/-- Dropping a lease keeps the invariant, and adds nothing to the cache. -/
theorem Accounted.dropLease (h : c.Accounted) :
    (c.dropLease a).Accounted ∧ Kept c (c.dropLease a) := by
  have hbudgeted : (c.dropLease a).Budgeted := Budgeted.release { h.budgeted with }
  have hlive : (c.dropLease a).Live := by
    refine live_release (fun b hb => (h.live b).mpr (hb.imp_right List.mem_of_mem_erase))
      fun b hb hne => ((h.live b).mp hb).imp_right fun hb => ?_
    exact (List.mem_erase_of_ne hne).mpr hb
  obtain ⟨shared, used, heq, hsub⟩ := release_eq { c with leases := c.leases.erase a } a
  rw [Cache.dropLease, heq] at hbudgeted hlive ⊢
  exact ⟨⟨hbudgeted, hlive, h.indexed.congr rfl rfl rfl⟩,
    .of_subset rfl (List.Subset.refl _) hsub rfl⟩

/-- Counting a range touches only the identity of its object. -/
theorem Accounted.count_put_budgeted {identity : Identity} {key : Key} {bytes : Bytes}
    (h : c.Accounted) (hr : (r, amount) ∈ c.held) :
    ((c.count identity).put key bytes r amount).Budgeted := by
  have hbudgeted : (c.put key bytes r amount).Budgeted := h.budgeted.put hr
  obtain ⟨identities, heq⟩ := count_eq c identity
  rw [heq]
  exact { hbudgeted with }

/-- A new value is the only reference to a new byte string. -/
theorem Accounted.live_put {key : Key} {bytes : Bytes} (h : c.Accounted) :
    (c.put key bytes r amount).Live := by
  intro b
  change b ∈ c.fresh :: c.shared.map Prod.fst ↔
    b ∈ c.fresh :: c.values.map Prod.snd ∨ b ∈ c.leases
  rw [List.mem_cons, List.mem_cons, h.live b, or_assoc]

/-- Putting a byte string under a fresh address keeps what was there. -/
theorem Kept.put (key : Key) (bytes : Bytes) (r amount : ℕ) :
    Kept c (c.put key bytes r amount) where
  limit := rfl
  values p hp hlt := by
    rcases List.mem_cons.mp hp with rfl | hmem
    · exact absurd hlt (lt_irrefl _)
    · exact hmem
  shared p hp hlt := by
    rcases List.mem_cons.mp hp with rfl | hmem
    · exact absurd hlt (lt_irrefl _)
    · exact hmem
  identities _ _ n hn _ := ⟨n, hn⟩

/-- Counting a range keeps the recorded identities. -/
theorem mem_identities_count {identity identity' : Identity} {uri : String} {n : ℕ}
    (h : (uri, identity', n) ∈ (c.count identity).identities)
    (huri : uri ∈ c.identities.map Prod.fst) : ∃ m, (uri, identity', m) ∈ c.identities := by
  rw [Cache.count] at h
  cases hvalue : valueOf identity.uri c.identities with
  | none =>
    simp only [hvalue] at h
    rcases List.mem_cons.mp h with heq | hmem
    · cases heq
      exact absurd huri (valueOf_eq_none.mp hvalue)
    · exact ⟨n, hmem⟩
  | some pair =>
    obtain ⟨old, m⟩ := pair
    simp only [hvalue] at h
    rcases List.mem_cons.mp h with heq | hmem
    · cases heq
      exact ⟨m, mem_of_valueOf hvalue⟩
    · exact ⟨n, (mem_eraseKey.mp hmem).1⟩

/-- After counting a checked identity it is the recorded one. -/
theorem mem_count_self {identity : Identity} (hcheck : c.check identity = .ok ()) :
    ∃ n, (identity.uri, identity, n) ∈ (c.count identity).identities := by
  rw [Cache.count]
  cases hvalue : valueOf identity.uri c.identities with
  | none => exact ⟨1, List.mem_cons_self⟩
  | some pair =>
    obtain ⟨old, n⟩ := pair
    rw [check_eq_ok hcheck hvalue]
    exact ⟨n + 1, List.mem_cons_self⟩

/-- Putting a range of a checked identity. -/
theorem Accounted.count_put {identity : Identity} {first last : ℕ} (bytes : Bytes)
    (h : c.Accounted) (hr : (r, amount) ∈ c.held)
    (habsent : valueOf (.objectRange identity.uri first last) c.values = none) :
    ((c.count identity).put (.objectRange identity.uri first last) bytes r amount).Accounted ∧
      Kept c ((c.count identity).put (.objectRange identity.uri first last) bytes r amount) := by
  have hbudgeted : ((c.count identity).put (.objectRange identity.uri first last) bytes r
      amount).Budgeted := h.count_put_budgeted hr
  have hindexed : ((c.count identity).put (.objectRange identity.uri first last) bytes r
      amount).Indexed := h.indexed.count_put habsent
  have hlive : (c.put (.objectRange identity.uri first last) bytes r amount).Live := h.live_put
  have hkept := Kept.put (c := c) (.objectRange identity.uri first last) bytes r amount
  have hidentities : ∀ uri identity' n, (uri, identity', n) ∈ (c.count identity).identities →
      uri ∈ c.identities.map Prod.fst → ∃ m, (uri, identity', m) ∈ c.identities :=
    fun _ _ _ => mem_identities_count
  obtain ⟨identities, heq⟩ := count_eq c identity
  rw [heq] at hbudgeted hindexed hidentities ⊢
  exact ⟨⟨hbudgeted, hlive, hindexed⟩, rfl, hkept.values, hkept.shared, hidentities⟩

/-- Inserting a page keeps the invariant, and no range of an object changes. -/
theorem Accounted.insertPage (key : PageKey) (vec : ByteVec) (h : c.Accounted)
    (hr : (r, amount) ∈ c.held) :
    (c.insertPage key vec r amount).2.Accounted ∧ Kept c (c.insertPage key vec r amount).2 ∧
      ∀ uri first last a, (Key.objectRange uri first last, a) ∈
        (c.insertPage key vec r amount).2.values → a < c.fresh := by
  have hdrop := h.dropReservation hr
  have hold : ∀ uri first last a, (Key.objectRange uri first last, a) ∈
      (c.dropReservation r).values → a < c.fresh := by
    intro uri first last a ha
    obtain ⟨held, used, heq⟩ := dropReservation_eq c r
    rw [heq] at ha
    exact (h.object_of_value ha).1
  unfold Cache.insertPage
  split
  · exact ⟨hdrop.1, hdrop.2, hold⟩
  split
  · exact ⟨hdrop.1, hdrop.2, hold⟩
  split
  · exact ⟨hdrop.1, hdrop.2, hold⟩
  · next habsent =>
    rw [Option.not_isSome_iff_eq_none] at habsent
    refine ⟨⟨h.budgeted.put hr, h.live_put, h.indexed.put_page habsent⟩, .put _ _ _ _, ?_⟩
    intro uri first last a ha
    rcases List.mem_cons.mp ha with heq | hmem
    · cases heq
    · exact (h.object_of_value hmem).1

/-- Inserting a range keeps the invariant; a new range stands for the given bytes. -/
theorem Accounted.insert (identity : Identity) (first last : ℕ) (vec : ByteVec) (h : c.Accounted)
    (hr : (r, amount) ∈ c.held) :
    (c.insert identity first last vec r amount).2.Accounted ∧
      Kept c (c.insert identity first last vec r amount).2 ∧
      ∀ uri first' last' a, (Key.objectRange uri first' last', a) ∈
        (c.insert identity first last vec r amount).2.values → c.fresh ≤ a →
        uri = identity.uri ∧ first' = first ∧ last' = last ∧
        (c.insert identity first last vec r amount).1 = .ok a ∧ ∃ n,
          (uri, identity, n) ∈ (c.insert identity first last vec r amount).2.identities ∧
          (a, CachedBytes.mk vec.bytes amount) ∈
            (c.insert identity first last vec r amount).2.shared := by
  obtain ⟨hdrop, hkept⟩ := h.dropReservation hr
  obtain ⟨held, used, heq⟩ := dropReservation_eq c r
  have hold : ∀ uri first last a, (Key.objectRange uri first last, a) ∈ c.values →
      ¬ c.fresh ≤ a := fun uri first last a ha => Nat.not_le_of_lt (h.object_of_value ha).1
  have hvalues : (c.dropReservation r).values = c.values := by rw [heq]
  unfold Cache.insert
  dsimp only
  split
  · refine ⟨hdrop, hkept, fun uri first last a ha hle => absurd hle (hold _ _ _ _ (hvalues ▸ ha))⟩
  cases hcheck : c.check identity with
  | error e =>
    exact ⟨hdrop, hkept, fun uri first last a ha hle => absurd hle (hold _ _ _ _ (hvalues ▸ ha))⟩
  | ok u =>
    cases hvalue : valueOf (.objectRange identity.uri first last) c.values with
    | some a =>
      have hlease := hdrop.lease (hvalues.symm ▸ mem_of_valueOf hvalue)
      refine ⟨hlease.1, ?_, fun uri first last a ha hle =>
        absurd hle (hold _ _ _ _ (hvalues ▸ ha))⟩
      exact ⟨hkept.limit, hkept.values, hkept.shared, hkept.identities⟩
    | none =>
      obtain ⟨haccounted, hput⟩ := h.count_put vec.bytes hr hvalue
      have hmem : (Key.objectRange identity.uri first last, c.fresh) ∈ ((c.count identity).put
          (.objectRange identity.uri first last) vec.bytes r amount).values := by
        obtain ⟨identities, hcount⟩ := count_eq c identity
        rw [hcount]
        exact List.mem_cons_self
      refine ⟨(haccounted.lease hmem).1, ⟨hput.limit, hput.values, hput.shared, hput.identities⟩,
        ?_⟩
      intro uri first' last' a ha hle
      obtain ⟨n, hn⟩ := mem_count_self hcheck
      obtain ⟨identities, hcount⟩ := count_eq c identity
      rw [hcount] at ha hn ⊢
      rcases List.mem_cons.mp ha with hkey | hmem
      · cases hkey
        exact ⟨rfl, rfl, rfl, rfl, n, hn, List.mem_cons_self⟩
      · exact absurd hle (hold _ _ _ _ hmem)

end Operations

section Clients

variable {c c' : Cache} {trace : List (Call × Answer)} {call : Call} {answer : Answer} {r : ℕ}

/-- Clients hold what the calls and their answers say, and every live byte string was given to the
cache with the reservation that it owns. -/
structure Told (trace : List (Call × Answer)) (c : Cache) : Prop where
  held : ∀ s, valueOf s c.held = heldAfter trace s
  leases : ∀ b, c.leases.count b = leasedAfter trace b
  given : ∀ p ∈ c.shared, Given trace p.2

/-- What was given to the cache stays given when more calls follow. -/
theorem Given.cons {event : Call × Answer} {object : CachedBytes} (h : Given trace object) :
    Given (event :: trace) object := by
  obtain ⟨later, call, answer, earlier, r, rfl, hcall⟩ := h
  exact ⟨event :: later, call, answer, earlier, r, rfl, hcall⟩

/-- A dropped reservation is no longer held. -/
theorem valueOf_dropReservation (c : Cache) (r s : ℕ) :
    valueOf s (c.dropReservation r).held = if r = s then none else valueOf s c.held := by
  unfold Cache.dropReservation
  split
  · next hnone =>
    split
    · next h => exact h ▸ hnone
    · rfl
  · exact valueOf_eraseKey

/-- A reservation that shrinks holds the smaller amount. -/
theorem valueOf_shrinkTo (c : Cache) (r amount s : ℕ) :
    valueOf s (c.shrinkTo r amount).held =
      (valueOf s c.held).map fun old => if r = s then min amount old else old := by
  unfold Cache.shrinkTo
  split
  · next hnone =>
    by_cases hs : r = s
    · rw [← hs, hnone]
      rfl
    · simp [hs]
  · next old hvalue =>
    split
    · next hle =>
      rw [valueOf_cons, valueOf_eraseKey]
      by_cases hs : r = s
      · subst hs
        simp [hvalue, hle]
      · simp [hs]
    · next hlt =>
      by_cases hs : r = s
      · subst hs
        simp [hvalue, Nat.le_of_not_le hlt]
      · simp [hs]

/-- What a call does to what clients hold, when it takes the reservation `r`. -/
structure Takes (c : Cache) (r amount : ℕ) (bytes : Bytes) (handed : Option ℕ) (c' : Cache) :
    Prop where
  held : ∀ s, valueOf s c'.held = if r = s then none else valueOf s c.held
  leases : ∀ b, c'.leases.count b = c.leases.count b + if handed = some b then 1 else 0
  shared : ∀ p ∈ c'.shared, p ∈ c.shared ∨ p.2 = ⟨bytes, amount⟩

/-- Dropping the reservation takes it and hands out nothing. -/
theorem Takes.dropReservation (c : Cache) (r amount : ℕ) (bytes : Bytes) :
    Takes c r amount bytes none (c.dropReservation r) := by
  obtain ⟨held, used, heq⟩ := dropReservation_eq c r
  exact ⟨valueOf_dropReservation c r, fun _ => by rw [heq]; rfl, fun p hp => by
    rw [heq] at hp
    exact .inl hp⟩

/-- Storing the bytes takes the reservation and hands out nothing by itself. -/
theorem Takes.put (c : Cache) (key : Key) (bytes : Bytes) (r amount : ℕ) :
    Takes c r amount bytes none (c.put key bytes r amount) where
  held _ := valueOf_eraseKey
  leases _ := rfl
  shared p hp := by
    rcases List.mem_cons.mp hp with rfl | hmem
    · exact .inr rfl
    · exact .inl hmem

/-- Handing out a lease besides changes nothing but that lease. -/
theorem Takes.lease {amount : ℕ} {bytes : Bytes} (h : Takes c r amount bytes none c') (a : ℕ) :
    Takes c r amount bytes (some a) (c'.lease a) where
  held := h.held
  leases b := by
    change (a :: c'.leases).count b = _
    rw [List.count_cons, h.leases b]
    simp
  shared := h.shared

/-- Counting a use of an identity does not touch what clients hold. -/
theorem Takes.count {amount : ℕ} {bytes : Bytes} {identity : Identity}
    (h : Takes (c.count identity) r amount bytes none c') : Takes c r amount bytes none c' := by
  obtain ⟨identities, heq⟩ := count_eq c identity
  rw [heq] at h
  exact ⟨h.held, h.leases, h.shared⟩

/-- An insert takes the reservation on every path and hands out the lease that its answer names. -/
theorem takes_insert (c : Cache) (identity : Identity) (first last : ℕ) (vec : ByteVec)
    (r amount : ℕ) :
    Takes c r amount vec.bytes (c.insert identity first last vec r amount).1.toOption
      (c.insert identity first last vec r amount).2 := by
  unfold Cache.insert
  dsimp only
  split
  · exact .dropReservation ..
  · cases c.check identity with
    | error e => exact .dropReservation ..
    | ok u =>
      cases valueOf (.objectRange identity.uri first last) c.values with
      | some a => exact (Takes.dropReservation ..).lease a
      | none => exact (Takes.put ..).count.lease c.fresh

/-- An insert of a page takes the reservation on every path and hands out no lease. -/
theorem takes_insertPage (c : Cache) (key : PageKey) (vec : ByteVec) (r amount : ℕ) :
    Takes c r amount vec.bytes none (c.insertPage key vec r amount).2 := by
  unfold Cache.insertPage
  split
  · exact .dropReservation ..
  split
  · exact .dropReservation ..
  split
  · exact .dropReservation ..
  · exact .put ..

/-- A call that takes a reservation gives it to the cache with the bytes, or drops it. -/
theorem Told.takes {amount : ℕ} {bytes : Bytes} (h : Told trace c) (hr : (r, amount) ∈ c.held)
    (hkeys : (c.held.map Prod.fst).Nodup) (htakes : call.takes = some r)
    (hgives : call.gives = some bytes) (hc' : Takes c r amount bytes answer.hands c') :
    Told ((call, answer) :: trace) c' where
  held s := by
    have hheld : heldAfter ((call, answer) :: trace) s =
        if r = s then none else heldAfter trace s := by
      cases call <;> simp_all [heldAfter, Call.takes, Call.gives]
    rw [hheld, hc'.held, h.held]
  leases b := by
    have hleased : leasedAfter ((call, answer) :: trace) b =
        leasedAfter trace b + if answer.hands = some b then 1 else 0 := by
      cases call <;> simp_all [leasedAfter, Call.gives]
    rw [hleased, hc'.leases, h.leases]
  given p hp := by
    rcases hc'.shared p hp with hold | hnew
    · exact (h.given p hold).cons
    · rw [hnew]
      exact ⟨[], call, answer, trace, r, rfl, htakes, hgives,
        (h.held r).symm.trans (valueOf_of_mem hkeys hr)⟩

/-- A call that hands out at most a lease. -/
theorem Told.hands (h : Told trace c) (hheld : ∀ s, heldAfter ((call, answer) :: trace) s =
      heldAfter trace s) (hleased : ∀ b, leasedAfter ((call, answer) :: trace) b =
      leasedAfter trace b + if answer.hands = some b then 1 else 0)
    (hc' : c' = (answer.hands.map c.lease).getD c) : Told ((call, answer) :: trace) c' := by
  cases hhands : answer.hands with
  | none =>
    simp only [hhands, Option.map_none, Option.getD_none] at hc'
    subst hc'
    exact ⟨fun s => (h.held s).trans (hheld s).symm,
      fun b => by rw [hleased, hhands, h.leases]; rfl, fun p hp => (h.given p hp).cons⟩
  | some a =>
    simp only [hhands, Option.map_some, Option.getD_some] at hc'
    subst hc'
    refine ⟨fun s => (h.held s).trans (hheld s).symm, fun b => ?_,
      fun p hp => (h.given p hp).cons⟩
    change (a :: c.leases).count b = _
    rw [hleased, hhands, List.count_cons, h.leases]
    simp

/-- A lookup of a range changes nothing but the lease that its answer names. -/
theorem get_eq (c : Cache) (identity : Identity) (first last : ℕ) :
    (c.get identity first last).2 =
      (((Answer.found (c.get identity first last).1).hands).map c.lease).getD c := by
  unfold Cache.get
  split
  · rfl
  · split <;> rfl

/-- A lookup of a page changes nothing but the lease that its answer names. -/
theorem getPage_eq (c : Cache) (key : PageKey) :
    (c.getPage key).2 = (((Answer.found (c.getPage key).1).hands).map c.lease).getD c := by
  unfold Cache.getPage
  split
  · rfl
  · split <;> rfl

/-- Every call changes what clients hold as it and its answer say. -/
theorem Told.step (h : Told trace c) (hc : c.Accounted) (hstep : c.step call = some (answer, c')) :
    Told ((call, answer) :: trace) c' := by
  have hkeys := hc.budgeted.heldKeys
  cases call with
  | reserve amount =>
    cases hstep
    obtain ⟨c', -, hevicted, ⟨-, hresult⟩ | ⟨-, -, e, hresult⟩⟩ := reserveFrom_spec amount hc rfl
    · rw [Cache.reserve, hresult]
      refine ⟨fun s => ?_, fun b => ?_, fun p hp => (h.given p (hevicted.shared hp)).cons⟩
      · change valueOf s ((c'.fresh, amount) :: c'.held) = _
        rw [valueOf_cons, hevicted.held, h.held]
        rfl
      · change c'.leases.count b = leasedAfter trace b + 0
        rw [hevicted.leases, h.leases, Nat.add_zero]
    · rw [Cache.reserve, hresult]
      refine ⟨fun s => ?_, fun b => ?_, fun p hp => (h.given p (hevicted.shared hp)).cons⟩
      · rw [hevicted.held, h.held]
        simp [heldAfter, Call.takes]
      · change c'.leases.count b = leasedAfter trace b + 0
        rw [hevicted.leases, h.leases, Nat.add_zero]
  | shrinkTo r amount =>
    obtain ⟨old, -, heq⟩ := Option.map_eq_some_iff.mp hstep
    cases heq
    obtain ⟨held, used, heq⟩ := shrinkTo_eq c r amount
    refine ⟨fun s => ?_, fun b => ?_, fun p hp => ?_⟩
    · rw [valueOf_shrinkTo, h.held]
      rfl
    · rw [heq]
      exact h.leases b
    · rw [heq] at hp
      exact (h.given p hp).cons
  | dropReservation r =>
    obtain ⟨old, -, heq⟩ := Option.map_eq_some_iff.mp hstep
    cases heq
    obtain ⟨held, used, heq⟩ := dropReservation_eq c r
    refine ⟨fun s => ?_, fun b => ?_, fun p hp => ?_⟩
    · rw [valueOf_dropReservation, h.held]
      simp [heldAfter, Call.takes]
    · rw [heq]
      exact h.leases b
    · rw [heq] at hp
      exact (h.given p hp).cons
  | dropLease a =>
    simp only [Cache.step] at hstep
    split at hstep
    · cases hstep
      obtain ⟨shared, used, heq, hsub⟩ := release_eq { c with leases := c.leases.erase a } a
      rw [Cache.dropLease, heq]
      refine ⟨fun s => ?_, fun b => ?_, fun p hp => (h.given p (hsub hp)).cons⟩
      · rw [h.held]
        simp [heldAfter, Call.takes]
      · change (c.leases.erase a).count b = leasedAfter trace b - _
        rw [List.count_erase, h.leases]
        simp only [beq_iff_eq]
    · cases hstep
  | insert identity first last vec r =>
    obtain ⟨amount, hvalue, heq⟩ := Option.map_eq_some_iff.mp hstep
    cases heq
    refine h.takes (mem_of_valueOf hvalue) hkeys rfl rfl ?_
    have htakes := takes_insert c identity first last vec r amount
    cases hresult : (c.insert identity first last vec r amount).1 <;> rw [hresult] at htakes <;>
      exact htakes
  | insertPage key vec r =>
    obtain ⟨amount, hvalue, heq⟩ := Option.map_eq_some_iff.mp hstep
    cases heq
    exact h.takes (mem_of_valueOf hvalue) hkeys rfl rfl (takes_insertPage c key vec r amount)
  | get identity first last =>
    cases hstep
    exact h.hands (fun _ => by simp [heldAfter, Call.takes]) (fun _ => rfl) (get_eq ..)
  | getPage key =>
    cases hstep
    exact h.hands (fun _ => by simp [heldAfter, Call.takes]) (fun _ => rfl) (getPage_eq ..)
  | metadataFor reference =>
    cases hstep
    exact h.hands (fun _ => by simp [heldAfter, Call.takes]) (fun _ => rfl) rfl

end Clients

section Runs

variable {c c' : Cache} {limit amount : ℕ} {trace : List (Call × Answer)} {call : Call}
  {answer : Answer}

/-- A lookup of a range keeps the invariant. -/
theorem Accounted.get {identity : Identity} {first last : ℕ} (h : c.Accounted) :
    (c.get identity first last).2.Accounted ∧ Kept c (c.get identity first last).2 := by
  unfold Cache.get
  split
  · exact ⟨h, .refl c⟩
  · split
    · exact ⟨h, .refl c⟩
    · next a hvalue => exact h.lease (mem_of_valueOf hvalue)

/-- A lookup of a page keeps the invariant. -/
theorem Accounted.getPage {key : PageKey} (h : c.Accounted) :
    (c.getPage key).2.Accounted ∧ Kept c (c.getPage key).2 := by
  unfold Cache.getPage
  split
  · exact ⟨h, .refl c⟩
  · next a hvalue =>
    split
    · exact ⟨h, .refl c⟩
    · exact h.lease (mem_of_valueOf hvalue)

/-- A call that admits no range keeps every range sourced. -/
theorem Sourced.of_no_range (h : Sourced trace c) (hc : c.Accounted)
    (hc' : c'.Accounted ∧ Kept c c')
    (hvalues : ∀ uri first last a, (Key.objectRange uri first last, a) ∈ c'.values →
      a < c.fresh) : Sourced ((call, answer) :: trace) c' :=
  h.of_kept hc hc'.1 hc'.2 (List.subset_cons_self _ _) fun uri first last a ha hle =>
    absurd hle (Nat.not_le_of_lt (hvalues uri first last a ha))

/-- Every call keeps the invariant, the limit and the sources of the cached ranges. -/
theorem Accounted.step (h : c.Accounted) (hsourced : Sourced trace c)
    (hstep : c.step call = some (answer, c')) :
    c'.Accounted ∧ c'.limit = c.limit ∧ Sourced ((call, answer) :: trace) c' := by
  have hold : ∀ p ∈ c.values, p.2 < c.fresh := fun p hp => (h.object_of_value hp).1
  -- The values of a call that admits nothing are among those there were.
  have hkeep : ∀ c', c'.Accounted ∧ Kept c c' → c'.values ⊆ c.values →
      c'.Accounted ∧ c'.limit = c.limit ∧ Sourced ((call, answer) :: trace) c' :=
    fun c' hc' hvalues => ⟨hc'.1, hc'.2.limit, hsourced.of_no_range h hc' fun _ _ _ _ ha =>
      hold _ (hvalues ha)⟩
  cases call with
  | reserve amount =>
    cases hstep
    refine hkeep _ h.reserve ?_
    obtain ⟨c', -, hevicted, ⟨-, hresult⟩ | ⟨-, -, e, hresult⟩⟩ :=
      reserveFrom_spec amount h rfl
    · rw [Cache.reserve, hresult]
      exact hevicted.values
    · rw [Cache.reserve, hresult]
      exact hevicted.values
  | shrinkTo r amount =>
    obtain ⟨old, -, heq⟩ := Option.map_eq_some_iff.mp hstep
    cases heq
    obtain ⟨held, used, heq⟩ := shrinkTo_eq c r amount
    exact hkeep _ h.shrinkTo (by rw [heq]; exact List.Subset.refl _)
  | dropReservation r =>
    obtain ⟨old, hvalue, heq⟩ := Option.map_eq_some_iff.mp hstep
    cases heq
    obtain ⟨held, used, heq⟩ := dropReservation_eq c r
    exact hkeep _ (h.dropReservation (mem_of_valueOf hvalue))
      (by rw [heq]; exact List.Subset.refl _)
  | dropLease a =>
    simp only [Cache.step] at hstep
    split at hstep
    · cases hstep
      obtain ⟨shared, used, heq, -⟩ := release_eq { c with leases := c.leases.erase a } a
      exact hkeep _ h.dropLease (by rw [Cache.dropLease, heq]; exact List.Subset.refl _)
    · cases hstep
  | insert identity first last vec r =>
    obtain ⟨amount, hvalue, heq⟩ := Option.map_eq_some_iff.mp hstep
    cases heq
    obtain ⟨haccounted, hkept, hnew⟩ := h.insert identity first last vec (mem_of_valueOf hvalue)
    refine ⟨haccounted, hkept.limit, hsourced.of_kept h haccounted hkept
      (List.subset_cons_self _ _) fun uri first' last' a ha hle => ?_⟩
    obtain ⟨rfl, rfl, rfl, hanswer, n, hn, hobject⟩ := hnew uri first' last' a ha hle
    rw [hanswer]
    exact ⟨identity, n, _, hn, hobject, vec, r, List.mem_cons_self, rfl⟩
  | insertPage key vec r =>
    obtain ⟨amount, hvalue, heq⟩ := Option.map_eq_some_iff.mp hstep
    cases heq
    obtain ⟨haccounted, hkept, hvalues⟩ := h.insertPage key vec (mem_of_valueOf hvalue)
    exact ⟨haccounted, hkept.limit, hsourced.of_no_range h ⟨haccounted, hkept⟩ hvalues⟩
  | get identity first last =>
    cases hstep
    refine hkeep _ h.get ?_
    unfold Cache.get
    split
    · exact List.Subset.refl _
    · split <;> exact List.Subset.refl _
  | getPage key =>
    cases hstep
    refine hkeep _ h.getPage ?_
    unfold Cache.getPage
    split
    · exact List.Subset.refl _
    · split <;> exact List.Subset.refl _
  | metadataFor reference =>
    cases hstep
    exact hkeep _ ⟨h, .refl c⟩ (List.Subset.refl _)

/-- The invariant holds in every state of a run. -/
theorem Run.accounted (hlimit : limit < wordSize) (h : Run limit trace c) :
    c.Accounted ∧ c.limit = limit ∧ Sourced trace c ∧ Told trace c := by
  induction h with
  | start =>
    exact ⟨.new hlimit, rfl, fun _ _ _ _ ha => absurd ha List.not_mem_nil, fun _ => rfl,
      fun _ => rfl, fun _ hp => absurd hp List.not_mem_nil⟩
  | step _ hstep ih =>
    obtain ⟨haccounted, rfl, hsourced, htold⟩ := ih
    obtain ⟨haccounted', hlimit', hsourced'⟩ := haccounted.step hsourced hstep
    exact ⟨haccounted', hlimit', hsourced', htold.step haccounted hstep⟩

/-- What a lookup returns was inserted for an equal identity and the same range. -/
theorem Sourced.get {identity : Identity} {first last a : ℕ} (h : Sourced trace c)
    (hc : c.Accounted) (hget : (c.get identity first last).1 = .ok (some a)) :
    ∃ object, (a, object) ∈ c.shared ∧ Inserted trace identity first last a object.bytes := by
  unfold Cache.get at hget
  split at hget
  · cases hget
  · next hcheck =>
    split at hget
    · cases hget
    · next a' hvalue =>
      cases hget
      obtain ⟨identity', n, object, hidentity, hobject, hinserted⟩ :=
        h _ _ _ _ (mem_of_valueOf hvalue)
      have hsame := check_eq_ok hcheck (valueOf_of_mem hc.indexed.identityKeys hidentity)
      subst hsame
      exact ⟨object, hobject, hinserted⟩

/-- Reserving fails only when what is held outside the cache leaves no room. -/
theorem Accounted.reserve_error {e : RuntimeError} (h : c.Accounted)
    (herror : (c.reserve amount).1 = .error e) :
    (c.reserve amount).2.values = [] ∧ (c.reserve amount).2.order = [] ∧
      c.limit < c.outside + amount := by
  obtain ⟨c', hc', hevicted, ⟨-, hresult⟩ | ⟨hfits, horder, e', hresult⟩⟩ :=
    reserveFrom_spec amount h rfl
  · rw [Cache.reserve, hresult] at herror
    cases herror
  · rw [Cache.reserve, hresult]
    obtain ⟨hvalues, hused⟩ := hc'.used_of_empty horder
    refine ⟨hvalues, horder, ?_⟩
    have hword := hc'.budgeted.word
    have hlimit := hevicted.limit
    have houtside := hevicted.outside
    unfold Cache.Fits at hfits
    omega

/-- **The accounting of the cache.** In every state of every run, what is used is the sum of the
live reservations and within the limit; clients hold the reservations and the leases that the calls
and their answers say, and a byte string owns a reservation that a call took from its client; a byte
string is live exactly while it is referred to; the queue holds each cached key once; an identity is
recorded with the number of its cached ranges, exactly while there are any; a lookup returns only
what was inserted for an equal identity and the same range; and reserving fails only after every
entry was evicted, when what is held outside the cache leaves no room. -/
theorem accounting_invariant (hlimit : limit < wordSize) (hrun : Run limit trace c) :
    (c.used = c.heldSum + c.sharedSum ∧ c.used ≤ limit) ∧
      ((∀ r, valueOf r c.held = heldAfter trace r) ∧
        (∀ a, c.leases.count a = leasedAfter trace a) ∧
        ∀ a object, valueOf a c.shared = some object → Given trace object) ∧
      (∀ a, a ∈ c.shared.map Prod.fst ↔ a ∈ c.values.map Prod.snd ∨ a ∈ c.leases) ∧
      (c.order.Nodup ∧ (c.values.map Prod.fst).Nodup ∧
        ∀ key, key ∈ c.order ↔ key ∈ c.values.map Prod.fst) ∧
      (∀ uri, (valueOf uri c.identities).map Prod.snd =
        if c.ranges uri = 0 then none else some (c.ranges uri)) ∧
      (∀ identity first last a, (c.get identity first last).1 = .ok (some a) →
        ∃ object, valueOf a c.shared = some object ∧
          Inserted trace identity first last a object.bytes) ∧
      ∀ amount e, (c.reserve amount).1 = .error e →
        (c.reserve amount).2.values = [] ∧ (c.reserve amount).2.order = [] ∧
          limit < c.outside + amount := by
  obtain ⟨haccounted, rfl, hsourced, htold⟩ := hrun.accounted hlimit
  have hindexed := haccounted.indexed
  refine ⟨⟨haccounted.budgeted.used, haccounted.budgeted.limit⟩,
    ⟨htold.held, htold.leases, fun a object ha => htold.given _ (mem_of_valueOf ha)⟩,
    haccounted.live,
    ⟨hindexed.order.nodup_iff.mpr hindexed.valueKeys, hindexed.valueKeys,
      fun key => hindexed.order.mem_iff⟩, hindexed.counts, ?_,
    fun amount e => haccounted.reserve_error⟩
  intro identity first last a hget
  obtain ⟨object, hobject, hinserted⟩ := hsourced.get haccounted hget
  exact ⟨object, valueOf_of_mem haccounted.budgeted.sharedKeys hobject, hinserted⟩

/-- An object of two bytes. -/
def sampleIdentity : Identity := ⟨"a", ⟨List.replicate 32 0, Sha256.length_zeros⟩, 2, none⟩

/-- A client inserts a range of an object and looks it up again; a second reservation shrinks, and
one of the two leases is dropped. -/
theorem accounting_invariant_lookup :
    ∃ (trace : List (Call × Answer)) (c : Cache), Run 400 trace c ∧ c.leases = [1] ∧
      c.used = 340 ∧ (heldAfter trace 0 = none ∧ heldAfter trace 2 = some 40) ∧
      (c.used = c.heldSum + c.sharedSum ∧ c.used ≤ 400) ∧
      ((∀ r, valueOf r c.held = heldAfter trace r) ∧
        (∀ a, c.leases.count a = leasedAfter trace a) ∧
        ∀ a object, valueOf a c.shared = some object → Given trace object) ∧
      (c.order.Nodup ∧ (c.values.map Prod.fst).Nodup ∧
        ∀ key, key ∈ c.order ↔ key ∈ c.values.map Prod.fst) := by
  have hreserve : Run 400 _ _ := .step .start (show step _ (.reserve 300) = some (_, _) from rfl)
  have hinsert := hreserve.step
    (show step _ (.insert sampleIdentity 0 2 ⟨[7, 9], 2, by decide⟩ 0) = some (_, _) from rfl)
  have hget := hinsert.step (show step _ (.get sampleIdentity 0 2) = some (_, _) from rfl)
  have hsecond := hget.step (show step _ (.reserve 60) = some (_, _) from rfl)
  have hshrink := hsecond.step (show step _ (.shrinkTo 2 40) = some (_, _) from rfl)
  have hdrop := hshrink.step (show step _ (.dropLease 1) = some (_, _) from rfl)
  obtain ⟨hused, hclients, -, hqueue, -⟩ := accounting_invariant (by decide) hdrop
  refine ⟨_, _, hdrop, ?_, ?_, ⟨?_, ?_⟩, hused, hclients, hqueue⟩
  · rfl
  · rfl
  · rfl
  · rfl

end Runs

end Cache

end Otmp.Reader
