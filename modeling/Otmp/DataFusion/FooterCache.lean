import Otmp.Foundation.Keyed
import Otmp.Reader.Cache

/-!
# The cache of Parquet footers

Decoded footers are kept within a budget of bytes. A reservation of the budget moves through
phases, each with a counter that tells waiters whether room can still come free: it pays for a
decode, for a registered load or for the validation of a hit, or it is retained by an entry.
Entries are shared between the cache and its readers, and loads are registered under weak keys.
-/

namespace Otmp.DataFusion

open Foundation Otmp.Reader

/-- What identifies a cached footer: the object with its length, and the version it was read at. -/
structure FooterIdentity where
  uri : String
  sha256 : Option Sha256
  length : ℕ
  version : String
  deriving DecidableEq

/-- What a reservation is for: a payload in flight, the key of a load, a validated hit, or a value
that the cache retains. -/
inductive ReservationPhase where
  | payload
  | key
  | preflight
  | retained
  deriving DecidableEq

/-- A reservation of the budget: an amount of bytes, and what it is for. -/
structure Reservation where
  amount : ℕ
  phase : ReservationPhase
  deriving DecidableEq

/-- The counters of the budget. A counter of reservations is not bounded: there are fewer live
reservations than addresses. -/
structure Budget where
  used : ℕ
  peak : ℕ
  limit : ℕ
  transient : ℕ
  keys : ℕ
  preflightHits : ℕ

namespace Budget

/-- A reservation leaves its phase for the retained one. -/
def finishTransient (b : Budget) : ReservationPhase → Budget
  | .payload => { b with transient := fetchSub b.transient 1 }
  | .key => { b with keys := fetchSub b.keys 1 }
  | .preflight => { b with preflightHits := fetchSub b.preflightHits 1 }
  | .retained => b

/-- A reservation is dropped: its bytes are given back and its phase counts one less. -/
def drop (b : Budget) (r : Reservation) : Budget :=
  { b with used := fetchSub b.used r.amount }.finishTransient r.phase

/-- A reservation becomes that of a registered load, which is counted instead of its earlier phase.
-/
def markKey (b : Budget) (phase : ReservationPhase) : Budget :=
  { b with keys := b.keys + 1 }.finishTransient phase

/-- A reservation gives back a part of its bytes. -/
def shrink (b : Budget) (amount : ℕ) : Budget := { b with used := fetchSub b.used amount }

/-- An amount fits the budget: the sum neither wraps nor exceeds the limit. -/
def Fits (b : Budget) (amount : ℕ) : Prop := b.used + amount < wordSize ∧ b.used + amount ≤ b.limit

/-- Whether an amount fits is decided by evaluating both bounds. -/
instance (b : Budget) (amount : ℕ) : Decidable (b.Fits amount) :=
  inferInstanceAs (Decidable (_ ∧ _))

/-- A reservation for a payload is handed out: its bytes are used and the payloads count one more.
-/
def grant (b : Budget) (amount : ℕ) : Budget :=
  { b with
    used := b.used + amount
    peak := max b.peak (b.used + amount)
    transient := b.transient + 1 }

/-- A cache hit gets a lease that may release bytes. -/
def hit (b : Budget) : Budget := { b with preflightHits := b.preflightHits + 1 }

end Budget

/-- A cached footer: the sizes of its metadata and its tail, and the reservation it owns. -/
structure FooterEntry where
  memorySize : ℕ
  tailLength : ℕ
  reservation : Reservation

/-- A registered load with its reservation, which is dropped when the load is. -/
structure FooterLoad where
  key : FooterIdentity
  reservation : Reservation

/-- The cache and what its readers hold. `entries` are the live entries, which the values of the
cache and the leases of readers refer to; `held` are the reservations of readers; `loads` are the
live loads, which the registry refers to weakly. -/
structure FooterCache where
  budget : Budget
  values : List (FooterIdentity × ℕ)
  order : List FooterIdentity
  identities : List (String × FooterIdentity)
  hits : ℕ
  entries : List (ℕ × FooterEntry)
  leases : List ℕ
  held : List (ℕ × Reservation)
  loads : List (ℕ × FooterLoad)
  registry : List (FooterIdentity × ℕ)
  fresh : ℕ

/-- The outcome of asking for a reservation; under pressure, waiting for others may help. -/
inductive Admission where
  | reserved (r : ℕ)
  | pressure
  | cannotFit
  deriving DecidableEq

namespace FooterCache

/-- An empty cache with the given limit, where nothing is reserved and nothing was handed out. -/
def new (limit : ℕ) : FooterCache :=
  ⟨⟨0, 0, limit, 0, 0, 0⟩, [], [], [], 0, [], [], [], [], [], 0⟩

/-- A reference to an entry is gone; the last one drops its reservation. -/
def release (c : FooterCache) (a : ℕ) : FooterCache :=
  if a ∈ c.values.map Prod.snd ∨ a ∈ c.leases then c
  else
    match valueOf a c.entries with
    | none => c
    | some entry =>
      { c with entries := eraseKey a c.entries, budget := c.budget.drop entry.reservation }

/-- A reader drops its reference to an entry, which may be the last one. -/
def dropLease (c : FooterCache) (a : ℕ) : FooterCache :=
  { c with leases := c.leases.erase a }.release a

/-- A reader drops a reservation, whose bytes go back to the budget. -/
def drop (c : FooterCache) (r : ℕ) (old : Reservation) : FooterCache :=
  { c with held := eraseKey r c.held, budget := c.budget.drop old }

/-- A reader's reservation leaves its phase for the retained one. -/
def finishTransient (c : FooterCache) (r : ℕ) (old : Reservation) : FooterCache :=
  { c with
    held := (r, { old with phase := .retained }) :: eraseKey r c.held
    budget := c.budget.finishTransient old.phase }

/-- A reader's reservation becomes that of a registered load. -/
def markKey (c : FooterCache) (r : ℕ) (old : Reservation) : FooterCache :=
  { c with
    held := (r, { old with phase := .key }) :: eraseKey r c.held
    budget := c.budget.markKey old.phase }

/-- A reader gives back a part of a reservation. -/
def shrink (c : FooterCache) (r amount : ℕ) (old : Reservation) : FooterCache :=
  { c with
    held := (r, { old with amount := old.amount - amount }) :: eraseKey r c.held
    budget := c.budget.shrink amount }

/-- The identity of a URI is forgotten when no value of the URI remains. -/
def forget (c : FooterCache) (uri : String) : FooterCache :=
  if c.values.any fun p => decide (p.1.uri = uri) then c
  else { c with identities := eraseKey uri c.identities }

/-- Evict the first key of the queue: its value goes, its entry too unless a reader holds it, and
the identity of its URI if no other value is left. -/
def evict (c : FooterCache) (key : FooterIdentity) (rest : List FooterIdentity) : FooterCache :=
  let found := valueOf key c.values
  let c := { c with order := rest, values := eraseKey key c.values }
  match found with
  | none => c.forget key.uri
  | some a => (c.release a).forget key.uri

/-- Evict keys in order until an amount fits. Without keys, room may still come from others. -/
def tryReserveFrom (amount : ℕ) (ownedKeys : Option ℕ) (ownedHits : ℕ) :
    List FooterIdentity → FooterCache → Admission × FooterCache
  | [], c =>
    if c.budget.Fits amount then
      (.reserved c.fresh, { c with
        budget := c.budget.grant amount
        held := (c.fresh, ⟨amount, .payload⟩) :: c.held
        fresh := c.fresh + 1 })
    else if c.budget.transient > 0 ∨ c.budget.preflightHits > ownedHits ∨
        ownedKeys.any (fun own => decide (c.budget.keys > own)) = true then (.pressure, c)
    else (.cannotFit, c)
  | key :: rest, c =>
    if c.budget.Fits amount then
      (.reserved c.fresh, { c with
        budget := c.budget.grant amount
        held := (c.fresh, ⟨amount, .payload⟩) :: c.held
        fresh := c.fresh + 1 })
    else tryReserveFrom amount ownedKeys ownedHits rest (c.evict key rest)

/-- `try_reserve`: an amount beyond the limit can never fit, otherwise the queue is evicted from its
front. -/
def tryReserve (c : FooterCache) (amount : ℕ) (ownedKeys : Option ℕ) (ownedHits : ℕ) :
    Admission × FooterCache :=
  if amount > c.budget.limit then (.cannotFit, c)
  else tryReserveFrom amount ownedKeys ownedHits c.order c

/-- The recorded identity of a URI is the only one. -/
def check (c : FooterCache) (key : FooterIdentity) : Except String Unit :=
  if (valueOf key.uri c.identities).any fun old => decide (old ≠ key) then
    .error "conflicting cached immutable object reference"
  else .ok ()

/-- Look a footer up; a reader that validates hits gets a lease of its own, the second component
of what is returned. -/
def get (c : FooterCache) (key : FooterIdentity) (lease : Bool) :
    Except String (Option ℕ) × Option ℕ × FooterCache :=
  match c.check key with
  | .error e => (.error e, none, c)
  | .ok () =>
    match valueOf key c.values with
    | none => (.ok none, none, c)
    | some a =>
      let c := { c with leases := a :: c.leases, hits := c.hits + 1 }
      if lease then
        (.ok (some a), some c.fresh, { c with
          budget := c.budget.hit
          held := (c.fresh, ⟨0, .preflight⟩) :: c.held
          fresh := c.fresh + 1 })
      else (.ok (some a), none, c)

/-- `insert`: keep a decoded footer under the reservation `r`; one that needs more than it reserved
is refused, and one that is known already is not kept twice. -/
def insert (c : FooterCache) (key : FooterIdentity) (memorySize tailLength r : ℕ)
    (old : Reservation) : Except String ℕ × FooterCache :=
  if min (memorySize + tailLength) (wordSize - 1) > old.amount then
    (.error "decoded footer exceeded its bounded reservation", c.drop r old)
  else
    match c.check key with
    | .error e => (.error e, c.drop r old)
    | .ok () =>
      match valueOf key c.values with
      | some a => (.ok a, { c.drop r old with leases := a :: c.leases })
      | none =>
        (.ok c.fresh, { c with
          budget := c.budget.finishTransient old.phase
          held := eraseKey r c.held
          entries :=
            (c.fresh, ⟨memorySize, tailLength, { old with phase := .retained }⟩) :: c.entries
          identities := (key.uri, key) :: eraseKey key.uri c.identities
          order := c.order ++ [key]
          values := (key, c.fresh) :: c.values
          leases := c.fresh :: c.leases
          fresh := c.fresh + 1 })

/-- Register a load under a key; an older one under the key is no longer found. -/
def register (c : FooterCache) (key : FooterIdentity) (r : ℕ) (old : Reservation) : FooterCache :=
  { c with
    held := eraseKey r c.held
    loads := (c.fresh, ⟨key, old⟩) :: c.loads
    registry := (key, c.fresh) :: eraseKey key c.registry
    fresh := c.fresh + 1 }

/-- Drop a load, finished or not: its reservation goes, and its registration too if it is still the
one under the key. -/
def dropLoad (c : FooterCache) (l : ℕ) (load : FooterLoad) : FooterCache :=
  { c with
    registry := if valueOf load.key c.registry = some l then eraseKey load.key c.registry
      else c.registry
    loads := eraseKey l c.loads
    budget := c.budget.drop load.reservation }

/-- A call of a reader, with what it gives away. -/
inductive Call where
  | tryReserve (amount : ℕ) (ownedKeys : Option ℕ) (ownedHits : ℕ)
  | markKey (r : ℕ)
  | shrink (r amount : ℕ)
  | finishTransient (r : ℕ)
  | drop (r : ℕ)
  | get (key : FooterIdentity) (lease : Bool)
  | insert (key : FooterIdentity) (memorySize tailLength r : ℕ)
  | dropLease (a : ℕ)
  | register (key : FooterIdentity) (r : ℕ)
  | dropLoad (l : ℕ)

/-- What a call returns; reservations, entries and loads are given by their addresses. -/
inductive Answer where
  | done
  | admission (result : Admission)
  | found (result : Except String (Option ℕ)) (lease : Option ℕ)
  | inserted (result : Except String ℕ)
  | registered (l : ℕ)

/-- One call, which is possible when the reader owns what it gives away. -/
def step (c : FooterCache) : Call → Option (Answer × FooterCache)
  | .tryReserve amount ownedKeys ownedHits =>
    some (.admission (c.tryReserve amount ownedKeys ownedHits).1,
      (c.tryReserve amount ownedKeys ownedHits).2)
  | .markKey r => (valueOf r c.held).map fun old => (.done, c.markKey r old)
  | .shrink r amount =>
    (valueOf r c.held).bind fun old =>
      if amount ≤ old.amount then some (.done, c.shrink r amount old) else none
  | .finishTransient r => (valueOf r c.held).map fun old => (.done, c.finishTransient r old)
  | .drop r => (valueOf r c.held).map fun old => (.done, c.drop r old)
  | .get key lease => some (.found (c.get key lease).1 (c.get key lease).2.1, (c.get key lease).2.2)
  | .insert key memorySize tailLength r =>
    (valueOf r c.held).map fun old =>
      (.inserted (c.insert key memorySize tailLength r old).1,
        (c.insert key memorySize tailLength r old).2)
  | .dropLease a => if a ∈ c.leases then some (.done, c.dropLease a) else none
  | .register key r =>
    (valueOf r c.held).map fun old => (.registered c.fresh, c.register key r old)
  | .dropLoad l => (valueOf l c.loads).map fun load => (.done, c.dropLoad l load)

/-- The calls of a run and their answers in any order of readers, the last call first. -/
inductive Run (limit : ℕ) : List (Call × Answer) → FooterCache → Prop
  | start : Run limit [] (new limit)
  | step {trace : List (Call × Answer)} {c c' : FooterCache} {call : Call} {answer : Answer} :
      Run limit trace c → c.step call = some (answer, c') →
      Run limit ((call, answer) :: trace) c'

/-- The reservation that a call takes from its reader for good. -/
def Call.takes : Call → Option ℕ
  | .drop r => some r
  | .insert _ _ _ r => some r
  | .register _ r => some r
  | _ => none

/-- The entry that an answer hands to a reader. -/
def Answer.hands : Answer → Option ℕ
  | .found (.ok (some a)) _ => some a
  | .inserted (.ok a) => some a
  | _ => none

/-- The reservations that readers hold after these calls: one starts as it was handed out, changes
its amount and its phase, and is gone once a call takes it. -/
def heldAfter : List (Call × Answer) → ℕ → Option Reservation
  | [], _ => none
  | (.tryReserve amount _ _, .admission (.reserved r)) :: earlier, s =>
    if r = s then some ⟨amount, .payload⟩ else heldAfter earlier s
  | (.get _ _, .found _ (some r)) :: earlier, s =>
    if r = s then some ⟨0, .preflight⟩ else heldAfter earlier s
  | (.markKey r, _) :: earlier, s =>
    (heldAfter earlier s).map fun old => if r = s then { old with phase := .key } else old
  | (.shrink r amount, _) :: earlier, s =>
    (heldAfter earlier s).map fun old =>
      if r = s then { old with amount := old.amount - amount } else old
  | (.finishTransient r, _) :: earlier, s =>
    (heldAfter earlier s).map fun old => if r = s then { old with phase := .retained } else old
  | (call, _) :: earlier, s => if call.takes = some s then none else heldAfter earlier s

/-- The number of leases of an entry after these calls. -/
def leasedAfter : List (Call × Answer) → ℕ → ℕ
  | [], _ => 0
  | (.dropLease b, _) :: earlier, a => leasedAfter earlier a - if b = a then 1 else 0
  | (_, answer) :: earlier, a => leasedAfter earlier a + if answer.hands = some a then 1 else 0

/-- The loads after these calls: one owns the reservation that its reader held, until it is
dropped. -/
def loadsAfter : List (Call × Answer) → ℕ → Option FooterLoad
  | [], _ => none
  | (.register key r, .registered l) :: earlier, s =>
    if l = s then (heldAfter earlier r).map (FooterLoad.mk key) else loadsAfter earlier s
  | (.dropLoad l, _) :: earlier, s => if l = s then none else loadsAfter earlier s
  | _ :: earlier, s => loadsAfter earlier s

/-- An accepted call gave the cache an entry with the reservation that its reader held until
then. -/
def Given (trace : List (Call × Answer)) (a : ℕ) (entry : FooterEntry) : Prop :=
  ∃ later key r earlier old, trace =
      later ++ (Call.insert key entry.memorySize entry.tailLength r, Answer.inserted (.ok a)) ::
        earlier ∧
    heldAfter earlier r = some old ∧ entry.reservation = { old with phase := .retained }

end FooterCache

end Otmp.DataFusion
