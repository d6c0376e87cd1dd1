import Otmp.Foundation.Checked
import Otmp.Foundation.Keyed
import Otmp.Protocol.PageMap

/-!
# The reader's cache

The cache keeps ranges of objects and authenticated pages within a budget of bytes.
Every cached byte string holds a reservation of the budget; it is shared between the cache
and the readers it was handed to, and gives its reservation back with the last of them.
-/

namespace Otmp.Reader

open Foundation

/-- The object that a cached range belongs to: where it is, its hash and length, and the version it
was read at. -/
structure Identity where
  uri : String
  hash : Sha256
  length : ℕ
  version : Option String
  deriving DecidableEq

/-- What the cache remembers of an object besides its bytes. -/
structure ObjectMetadata where
  length : ℕ
  version : String
  deriving DecidableEq

/-- The identity of an authenticated metadata page: the generation it belongs to, whether it is one
of the checkpoint's, and its number. -/
structure PageKey where
  generation : Sha256
  checkpoint : Bool
  page : ℕ
  deriving DecidableEq

/-- What a cached value is stored under: a range of an object, or a metadata page. -/
inductive Key where
  | objectRange (uri : String) (first last : ℕ)
  | authenticatedPage (key : PageKey)
  deriving DecidableEq

/-- A growable byte string with the size of its allocation. -/
structure ByteVec where
  bytes : Bytes
  capacity : ℕ
  fits : bytes.length ≤ capacity

/-- A byte string with the reservation it owns, which is dropped with the last reference to it. -/
structure CachedBytes where
  bytes : Bytes
  amount : ℕ

/-- The cache and what its clients hold: `shared` are the live shared byte strings, which the
cache's values and the clients' leases refer to, `held` the reservations that clients hold. -/
structure Cache where
  used : ℕ
  peak : ℕ
  limit : ℕ
  values : List (Key × ℕ)
  identities : List (String × Identity × ℕ)
  order : List Key
  shared : List (ℕ × CachedBytes)
  leases : List ℕ
  held : List (ℕ × ℕ)
  fresh : ℕ

/-- Atomic subtraction, which wraps around when more is taken than there is. -/
def fetchSub (used amount : ℕ) : ℕ :=
  if amount ≤ used then used - amount else used + wordSize - amount

namespace Cache

/-- An empty cache with the given limit, where nothing is reserved and nothing was handed out. -/
def new (limit : ℕ) : Cache := ⟨0, 0, limit, [], [], [], [], [], [], 0⟩

/-- A reference to a shared byte string is gone; the last one releases the reservation. -/
def release (c : Cache) (a : ℕ) : Cache :=
  if a ∈ c.values.map Prod.snd ∨ a ∈ c.leases then c
  else
    match valueOf a c.shared with
    | none => c
    | some object =>
      { c with shared := eraseKey a c.shared, used := fetchSub c.used object.amount }

/-- Drop a reservation that a client holds; its bytes go back to the budget. -/
def dropReservation (c : Cache) (r : ℕ) : Cache :=
  match valueOf r c.held with
  | none => c
  | some amount => { c with held := eraseKey r c.held, used := fetchSub c.used amount }

/-- Shrink a reservation; growing is a failed assertion and leaves everything as it is. -/
def shrinkTo (c : Cache) (r amount : ℕ) : Cache :=
  match valueOf r c.held with
  | none => c
  | some old =>
    if amount ≤ old then
      { c with held := (r, amount) :: eraseKey r c.held, used := fetchSub c.used (old - amount) }
    else c

/-- Drop a lease of a client, which may be the last reference to a byte string. -/
def dropLease (c : Cache) (a : ℕ) : Cache := { c with leases := c.leases.erase a }.release a

/-- One range of an object is gone; the last one takes the object's identity with it. -/
def forget (c : Cache) : Key → Cache
  | .authenticatedPage _ => c
  | .objectRange uri _ _ =>
    match valueOf uri c.identities with
    | none => c
    | some (identity, count) =>
      if count - 1 = 0 then { c with identities := eraseKey uri c.identities }
      else { c with identities := (uri, identity, count - 1) :: eraseKey uri c.identities }

/-- Evict the first key of the queue: its value goes, and the byte string too unless a client holds
it. -/
def evict (c : Cache) (key : Key) (rest : List Key) : Cache :=
  let c := { c with order := rest }
  match valueOf key c.values with
  | none => c.forget key
  | some a => ({ c with values := eraseKey key c.values }.release a).forget key

/-- An amount fits the budget: the sum neither wraps nor exceeds the limit. -/
def Fits (c : Cache) (amount : ℕ) : Prop := c.used + amount < wordSize ∧ c.used + amount ≤ c.limit

/-- Whether an amount fits is decided by evaluating both bounds. -/
instance (c : Cache) (amount : ℕ) : Decidable (c.Fits amount) := inferInstanceAs (Decidable (_ ∧ _))

/-- Hand out a reservation under a fresh address, with its bytes used. -/
def grant (c : Cache) (amount : ℕ) : Cache :=
  { c with
    used := c.used + amount
    peak := max c.peak (c.used + amount)
    held := (c.fresh, amount) :: c.held
    fresh := c.fresh + 1 }

/-- Evict keys in order until an amount fits, or until there are none left to evict. -/
def reserveFrom (amount : ℕ) : List Key → Cache → Except RuntimeError ℕ × Cache
  | [], c =>
    if c.Fits amount then (.ok c.fresh, c.grant amount)
    else (.error (.resourceExhausted
      s!"metadata cache: {amount} requested, {c.used} active, {c.limit} limit"), c)
  | key :: rest, c =>
    if c.Fits amount then (.ok c.fresh, c.grant amount)
    else reserveFrom amount rest (c.evict key rest)

/-- `reserve`: the queue is evicted from its front until the amount fits. -/
def reserve (c : Cache) (amount : ℕ) : Except RuntimeError ℕ × Cache :=
  reserveFrom amount c.order c

/-- The recorded identity of a URI must be the one that is asked for. -/
def check (c : Cache) (identity : Identity) : Except RuntimeError Unit :=
  if (valueOf identity.uri c.identities).any fun old => decide (old.1 ≠ identity) then
    .error (.corrupt "conflicting cached object reference")
  else .ok ()

/-- Hand out one more reference to a value of the cache. -/
def lease (c : Cache) (a : ℕ) : Cache := { c with leases := a :: c.leases }

/-- `get`: the address of a cached range, with a lease on it. -/
def get (c : Cache) (identity : Identity) (first last : ℕ) :
    Except RuntimeError (Option ℕ) × Cache :=
  match c.check identity with
  | .error e => (.error e, c)
  | .ok () =>
    match valueOf (.objectRange identity.uri first last) c.values with
    | none => (.ok none, c)
    | some a => (.ok (some a), c.lease a)

/-- `metadata_for`: the metadata of an object whose recorded identity agrees with a reference. -/
def metadataFor (c : Cache) (reference : PageObjectReference) :
    Except RuntimeError (Option ObjectMetadata) :=
  match valueOf reference.uri c.identities with
  | none => .ok none
  | some (identity, _) =>
    if identity.hash ≠ reference.sha256 ∨ identity.length ≠ reference.length then
      .error (.corrupt "conflicting cached object reference")
    else .ok (identity.version.map fun version => ⟨identity.length, version⟩)

/-- `get_page`: the address of a cached metadata page, which must be a whole page. -/
def getPage (c : Cache) (key : PageKey) : Except RuntimeError (Option ℕ) × Cache :=
  match valueOf (.authenticatedPage key) c.values with
  | none => (.ok none, c)
  | some a =>
    if (valueOf a c.shared).any fun object => decide (object.bytes.length ≠ 4096) then
      (.error (.corrupt "invalid cached page length"), c)
    else (.ok (some a), c.lease a)

/-- Put a byte string and its reservation under a key that is not cached. -/
def put (c : Cache) (key : Key) (bytes : Bytes) (r amount : ℕ) : Cache :=
  { c with
    order := c.order ++ [key]
    values := (key, c.fresh) :: c.values
    shared := (c.fresh, ⟨bytes, amount⟩) :: c.shared
    held := eraseKey r c.held
    fresh := c.fresh + 1 }

/-- One more range of an object, whose identity is recorded with the first one. -/
def count (c : Cache) (identity : Identity) : Cache :=
  match valueOf identity.uri c.identities with
  | none => { c with identities := (identity.uri, identity, 1) :: c.identities }
  | some (old, n) =>
    { c with identities := (identity.uri, old, n + 1) :: eraseKey identity.uri c.identities }

/-- Insert a page under the reservation `r` of `amount` bytes. -/
def insertPage (c : Cache) (key : PageKey) (vec : ByteVec) (r amount : ℕ) :
    Except RuntimeError Unit × Cache :=
  if vec.bytes.length ≠ 4096 then
    (.error (.corrupt "invalid authenticated page length"), c.dropReservation r)
  else if wordSize ≤ vec.capacity + 256 ∨ amount < vec.capacity + 256 then
    (.error (.resourceExhausted "page allocation exceeded reservation"), c.dropReservation r)
  else if (valueOf (.authenticatedPage key) c.values).isSome then (.ok (), c.dropReservation r)
  else (.ok (), c.put (.authenticatedPage key) vec.bytes r amount)

/-- Insert a range of an object under the reservation `r` of `amount` bytes. -/
def insert (c : Cache) (identity : Identity) (first last : ℕ) (vec : ByteVec) (r amount : ℕ) :
    Except RuntimeError ℕ × Cache :=
  let size := vec.capacity + (256 + identity.uri.utf8ByteSize * 4)
  if wordSize ≤ size ∨ amount < size then
    (.error (.resourceExhausted "cache allocation exceeded reservation"), c.dropReservation r)
  else
    match c.check identity with
    | .error e => (.error e, c.dropReservation r)
    | .ok () =>
      match valueOf (.objectRange identity.uri first last) c.values with
      | some a => (.ok a, (c.dropReservation r).lease a)
      | none =>
        (.ok c.fresh,
          ((c.count identity).put (.objectRange identity.uri first last) vec.bytes r amount).lease
            c.fresh)

end Cache

end Otmp.Reader
