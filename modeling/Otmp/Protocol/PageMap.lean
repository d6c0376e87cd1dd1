import Otmp.Protocol.Objects

/-!
# Page maps
-/

namespace Otmp

open Foundation

/-- A reference to an object that holds pages or nodes. -/
structure PageObjectReference where
  uri : String
  sha256 : Sha256
  length : ℕ
  deriving DecidableEq

/-- How a page's bytes are stored in its pack: as they are, or compressed. -/
inductive PageCodec where
  | none
  | zstd
  deriving DecidableEq

/-- A number is a power of two, as the sizes of pages have to be. -/
def isPowerOfTwo (n : ℕ) : Bool := 2 ^ n.log2 == n

end Otmp
