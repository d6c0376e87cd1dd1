import Mathlib.Algebra.Order.Ring.Int

/-!
# Bytes, machine limits and errors

Shared vocabulary of the protocol and the runtime. Error values keep the message
texts of the source. Errors of the SQL engines, of the store and of the file
system carry only the text that the runtime passes on.
-/

namespace Otmp

/-- Raw bytes of an image, an object or a page. -/
abbrev Bytes := List UInt8

/-- One page of an image. The page size of the source is the constant `PAGE`; it is
written out here as 4096, so that linear arithmetic sees through divisions by it. -/
abbrev Page := {bytes : Bytes // bytes.length = 4096}

/-- The largest value of the machine's `usize`. -/
abbrev usizeMax : ℕ := 2 ^ 64 - 1

/-- The largest value of an `i32` completion count. -/
abbrev i32Max : ℕ := 2 ^ 31 - 1

/-- The errors of the protocol layer, which name what was wrong with a value or its encoding. -/
inductive ProtocolError where
  | invalidJson (message : String)
  | nonCanonicalJson
  | integerOutOfRange
  | invalidId (input : String)
  | invalidHash (input : String)
  | unsafeRelativeUri (input : String)
  | invalidFeatureSet (input : String)
  | invalidSchema (message : String)
  | invalidObject (message : String)
  | invalidCbor (message : String)
  deriving DecidableEq, Repr

/-- The errors of the runtime, among them those of the protocol, the database and the store. -/
inductive RuntimeError where
  | resourceExhausted (message : String)
  | authenticatedRangesUnavailable
  | invalidTransaction (message : String)
  | semanticConflict (message : String)
  | protocol (error : ProtocolError)
  | storage (message : String)
  | sqlite (message : String)
  | turso (message : String)
  | alreadyExists
  | idempotencyConflict
  | stagingMismatch (message : String)
  | invalidAppend (message : String)
  | invalidInitialize (message : String)
  | publicationIndeterminate
  | rebaseExhausted
  | corrupt (message : String)
  | refNotFound (name : String)
  | snapshotNotFound
  | fingerprintMismatch
  | io (message : String)
  deriving DecidableEq, Repr

end Otmp
