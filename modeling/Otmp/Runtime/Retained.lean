import Otmp.Image.SchemaTables
import Otmp.Protocol.OneEncoding

/-!
# Pinned and retained commits

A pin checks the commit that the head names; the verification of the retained history
walks from that commit to genesis, newest first, and then rebuilds the images, oldest
first. Of a rebuilt image only its table version and its semantic state matter here.
-/

namespace Otmp

open Foundation CanonicalValue

/-- The media type that generations are stored with. -/
def generationMediaType : String := "application/vnd.otmp.generation+json"

/-- The features that the runtime reads and writes, and can be required to support. -/
def supportedFeatures : List String :=
  ["otmp.core.v2", "otmp.data.parquet.v1", "otmp.metadata.sqlite3-cow.v1", "otmp.refs.v1"]

/-- Every feature that is asked for must be supported. -/
def requireSupported (features supported : List String) : Except ProtocolError Unit :=
  match features.find? fun feature => !supported.contains feature with
  | some unknown => .error (.invalidFeatureSet s!"unsupported required feature {unknown}")
  | none => .ok ()

/-- Read an object of the store and check it against its reference. -/
def verifiedRead (digest : Digest) (store : String → Except RuntimeError Bytes)
    (reference : ObjectReference) : Except RuntimeError Bytes := do
  let bytes ← store reference.uri
  if objectHash digest bytes ≠ reference.sha256 ∨
      reference.length.any (fun length => length ≠ bytes.length) then
    .error (.corrupt s!"object hash or length mismatch: {reference.uri}")
  else .ok bytes

namespace Head

/-- `Head::validate`: the protocol, its version and the readers' features are those supported. -/
def validate (head : Head) (supported : List String) : Except ProtocolError Unit := do
  if head.protocol ≠ "otmp" ∨ head.protocolVersion ≠ "0.0.2-alpha" then
    .error (.invalidObject "unsupported protocol or protocol version")
  else
    requireSupported head.requiredReaderFeatures supported
    if head.semanticCommit.mediaType ≠ some commitMediaType ∨
        head.metadataGeneration.mediaType ≠ some generationMediaType then
      .error (.invalidObject "incorrect object media type")
    else .ok ()

/-- `validate_head_features`: the runtime supports what readers and writers of the head must. -/
def validateFeatures (head : Head) : Except RuntimeError Unit := do
  liftProtocol (head.validate supportedFeatures)
  liftProtocol (requireSupported head.requiredWriterFeatures supportedFeatures)

end Head

namespace SemanticCommit

/-- The checks of a commit's kind and of the shape of its parents. -/
def validateParents (c : SemanticCommit) : Except ProtocolError Unit :=
  if c.kind ≠ "otmp.semantic-commit" ∨ c.formatVersion ≠ 1 then
    .error (.invalidObject "invalid semantic commit kind")
  else if decide (c.tableVersion = 0) ≠ (c.parentTableVersion.isNone && c.parentCommit.isNone &&
      c.previousSemanticStateSha256.isNone) then
    .error (.invalidObject "invalid semantic parent shape")
  else if c.tableVersion ≠ 0 ∧ c.parentTableVersion.map (· + 1) ≠ some c.tableVersion then
    .error (.invalidObject "nonconsecutive table version")
  else if c.parentCommit.any (fun parent => parent.mediaType ≠ some commitMediaType) then
    .error (.invalidObject "incorrect parent commit media type")
  else .ok ()

/-- The state hash made from a commit's body and the state before it. -/
def recomputedState (digest : Digest) (c : SemanticCommit) : Except ProtocolError Sha256 :=
  match c.previousSemanticStateSha256 with
  | some previous => c.body.map (nextStateHash digest previous)
  | none => c.body.map (genesisStateHash digest)

end SemanticCommit

/-- The checks of the operations of a commit and of the images that are rebuilt from
commits, newest first. They look at more than the chain. -/
structure RetainedChecks where
  contents : SemanticCommit → Except ProtocolError Unit
  image : List SemanticCommit → Except RuntimeError Unit
  selected : List SemanticCommit → Except RuntimeError Unit

/-- What the walk reads back from a rebuilt image. -/
structure RetainedImage where
  tableVersion : ℕ
  semanticState : Sha256

section Verify

variable (checks : RetainedChecks) (parse : Bytes → Except ProtocolError CanonicalValue)
  (digest : Digest) (store : String → Except RuntimeError Bytes)

/-- `validate_runtime_profile`: the parents of a commit agree with its version, and so do its other
contents. -/
def validateRuntimeProfile (c : SemanticCommit) : Except ProtocolError Unit := do
  c.validateParents
  checks.contents c

/-- The commit behind a reference, verified against the reference and read as canonical JSON. -/
def readCommit (reference : ObjectReference) : Except RuntimeError SemanticCommit := do
  let bytes ← verifiedRead digest store reference
  liftProtocol (fromSliceCanonical parse SemanticCommit.read bytes)

/-- The checks of a pin that concern the head and its commit. -/
def loadPinCommit (head : Head) (commit : SemanticCommit) : Except RuntimeError Unit := do
  head.validateFeatures
  liftProtocol (validateRuntimeProfile checks commit)
  if commit.tableId ≠ head.tableId ∨ commit.tableVersion ≠ head.tableVersion ∨
      commit.semanticStateSha256 ≠ head.semanticStateSha256 ∨
      commit.requiredReaderFeaturesAfterCommit ≠ head.requiredReaderFeatures ∨
      commit.requiredWriterFeaturesAfterCommit ≠ head.requiredWriterFeatures then
    .error (.corrupt "semantic commit does not match HEAD")
  else
    let recomputed ← liftProtocol (commit.recomputedState digest)
    if recomputed ≠ commit.semanticStateSha256 then .error (.corrupt "semantic state hash mismatch")
    else .ok ()

/-- One step of the walk towards genesis: the commit is read and checked against the version that
follows it. -/
def retainedCommit (tableId : Id) (previousVersion : Option ℕ) (reference : ObjectReference) :
    Except RuntimeError SemanticCommit := do
  if reference.mediaType ≠ some commitMediaType ∨ reference.length.isNone then
    .error (.corrupt "invalid retained commit reference")
  else
    let commit ← readCommit parse digest store reference
    liftProtocol (validateRuntimeProfile checks commit)
    if commit.tableId ≠ tableId ∨
        previousVersion.any (fun version => commit.tableVersion + 1 ≠ version) then
      .error (.corrupt "invalid retained semantic ancestry")
    else
      let recomputed ← liftProtocol (commit.recomputedState digest)
      if recomputed ≠ commit.semanticStateSha256 then
        .error (.corrupt "retained semantic state hash mismatch")
      else
        liftProtocol (requireSupported commit.requiredReaderFeaturesAfterCommit supportedFeatures)
        return commit

/-- The walk from a version to genesis, newest first. The version of a parent is smaller
by one, so no parent is left at version 0. -/
def retainedParents (tableId : Id) :
    ℕ → Option ObjectReference → Except RuntimeError (List SemanticCommit)
  | _, none => .ok []
  | 0, some reference => do
    let _ ← retainedCommit checks parse digest store tableId (some 0) reference
    return []
  | version + 1, some reference => do
    let commit ← retainedCommit checks parse digest store tableId (some (version + 1)) reference
    let parents ← retainedParents tableId version commit.parentCommit
    return commit :: parents

/-- The image of genesis is that of version zero. -/
def replayGenesis (commit : SemanticCommit) : Except RuntimeError RetainedImage :=
  if commit.tableVersion ≠ 0 then .error (.corrupt "missing retained genesis commit")
  else .ok ⟨0, commit.semanticStateSha256⟩

/-- The image of a commit follows that of its parent by one version. -/
def replaySemanticCommit (parent : RetainedImage) (commit : SemanticCommit) :
    Except RuntimeError RetainedImage :=
  if parent.tableVersion + 1 ≠ commit.tableVersion then
    .error (.corrupt "retained semantic version gap")
  else .ok ⟨commit.tableVersion, commit.semanticStateSha256⟩

/-- Rebuild the images of the commits, which are given newest first; the oldest image is
built first. -/
def reconstruct : List SemanticCommit → Except RuntimeError RetainedImage
  | [] => .error (.corrupt "empty semantic history")
  | [commit] => do
    let image ← replayGenesis commit
    checks.image [commit]
    return image
  | commit :: parent :: older => do
    let image ← reconstruct (parent :: older)
    if some image.semanticState ≠ commit.previousSemanticStateSha256 then
      .error (.corrupt "retained semantic hash chain mismatch")
    else
      let next ← replaySemanticCommit image commit
      checks.image (commit :: parent :: older)
      return next

/-- `verify_retained_commit_tail`: the commits of a head, newest first, after their images have been
rebuilt from the oldest on. -/
def verifyRetainedCommitTail (head : Head) : Except RuntimeError (List SemanticCommit) := do
  let commit ← retainedCommit checks parse digest store head.tableId none head.semanticCommit
  let parents ← retainedParents checks parse digest store head.tableId commit.tableVersion
    commit.parentCommit
  let _ ← reconstruct checks (commit :: parents)
  checks.selected (commit :: parents)
  return commit :: parents

/-- Pin a head and verify the commits behind it. -/
def pinRetained (head : Head) : Except RuntimeError (List SemanticCommit) := do
  let commit ← readCommit parse digest store head.semanticCommit
  loadPinCommit checks digest head commit
  verifyRetainedCommitTail checks parse digest store head

end Verify

end Otmp
