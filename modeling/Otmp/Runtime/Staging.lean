import Otmp.Foundation.Claims
import Otmp.Runtime.Retries

/-!
# Staging data files

An append first stores its files under fresh names, then looks at the head a second time and enters
publication unless the key was used or the branch has moved meanwhile. On every other way out the
staged objects are to be deleted. Many calls share one store, so each call is a machine that takes
one step on the store at a time.
-/

namespace Otmp.Staging

open Foundation

/-- The failures of the store that staging tells apart. -/
inductive ObjectFailure where
  | maximumLengthExceeded
  | verificationFailed
  | other (message : String)
  deriving DecidableEq

namespace ObjectFailure

/-- The failure of creating an object, as the runtime reports it. -/
def onCreate : ObjectFailure → RuntimeError
  | .maximumLengthExceeded => .fingerprintMismatch
  | .verificationFailed => .storage "stored object failed exact byte verification"
  | .other message => .storage message

/-- The failure of reading an object back, as the runtime reports it. -/
def onConfirm : ObjectFailure → RuntimeError
  | .verificationFailed => .fingerprintMismatch
  | .maximumLengthExceeded => .storage "source exceeded the declared maximum length"
  | .other message => .storage message

end ObjectFailure

variable {T : Type}

/-- What the store says of an object that it created. -/
structure CreatedObject (T : Type) where
  version : T
  sha256 : Sha256
  length : ℕ

/-- A staged file and the version of its object. -/
structure Staged (T : Type) where
  file : VerifiedStagedFile
  version : T

/-- The name of a data file, from the identifier that is drawn for it. -/
def dataUri (fileId : Id) : String := "data/" ++ fileId.format ++ ".parquet"

/-- Staging one file: its object is to be created, to be read back, or to be deleted after a
failure; or staging is over. -/
inductive StageFile (T : Type) where
  | opening
  | confirming (fileId : Id) (created : CreatedObject T)
  | discarding (fileId : Id) (created : CreatedObject T) (error : RuntimeError)
  | done (result : Except RuntimeError (Staged T))

/-- The staged file, once staging is over and has succeeded. -/
def StageFile.finished : StageFile T → List (Staged T)
  | .done (.ok file) => [file]
  | _ => []

/-- The object of a created file has to have the length and the hash that were asserted. -/
def StageFile.afterCreate (file : AppendFile) (fileId : Id) (created : CreatedObject T) :
    StageFile T :=
  if created.length ≠ file.length ∨ created.sha256 ≠ file.sha256 then
    .discarding fileId created .fingerprintMismatch
  else .confirming fileId created

section Confirm

variable [DecidableEq T]

/-- The object has to be readable in the version that was created. -/
def StageFile.afterConfirm (tableId : Id) (ordinal : ℕ) (fileId : Id) (created : CreatedObject T) :
    Except ObjectFailure T → StageFile T
  | .error failure => .discarding fileId created failure.onConfirm
  | .ok version =>
    if version ≠ created.version then .discarding fileId created .fingerprintMismatch
    else .done (.ok ⟨⟨tableId, ordinal, fileId, dataUri fileId, created.sha256, created.length,
      none⟩, created.version⟩)

end Confirm

/-- The objects of all calls, by their locations, with versions of the store. -/
abbrev Objects (ι T : Type) := ObjectStore ι String T

section Steps

variable {ι : Type} [DecidableEq T]

/-- An object is deleted if its version is the expected one; a faulty store may fail to do so. -/
def Deletes (faulty : Prop) (s : Objects ι T) (uri : String) (version : T) (s' : Objects ι T) :
    Prop :=
  s' = s.deleteIfVersion uri version ∨ faulty ∧ s' = s

/-- One step of staging a file, by the call `i`. The identifier of a file is drawn at random, and an
object is only created under a name that is free. -/
inductive StageStep (faulty : Prop) (i : ι) (tableId : Id) (ordinal : ℕ) (file : AppendFile) :
    Objects ι T → StageFile T → Objects ι T → StageFile T → Prop
  | unopened {s : Objects ι T} (message : String) :
      StageStep faulty i tableId ordinal file s .opening s (.done (.error (.io message)))
  | refused {s : Objects ι T} (failure : ObjectFailure) :
      StageStep faulty i tableId ordinal file s .opening s (.done (.error failure.onCreate))
  | created {s : Objects ι T} {fileId : Id} (created : CreatedObject T) :
      fileId.isV7 = true → s (dataUri fileId) = none →
      StageStep faulty i tableId ordinal file s .opening
        (s.create (dataUri fileId) created.version i) (.afterCreate file fileId created)
  | confirmed {s : Objects ι T} {fileId : Id} {created : CreatedObject T}
      (answer : Except ObjectFailure T) :
      StageStep faulty i tableId ordinal file s (.confirming fileId created) s
        (.afterConfirm tableId ordinal fileId created answer)
  | discarded {s s' : Objects ι T} {fileId : Id} {created : CreatedObject T}
      {error : RuntimeError} :
      Deletes faulty s (dataUri fileId) created.version s' →
      StageStep faulty i tableId ordinal file s (.discarding fileId created error) s'
        (.done (.error error))

end Steps

/-- A call to append files, or a caller that stages files itself and commits them later. -/
inductive Phase (T : Type) where
  | idle
  | staging (firstPin : PinnedTable) (staged : List (Staged T)) (stage : StageFile T)
  | rechecking (firstPin : PinnedTable) (staged : List (Staged T))
  | cleaning (staged : List (Staged T)) (result : Except RuntimeError AppendResult)
  | entered (firstPin : PinnedTable) (staged : List (Staged T))
  | returned (result : Except RuntimeError AppendResult)
  | holding (staged : List (Staged T)) (stage : StageFile T)

/-- The next file of a request is staged, or all of them are. -/
def stageNext (request : AppendRequest) (firstPin : PinnedTable) (staged : List (Staged T)) :
    Phase T :=
  if staged.length < request.files.length then .staging firstPin staged .opening
  else .rechecking firstPin staged

section Calls

variable (parse : Bytes → Except ProtocolError CanonicalValue) (digest : Digest)

/-- What opening and querying images did in a look at the head. A pinned image is a local file that
is opened again for each query: for the key and for the checks of the request in the pinned table,
and in a second look also for the branch in the first table and for the rebase. -/
structure ImageReads where
  key : Except RuntimeError Unit
  request : Except RuntimeError Unit
  base : Except RuntimeError Unit
  rebase : Except RuntimeError Unit

/-- A call up to its first look at the head. -/
def firstLook (request : AppendRequest) (found : Except RuntimeError PinnedTable)
    (reads : ImageReads) : Phase T :=
  match liftProtocol (toVec request.logicalIntent) with
  | .error e => .returned (.error e)
  | .ok logical =>
    match found with
    | .error e => .returned (.error e)
    | .ok firstPin =>
      match reads.key >>= fun _ =>
        checkIdempotency parse firstPin.db request.idempotencyKey (intentHash digest logical) with
      | .error e => .returned (.error e)
      | .ok (some result) => .returned (.ok result)
      | .ok none =>
        match reads.request >>= fun _ => validateRequest firstPin.db request with
        | .error e => .returned (.error e)
        | .ok _ => stageNext request firstPin []

/-- A file is staged, or what has been staged is to be cleaned up. -/
def afterStage (request : AppendRequest) (firstPin : PinnedTable) (staged : List (Staged T)) :
    Except RuntimeError (Staged T) → Phase T
  | .error e => .cleaning staged (.error e)
  | .ok file => stageNext request firstPin (staged ++ [file])

/-- The second look at the head. A failure at the key, or at the branch of the first table, is
returned as it is; the others are returned after a cleanup. -/
def secondLook (request : AppendRequest) (firstPin : PinnedTable) (staged : List (Staged T))
    (found : Except RuntimeError PinnedTable) (reads : ImageReads) : Phase T :=
  match found with
  | .error e => .cleaning staged (.error e)
  | .ok secondPin =>
    match reads.key >>= fun _ => checkIdempotency parse secondPin.db request.idempotencyKey
      (intentHash digest request.logicalIntent.bytes) with
    | .error e => .returned (.error e)
    | .ok (some result) => .cleaning staged (.ok result)
    | .ok none =>
      match reads.base >>= fun _ => firstPin.db.refRow request.targetRef with
      | .error e => .returned (.error e)
      | .ok baseTip =>
        match reads.rebase >>= fun _ => validateAppendRebase secondPin.db request.targetRef baseTip
          firstPin.db.tableMeta.tableVersion with
        | .error e => .cleaning staged (.error e)
        | .ok _ =>
          match reads.request >>= fun _ => validateRequest secondPin.db request with
          | .error e => .cleaning staged (.error e)
          | .ok _ => .entered firstPin staged

end Calls

section World

variable {ι : Type} [DecidableEq ι] [DecidableEq T]

/-- The tables that were published, the latest first, the data objects and the calls. -/
structure World (ι T : Type) where
  tables : List PinnedTable
  objects : Objects ι T
  phase : ι → Phase T

namespace World

/-- One table is published, and nothing is staged: the state before the first call. -/
def start (genesis : PinnedTable) : World ι T := ⟨[genesis], fun _ => none, fun _ => .idle⟩

/-- A call moves on without touching the objects. -/
def advance (w : World ι T) (i : ι) (phase : Phase T) : World ι T :=
  { w with phase := Function.update w.phase i phase }

/-- A call takes a step on the objects, and moves on. -/
def act (w : World ι T) (i : ι) (objects : Objects ι T) (phase : Phase T) : World ι T :=
  { w with objects := objects, phase := Function.update w.phase i phase }

/-- A table is published, and becomes the current one. -/
def publish (w : World ι T) (table : PinnedTable) : World ι T :=
  { w with tables := table :: w.tables }

/-- A pin returns the current table or fails; it never returns an older one. -/
inductive Pins (w : World ι T) : Except RuntimeError PinnedTable → Prop
  | found {table : PinnedTable} : w.tables.head? = some table → Pins w (.ok table)
  | failed (e : RuntimeError) : Pins w (.error e)

end World

/-- The staged files that a call may commit, and the request that it commits them for. A call to
append enters publication with all of its files, a caller that stages files itself chooses among
them. Publication may take effect at any later time. -/
inductive MayCommit (own : AppendRequest) : Phase T → AppendRequest → List (Staged T) → Prop
  | entered {firstPin : PinnedTable} {staged : List (Staged T)} :
      MayCommit own (.entered firstPin staged) own staged
  | holding {staged used : List (Staged T)} {stage : StageFile T} {request : AppendRequest} :
      used ⊆ staged ++ stage.finished → MayCommit own (.holding staged stage) request used

/-- The steps that are told apart: the second look of a call, and any other step. -/
inductive Event (ι : Type) where
  | look (i : ι) (found : Except RuntimeError PinnedTable) (reads : ImageReads)
  | other

/-- One step of one call. Every call has its request; calls are started, staged and cleaned up in
any order, and tables are published in between. -/
inductive Step (parse : Bytes → Except ProtocolError CanonicalValue) (digest : Digest)
    (requests : ι → AppendRequest) (faulty : Prop) : World ι T → Event ι → World ι T → Prop
  | begin {w : World ι T} {i : ι} {found : Except RuntimeError PinnedTable} {reads : ImageReads} :
      w.phase i = .idle → w.Pins found →
      Step parse digest requests faulty w .other
        (w.advance i (firstLook parse digest (requests i) found reads))
  | stage {w : World ι T} {i : ι} {firstPin : PinnedTable} {staged : List (Staged T)}
      {stage stage' : StageFile T} {file : AppendFile} {objects : Objects ι T} :
      w.phase i = .staging firstPin staged stage → (requests i).files[staged.length]? = some file →
      StageStep faulty i firstPin.db.tableMeta.tableId staged.length file w.objects stage objects
        stage' →
      Step parse digest requests faulty w .other (w.act i objects (.staging firstPin staged stage'))
  | staged {w : World ι T} {i : ι} {firstPin : PinnedTable} {staged : List (Staged T)}
      {result : Except RuntimeError (Staged T)} :
      w.phase i = .staging firstPin staged (.done result) →
      Step parse digest requests faulty w .other
        (w.advance i (afterStage (requests i) firstPin staged result))
  | look {w : World ι T} {i : ι} {firstPin : PinnedTable} {staged : List (Staged T)}
      {found : Except RuntimeError PinnedTable} {reads : ImageReads} :
      w.phase i = .rechecking firstPin staged → w.Pins found →
      Step parse digest requests faulty w (.look i found reads)
        (w.advance i (secondLook parse digest (requests i) firstPin staged found reads))
  | clean {w : World ι T} {i : ι} {file : Staged T} {rest : List (Staged T)}
      {result : Except RuntimeError AppendResult} {objects : Objects ι T} :
      w.phase i = .cleaning (file :: rest) result →
      Deletes faulty w.objects file.file.uri file.version objects →
      Step parse digest requests faulty w .other (w.act i objects (.cleaning rest result))
  | cleaned {w : World ι T} {i : ι} {result : Except RuntimeError AppendResult} :
      w.phase i = .cleaning [] result →
      Step parse digest requests faulty w .other (w.advance i (.returned result))
  | hold {w : World ι T} {i : ι} {error : RuntimeError} : w.phase i = .idle →
      Step parse digest requests faulty w .other
        (w.advance i (.holding [] (.done (.error error))))
  | openHeld {w : World ι T} {i : ι} {staged : List (Staged T)}
      {result : Except RuntimeError (Staged T)} : w.phase i = .holding staged (.done result) →
      Step parse digest requests faulty w .other
        (w.advance i (.holding (staged ++ (StageFile.done result).finished) .opening))
  | stageHeld {w : World ι T} {i : ι} {staged : List (Staged T)} {stage stage' : StageFile T}
      {tableId : Id} {ordinal : ℕ} {file : AppendFile} {objects : Objects ι T} :
      w.phase i = .holding staged stage →
      StageStep faulty i tableId ordinal file w.objects stage objects stage' →
      Step parse digest requests faulty w .other (w.act i objects (.holding staged stage'))
  | commit {w : World ι T} {i : ι} {current : PinnedTable} {request : AppendRequest}
      {used : List (Staged T)} {logicalHash : Sha256} {drawn : Drawn}
      {original : Option (RefType × Option Id)} {version : ℕ} {candidate : Candidate AppendResult} :
      MayCommit (requests i) (w.phase i) request used → w.tables.head? = some current →
      validateStaged request (used.map Staged.file) current.db.tableMeta.tableId = .ok () →
      validateAppendRebase current.db request.targetRef original version = .ok () →
      validateRequest current.db request = .ok () →
      buildCandidate digest request (used.map Staged.file) logicalHash drawn current =
        .ok candidate →
      Step parse digest requests faulty w .other (w.publish candidate.next)
  | transact {w : World ι T} {current : PinnedTable} {request : TransactionRequest}
      {logicalHash : Sha256} {drawn : Drawn} {candidate : Candidate DurableResult} :
      w.tables.head? = some current →
      buildTransaction digest request logicalHash drawn current = .ok candidate →
      Step parse digest requests faulty w .other (w.publish candidate.next)

/-- The worlds that are reached from genesis by steps that are admitted. -/
inductive Run (parse : Bytes → Except ProtocolError CanonicalValue) (digest : Digest)
    (requests : ι → AppendRequest) (faulty : Prop) (admitted : World ι T → Event ι → Prop) :
    World ι T → Prop
  | start {input : GenesisImage} {genesis : PinnedTable} : mutateGenesis input = .ok genesis.db →
      Run parse digest requests faulty admitted (.start genesis)
  | step {w w' : World ι T} {event : Event ι} : Run parse digest requests faulty admitted w →
      admitted w event → Step parse digest requests faulty w event w' →
      Run parse digest requests faulty admitted w'

end World

end Otmp.Staging
