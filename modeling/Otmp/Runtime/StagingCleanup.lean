import Otmp.Runtime.Staging

/-!
# Cleaning up staged files

Every call lists the objects that it has created and not deleted, and no file of a published table
is on the list of what a call may still delete. A call that leaves before publication has deleted
what it created, unless its second look failed at the idempotency keys of the second image or at the
branch in the first one.
-/

namespace Otmp.Staging

open Foundation

variable {T : Type}

namespace Staged

/-- The object of a staged file, with the version that it was created at. -/
def claim (s : Staged T) : String × T := (s.file.uri, s.version)

end Staged

/-- The object that staging a file has created so far, if it has. -/
def StageFile.claims : StageFile T → List (String × T)
  | .opening => []
  | .confirming fileId created => [(dataUri fileId, created.version)]
  | .discarding fileId created _ => [(dataUri fileId, created.version)]
  | .done (.ok file) => [file.claim]
  | .done (.error _) => []

namespace Phase

/-- The objects that a call has created and not deleted. -/
def claims : Phase T → List (String × T)
  | .staging _ staged stage => staged.map Staged.claim ++ stage.claims
  | .rechecking _ staged => staged.map Staged.claim
  | .cleaning staged _ => staged.map Staged.claim
  | .entered _ staged => staged.map Staged.claim
  | .holding staged stage => staged.map Staged.claim ++ stage.claims
  | _ => []

/-- The staged files that a call may commit, as they are still held for it. -/
def kept : Phase T → List (Staged T)
  | .entered _ staged => staged
  | .holding staged stage => staged ++ stage.finished
  | _ => []

/-- A call that stages has files to stage, and when it looks again it has staged some. -/
def Ready (request : AppendRequest) : Phase T → Prop
  | .staging _ _ _ => request.files ≠ []
  | .rechecking _ staged => staged ≠ []
  | _ => True

end Phase

/-- The objects that calls list, after a call has moved on. -/
theorem claims_update {ι : Type} [DecidableEq ι] (phases : ι → Phase T) (i : ι) (phase : Phase T) :
    (Function.update phases i phase i).claims = phase.claims ∧
      ∀ j ≠ i, (Function.update phases i phase j).claims = (phases j).claims := by
  refine ⟨by rw [Function.update_self], fun j hj => by rw [Function.update_of_ne hj]⟩

/-- The second look of a call fails at the idempotency keys of the second pin, whose image may fail
to open or to be queried; or, when the key is free there, at the branch in the image of the first
pin. -/
def LookFails (parse : Bytes → Except ProtocolError CanonicalValue) (digest : Digest)
    (request : AppendRequest) (firstPin secondPin : PinnedTable) (reads : ImageReads) : Prop :=
  (∃ e, (reads.key >>= fun _ => checkIdempotency parse secondPin.db request.idempotencyKey
      (intentHash digest request.logicalIntent.bytes)) = .error e) ∨
    (reads.key >>= fun _ => checkIdempotency parse secondPin.db request.idempotencyKey
      (intentHash digest request.logicalIntent.bytes)) = .ok none ∧
      ∃ e, (reads.base >>= fun _ => firstPin.db.refRow request.targetRef) = .error e

section Looks

variable {parse : Bytes → Except ProtocolError CanonicalValue} {digest : Digest}
  {request : AppendRequest} {firstPin : PinnedTable} {staged : List (Staged T)}
  {reads : ImageReads}

/-- A second look that fails returns at once. -/
theorem secondLook_fails {secondPin : PinnedTable}
    (h : LookFails parse digest request firstPin secondPin reads) :
    ∃ e, secondLook parse digest request firstPin staged (.ok secondPin) reads =
      .returned (.error e) := by
  unfold secondLook
  dsimp only
  obtain ⟨e, hcheck⟩ | ⟨hcheck, e, hbase⟩ := h
  · rw [hcheck]
    exact ⟨e, rfl⟩
  · rw [hcheck]
    dsimp only
    rw [hbase]
    exact ⟨e, rfl⟩

/-- A second look that does not fail keeps what is staged, to clean it up or to publish it. -/
theorem secondLook_keeps {found : Except RuntimeError PinnedTable}
    (h : ∀ secondPin, found = .ok secondPin →
      ¬LookFails parse digest request firstPin secondPin reads) :
    (∃ result, secondLook parse digest request firstPin staged found reads =
        .cleaning staged result) ∨
      secondLook parse digest request firstPin staged found reads = .entered firstPin staged := by
  cases found with
  | error e => exact .inl ⟨_, rfl⟩
  | ok secondPin =>
    have hfails := h secondPin rfl
    unfold LookFails at hfails
    unfold secondLook
    dsimp only
    cases hcheck : reads.key >>= fun _ => checkIdempotency parse secondPin.db
      request.idempotencyKey (intentHash digest request.logicalIntent.bytes) with
    | error e => exact absurd (.inl ⟨e, hcheck⟩) hfails
    | ok result =>
      cases result with
      | some result => exact .inl ⟨_, rfl⟩
      | none =>
        dsimp only
        cases hbase : reads.base >>= fun _ => firstPin.db.refRow request.targetRef with
        | error e => exact absurd (.inr ⟨hcheck, e, hbase⟩) hfails
        | ok baseTip =>
          dsimp only
          split
          · exact .inl ⟨_, rfl⟩
          · split
            · exact .inl ⟨_, rfl⟩
            · exact .inr rfl

/-- The next phase of a call that stages lists what has been staged. -/
theorem claims_stageNext (request : AppendRequest) (firstPin : PinnedTable)
    (staged : List (Staged T)) :
    (stageNext request firstPin staged).claims = staged.map Staged.claim := by
  unfold stageNext
  split
  · exact List.append_nil _
  · rfl

/-- A call that has staged every file has staged some, if there are any. -/
theorem ready_stageNext {request : AppendRequest} (hfiles : request.files ≠ [])
    (firstPin : PinnedTable) (staged : List (Staged T)) :
    (stageNext request firstPin staged).Ready request := by
  unfold stageNext
  split
  · exact hfiles
  · rename_i hlength
    rintro rfl
    exact hlength (List.length_pos_iff.mpr hfiles)

/-- A call that begins has nothing staged. -/
theorem firstLook_spec (request : AppendRequest) (found : Except RuntimeError PinnedTable) :
    (firstLook parse digest request found reads : Phase T).claims = [] ∧
      (firstLook parse digest request found reads : Phase T).Ready request := by
  unfold firstLook
  split
  · exact ⟨rfl, trivial⟩
  · split
    · exact ⟨rfl, trivial⟩
    · split
      · exact ⟨rfl, trivial⟩
      · exact ⟨rfl, trivial⟩
      · split
        · exact ⟨rfl, trivial⟩
        · rename_i hrequest
          refine ⟨claims_stageNext _ _ _, ready_stageNext ?_ _ _⟩
          rintro hempty
          obtain ⟨-, hrequest⟩ := check_eq_ok.mp hrequest
          rw [validateRequest, invalidAppend, invalidAppend, ite_error_eq_ok, ite_error_eq_ok,
            hempty] at hrequest
          exact hrequest.2.1 rfl

end Looks

section Steps

variable {parse : Bytes → Except ProtocolError CanonicalValue} {digest : Digest} {ι : Type}
  [DecidableEq T] {faulty : Prop}

/-- What a call does to its objects in one step of staging a file. -/
theorem StageStep.owner {i : ι} {tableId : Id} {ordinal : ℕ} {file : AppendFile}
    {s s' : Objects ι T} {stage stage' : StageFile T}
    (h : StageStep faulty i tableId ordinal file s stage s' stage') :
    OwnerStep faulty i s stage.claims s' stage'.claims ∧ stage.finished = [] := by
  cases h with
  | unopened message => exact ⟨.same (.refl _), rfl⟩
  | refused failure => exact ⟨.same (.refl _), rfl⟩
  | @created fileId created _ hfree =>
    refine ⟨.created hfree ?_, rfl⟩
    unfold StageFile.afterCreate
    split
    · exact .refl _
    · exact .refl _
  | @confirmed fileId created answer =>
    refine ⟨.same ?_, rfl⟩
    cases answer with
    | error failure => exact .refl _
    | ok version =>
      unfold StageFile.afterConfirm
      dsimp only
      split
      · exact .refl _
      · exact .refl _
  | @discarded _ fileId created error hdelete =>
    refine ⟨?_, rfl⟩
    obtain rfl | ⟨hfaulty, rfl⟩ := hdelete
    · exact .deleted (.refl _)
    · exact .lost hfaulty (List.nil_subperm)

end Steps

section Invariant

variable {ι : Type} {requests : ι → AppendRequest} {w : World ι T}

/-- The files that a call may commit are among the objects that it lists. -/
theorem Phase.kept_subset (phase : Phase T) : phase.kept.map Staged.claim ⊆ phase.claims := by
  cases phase with
  | entered => exact List.Subset.refl _
  | holding staged stage =>
    rw [Phase.kept, Phase.claims, List.map_append]
    have hstage : stage.finished.map Staged.claim ⊆ stage.claims := by
      cases stage with
      | done result =>
        cases result with
        | error => exact List.nil_subset _
        | ok file => exact List.Subset.refl _
      | _ => exact List.nil_subset _
    intro c hc
    obtain hc | hc := List.mem_append.mp hc
    · exact List.mem_append_left _ hc
    · exact List.mem_append_right _ (hstage hc)
  | _ => exact List.nil_subset _

/-- A file that a phase keeps has a claim of that phase. -/
theorem Phase.mem_claims_of_kept {phase : Phase T} {uri : String}
    (h : uri ∈ phase.kept.map fun s => s.file.uri) : uri ∈ phase.claims.map Prod.fst := by
  obtain ⟨s, hs, rfl⟩ := List.mem_map.mp h
  exact List.mem_map.mpr ⟨s.claim, phase.kept_subset (List.mem_map.mpr ⟨s, hs, rfl⟩), rfl⟩

/-- A file of a published table has a name. -/
def World.Referenced (w : World ι T) (uri : String) : Prop :=
  ∃ table ∈ w.tables, ∃ row ∈ table.db.files, row.uri = uri

/-- Calls list what they have stored, and published files are those that some call keeps. -/
structure Sound (requests : ι → AppendRequest) (w : World ι T) : Prop where
  claims : Claims w.objects fun i => (w.phase i).claims
  kept : ∀ uri, w.Referenced uri → ∃ i, uri ∈ (w.phase i).kept.map fun s => s.file.uri
  ready : ∀ i, (w.phase i).Ready (requests i)

/-- Nothing is staged or published at the start. -/
theorem Sound.start {input : GenesisImage} {genesis : PinnedTable}
    (h : mutateGenesis input = .ok genesis.db) : Sound requests (World.start (T := T) genesis) where
  claims := ⟨fun _ => List.nodup_nil, fun _ _ hc => (nomatch hc)⟩
  kept uri huri := by
    obtain ⟨table, htable, row, hrow, -⟩ := huri
    obtain rfl := List.mem_singleton.mp htable
    rw [mutateGenesis] at h
    obtain ⟨schemas, -, hdb⟩ := bind_eq_ok.mp h
    rw [← Except.ok.inj hdb] at hrow
    cases hrow
  ready _ := trivial

/-- A published file is stored, since some call still lists it. -/
theorem Sound.stored (h : Sound requests w) {uri : String} (huri : w.Referenced uri) :
    ∃ o, w.objects uri = some o := by
  obtain ⟨i, hi⟩ := h.kept uri huri
  obtain ⟨c, hc, rfl⟩ := List.mem_map.mp (Phase.mem_claims_of_kept hi)
  exact ⟨_, h.claims.stored i c hc⟩

end Invariant

section Worlds

variable {parse : Bytes → Except ProtocolError CanonicalValue} {digest : Digest} {ι : Type}
  [DecidableEq ι] [DecidableEq T] {requests : ι → AppendRequest} {faulty : Prop} {w w' : World ι T}

/-- The second look of a call fails after files were staged, and the call ends without a cleanup. -/
def Leaks (parse : Bytes → Except ProtocolError CanonicalValue) (digest : Digest)
    (requests : ι → AppendRequest) (w : World ι T) : Event ι → Prop
  | .look i found reads => ∃ firstPin staged secondPin, w.phase i = .rechecking firstPin staged ∧
      found = .ok secondPin ∧ LookFails parse digest (requests i) firstPin secondPin reads
  | .other => False

/-- A call has moved on: it takes one owner's step on the objects, and keeps the files that it may
commit. -/
structure Moved (requests : ι → AppendRequest) (loses : Prop) (w w' : World ι T) (i : ι)
    (phase : Phase T) : Prop where
  phases : w'.phase = Function.update w.phase i phase
  tables : w'.tables = w.tables
  owner : OwnerStep loses i w.objects (w.phase i).claims w'.objects phase.claims
  kept : (w.phase i).kept ⊆ phase.kept
  ready : phase.Ready (requests i)

section Moves

variable {i : ι} {old phase : Phase T} {loses : Prop} {objects : Objects ι T}

/-- A call that leaves the objects alone moves on with what it lists. -/
theorem Moved.advance (hphase : w.phase i = old) (hclaims : phase.claims.Perm old.claims)
    (hkept : old.kept ⊆ phase.kept) (hready : phase.Ready (requests i)) :
    Moved requests loses w (w.advance i phase) i phase :=
  ⟨rfl, rfl, .same (by rwa [hphase]), by rwa [hphase], hready⟩

/-- A call moves on with its step on the objects. -/
theorem Moved.act (hphase : w.phase i = old)
    (howner : OwnerStep loses i w.objects old.claims objects phase.claims)
    (hkept : old.kept ⊆ phase.kept) (hready : phase.Ready (requests i)) :
    Moved requests loses w (w.act i objects phase) i phase :=
  ⟨rfl, rfl, by rwa [hphase], by rwa [hphase], hready⟩

/-- A call that has staged a file, or failed to, moves on. -/
theorem moved_afterStage {firstPin : PinnedTable} {staged : List (Staged T)}
    {result : Except RuntimeError (Staged T)}
    (hphase : w.phase i = .staging firstPin staged (.done result))
    (hfiles : (requests i).files ≠ []) :
    Moved requests loses w (w.advance i (afterStage (requests i) firstPin staged result)) i
      (afterStage (requests i) firstPin staged result) := by
  cases result with
  | error e =>
    refine .advance hphase ?_ (List.nil_subset _) trivial
    rw [Phase.claims, StageFile.claims, List.append_nil]
    exact .refl _
  | ok file =>
    refine .advance hphase ?_ (List.nil_subset _) (ready_stageNext hfiles _ _)
    rw [afterStage, claims_stageNext, List.map_append]
    exact .refl _

/-- A second look moves on with what is staged, or loses it when it fails. -/
theorem moved_secondLook {firstPin : PinnedTable} {staged : List (Staged T)}
    {found : Except RuntimeError PinnedTable} {reads : ImageReads}
    (hphase : w.phase i = .rechecking firstPin staged) :
    Moved requests (faulty ∨ Leaks parse digest requests w (.look i found reads)) w
      (w.advance i (secondLook parse digest (requests i) firstPin staged found reads)) i
      (secondLook parse digest (requests i) firstPin staged found reads) := by
  by_cases hfails : ∀ secondPin, found = .ok secondPin →
    ¬LookFails parse digest (requests i) firstPin secondPin reads
  · obtain ⟨result, hnext⟩ | hnext := @secondLook_keeps T _ _ _ _ staged _ _ hfails
    · rw [hnext]
      exact .advance hphase (.refl _) (List.nil_subset _) trivial
    · rw [hnext]
      exact .advance hphase (.refl _) (List.nil_subset _) trivial
  · obtain ⟨secondPin, hpin⟩ := not_forall.mp hfails
    obtain ⟨rfl, hnot⟩ := Classical.not_imp.mp hpin
    have hlook := not_not.mp hnot
    have hleaks : Leaks parse digest requests w (.look i (.ok secondPin) reads) :=
      ⟨firstPin, staged, secondPin, hphase, rfl, hlook⟩
    obtain ⟨e, hnext⟩ := @secondLook_fails T _ _ _ _ staged _ _ hlook
    rw [hnext]
    exact .act hphase (.lost (.inr hleaks) List.nil_subperm) (List.nil_subset _) trivial

/-- A call that cleans up deletes its next file, unless the store fails to. -/
theorem moved_clean {file : Staged T} {rest : List (Staged T)}
    {result : Except RuntimeError AppendResult}
    (hphase : w.phase i = .cleaning (file :: rest) result)
    (hdelete : Deletes faulty w.objects file.file.uri file.version objects) :
    Moved requests (faulty ∨ loses) w (w.act i objects (.cleaning rest result)) i
      (.cleaning rest result) := by
  refine .act hphase ?_ (List.nil_subset _) trivial
  obtain rfl | ⟨hfaulty, rfl⟩ := hdelete
  · exact .deleted (.refl _)
  · exact .lost (.inl hfaulty) (List.sublist_cons_self _ _).subperm

/-- A caller that stages files itself opens the next one. -/
theorem moved_openHeld {staged : List (Staged T)} {result : Except RuntimeError (Staged T)}
    (hphase : w.phase i = .holding staged (.done result)) :
    Moved requests loses w
      (w.advance i (.holding (staged ++ (StageFile.done result).finished) .opening)) i
      (.holding (staged ++ (StageFile.done result).finished) .opening) := by
  refine .advance hphase ?_ (List.subset_append_left _ _) trivial
  cases result with
  | error e => simp [Phase.claims, StageFile.claims, StageFile.finished]
  | ok file => simp [Phase.claims, StageFile.claims, StageFile.finished]

/-- A caller that stages files itself takes a step on one. -/
theorem moved_stageHeld {staged : List (Staged T)} {stage stage' : StageFile T} {tableId : Id}
    {ordinal : ℕ} {file : AppendFile} (hphase : w.phase i = .holding staged stage)
    (hstep : StageStep faulty i tableId ordinal file w.objects stage objects stage') :
    Moved requests (faulty ∨ loses) w (w.act i objects (.holding staged stage')) i
      (.holding staged stage') := by
  obtain ⟨howner, hfinished⟩ := hstep.owner
  refine .act hphase ((howner.append_left _).weaken .inl) ?_ trivial
  rw [Phase.kept, hfinished, List.append_nil]
  exact List.subset_append_left _ _

end Moves

/-- One step is a publication, or a step of one call that keeps its published files. -/
theorem Step.cases_owner {event : Event ι} (hready : ∀ i, (w.phase i).Ready (requests i))
    (h : Step parse digest requests faulty w event w') :
    (w'.objects = w.objects ∧ w'.phase = w.phase) ∨
      ∃ i phase, Moved requests (faulty ∨ Leaks parse digest requests w event) w w' i phase := by
  cases h with
  | @begin i found reads hphase hpins =>
    obtain ⟨hclaims, hnext⟩ := @firstLook_spec T parse digest reads (requests i) found
    refine .inr ⟨i, _, .advance hphase ?_ (List.nil_subset _) hnext⟩
    rw [hclaims]
    exact .refl _
  | @stage i firstPin staged stage stage' file objects hphase hfile hstep =>
    have hfiles := hready i
    rw [hphase] at hfiles
    exact .inr ⟨i, _, .act hphase ((hstep.owner.1.append_left _).weaken .inl)
      (List.nil_subset _) hfiles⟩
  | @staged i firstPin staged result hphase =>
    have hfiles := hready i
    rw [hphase] at hfiles
    exact .inr ⟨i, _, moved_afterStage hphase hfiles⟩
  | look hphase _ => exact .inr ⟨_, _, moved_secondLook hphase⟩
  | clean hphase hdelete => exact .inr ⟨_, _, moved_clean hphase hdelete⟩
  | cleaned hphase =>
    exact .inr ⟨_, _, .advance hphase (.refl _) (List.nil_subset _) trivial⟩
  | hold hphase => exact .inr ⟨_, _, .advance hphase (.refl _) (List.nil_subset _) trivial⟩
  | openHeld hphase => exact .inr ⟨_, _, moved_openHeld hphase⟩
  | stageHeld hphase hstep => exact .inr ⟨_, _, moved_stageHeld hphase hstep⟩
  | commit => exact .inl ⟨rfl, rfl⟩
  | transact => exact .inl ⟨rfl, rfl⟩

/-- An append adds the files that are committed. -/
theorem buildCandidate_files {request : AppendRequest} {staged : List VerifiedStagedFile}
    {logicalHash : Sha256} {drawn : Drawn} {parent : PinnedTable}
    {candidate : Candidate AppendResult} (hrequest : validateRequest parent.db request = .ok ())
    (h : buildCandidate digest request staged logicalHash drawn parent = .ok candidate) :
    ∀ row ∈ candidate.next.db.files, row ∈ parent.db.files ∨ ∃ s ∈ staged, s.uri = row.uri := by
  obtain ⟨first, summary, target, commitBytes, files, himages, -, -, -, -, -, -, hnext⟩ :=
    buildCandidate_images hrequest h
  intro row hrow
  rw [hnext] at hrow
  obtain hrow | hrow := List.mem_append.mp hrow
  · exact .inl hrow
  · obtain ⟨image, himage, rfl⟩ := List.mem_map.mp hrow
    obtain ⟨⟨file, verified⟩, hpair, himage⟩ := exists_of_mem_mapM himages himage
    refine .inr ⟨verified, (List.of_mem_zip hpair).2, ?_⟩
    obtain ⟨metrics, -, himage⟩ := bind_eq_ok.mp himage
    obtain ⟨metadata, -, himage⟩ := bind_eq_ok.mp himage
    cases himage
    rfl

/-- A transaction adds no files, so that it refers to no other objects. -/
theorem buildTransaction_files {request : TransactionRequest} {logicalHash : Sha256}
    {drawn : Drawn} {parent : PinnedTable} {candidate : Candidate DurableResult}
    (h : buildTransaction digest request logicalHash drawn parent = .ok candidate) :
    candidate.next.db.files = parent.db.files := by
  obtain ⟨db₁, results, commitBytes, -, hrun, -, -, -, hdb, -⟩ := buildTransaction_recorded h
  have huntouched : parent.db.Untouched db₁ :=
    runAll_invariant (P := fun db => parent.db.Untouched db)
      (fun _ hdb hstep => hdb.trans (Database.applyOperation_spec hstep).1) (.refl _) hrun
  rw [hdb]
  exact huntouched.files

/-- A file is published that was published before or that a call may commit. -/
theorem Step.referenced {event : Event ι} (h : Step parse digest requests faulty w event w')
    {uri : String} (huri : w'.Referenced uri) :
    w.Referenced uri ∨ ∃ i, uri ∈ (w.phase i).kept.map fun s => s.file.uri := by
  have hcurrent : ∀ {current : PinnedTable} {row : FileRow}, w.tables.head? = some current →
      row ∈ current.db.files → w.Referenced row.uri := fun hcurrent hrow =>
    ⟨_, List.mem_of_mem_head? (Option.mem_def.mpr hcurrent), _, hrow, rfl⟩
  obtain ⟨table, htable, row, hrow, rfl⟩ := huri
  cases h with
  | @commit i current request used logicalHash drawn original version candidate hmay hhead hstaged
      hrebase hrequest hbuild =>
    obtain rfl | htable := List.mem_cons.mp htable
    · obtain hold | ⟨file, hfile, huri⟩ := buildCandidate_files hrequest hbuild row hrow
      · exact .inl (hcurrent hhead hold)
      · obtain ⟨s, hs, rfl⟩ := List.mem_map.mp hfile
        refine .inr ⟨i, List.mem_map.mpr ⟨s, ?_, huri⟩⟩
        generalize w.phase i = phase at hmay
        cases hmay with
        | entered => exact hs
        | holding hsub => exact hsub hs
    · exact .inl ⟨table, htable, row, hrow, rfl⟩
  | transact hhead hbuild =>
    obtain rfl | htable := List.mem_cons.mp htable
    · rw [buildTransaction_files hbuild] at hrow
      exact .inl (hcurrent hhead hrow)
    · exact .inl ⟨table, htable, row, hrow, rfl⟩
  | _ => exact .inl ⟨table, htable, row, hrow, rfl⟩

/-- **Every step keeps what calls list and what is published.** -/
theorem Sound.step {event : Event ι} (h : Sound requests w)
    (hstep : Step parse digest requests faulty w event w') : Sound requests w' := by
  obtain ⟨hobjects, hphase⟩ | ⟨i, phase, ⟨hphase, htables, howner, hkept, hready⟩⟩ :=
    hstep.cases_owner h.ready
  · refine ⟨?_, fun uri huri => ?_, ?_⟩
    · rw [hobjects, hphase]
      exact h.claims
    · rw [hphase]
      obtain hold | hnew := hstep.referenced huri
      · exact h.kept uri hold
      · exact hnew
    · rw [hphase]
      exact h.ready
  · obtain ⟨hown, hother⟩ := claims_update w.phase i phase
    refine ⟨?_, fun uri huri => ?_, fun j => ?_⟩
    · rw [hphase]
      exact h.claims.step (i := i) (hown ▸ howner) hother
    · have hold : w.Referenced uri := by
        obtain ⟨table, htable, hrow⟩ := huri
        exact ⟨table, htables ▸ htable, hrow⟩
      obtain ⟨j, hj⟩ := h.kept uri hold
      refine ⟨j, ?_⟩
      rw [hphase]
      by_cases hij : j = i
      · subst hij
        rw [Function.update_self]
        exact List.map_subset _ hkept hj
      · rw [Function.update_of_ne hij]
        exact hj
    · rw [hphase]
      by_cases hij : j = i
      · subst hij
        rw [Function.update_self]
        exact hready
      · rw [Function.update_of_ne hij]
        exact h.ready j

/-- Every world that a run reaches is sound. -/
theorem Run.sound {admitted : World ι T → Event ι → Prop}
    (h : Run parse digest requests faulty admitted w) : Sound requests w := by
  induction h with
  | start hgenesis => exact .start hgenesis
  | step _ _ hstep ih => exact ih.step hstep

/-- A step that does not fail keeps every object on the list of the call that created it. -/
theorem Step.accounted {event : Event ι} (hw : Sound requests w)
    (h : Accounted w.objects fun i => (w.phase i).claims)
    (hleaks : ¬(faulty ∨ Leaks parse digest requests w event))
    (hstep : Step parse digest requests faulty w event w') :
    Accounted w'.objects fun i => (w'.phase i).claims := by
  obtain ⟨hobjects, hphase⟩ | ⟨i, phase, ⟨hphase, htables, howner, -, -⟩⟩ :=
    hstep.cases_owner hw.ready
  · rw [hobjects, hphase]
    exact h
  · obtain ⟨hown, hother⟩ := claims_update w.phase i phase
    rw [hphase]
    exact h.step (i := i) hw.claims hleaks (hown ▸ howner) hother

/-- Without failures every object is on the list of the call that created it. -/
theorem Run.accounted
    (h : Run parse digest requests False (fun w e => ¬Leaks parse digest requests w e) w) :
    Accounted w.objects fun i => (w.phase i).claims := by
  induction h with
  | start => exact fun _ _ hobject => (nomatch hobject)
  | step hrun hadmitted hstep ih =>
    exact hstep.accounted hrun.sound ih (not_or.mpr ⟨not_false, hadmitted⟩)

/-- No step deletes a published file, whichever call takes it. -/
theorem Step.not_referenced {event : Event ι} (h : Sound requests w)
    (hstep : Step parse digest requests faulty w event w') {uri : String}
    {o : StoredObject ι T} (ho : w.objects uri = some o) (hnone : w'.objects uri = none) :
    ¬w.Referenced uri := by
  intro huri
  obtain ⟨hobjects, -⟩ | ⟨i, phase, ⟨hphase, htables, howner, hkept, -⟩⟩ :=
    hstep.cases_owner h.ready
  · rw [hobjects, ho] at hnone
    cases hnone
  · obtain ⟨hlisted, hunlisted⟩ := h.claims.of_deleted howner ho hnone
    obtain ⟨j, hj⟩ := h.kept uri huri
    obtain rfl := h.claims.owner_eq (Phase.mem_claims_of_kept hj) hlisted
    obtain ⟨s, hs, rfl⟩ := List.mem_map.mp hj
    exact hunlisted (Phase.mem_claims_of_kept (List.mem_map.mpr ⟨s, hkept hs, rfl⟩))

/-- **Staged files are cleaned up unless the second look fails.** In every run without a failed
second look and without failed deletions, a call that returns before publication leaves none of the
objects that it created; a second look that fails returns at once and leaves some. In every run the
files of published tables are stored, and no step deletes one of them. -/
theorem staging_cleanup (parse : Bytes → Except ProtocolError CanonicalValue) (digest : Digest)
    (requests : ι → AppendRequest) :
    (∀ w : World ι T,
      Run parse digest requests False (fun w e => ¬Leaks parse digest requests w e) w →
      (∀ i result, w.phase i = .returned result → ∀ uri o, w.objects uri = some o → o.creator ≠ i) ∧
      ∀ event w', Step parse digest requests False w event w' →
        Leaks parse digest requests w event →
        ∃ i found reads result, event = .look i found reads ∧ w'.phase i = .returned result ∧
          ∃ uri o, w'.objects uri = some o ∧ o.creator = i) ∧
    ∀ (faulty : Prop) (w : World ι T), Run parse digest requests faulty (fun _ _ => True) w →
      (∀ uri, w.Referenced uri → ∃ o, w.objects uri = some o) ∧
      ∀ event w', Step parse digest requests faulty w event w' → ∀ uri o,
        w.objects uri = some o → w'.objects uri = none → ¬w.Referenced uri := by
  refine ⟨fun w hrun => ⟨fun i result hphase uri o ho hcreator => ?_,
    fun event w' hstep hleaks => ?_⟩, fun faulty w hrun =>
      ⟨fun uri huri => hrun.sound.stored huri, fun event w' hstep uri o ho hnone =>
        hstep.not_referenced hrun.sound ho hnone⟩⟩
  · have hlisted := hrun.accounted uri o ho
    dsimp only at hlisted
    rw [hcreator, hphase] at hlisted
    cases hlisted
  · cases hstep with
    | @look i firstPin staged found reads hphase hpins =>
      obtain ⟨firstPin', staged', secondPin, hphase', rfl, hfails⟩ := hleaks
      cases hphase.symm.trans hphase'
      obtain ⟨e, hnext⟩ := @secondLook_fails T _ _ _ _ staged _ _ hfails
      refine ⟨i, _, reads, .error e, rfl, ?_, ?_⟩
      · rw [World.advance, hnext]
        exact Function.update_self _ _ _
      · have hstaged := hrun.sound.ready i
        rw [hphase] at hstaged
        obtain ⟨file, rest, rfl⟩ := List.exists_cons_of_ne_nil hstaged
        refine ⟨_, _, hrun.sound.claims.stored i file.claim ?_, rfl⟩
        rw [hphase]
        exact List.mem_cons_self
    | _ => exact hleaks.elim

end Worlds

section Samples

/-- The staged file that the winner of the race commits. -/
private def raceStaged (fileId : Id) : VerifiedStagedFile :=
  ⟨sampleId 1, 0, fileId, dataUri fileId, sampleDigest [4], 10, none⟩

/-- The object of a staged file, as the store has created it. -/
private def raceCreated : CreatedObject ℕ := ⟨0, sampleDigest [4], 10⟩

/-- Genesis, and an append under the key of another call. -/
private def raceRun : Except RuntimeError (PinnedTable × Candidate AppendResult) := do
  let db ← mutateGenesis retryGenesis
  validateStaged sampleAppend [raceStaged (sampleId 3)] db.tableMeta.tableId
  validateAppendRebase db "main" (some (.branch, none)) 0
  validateRequest db sampleAppend
  let candidate ← buildCandidate sampleDigest sampleAppend [raceStaged (sampleId 3)]
    (intentHash sampleDigest sampleAppend.logicalIntent.bytes) (sampleDrawn 4 5 1)
    ⟨db, ⟨"genesis", sampleDigest [2], none, none⟩, [], []⟩
  return (⟨db, ⟨"genesis", sampleDigest [2], none, none⟩, [], []⟩, candidate)

/-- What the race does to the key: it is free at first and taken afterwards. -/
private theorem raceRun_facts : ∃ genesis candidate, raceRun = .ok (genesis, candidate) ∧
    genesis.db.idempotencyOf "first" = none ∧
    validateRequest genesis.db otherAppend = .ok () ∧
    ∃ stored, candidate.next.db.idempotencyOf "first" = some stored ∧
      stored.1 ≠ intentHash sampleDigest otherAppend.logicalIntent.bytes := by
  have hfacts : (raceRun.toOption.any fun p =>
      (p.1.db.idempotencyOf "first").isNone && (validateRequest p.1.db otherAppend).isOk &&
      (p.2.next.db.idempotencyOf "first").any fun stored =>
        decide (stored.1 ≠ intentHash sampleDigest otherAppend.logicalIntent.bytes)) = true := by
    decide +kernel
  cases hrun : raceRun with
  | error e =>
    rw [hrun] at hfacts
    cases hfacts
  | ok pair =>
    obtain ⟨genesis, candidate⟩ := pair
    rw [hrun] at hfacts
    have hall : ((genesis.db.idempotencyOf "first").isNone &&
        (validateRequest genesis.db otherAppend).isOk &&
        (candidate.next.db.idempotencyOf "first").any fun stored =>
          decide (stored.1 ≠ intentHash sampleDigest otherAppend.logicalIntent.bytes)) = true :=
      hfacts
    rw [Bool.and_eq_true, Bool.and_eq_true] at hall
    obtain ⟨⟨hfree, hrequest⟩, htaken⟩ := hall
    obtain ⟨stored, hstored, hne⟩ := (Option.any_eq_true _ _).mp htaken
    refine ⟨genesis, candidate, rfl, Option.isNone_iff_eq_none.mp hfree, ?_, stored, hstored,
      of_decide_eq_true hne⟩
    cases hvalid : validateRequest genesis.db otherAppend with
    | error e =>
      rw [hvalid] at hrequest
      cases hrequest
    | ok u => rfl

/-- Every image is opened and queried without failures, at the first look and at the second. -/
private def soundReads : ImageReads := ⟨.ok (), .ok (), .ok (), .ok ()⟩

/-- A call that begins on a table where its key is free and its request is valid stages files. -/
private theorem firstLook_genesis {genesis : PinnedTable}
    (hfree : genesis.db.idempotencyOf "first" = none)
    (hrequest : validateRequest genesis.db otherAppend = .ok ()) :
    (firstLook textParser sampleDigest otherAppend (.ok genesis) soundReads : Phase ℕ) =
      .staging genesis [] .opening := by
  have hlogical := @toVec_of_fits otherAppend.logicalIntent (by decide +kernel) (by decide +kernel)
  have hcheck : checkIdempotency textParser genesis.db otherAppend.idempotencyKey
      (intentHash sampleDigest otherAppend.logicalIntent.bytes) = .ok none := by
    unfold checkIdempotency
    rw [show genesis.db.idempotencyOf otherAppend.idempotencyKey = none from hfree]
  unfold firstLook
  rw [hlogical]
  dsimp only [liftProtocol, soundReads]
  rw [ok_bind rfl, hcheck]
  dsimp only
  rw [ok_bind rfl, hrequest]
  rfl

/-- The genesis of the race is published. -/
private theorem raceRun_genesis {genesis : PinnedTable} {candidate : Candidate AppendResult}
    (h : raceRun = .ok (genesis, candidate)) :
    mutateGenesis retryGenesis = .ok genesis.db ∧
      validateStaged sampleAppend [raceStaged (sampleId 3)] genesis.db.tableMeta.tableId = .ok () ∧
      validateAppendRebase genesis.db "main" (some (.branch, none)) 0 = .ok () ∧
      validateRequest genesis.db sampleAppend = .ok () ∧
      buildCandidate sampleDigest sampleAppend [raceStaged (sampleId 3)]
        (intentHash sampleDigest sampleAppend.logicalIntent.bytes) (sampleDrawn 4 5 1) genesis =
          .ok candidate := by
  rw [raceRun] at h
  obtain ⟨db, hgenesis, h⟩ := bind_eq_ok.mp h
  obtain ⟨hstaged, h⟩ := check_eq_ok.mp h
  obtain ⟨hrebase, h⟩ := check_eq_ok.mp h
  obtain ⟨hrequest, h⟩ := check_eq_ok.mp h
  obtain ⟨built, hbuild, h⟩ := bind_eq_ok.mp h
  cases h
  exact ⟨hgenesis, hstaged, hrebase, hrequest, hbuild⟩

/-- The call `false` appends under a key, the call `true` stages a file by itself. -/
private def raceRequests : Bool → AppendRequest := fun _ => otherAppend

/-- A run that may take any step of a sound store. -/
private abbrev RaceRun (admitted : World Bool ℕ → Event Bool → Prop) (w : World Bool ℕ) : Prop :=
  Run textParser sampleDigest raceRequests False admitted w

/-- A step of the race between two calls under one key. -/
private abbrev RaceStep (w : World Bool ℕ) (event : Event Bool) (w' : World Bool ℕ) : Prop :=
  Step textParser sampleDigest raceRequests False w event w'

/-- The call `false` begins. -/
private theorem race_begin {genesis : PinnedTable} {admitted : World Bool ℕ → Event Bool → Prop}
    (hadmitted : ∀ w, admitted w .other) (hgenesis : mutateGenesis retryGenesis = .ok genesis.db)
    (hfree : genesis.db.idempotencyOf "first" = none)
    (hrequest : validateRequest genesis.db otherAppend = .ok ()) :
    RaceRun admitted ((World.start genesis).advance false (.staging genesis [] .opening)) := by
  have hstep := @Step.begin _ _ _ _ textParser sampleDigest raceRequests False
    (World.start (T := ℕ) genesis) false _ soundReads rfl (.found rfl)
  rw [show firstLook textParser sampleDigest (raceRequests false) (.ok genesis) soundReads = _ from
    firstLook_genesis hfree hrequest] at hstep
  exact .step (.start hgenesis) (hadmitted _) hstep

/-- The file of the race, which both calls append. -/
private def raceFile : AppendFile :=
  ⟨"a.parquet", sampleDigest [4], 10, .parquet, 1, 1, 0, 0, ∅, [], ∅⟩

/-- The object that the race stores is the one that was asserted. -/
private theorem afterCreate_race (fileId : Id) :
    StageFile.afterCreate raceFile fileId raceCreated = .confirming fileId raceCreated :=
  if_neg (by decide +kernel)

/-- The store reads the object back in the version that it created. -/
private theorem afterConfirm_race (tableId fileId : Id) :
    StageFile.afterConfirm tableId 0 fileId raceCreated (.ok 0) =
      .done (.ok ⟨⟨tableId, 0, fileId, dataUri fileId, sampleDigest [4], 10, none⟩, 0⟩) := by
  unfold StageFile.afterConfirm
  exact if_neg (by decide)

/-- The call `false` takes a step on its file. -/
private theorem race_stage {w : World Bool ℕ} {firstPin : PinnedTable} {stage stage' : StageFile ℕ}
    {objects : Objects Bool ℕ} (hphase : w.phase false = .staging firstPin [] stage)
    (hstep : StageStep False false firstPin.db.tableMeta.tableId 0 raceFile w.objects stage objects
      stage') :
    RaceStep w .other (w.act false objects (.staging firstPin [] stage')) :=
  .stage hphase rfl hstep

/-- The call `true` takes a step on a file. -/
private theorem race_stageHeld {w : World Bool ℕ} {stage stage' : StageFile ℕ}
    {objects : Objects Bool ℕ} (hphase : w.phase true = .holding [] stage)
    (hstep : StageStep False true (sampleId 1) 0 raceFile w.objects stage objects stage') :
    RaceStep w .other (w.act true objects (.holding [] stage')) :=
  .stageHeld hphase hstep

/-- The call `true` starts staging files by itself. -/
private theorem race_open {w : World Bool ℕ} (hphase : w.phase true = .idle)
    {admitted : World Bool ℕ → Event Bool → Prop} (hadmitted : ∀ w, admitted w .other)
    (hrun : RaceRun admitted w) : ∃ w', RaceRun admitted w' ∧ w'.tables = w.tables ∧
      w'.objects = w.objects ∧ w'.phase false = w.phase false ∧
      w'.phase true = .holding [] .opening := by
  have hheld := @Step.hold _ _ _ _ textParser sampleDigest raceRequests False _ _
    .idempotencyConflict hphase
  have hopened := @Step.openHeld _ _ _ _ textParser sampleDigest raceRequests False
    (w.advance true (.holding [] (.done (.error .idempotencyConflict)))) true _ _ rfl
  exact ⟨_, (hrun.step (hadmitted _) hheld).step (hadmitted _) hopened, rfl, rfl, rfl, rfl⟩

/-- The call `true` commits the file that it holds. -/
private theorem race_publish {genesis : PinnedTable} {candidate : Candidate AppendResult}
    (h : raceRun = .ok (genesis, candidate)) {w : World Bool ℕ}
    (hphase : w.phase true = .holding [] (.done (.ok ⟨raceStaged (sampleId 3), 0⟩)))
    (hcurrent : w.tables.head? = some genesis) :
    RaceStep w .other (w.publish candidate.next) := by
  obtain ⟨-, hvalid, hrebase, happend, hbuild⟩ := raceRun_genesis h
  have hmay : MayCommit (raceRequests true) (w.phase true) sampleAppend
      [⟨raceStaged (sampleId 3), 0⟩] := by
    rw [hphase]
    exact .holding (List.Subset.refl _)
  exact .commit hmay hcurrent hvalid hrebase happend hbuild

/-- The call `true` stores a file by itself and commits it, while `false` is about to look again. -/
private theorem race_commit {genesis : PinnedTable} {candidate : Candidate AppendResult}
    (h : raceRun = .ok (genesis, candidate))
    (hfree : genesis.db.idempotencyOf "first" = none)
    (hrequest : validateRequest genesis.db otherAppend = .ok ()) :
    ∃ w, RaceRun (fun _ _ => True) w ∧ (∃ staged, w.phase false = .rechecking genesis staged) ∧
      w.tables.head? = some candidate.next ∧
      w.objects (dataUri (sampleId 9)) = some ⟨0, false⟩ := by
  have hbegun := @race_begin genesis (fun _ _ => True) (fun _ => trivial) (raceRun_genesis h).1
    hfree hrequest
  have hother : dataUri (sampleId 3) ≠ dataUri (sampleId 9) := by decide +kernel
  have hcreated := hbegun.step trivial (race_stage rfl (.created raceCreated (sampleId_v7 9) rfl))
  rw [afterCreate_race] at hcreated
  have hconfirmed := hcreated.step trivial (race_stage rfl (.confirmed (.ok 0)))
  rw [afterConfirm_race] at hconfirmed
  have hnext : ∀ file : Staged ℕ, afterStage (raceRequests false) genesis [] (.ok file) =
      .rechecking genesis [file] := by
    intro file
    rw [afterStage, stageNext, List.nil_append]
    have hall : ¬[file].length < (raceRequests false).files.length := Nat.lt_irrefl 1
    rw [if_neg hall]
  have hlooks := hconfirmed.step trivial (.staged (i := false) rfl)
  rw [hnext] at hlooks
  obtain ⟨w, hopened, htables, hobjects, hphase, hheld⟩ :=
    race_open rfl (fun _ => trivial) hlooks
  have hunused : w.objects (dataUri (sampleId 3)) = none := by
    rw [hobjects]
    exact Function.update_of_ne hother (some (StoredObject.mk 0 false)) _
  have hobject : w.objects (dataUri (sampleId 9)) = some ⟨0, false⟩ := by
    rw [hobjects]
    simp only [World.advance, World.act, raceCreated, ObjectStore.create_self]
  have hcurrent : w.tables.head? = some genesis := by
    rw [htables]
    rfl
  have hstored := hopened.step trivial
    (race_stageHeld hheld (.created raceCreated (sampleId_v7 3) hunused))
  rw [afterCreate_race] at hstored
  have hready := hstored.step trivial (race_stageHeld rfl (.confirmed (.ok 0)))
  rw [afterConfirm_race] at hready
  have hpublished := hready.step trivial (race_publish h rfl hcurrent)
  refine ⟨_, hpublished, ⟨_, hphase⟩, rfl, ?_⟩
  exact (Function.update_of_ne hother.symm (some ⟨0, true⟩) w.objects).trans hobject

/-- When another call commits the key with another intent, the append returns and leaves its file
behind. -/
theorem not_staging_cleanup : ¬∀ w : World Bool ℕ,
    Run textParser sampleDigest (fun _ => otherAppend) False (fun _ _ => True) w →
    ∀ i result, w.phase i = .returned result → ∀ uri o, w.objects uri = some o → o.creator ≠ i := by
  intro hclaim
  obtain ⟨genesis, candidate, hrun, hfree, hrequest, stored, hstored, hne⟩ := raceRun_facts
  obtain ⟨w, hw, ⟨staged, hphase⟩, hhead, hobject⟩ := race_commit hrun hfree hrequest
  have hcheck : checkIdempotency textParser candidate.next.db otherAppend.idempotencyKey
      (intentHash sampleDigest otherAppend.logicalIntent.bytes) = .error .idempotencyConflict := by
    unfold checkIdempotency
    rw [show candidate.next.db.idempotencyOf otherAppend.idempotencyKey = some stored from hstored]
    exact if_pos hne
  obtain ⟨e, hnext⟩ := @secondLook_fails ℕ _ _ _ genesis staged soundReads _
    (.inl ⟨_, (ok_bind rfl).trans hcheck⟩)
  have hlook : RaceStep w (.look false (.ok candidate.next) soundReads) _ :=
    .look hphase (.found hhead)
  have hlast := hw.step trivial hlook
  refine hclaim _ hlast false (.error e) ?_ _ _ hobject rfl
  exact (Function.update_self false _ w.phase).trans hnext

/-- A call whose file is stored with another hash deletes it and returns. -/
theorem staging_cleanup_discarded : ∃ w : World Bool ℕ,
    w.phase false = .returned (.error .fingerprintMismatch) ∧
      ∀ uri o, w.objects uri = some o → o.creator ≠ false := by
  obtain ⟨genesis, candidate, hrun, hfree, hrequest, -⟩ := raceRun_facts
  have hnever : ∀ w : World Bool ℕ,
      ¬Leaks textParser sampleDigest (fun _ => otherAppend) w .other := fun _ h => h
  have hbegun := @race_begin genesis
    (fun w e => ¬Leaks textParser sampleDigest (fun _ => otherAppend) w e) hnever
    (raceRun_genesis hrun).1 hfree hrequest
  have hcreated := hbegun.step (hnever _) (race_stage rfl
    (.created ⟨0, sampleDigest [5], 10⟩ (sampleId_v7 9) rfl))
  rw [show StageFile.afterCreate raceFile (sampleId 9) ⟨0, sampleDigest [5], 10⟩ =
    .discarding (sampleId 9) ⟨0, sampleDigest [5], 10⟩ .fingerprintMismatch from
      if_pos (by decide +kernel)] at hcreated
  have hdiscarded := hcreated.step (hnever _) (race_stage rfl (.discarded (.inl rfl)))
  have hcleaning := hdiscarded.step (hnever _) (.staged (i := false) rfl)
  have hreturned := hcleaning.step (hnever _) (.cleaned (i := false) rfl)
  exact ⟨_, rfl, ((staging_cleanup textParser sampleDigest (fun _ => otherAppend)).1 _
    hreturned).1 false _ rfl⟩

end Samples

end Otmp.Staging
