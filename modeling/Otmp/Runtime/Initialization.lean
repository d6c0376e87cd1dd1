import Otmp.Runtime.HeadStore
import Otmp.Runtime.Retained

/-!
# Initialization and the root of the head chain

A call to initialize writes its immutable objects and then creates the head, as often as
its answers are lost and the head is still absent. Other clients replace a head by heads of
later revisions, so a call that reads the head back may find a descendant of its own.
-/

namespace Otmp

open Foundation CanonicalValue

/-- What a call is told of the table: its identity, its version and its state. -/
structure Status where
  tableId : Id
  tableVersion : ℕ
  rootRevision : ℕ
  semanticStateSha256 : Sha256
  currentSnapshotId : Option Id
  deriving DecidableEq

/-- What a call to initialize has built when it creates the head, and its retry policy. -/
structure InitializeCall where
  tableId : Id
  semanticStateSha256 : Sha256
  semanticCommit : ObjectReference
  metadataGeneration : ObjectReference
  maximumReconciliations : ℕ

/-- Where a call to initialize is in its loop, with the number of lost answers so far. -/
inductive Initializing where
  | creating (reconciliations : ℕ)
  | conflicted (reconciliations : ℕ)
  | reconciling (reconciliations : ℕ)
  | returned (result : Except RuntimeError Status)

namespace InitializeCall

variable (c : InitializeCall)

/-- The head of genesis, at version zero, with the generation that the call has stored. -/
def head : Head where
  protocol := "otmp"
  protocolVersion := "0.0.2-alpha"
  tableId := c.tableId
  tableVersion := 0
  rootRevision := 0
  semanticStateSha256 := c.semanticStateSha256
  semanticCommit := c.semanticCommit
  metadataGeneration := c.metadataGeneration
  requiredReaderFeatures := supportedFeatures
  requiredWriterFeatures := supportedFeatures

/-- The status of genesis, which the caller is told when its own write made the table. -/
def status : Status where
  tableId := c.tableId
  tableVersion := 0
  rootRevision := 0
  semanticStateSha256 := c.semanticStateSha256
  currentSnapshotId := none

/-- The result of a call that has read the bytes of the head. -/
def resultOf (current : Bytes) : Except RuntimeError Status :=
  if current = c.head.bytes then .ok c.status else .error .alreadyExists

/-- The call after the answer to its creation of the head. -/
def afterCreate (reconciliations : ℕ) : ConditionalWriteOutcome → Initializing
  | .applied => .returned (.ok c.status)
  | .conflict => .conflicted reconciliations
  | .indeterminate => .reconciling (reconciliations + 1)

/-- The call after it has read the head back; only a conflict and a lost answer lead to a
read. An absent head and a failed read are retried alike. -/
def afterRead (found : Except StorageError Bytes) : Initializing → Option Initializing
  | .conflicted reconciliations =>
    match found with
    | .ok current => some (.returned (c.resultOf current))
    | .error e => some (.returned (.error
        (if 0 < reconciliations then .publicationIndeterminate else .storage e.message)))
  | .reconciling reconciliations =>
    match found with
    | .ok current => some (.returned (c.resultOf current))
    | .error _ =>
      if reconciliations ≤ c.maximumReconciliations then some (.creating reconciliations)
      else some (.returned (.error .publicationIndeterminate))
  | _ => none

end InitializeCall

namespace Initialization

variable {ι T : Type}

/-- The head of one store and the calls on it. -/
structure World (ι T : Type) where
  register : Register T Head
  phase : ι → Initializing

/-- Nothing is stored and all calls are about to create the head. -/
def World.start : World ι T := ⟨.empty, fun _ => .creating 0⟩

/-- The first head of the chain, which every later one descends from. -/
def World.root (w : World ι T) : Option Head := w.register.values.getLast?

variable {token : Bytes → T} {calls : ι → InitializeCall}

/-- A chain of heads on the genesis of a call. -/
def Rooted (calls : ι → InitializeCall) (values : List Head) : Prop :=
  values = [] ∨
    ∃ i later, values = later ++ [(calls i).head] ∧ ∀ h ∈ later, h.rootRevision ≠ 0

/-- A creation of the genesis of a call, or a replacement by a later revision. -/
def Admissible (calls : ι → InitializeCall) (v : ConditionalWrite T Head) : Prop :=
  (v.expected = none ∧ ∃ i, v.value = (calls i).head) ∨
    (v.expected.isSome = true ∧ v.value.rootRevision ≠ 0)

/-- An admissible write that is applied keeps the chain on the genesis of a call. -/
theorem Rooted.write {r : Register T Head} {v : ConditionalWrite T Head}
    (hv : Admissible calls v) (hmatch : r.Matches (token ∘ Head.bytes) v)
    (hvalues : Rooted calls r.values) : Rooted calls (v.value :: r.values) := by
  rcases hv with ⟨hnone, i, hvalue⟩ | ⟨hsome, hrevision⟩
  · have hempty : r.values = [] := by
      rw [Register.Matches, hnone, Option.map_eq_none_iff] at hmatch
      exact List.head?_eq_none_iff.mp hmatch
    exact .inr ⟨i, [], by rw [hempty, hvalue, List.nil_append],
      fun _ hmem => absurd hmem List.not_mem_nil⟩
  · rcases hvalues with hempty | ⟨i, later, hchain, hlater⟩
    · rw [Register.Matches, hempty] at hmatch
      rw [← hmatch] at hsome
      cases hsome
    · refine .inr ⟨i, v.value :: later, by rw [hchain, List.cons_append], ?_⟩
      exact List.forall_mem_cons.mpr ⟨hrevision, hlater⟩

/-- A chain whose latest head is a genesis has only that head. -/
theorem Rooted.root_of_head {i : ι} {values : List Head} (h : Rooted calls values)
    (hhead : values.head? = some (calls i).head) : values.getLast? = some (calls i).head := by
  rcases h with rfl | ⟨j, later, rfl, hlater⟩
  · cases hhead
  · cases later with
    | nil => exact hhead
    | cons first later =>
      obtain rfl := Option.some.inj hhead
      exact absurd rfl (hlater _ List.mem_cons_self)

/-- A read of the head returns its current bytes or fails. -/
inductive Reads (w : World ι T) : Except StorageError Bytes → Prop
  | found {head : Head} : w.register.values.head? = some head → Reads w (.ok head.bytes)
  | failed (e : StorageError) : Reads w (.error e)

/-- A read that returns bytes returns those of the latest head, and there is a root. -/
theorem Reads.head {w : World ι T} {current : Bytes} (h : Reads w (.ok current)) :
    ∃ head, w.register.values.head? = some head ∧ current = head.bytes ∧
      w.root.isSome = true := by
  cases h with
  | @found head hhead =>
    refine ⟨head, hhead, rfl, ?_⟩
    rw [World.root, List.getLast?_isSome]
    rintro hempty
    rw [hempty] at hhead
    cases hhead

variable [DecidableEq ι]

/-- What happens: a call creates the head or reads it back, another client replaces the head,
or a write in flight is applied. -/
inductive Event (ι : Type) where
  | create (i : ι)
  | read (i : ι) (found : Except StorageError Bytes)
  | replace
  | land

/-- One step. Another client replaces a head that it has read by the next revision. -/
inductive Step (token : Bytes → T) (calls : ι → InitializeCall) :
    World ι T → Event ι → World ι T → Prop
  | create {w : World ι T} {i : ι} {n : ℕ} {outcome : ConditionalWriteOutcome}
      {r : Register T Head} : w.phase i = .creating n →
      w.register.Answers (token ∘ Head.bytes) False ⟨none, (calls i).head⟩ outcome r →
      Step token calls w (.create i)
        ⟨r, Function.update w.phase i ((calls i).afterCreate n outcome)⟩
  | read {w : World ι T} {i : ι} {found : Except StorageError Bytes} {phase : Initializing} :
      Reads w found → (calls i).afterRead found (w.phase i) = some phase →
      Step token calls w (.read i found) ⟨w.register, Function.update w.phase i phase⟩
  | replace {w : World ι T} {parent next : Head} {outcome : ConditionalWriteOutcome}
      {r : Register T Head} : parent ∈ w.register.values →
      next.rootRevision = parent.rootRevision + 1 →
      w.register.Answers (token ∘ Head.bytes) False ⟨some (token parent.bytes), next⟩ outcome r →
      Step token calls w .replace ⟨r, w.phase⟩
  | land {w : World ι T} {r : Register T Head} :
      w.register.Lands (token ∘ Head.bytes) r → Step token calls w .land ⟨r, w.phase⟩

/-- A run from the start, with the worlds that it has left and what happened in them. -/
inductive Run (token : Bytes → T) (calls : ι → InitializeCall) :
    List (World ι T × Event ι) → World ι T → Prop
  | start : Run token calls [] .start
  | step {trace : List (World ι T × Event ι)} {w w' : World ι T} {event : Event ι} :
      Run token calls trace w → Step token calls w event w' →
      Run token calls ((w, event) :: trace) w'

/-- What initialization is to guarantee for a run: in all of it the genesis of one call is
the root, a call that returned a status created it, and a call that was told that the table
exists did not. -/
structure Truthful (calls : ι → InitializeCall) (trace : List (World ι T × Event ι))
    (w : World ι T) : Prop where
  root : w.root.isSome = true →
    ∃! i, ∃ v ∈ w :: trace.map Prod.fst, v.root = some (calls i).head
  created : ∀ i status, w.phase i = .returned (.ok status) → w.root = some (calls i).head
  exists_other : ∀ i, w.phase i = .returned (.error .alreadyExists) →
    w.root ≠ some (calls i).head

/-- A call whose genesis is the root does not read the bytes of a later head. -/
def Clear (calls : ι → InitializeCall) (w : World ι T) : Event ι → Prop
  | .read i (.ok current) => w.root = some (calls i).head → current = (calls i).head.bytes
  | _ => True

variable {w w' : World ι T} {event : Event ι}

/-- What holds in every world of a run: the chain starts with the head of one of the calls, and each
phase agrees with the register. -/
structure Sound (calls : ι → InitializeCall) (w : World ι T) : Prop where
  rooted : Rooted calls w.register.values
  inFlight : ∀ v ∈ w.register.inFlight, Admissible calls v
  created : ∀ i status, w.phase i = .returned (.ok status) → w.root = some (calls i).head
  exists_root : ∀ i, w.phase i = .returned (.error .alreadyExists) → w.root.isSome = true

/-- The root of the chain stays, since writes only add heads on top. -/
theorem Step.root (h : Step token calls w event w') {g : Head} (hroot : w.root = some g) :
    w'.root = some g := by
  have hsuffix : w.register.values <:+ w'.register.values := by
    cases h with
    | create _ hanswer => exact hanswer.suffix
    | read _ _ => exact List.suffix_refl _
    | replace _ _ hanswer => exact hanswer.suffix
    | land hland => exact hland.suffix
  obtain ⟨later, hlater⟩ := hsuffix
  rw [World.root] at hroot ⊢
  rw [← hlater, List.getLast?_append, hroot, Option.some_or]

/-- A call that has returned stays as it is. -/
theorem Step.returned (h : Step token calls w event w') {i : ι}
    {result : Except RuntimeError Status} (hphase : w.phase i = .returned result) :
    w'.phase i = .returned result := by
  cases h with
  | @create j n outcome r hcreating _ =>
    have hne : i ≠ j := by
      rintro rfl
      rw [hphase] at hcreating
      cases hcreating
    exact (Function.update_of_ne hne _ _).trans hphase
  | @read j found phase _ hread =>
    have hne : i ≠ j := by
      rintro rfl
      rw [hphase] at hread
      cases hread
    exact (Function.update_of_ne hne _ _).trans hphase
  | replace _ _ _ => exact hphase
  | land _ => exact hphase

/-- A read leads to a status only by the bytes of the call's own genesis. -/
theorem afterRead_ok {c : InitializeCall} {found : Except StorageError Bytes}
    {phase : Initializing} {status : Status}
    (h : c.afterRead found phase = some (.returned (.ok status))) :
    found = .ok c.head.bytes := by
  unfold InitializeCall.afterRead InitializeCall.resultOf at h
  grind

/-- A read leads to the answer that the table exists only by other bytes. -/
theorem afterRead_exists {c : InitializeCall} {found : Except StorageError Bytes}
    {phase : Initializing}
    (h : c.afterRead found phase = some (.returned (.error .alreadyExists))) :
    ∃ current, found = .ok current ∧ current ≠ c.head.bytes := by
  unfold InitializeCall.afterRead InitializeCall.resultOf at h
  grind

/-- A read of other bytes leads to the answer that the table exists. -/
theorem afterRead_other {c : InitializeCall} {current : Bytes} {phase phase' : Initializing}
    (h : c.afterRead (.ok current) phase = some phase') (hother : current ≠ c.head.bytes) :
    phase' = .returned (.error .alreadyExists) := by
  unfold InitializeCall.afterRead InitializeCall.resultOf at h
  grind

/-- The register after a step still starts with the head of one of the calls. -/
theorem Sound.register (hw : Sound calls w) (h : Step token calls w event w') :
    Rooted calls w'.register.values ∧ ∀ v ∈ w'.register.inFlight, Admissible calls v := by
  cases h with
  | create _ hanswer =>
    exact hanswer.invariant (P := Rooted calls) (Q := fun _ => Admissible calls) Rooted.write
      (fun _ _ hv => hv) (.inl ⟨rfl, _, rfl⟩) hw.rooted hw.inFlight
  | read _ _ => exact ⟨hw.rooted, hw.inFlight⟩
  | replace _ hnext hanswer =>
    exact hanswer.invariant (P := Rooted calls) (Q := fun _ => Admissible calls) Rooted.write
      (fun _ _ hv => hv) (.inr ⟨rfl, by rw [hnext]; omega⟩) hw.rooted hw.inFlight
  | land hland =>
    exact hland.invariant (P := Rooted calls) (Q := fun _ => Admissible calls)
      (fun _ => Rooted.write) (fun _ _ hv => hv) hw.rooted hw.inFlight

/-- How a call comes to return: it has returned before, its creation is answered as applied, or
it reads the head back. -/
theorem Step.returns (h : Step token calls w event w') {i : ι}
    {result : Except RuntimeError Status} (hi : w'.phase i = .returned result) :
    w.phase i = .returned result ∨
      (result = .ok (calls i).status ∧ w'.root = some (calls i).head) ∨
      ∃ found, event = .read i found ∧ Reads w found ∧ w'.register = w.register ∧
        (calls i).afterRead found (w.phase i) = some (.returned result) := by
  cases h with
  | @create j n outcome r hcreating hanswer =>
    by_cases hij : i = j
    · subst hij
      change Function.update w.phase i _ i = _ at hi
      rw [Function.update_self] at hi
      cases hanswer with
      | applied hmatch =>
        rw [Register.Matches, Option.map_eq_none_iff, List.head?_eq_none_iff] at hmatch
        cases hi
        refine .inr (.inl ⟨rfl, ?_⟩)
        rw [World.root, Register.write, hmatch, List.getLast?_singleton]
      | _ => cases hi
    · exact .inl ((Function.update_of_ne hij _ _).symm.trans hi)
  | @read j found phase hreads hread =>
    by_cases hij : i = j
    · subst hij
      change Function.update w.phase i _ i = _ at hi
      rw [Function.update_self] at hi
      rw [hi] at hread
      exact .inr (.inr ⟨found, rfl, hreads, rfl, hread⟩)
    · exact .inl ((Function.update_of_ne hij _ _).symm.trans hi)
  | replace _ _ _ => exact .inl hi
  | land _ => exact .inl hi

/-- The invariant is kept by every step of every call and of the store. -/
theorem Sound.step (hw : Sound calls w) (h : Step token calls w event w') : Sound calls w' := by
  obtain ⟨hrooted, hinFlight⟩ := hw.register h
  refine ⟨hrooted, hinFlight, fun i status hi => ?_, fun i hi => ?_⟩
  · obtain hbefore | ⟨-, hroot⟩ | ⟨found, -, hreads, hregister, hread⟩ := h.returns hi
    · exact h.root (hw.created i status hbefore)
    · exact hroot
    · obtain rfl := afterRead_ok hread
      obtain ⟨head, hhead, hbytes, -⟩ := hreads.head
      obtain rfl := Head.bytes_injective hbytes
      rw [World.root, hregister]
      exact hw.rooted.root_of_head hhead
  · obtain hbefore | ⟨hok, -⟩ | ⟨found, -, hreads, hregister, hread⟩ := h.returns hi
    · obtain ⟨g, hg⟩ := Option.isSome_iff_exists.mp (hw.exists_root i hbefore)
      rw [h.root hg, Option.isSome_some]
    · cases hok
    · obtain ⟨current, rfl, -⟩ := afterRead_exists hread
      obtain ⟨-, -, -, hroot⟩ := hreads.head
      rw [World.root, hregister]
      exact hroot

/-- The invariant holds in every world of a run. -/
theorem Run.sound {trace : List (World ι T × Event ι)} (h : Run token calls trace w) :
    Sound calls w := by
  induction h with
  | start => exact ⟨.inl rfl, fun _ => nofun, fun _ _ => nofun, fun _ => nofun⟩
  | step _ hstep ih => exact ih.step hstep

/-- The worlds that a run has left have the root of its last world or none. -/
theorem Run.roots {trace : List (World ι T × Event ι)} (h : Run token calls trace w) {v : World ι T}
    (hv : v ∈ w :: trace.map Prod.fst) {g : Head} (hroot : v.root = some g) : w.root = some g := by
  induction h with
  | start =>
    cases List.mem_singleton.mp hv
    exact hroot
  | step _ hstep ih =>
    rcases List.mem_cons.mp hv with rfl | hv
    · exact hroot
    · exact hstep.root (ih hv)

/-- No call whose genesis is the root was told that the table exists. -/
def ExistsOther (calls : ι → InitializeCall) (w : World ι T) : Prop :=
  ∀ i, w.phase i = .returned (.error .alreadyExists) → w.root ≠ some (calls i).head

/-- One step: the answer that the table exists stays true unless a call reads a descendant of
its own genesis. -/
theorem Sound.existsOther_iff (hw : Sound calls w) (h : Step token calls w event w') :
    ExistsOther calls w' ↔ ExistsOther calls w ∧ Clear calls w event := by
  constructor
  · intro hafter
    refine ⟨fun i hi hroot => hafter i (h.returned hi) (h.root hroot), ?_⟩
    cases h with
    | @read i found phase hreads hread =>
      match found with
      | .error _ => trivial
      | .ok current =>
        intro hroot
        by_contra hother
        refine hafter i ?_ hroot
        exact (Function.update_self _ _ _).trans (afterRead_other hread hother)
    | _ => trivial
  · rintro ⟨hbefore, hclear⟩ i hi hroot
    obtain hold | ⟨hok, -⟩ | ⟨found, rfl, -, hregister, hread⟩ := h.returns hi
    · obtain ⟨g, hg⟩ := Option.isSome_iff_exists.mp (hw.exists_root i hold)
      rw [h.root hg] at hroot
      exact hbefore i hold (hg.trans hroot)
    · cases hok
    · obtain ⟨current, rfl, hother⟩ := afterRead_exists hread
      rw [World.root, hregister] at hroot
      exact hother (hclear hroot)

/-- In a run, no call is told wrongly that the table exists exactly when every step is clear. -/
theorem Run.existsOther_iff {trace : List (World ι T × Event ι)} (h : Run token calls trace w) :
    ExistsOther calls w ↔ ∀ p ∈ trace, Clear calls p.1 p.2 := by
  induction h with
  | start => exact iff_of_true (fun _ => nofun) (fun _ => nofun)
  | step hrun hstep ih =>
    rw [hrun.sound.existsOther_iff hstep, ih, List.forall_mem_cons, and_comm]

/-- Initialization is truthful when no call is told wrongly that the table exists. -/
theorem Run.truthful {trace : List (World ι T × Event ι)}
    (hids : Function.Injective fun i => (calls i).tableId) (h : Run token calls trace w)
    (hother : ExistsOther calls w) : Truthful calls trace w where
  root hroot := by
    rcases h.sound.rooted with hempty | ⟨i, later, hchain, -⟩
    · rw [World.root, hempty] at hroot
      cases hroot
    · have hw : w.root = some (calls i).head := by
        rw [World.root, hchain, List.getLast?_concat]
      refine ⟨i, ⟨w, List.mem_cons_self, hw⟩, fun j ⟨v, hv, hj⟩ => hids ?_⟩
      have heq := Option.some.inj ((h.roots hv hj).symm.trans hw)
      exact congrArg Head.tableId heq
  created := h.sound.created
  exists_other := hother

/-- Initialization is truthful in exactly the runs in which no call whose genesis is the root
reads a later head. -/
theorem initialization_truthful {token : Bytes → T} {calls : ι → InitializeCall}
    (hids : Function.Injective fun i => (calls i).tableId)
    {trace : List (World ι T × Event ι)} {w : World ι T} (h : Run token calls trace w) :
    Truthful calls trace w ↔ ∀ p ∈ trace, Clear calls p.1 p.2 := by
  rw [← h.existsOther_iff]
  exact ⟨fun htruthful => htruthful.exists_other, h.truthful hids⟩

section Store

variable {digest : Digest} {state : InMemoryObjectStore} {w w' : World ι Sha256}
  {trace : List (World ι Sha256 × Event ι)}

/-- The worlds that calls reach on the store in memory, which answers every creation, while no other
client replaces the head. -/
inductive StoreRun (digest : Digest) (calls : ι → InitializeCall) :
    List (World ι Sha256 × Event ι) → World ι Sha256 → InMemoryObjectStore → Prop
  | start (outcomes : List InjectedConditional) : StoreRun digest calls [] .start ⟨none, outcomes⟩
  | create {trace : List (World ι Sha256 × Event ι)} {w : World ι Sha256}
      {state : InMemoryObjectStore} {i : ι} {n : ℕ} {r : Register Sha256 Head} :
      StoreRun digest calls trace w state → w.phase i = .creating n →
      w.register.Answers (digest ∘ Head.bytes) False ⟨none, (calls i).head⟩
        (state.conditional digest none (calls i).head.bytes).1 r →
      (state.conditional digest none (calls i).head.bytes).2.Holds Head.bytes r →
      StoreRun digest calls ((w, .create i) :: trace)
        ⟨r, Function.update w.phase i ((calls i).afterCreate n
          (state.conditional digest none (calls i).head.bytes).1)⟩
        (state.conditional digest none (calls i).head.bytes).2
  | read {trace : List (World ι Sha256 × Event ι)} {w w' : World ι Sha256}
      {state : InMemoryObjectStore} {i : ι} {found : Except StorageError Bytes} :
      StoreRun digest calls trace w state → Step digest calls w (.read i found) w' →
      StoreRun digest calls ((w, .read i found) :: trace) w' state

/-- The store in memory has an answer for every creation. -/
theorem StoreRun.exists_create {i : ι} {n : ℕ} (h : StoreRun digest calls trace w state)
    (hholds : state.Holds Head.bytes w.register) (hphase : w.phase i = .creating n) :
    ∃ w', StoreRun digest calls ((w, .create i) :: trace) w'
      (state.conditional digest none (calls i).head.bytes).2 := by
  obtain ⟨r, hanswer, hafter⟩ := @InMemoryObjectStore.conditional_answers Head digest Head.bytes
    state w.register none (calls i).head hholds
  exact ⟨_, h.create hphase hanswer.weaken hafter⟩

/-- Calls on the store in memory are a run, and at most one head is written. -/
theorem StoreRun.run (h : StoreRun digest calls trace w state) :
    Run digest calls trace w ∧ state.Holds Head.bytes w.register ∧
      w.register.values.length ≤ 1 := by
  induction h with
  | start outcomes => exact ⟨.start, ⟨rfl, rfl⟩, Nat.zero_le 1⟩
  | create _ hphase hanswer hholds ih =>
    obtain ⟨hrun, -, hlength⟩ := ih
    refine ⟨hrun.step (.create hphase hanswer), hholds, ?_⟩
    rcases hanswer.effect.1 with heq | ⟨hmatch, heq⟩
    · exact heq ▸ hlength
    · rw [Register.Matches, Option.map_eq_none_iff, List.head?_eq_none_iff] at hmatch
      rw [heq, hmatch, List.length_singleton]
  | read _ hstep ih =>
    obtain ⟨hrun, hholds, hlength⟩ := ih
    refine ⟨hrun.step hstep, ?_⟩
    cases hstep with
    | read hreads hread => exact ⟨hholds, hlength⟩

/-- On the store in memory, whatever answers a test asks it for, initialization is truthful while no
other client replaces the head. -/
theorem StoreRun.truthful (hids : Function.Injective fun i => (calls i).tableId)
    (h : StoreRun digest calls trace w state) : Truthful calls trace w := by
  refine h.run.1.truthful hids (h.run.1.existsOther_iff.mpr ?_)
  induction h with
  | start outcomes =>
    rintro p ⟨⟩
  | create _ hphase hanswer hholds ih => exact List.forall_mem_cons.mpr ⟨trivial, ih⟩
  | @read trace w w' state i found hrun hstep ih =>
    refine List.forall_mem_cons.mpr ⟨?_, ih⟩
    match found with
    | .error _ => exact trivial
    | .ok current =>
      intro hroot
      obtain ⟨-, -, hlength⟩ := hrun.run
      cases hstep with
      | read hreads hread =>
        obtain ⟨head, hhead, rfl, -⟩ := hreads.head
        rw [World.root] at hroot
        match hvalues : w.register.values, hlength with
        | [], _ =>
          rw [hvalues] at hhead
          cases hhead
        | [only], _ =>
          rw [hvalues] at hhead hroot
          cases hhead
          cases hroot
          rfl

end Store

section Samples

/-- A call that creates its table and one that comes late. -/
def sampleCall (late : Bool) : InitializeCall where
  tableId := ⟨[if late then 2 else 1, 0, 0, 0, 0, 0, 0x70, 0, 0x80, 0, 0, 0, 0, 0, 0, 0], rfl⟩
  semanticStateSha256 := zeroHash
  semanticCommit := plainReference "_otmp/commits/0/c.json"
  metadataGeneration := plainReference "_otmp/generations/0/g.json"
  maximumReconciliations := 3

/-- The head that another client puts on the genesis of the first call. -/
def sampleNext : Head := { (sampleCall false).head with tableVersion := 1, rootRevision := 1 }

/-- The calls have different tables, so that their heads differ. -/
theorem sampleCall_injective : Function.Injective fun late => (sampleCall late).tableId := by
  have hne : (sampleCall true).tableId ≠ (sampleCall false).tableId := by decide
  rintro (_ | _) (_ | _) h
  · rfl
  · exact absurd h.symm hne
  · exact absurd h hne
  · rfl

/-- The later head has other bytes than each genesis. -/
theorem sampleNext_bytes_ne (late : Bool) : sampleNext.bytes ≠ (sampleCall late).head.bytes :=
  fun h => absurd (congrArg Head.rootRevision (Head.bytes_injective h)) Nat.one_ne_zero

/-- The world after a creation of the head that was applied and whose answer was lost. -/
def lostWorld : World Bool Bytes :=
  ⟨⟨[(sampleCall false).head], []⟩, Function.update (fun _ => .creating 0) false (.reconciling 1)⟩

/-- A lost creation is a run: the store has applied it, and the call does not know. -/
theorem lostWorld_run : Run id sampleCall [(.start, .create false)] lostWorld :=
  have hmatch : Register.Matches (id ∘ Head.bytes) Register.empty
    ⟨none, (sampleCall false).head⟩ := rfl
  .step .start (.create (i := false) rfl (.lostAfter hmatch))

/-- A lost answer is reconciled truthfully when no other client has replaced the head yet; a call
that comes after the replacement is told truthfully that the table exists. -/
theorem initialization_truthful_read :
    ∃ (trace : List (World Bool Bytes × Event Bool)) (w : World Bool Bytes),
      Run id sampleCall trace w ∧ Truthful sampleCall trace w ∧
      w.register.values = [sampleNext, (sampleCall false).head] ∧
      w.phase false = .returned (.ok (sampleCall false).status) ∧
      w.phase true = .returned (.error .alreadyExists) := by
  have hfirst : (sampleCall false).afterRead (.ok (sampleCall false).head.bytes)
      (lostWorld.phase false) = some (.returned (.ok (sampleCall false).status)) := by
    change some (Initializing.returned ((sampleCall false).resultOf _)) = _
    rw [InitializeCall.resultOf, if_pos rfl]
  have hlate : (sampleCall true).afterRead (.ok sampleNext.bytes) (.conflicted 0) =
      some (.returned (.error .alreadyExists)) := by
    change some (Initializing.returned ((sampleCall true).resultOf _)) = _
    rw [InitializeCall.resultOf, if_neg (sampleNext_bytes_ne true)]
  have hread := lostWorld_run.step (.read (.found rfl) hfirst)
  have hreplaced := hread.step (@Step.replace _ _ _ _ _ _ (sampleCall false).head sampleNext _ _
    List.mem_cons_self rfl (.applied rfl))
  have hcreated := hreplaced.step (@Step.create _ _ _ _ _ _ true 0 .conflict _ rfl
    (.conflict False.elim))
  have hrun := hcreated.step (@Step.read _ _ _ _ _ _ true _ _ (.found rfl) hlate)
  refine ⟨_, _, hrun, (initialization_truthful sampleCall_injective hrun).mpr ?_, rfl, rfl, rfl⟩
  refine List.forall_mem_cons.mpr ⟨fun hroot => ?_, List.forall_mem_cons.mpr ⟨trivial,
    List.forall_mem_cons.mpr ⟨trivial, List.forall_mem_cons.mpr ⟨fun _ => rfl,
      List.forall_mem_singleton.mpr trivial⟩⟩⟩⟩
  have hids := congrArg Head.tableId (Option.some.inj hroot)
  exact absurd (sampleCall_injective hids) (by decide)

/-- A lost answer is reconciled wrongly when another client has replaced the head: the call is
told that the table exists, and its genesis is the root. -/
theorem initialization_untruthful_replaced :
    ∃ (trace : List (World Bool Bytes × Event Bool)) (w : World Bool Bytes),
      Run id sampleCall trace w ∧ ¬ Truthful sampleCall trace w := by
  have hread : (sampleCall false).afterRead (.ok sampleNext.bytes) (lostWorld.phase false) =
      some (.returned (.error .alreadyExists)) := by
    change some (Initializing.returned ((sampleCall false).resultOf _)) = _
    rw [InitializeCall.resultOf, if_neg (sampleNext_bytes_ne false)]
  have hreplaced := lostWorld_run.step (@Step.replace _ _ _ _ _ _ (sampleCall false).head sampleNext
    _ _ List.mem_cons_self rfl (.applied rfl))
  have hrun := hreplaced.step (@Step.read _ _ _ _ _ _ false _ _ (.found rfl) hread)
  refine ⟨_, _, hrun, fun h => ?_⟩
  exact h.exists_other false rfl rfl

end Samples

end Initialization

end Otmp
