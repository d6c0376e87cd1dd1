import Otmp.Runtime.HeadStore

/-!
# The publication loop

A publisher builds a candidate on the table that it has pinned and replaces the head. After
a conflict it pins the winner and starts again on it; after a lost answer it pins the head
to find out whether its candidate was committed. Its idempotency key tells it so, as the
key is recorded in the table that commits it and in all later ones. A look at the key reads the
image of the pin, and the reading may fail.
-/

namespace Otmp

open Foundation

namespace Publication

/-- A pinned table on which a candidate is built. -/
structure Attempt (V : Type) where
  tableId : Id
  parent : V
  rebases : ℕ

/-- A candidate that is being published, with the number of lost answers. -/
structure Writing (V R : Type) extends Attempt V where
  candidate : V
  result : R
  indeterminate : ℕ

/-- Where a call is: before its first pin, at the start of its loop, or at one of the reads and
writes of the head in it. -/
inductive Phase (V R : Type) where
  | idle
  | attempting (a : Attempt V)
  | writing (s : Writing V R)
  | reconciling (s : Writing V R)
  | repinning (s : Writing V R)
  | returned (result : Except RuntimeError R)

/-- What comes of reading an image for a key: of opening it and querying the row of the key, and,
where the key has a row, of opening it again and querying the state hash of its commit. A failure is
passed on as SQLite reports it. -/
structure KeyReads where
  key : Except String Unit
  state : Except String Unit

/-- Both reads succeed: the image can be opened, and the key can be queried. -/
def KeyReads.fine : KeyReads := ⟨.ok (), .ok ()⟩

/-- What the loop is called with. Building draws identifiers and reads the clock, so it is a
relation. -/
structure Publisher (V R : Type) where
  replay : KeyReads → V → Except RuntimeError (Option R)
  Builds : V → Except RuntimeError (V × R) → Prop
  maximumRebases : ℕ
  maximumReconciliations : ℕ

/-- What a look at the key finds in an image that can be read. -/
def Publisher.found {V R : Type} (p : Publisher V R) (v : V) : Except RuntimeError (Option R) :=
  p.replay .fine v

/-- A read that a look at the key makes fails. The second read is only made for a recorded key. -/
def Publisher.Unread {V R : Type} (p : Publisher V R) (reads : KeyReads) (v : V) : Prop :=
  reads.key ≠ .ok () ∨ (∃ result, p.found v = .ok (some result)) ∧ reads.state ≠ .ok ()

section Loop

variable {V R : Type} (head : V → Head)

/-- The start of a call on a pinned table. -/
def begin (parent : V) : Phase V R := .attempting ⟨(head parent).tableId, parent, 0⟩

/-- The start of the loop, up to the first write: `reads` is what came of reading the image of the
parent, `built` what building returned, `stored` what the uploads of the immutable objects did. -/
def Publisher.attempt (p : Publisher V R) (a : Attempt V) (reads : KeyReads)
    (built : Except RuntimeError (V × R)) (stored : Except RuntimeError Unit) : Phase V R :=
  if (head a.parent).tableId ≠ a.tableId then
    .returned (.error (.semanticConflict "table identity changed during publication"))
  else
    match p.replay reads a.parent with
    | .error e => .returned (.error e)
    | .ok (some result) => .returned (.ok result)
    | .ok none =>
      match built, stored with
      | .error e, _ => .returned (.error e)
      | _, .error e => .returned (.error e)
      | .ok (candidate, result), .ok _ => .writing ⟨a, candidate, result, 0⟩

/-- The answer to the write of the head: it ends the call, or sends it to look at the winner. -/
def afterReplace (s : Writing V R) : ConditionalWriteOutcome → Phase V R
  | .applied => .returned (.ok s.result)
  | .conflict => .repinning s
  | .indeterminate => .reconciling { s with indeterminate := s.indeterminate + 1 }

/-- The pin after a lost answer. The version of a head is that of its bytes, so comparing the bytes
compares both. -/
def Publisher.reconcile (p : Publisher V R) (s : Writing V R) (reads : KeyReads) :
    Except RuntimeError V → Phase V R
  | .ok current =>
    if (head current).tableId ≠ s.tableId then
      .returned (.error (.semanticConflict "table identity changed during reconciliation"))
    else
      match p.replay reads current with
      | .error e => .returned (.error e)
      | .ok (some result) => .returned (.ok result)
      | .ok none =>
        if (head current).bytes = (head s.parent).bytes then
          if s.indeterminate ≤ p.maximumReconciliations then .writing s
          else .returned (.error .publicationIndeterminate)
        else .repinning s
  | .error _ =>
    if s.indeterminate ≤ p.maximumReconciliations then .writing s
    else .returned (.error .publicationIndeterminate)

/-- The pin of the winner after a conflict, and what the key in its image says. -/
def Publisher.repin (p : Publisher V R) (s : Writing V R) (reads : KeyReads) :
    Except RuntimeError V → Phase V R
  | .error e =>
    .returned (.error (if 0 < s.indeterminate then .publicationIndeterminate else e))
  | .ok winner =>
    if (head winner).tableId ≠ s.tableId then
      .returned (.error (.semanticConflict "table identity changed after conflict"))
    else
      match p.replay reads winner with
      | .error e => .returned (.error e)
      | .ok (some result) => .returned (.ok result)
      | .ok none =>
        if p.maximumRebases < s.rebases + 1 then .returned (.error .rebaseExhausted)
        else .attempting ⟨s.tableId, winner, s.rebases + 1⟩

end Loop

/-- A table that was written, with the call that wrote it. -/
structure Entry (ι V : Type) where
  table : V
  author : Option ι

/-- The head of one store and the calls on it. -/
structure World (ι T V R : Type) where
  register : Register T (Entry ι V)
  phase : ι → Phase V R

variable {ι T V R : Type}

/-- One table is published and no call has begun. -/
def World.start (genesis : V) : World ι T V R := ⟨⟨[⟨genesis, none⟩], []⟩, fun _ => .idle⟩

/-- A pin returns the current table or fails; it never returns an older one. -/
inductive Pins (w : World ι T V R) : Except RuntimeError V → Prop
  | found {e : Entry ι V} : w.register.values.head? = some e → Pins w (.ok e.table)
  | failed (e : RuntimeError) : Pins w (.error e)

/-- The version token of a written table is that of its head. -/
def entryToken (head : V → Head) (token : Bytes → T) (e : Entry ι V) : T :=
  token (head e.table).bytes

/-- The write of a candidate: it expects the head of the parent. -/
def Writing.write (head : V → Head) (token : Bytes → T) (s : Writing V R) (i : ι) :
    ConditionalWrite T (Entry ι V) :=
  ⟨some (token (head s.parent).bytes), ⟨s.candidate, some i⟩⟩

/-- What is seen of a step: a look at the key after a write, with its pin and its reads, and the
answer to a write. -/
inductive Event (ι T V : Type) where
  | looked (i : ι) (found : Except RuntimeError V) (reads : KeyReads)
  | answered (v : ConditionalWrite T (Entry ι V)) (outcome : ConditionalWriteOutcome)
  | other

variable [DecidableEq ι]

/-- One step of one call, or a write in flight that is applied. A call may be refused before its
first pin; what it checks then does not touch the head. A conflict may be answered while the
expected version is current, as a store does when it gives way to another request. -/
inductive Step (head : V → Head) (token : Bytes → T) (publishers : ι → Publisher V R) :
    World ι T V R → Event ι T V → World ι T V R → Prop
  | refuse {w : World ι T V R} {i : ι} {e : RuntimeError} : w.phase i = .idle →
      Step head token publishers w .other
        ⟨w.register, Function.update w.phase i (.returned (.error e))⟩
  | begin {w : World ι T V R} {i : ι} {parent : V} : w.phase i = .idle → Pins w (.ok parent) →
      Step head token publishers w .other
        ⟨w.register, Function.update w.phase i (begin head parent)⟩
  | attempt {w : World ι T V R} {i : ι} {a : Attempt V} {reads : KeyReads}
      {built : Except RuntimeError (V × R)} {stored : Except RuntimeError Unit} :
      w.phase i = .attempting a →
      ((publishers i).replay reads a.parent = .ok none → (publishers i).Builds a.parent built) →
      Step head token publishers w .other
        ⟨w.register, Function.update w.phase i ((publishers i).attempt head a reads built stored)⟩
  | replace {w : World ι T V R} {i : ι} {s : Writing V R} {outcome : ConditionalWriteOutcome}
      {r : Register T (Entry ι V)} : w.phase i = .writing s →
      w.register.Answers (entryToken head token) False (s.write head token i) outcome r →
      Step head token publishers w (.answered (s.write head token i) outcome)
        ⟨r, Function.update w.phase i (afterReplace s outcome)⟩
  | reconcile {w : World ι T V R} {i : ι} {s : Writing V R} {reads : KeyReads}
      {found : Except RuntimeError V} : w.phase i = .reconciling s → Pins w found →
      Step head token publishers w (.looked i found reads)
        ⟨w.register, Function.update w.phase i ((publishers i).reconcile head s reads found)⟩
  | repin {w : World ι T V R} {i : ι} {s : Writing V R} {reads : KeyReads}
      {found : Except RuntimeError V} : w.phase i = .repinning s → Pins w found →
      Step head token publishers w (.looked i found reads)
        ⟨w.register, Function.update w.phase i ((publishers i).repin head s reads found)⟩
  | land {w : World ι T V R} {r : Register T (Entry ι V)} :
      w.register.Lands (entryToken head token) r →
      Step head token publishers w .other ⟨r, w.phase⟩

/-- The worlds that are reached from a published table by steps that meet a condition. -/
inductive Run (head : V → Head) (token : Bytes → T) (publishers : ι → Publisher V R)
    (meets : World ι T V R → Event ι T V → Prop) (genesis : V) : World ι T V R → Prop
  | start : Run head token publishers meets genesis (.start genesis)
  | step {w w' : World ι T V R} {event : Event ι T V} :
      Run head token publishers meets genesis w → meets w event →
      Step head token publishers w event w' → Run head token publishers meets genesis w'

/-- Any steps at all, as a run without restrictions takes them. -/
def Anything (_ : World ι T V R) (_ : Event ι T V) : Prop := True

/-- A write of a call was applied, or it is in flight and its expected version is current. -/
def Unresolved (head : V → Head) (token : Bytes → T) (r : Register T (Entry ι V)) (i : ι) : Prop :=
  (∃ e ∈ r.values, e.author = some i) ∨
    ∃ v ∈ r.inFlight, v.value.author = some i ∧ r.Matches (entryToken head token) v

/-- A step is clear for a call. Unless its writes are resolved, its look at the key does not fail in
reading; and it is not answered a conflict for a write whose expected version is current and that is
in flight from before. -/
def Clear (head : V → Head) (token : Bytes → T) (publishers : ι → Publisher V R) (i : ι)
    (w : World ι T V R) : Event ι T V → Prop
  | .looked j found reads => j = i → Unresolved head token w.register i →
      ∀ v, found = .ok v → ¬ (publishers i).Unread reads v
  | .answered v outcome => v.value.author = some i → outcome = .conflict →
      w.register.Matches (entryToken head token) v → v ∉ w.register.inFlight
  | .other => True

end Publication

end Otmp
