import Mathlib.Logic.Relation
import Otmp.Runtime.PublicationSafety

/-!
# How publication goes on

A call that has returned takes no more steps, so what its error means is settled by the steps
before. A step that is not clear for a call can always be followed by clear ones after which the
call has returned a definite error while a table of it is written. The store in memory is one
of those that answer the writes.
-/

namespace Otmp

open Foundation

namespace Publication

variable {ι T V R : Type} [DecidableEq ι] {head : V → Head} {token : Bytes → T}
  {publishers : ι → Publisher V R} {Valid : V → Prop} {genesis : V} {w w' : World ι T V R}
  {event : Event ι T V} {meets : World ι T V R → Event ι T V → Prop} {i : ι}

/-- A step that meets a condition leads from one world to another. -/
def Leads (head : V → Head) (token : Bytes → T) (publishers : ι → Publisher V R)
    (meets : World ι T V R → Event ι T V → Prop) (w w' : World ι T V R) : Prop :=
  ∃ event, meets w event ∧ Step head token publishers w event w'

/-- The worlds that are reached from one by steps that meet a condition. -/
def Later (head : V → Head) (token : Bytes → T) (publishers : ι → Publisher V R)
    (meets : World ι T V R → Event ι T V → Prop) : World ι T V R → World ι T V R → Prop :=
  Relation.ReflTransGen (Leads head token publishers meets)

/-- A call that has returned takes no more steps, and what others do is clear for it. -/
theorem Step.returned {result : Except RuntimeError R}
    (h : Step head token publishers w event w') (hphase : w.phase i = .returned result) :
    Clear head token publishers i w event ∧ w'.phase i = .returned result := by
  have hother : ∀ {j : ι} {phase : Phase V R}, j ≠ i →
      Function.update w.phase j phase i = .returned result := by
    intro j phase hne
    rw [Function.update_of_ne hne.symm, hphase]
  have hne : ∀ {j : ι} {phase : Phase V R}, w.phase j = phase → phase ≠ .returned result →
      j ≠ i := by
    rintro j phase hj hne rfl
    exact hne (hj.symm.trans hphase)
  cases h with
  | land => exact ⟨trivial, hphase⟩
  | refuse hj => exact ⟨trivial, hother (hne hj (by rintro ⟨⟩))⟩
  | begin hj => exact ⟨trivial, hother (hne hj (by rintro ⟨⟩))⟩
  | attempt hj => exact ⟨trivial, hother (hne hj (by rintro ⟨⟩))⟩
  | replace hj =>
    have hji := hne hj (by rintro ⟨⟩)
    exact ⟨fun hauthor => absurd (Option.some.inj hauthor) hji, hother hji⟩
  | reconcile hj =>
    have hji := hne hj (by rintro ⟨⟩)
    exact ⟨fun heq => absurd heq hji, hother hji⟩
  | repin hj =>
    have hji := hne hj (by rintro ⟨⟩)
    exact ⟨fun heq => absurd heq hji, hother hji⟩

/-- A run whose steps are clear for a call goes on after the call has returned. -/
theorem Run.extend {result : Except RuntimeError R}
    (hrun : Run head token publishers (Clear head token publishers i) genesis w)
    (hphase : w.phase i = .returned result)
    (hlater : Later head token publishers Anything w w') :
    Run head token publishers (Clear head token publishers i) genesis w' ∧
      w'.phase i = .returned result := by
  induction hlater with
  | refl => exact ⟨hrun, hphase⟩
  | tail _ hleads ih =>
    obtain ⟨hrun, hphase⟩ := ih
    obtain ⟨event, -, hstep⟩ := hleads
    obtain ⟨hclear, hafter⟩ := hstep.returned hphase
    exact ⟨hrun.step hclear hstep, hafter⟩

/-- A call has returned a definite error and a table of it is written. -/
structure Misreported (w : World ι T V R) (i : ι) : Prop where
  returned : ∃ error, w.phase i = .returned (.error error) ∧ error ≠ .publicationIndeterminate
  written : ∃ e ∈ w.register.values, e.author = some i

omit [DecidableEq ι] in
/-- What a call returned definitely in a run whose steps were clear for it. -/
theorem Settled.not_misreported (h : Settled head token w.register i (w.phase i)) :
    ¬ Misreported w i := by
  rintro ⟨⟨error, hphase, hne⟩, e, he, hauthor⟩
  rw [hphase] at h
  exact (h hne).unwritten e he hauthor

omit [DecidableEq ι] in
/-- Reads that succeed are not missed. -/
theorem Publisher.not_unread (p : Publisher V R) (v : V) : ¬ p.Unread .fine v := by
  rintro (hkey | ⟨-, hstate⟩)
  · exact hkey rfl
  · exact hstate rfl

section Unclear

/-- A call that has returned a definite error while its writes are unresolved is misreported, now
or once a write in flight is applied. -/
theorem exists_misreported {error : RuntimeError} (hphase : w.phase i = .returned (.error error))
    (hne : error ≠ .publicationIndeterminate)
    (hunresolved : Unresolved head token w.register i) :
    ∃ later, Later head token publishers (Clear head token publishers i) w later ∧
      Misreported later i := by
  rcases hunresolved with hwritten | ⟨v, hv, hauthor, hmatch⟩
  · exact ⟨w, .refl, ⟨error, hphase, hne⟩, hwritten⟩
  · refine ⟨⟨w.register.write v, w.phase⟩, .single ⟨.other, trivial, .land (.intro hv hmatch)⟩,
      ⟨error, hphase, hne⟩, ?_⟩
    exact ⟨v.value, List.mem_cons_self, hauthor⟩

variable (hlaws : Lawful head publishers Valid)

include hlaws

/-- A call that starts again while its writes are unresolved may fail in reading its parent. -/
theorem exists_misreported_of_attempting {a : Attempt V} (hphase : w.phase i = .attempting a)
    (hunresolved : Unresolved head token w.register i) :
    ∃ later, Later head token publishers (Clear head token publishers i) w later ∧
      Misreported later i := by
  let reads : KeyReads := ⟨.error "unable to open database file", .ok ()⟩
  have hunread : (publishers i).Unread reads a.parent := .inl (by rintro ⟨⟩)
  obtain ⟨message, hmessage⟩ := hlaws.unread hunread
  have hstep : Step head token publishers w .other ⟨w.register, Function.update w.phase i
      ((publishers i).attempt head a reads (.error .rebaseExhausted) (.ok ()))⟩ :=
    .attempt hphase fun hreplay => by
      rw [hmessage] at hreplay
      cases hreplay
  have hreturned : ∃ error, (publishers i).attempt head a reads (.error .rebaseExhausted) (.ok ()) =
      .returned (.error error) ∧ error ≠ .publicationIndeterminate := by
    unfold Publisher.attempt
    split
    · exact ⟨_, rfl, by rintro ⟨⟩⟩
    · rw [hmessage]
      exact ⟨_, rfl, by rintro ⟨⟩⟩
  obtain ⟨error, herror, hne⟩ := hreturned
  rw [herror] at hstep
  obtain ⟨later, hlater, hmis⟩ := exists_misreported
    (w := ⟨w.register, Function.update w.phase i _⟩) (Function.update_self i _ w.phase) hne
    hunresolved
  exact ⟨later, .head ⟨.other, trivial, hstep⟩ hlater, hmis⟩

variable (hgenesis : Valid genesis) (hw : Sound head token publishers genesis w)

include hgenesis hw

/-- A look whose reading fails is returned as it is. -/
theorem exists_misreported_of_unread {s : Writing V R} {current : Entry ι V} {reads : KeyReads}
    {phase : Phase V R} (hg : Grounded head publishers genesis w.register.values i s)
    (hcurrent : w.register.values.head? = some current)
    (hunresolved : Unresolved head token w.register i)
    (hunread : (publishers i).Unread reads current.table)
    (hphase : ∀ error, (head current.table).tableId = s.tableId →
      (publishers i).replay reads current.table = .error error →
      phase = .returned (.error error)) :
    ∃ later, Later head token publishers (Clear head token publishers i)
        ⟨w.register, Function.update w.phase i phase⟩ later ∧ Misreported later i := by
  have htable : (head current.table).tableId = s.tableId :=
    (hw.chain.tableId hlaws hgenesis current (List.mem_of_mem_head? hcurrent)).trans
      hg.tableId.symm
  obtain ⟨message, hmessage⟩ := hlaws.unread hunread
  have hne : RuntimeError.sqlite message ≠ .publicationIndeterminate := by rintro ⟨⟩
  refine exists_misreported ?_ hne hunresolved
  change Function.update w.phase i phase i = _
  rw [Function.update_self, hphase _ htable hmessage]

/-- A call that starts again with a write in flight whose expected version is current. -/
theorem exists_misreported_of_conflict {s : Writing V R}
    (hinj : Set.InjOn token (headBytes head w.register.values))
    (hphase : w.phase i = .repinning s)
    (hmatch : w.register.Matches (entryToken head token) (s.write head token i))
    (hin : s.write head token i ∈ w.register.inFlight) :
    ∃ later, Later head token publishers (Clear head token publishers i) w later ∧
      Misreported later i := by
  have hg : Grounded head publishers genesis w.register.values i s := by
    have hi := hw.calls i
    rwa [hphase] at hi
  obtain ⟨current, hcurrent, -⟩ := Option.map_eq_some_iff.mp hmatch
  have hparent : current.table = s.parent := by
    rcases hg.matches_or_overtaken token hcurrent with ⟨-, heq⟩ | ⟨e, he, htable⟩
    · exact heq
    · have hdead : Dead head token w.register.values (s.write head token i) :=
        ⟨e, he, by rw [entryToken, htable]; rfl⟩
      exact absurd hmatch (hdead.not_matches hlaws hgenesis hw.chain hinj)
  have hfound : (publishers i).replay .fine current.table = .ok none := hparent ▸ hg.fresh
  have htable : (head current.table).tableId = s.tableId :=
    (hw.chain.tableId hlaws hgenesis current (List.mem_of_mem_head? hcurrent)).trans
      hg.tableId.symm
  have hunresolved : Unresolved head token w.register i := .inr ⟨_, hin, rfl, hmatch⟩
  have hrepin : Leads head token publishers (Clear head token publishers i) w
      ⟨w.register, Function.update w.phase i
        ((publishers i).repin head s .fine (.ok current.table))⟩ := by
    refine ⟨.looked i (.ok current.table) .fine, fun _ _ v _ => ?_, .repin hphase (.found hcurrent)⟩
    exact (publishers i).not_unread v
  rw [Publisher.repin, if_neg (not_not.mpr htable), hfound] at hrepin
  dsimp only at hrepin
  split at hrepin
  · have hne : RuntimeError.rebaseExhausted ≠ .publicationIndeterminate := by rintro ⟨⟩
    obtain ⟨later, hlater, hmis⟩ := exists_misreported
      (w := ⟨w.register, Function.update w.phase i _⟩) (Function.update_self i _ w.phase)
      hne hunresolved
    exact ⟨later, .head hrepin hlater, hmis⟩
  · obtain ⟨later, hlater, hmis⟩ := exists_misreported_of_attempting
      (w := ⟨w.register, Function.update w.phase i _⟩) hlaws (Function.update_self i _ w.phase)
      hunresolved
    exact ⟨later, .head hrepin hlater, hmis⟩

/-- A step that is not clear for a call is followed by a misreport. -/
theorem Step.misreported (hinj : Set.InjOn token (headBytes head w.register.values))
    (h : Step head token publishers w event w')
    (hunclear : ¬ Clear head token publishers i w event) :
    ∃ later, Later head token publishers (Clear head token publishers i) w' later ∧
      Misreported later i := by
  have hlook : ∀ {j : ι} {found : Except RuntimeError V} {reads : KeyReads} {s : Writing V R},
      ¬ Clear head token publishers i w (.looked j found reads) → Pins w found →
      w.phase j = .reconciling s ∨ w.phase j = .repinning s →
      j = i ∧ Grounded head publishers genesis w.register.values i s ∧
        Unresolved head token w.register i ∧ ∃ current, w.register.values.head? = some current ∧
          found = .ok current.table ∧ (publishers i).Unread reads current.table := by
    intro j found reads s hunclear hpins hphase
    simp only [Clear, not_forall, not_not] at hunclear
    obtain ⟨rfl, hunresolved, v, rfl, hunread⟩ := hunclear
    obtain ⟨current, hcurrent, rfl⟩ := hpins.current rfl
    have hj := hw.calls j
    refine ⟨rfl, ?_, hunresolved, current, hcurrent, rfl, hunread⟩
    rcases hphase with hphase | hphase <;> rwa [hphase] at hj
  cases h with
  | refuse => exact absurd trivial hunclear
  | begin => exact absurd trivial hunclear
  | attempt => exact absurd trivial hunclear
  | land => exact absurd trivial hunclear
  | @replace j s outcome r hphase hanswer =>
    simp only [Clear, not_forall, not_not] at hunclear
    obtain ⟨hauthor, rfl, hmatch, hin⟩ := hunclear
    obtain rfl : j = i := Option.some.inj hauthor
    cases hanswer with
    | conflict =>
      have hg : Grounded head publishers genesis w.register.values j s := by
        have hj := hw.calls j
        rwa [hphase] at hj
      have hafter : Sound head token publishers genesis
          ⟨w.register, Function.update w.phase j (afterReplace s .conflict)⟩ :=
        hw.update hlaws hgenesis hw.chain hw.inFlight (List.suffix_refl _) hg
      exact exists_misreported_of_conflict hlaws hgenesis hafter hinj
        (Function.update_self j _ w.phase) hmatch hin
  | @reconcile j s reads found hphase hpins =>
    obtain ⟨rfl, hg, hunresolved, current, hcurrent, rfl, hunread⟩ :=
      hlook hunclear hpins (.inl hphase)
    refine exists_misreported_of_unread hlaws hgenesis hw hg hcurrent hunresolved hunread
      fun error htable hreplay => ?_
    rw [Publisher.reconcile, if_neg (not_not.mpr htable), hreplay]
  | @repin j s reads found hphase hpins =>
    obtain ⟨rfl, hg, hunresolved, current, hcurrent, rfl, hunread⟩ :=
      hlook hunclear hpins (.inr hphase)
    refine exists_misreported_of_unread hlaws hgenesis hw hg hcurrent hunresolved hunread
      fun error htable hreplay => ?_
    rw [Publisher.repin, if_neg (not_not.mpr htable), hreplay]

end Unclear

section Store

variable {digest : Digest} {state : InMemoryObjectStore} {w : World ι Sha256 V R}

/-- The worlds that calls reach on the store in memory, which answers every write, while every image
can be read. -/
inductive StoreRun (head : V → Head) (digest : Digest) (publishers : ι → Publisher V R)
    (genesis : V) : World ι Sha256 V R → InMemoryObjectStore → Prop
  | start (outcomes : List InjectedConditional) :
      StoreRun head digest publishers genesis (.start genesis)
        ⟨some (head genesis).bytes, outcomes⟩
  | replace {w : World ι Sha256 V R} {state : InMemoryObjectStore} {i : ι} {s : Writing V R}
      {r : Register Sha256 (Entry ι V)} : StoreRun head digest publishers genesis w state →
      w.phase i = .writing s →
      w.register.Answers (entryToken head digest) False (s.write head digest i)
        (state.conditional digest (s.write head digest i).expected (head s.candidate).bytes).1 r →
      (state.conditional digest (s.write head digest i).expected
        (head s.candidate).bytes).2.Holds (fun e => (head e.table).bytes) r →
      StoreRun head digest publishers genesis
        ⟨r, Function.update w.phase i (afterReplace s (state.conditional digest
          (s.write head digest i).expected (head s.candidate).bytes).1)⟩
        (state.conditional digest (s.write head digest i).expected (head s.candidate).bytes).2
  | look {w w' : World ι Sha256 V R} {state : InMemoryObjectStore} {i : ι}
      {found : Except RuntimeError V} : StoreRun head digest publishers genesis w state →
      Step head digest publishers w (.looked i found .fine) w' →
      StoreRun head digest publishers genesis w' state
  | other {w w' : World ι Sha256 V R} {state : InMemoryObjectStore} :
      StoreRun head digest publishers genesis w state →
      Step head digest publishers w .other w' → StoreRun head digest publishers genesis w' state

/-- The store in memory has an answer for every write of a call. -/
theorem StoreRun.exists_replace {s : Writing V R}
    (h : StoreRun head digest publishers genesis w state)
    (hholds : state.Holds (fun e => (head e.table).bytes) w.register)
    (hphase : w.phase i = .writing s) :
    ∃ w', StoreRun head digest publishers genesis w' (state.conditional digest
      (s.write head digest i).expected (head s.candidate).bytes).2 := by
  obtain ⟨r, hanswer, hafter⟩ := @InMemoryObjectStore.conditional_answers (Entry ι V) digest
    (fun e => (head e.table).bytes) state w.register (s.write head digest i).expected
    ⟨s.candidate, some i⟩ hholds
  exact ⟨_, h.replace hphase hanswer.weaken hafter⟩

/-- Calls on the store in memory are a run that is clear for every call. -/
theorem StoreRun.run (h : StoreRun head digest publishers genesis w state) (i : ι) :
    Run head digest publishers (Clear head digest publishers i) genesis w ∧
      state.Holds (fun e => (head e.table).bytes) w.register := by
  induction h with
  | start outcomes => exact ⟨.start, rfl, rfl⟩
  | replace _ hphase hanswer hholds ih =>
    obtain ⟨hrun, hbefore⟩ := ih
    refine ⟨hrun.step ?_ (.replace hphase hanswer), hholds⟩
    intro _ _ _ hin
    rw [hbefore.inFlight] at hin
    cases hin
  | look _ hstep ih =>
    obtain ⟨hrun, hholds⟩ := ih
    refine ⟨hrun.step ?_ hstep, ?_⟩
    · exact fun _ _ v _ => (publishers i).not_unread v
    cases hstep with
    | reconcile _ _ => exact hholds
    | repin _ _ => exact hholds
  | other _ hstep ih =>
    obtain ⟨hrun, hholds⟩ := ih
    refine ⟨hrun.step ?_ hstep, ?_⟩
    · exact trivial
    cases hstep with
    | land hland =>
      cases hland with
      | intro hin _ =>
        rw [hholds.inFlight] at hin
        cases hin
    | _ => exact hholds

/-- On the store in memory, whatever answers a test asks it for, no call is misreported. -/
theorem StoreRun.not_misreported (hlaws : Lawful head publishers Valid) (hgenesis : Valid genesis)
    (h : StoreRun head digest publishers genesis w state)
    (hinj : Set.InjOn digest (headBytes head w.register.values)) (i : ι) : ¬ Misreported w i :=
  ((h.run i).1.settled hlaws hgenesis hinj).not_misreported

end Store

end Publication

end Otmp
