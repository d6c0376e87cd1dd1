import Mathlib.Data.Set.Function
import Otmp.Runtime.Publication

/-!
# Safety of the publication loop

The written tables form a chain in which each is built on its predecessor. A write in flight
expects some table of the chain; once a later table is current it is dead. This holds in every
run. While the steps of a call are clear, the call has at most the candidate in the chain that it is
publishing, and a look at a later table decides by the key whether it has; so an error that is not
indeterminate leaves the call without a table.
-/

namespace Otmp

open Foundation

namespace Publication

variable {ι T V R : Type}

/-- What publication relies on: a candidate continues the head of its parent, records its own
result under its key and keeps what was recorded before. Reads that fail change nothing of what a
look returns but make it fail. -/
structure Lawful (head : V → Head) (publishers : ι → Publisher V R) (Valid : V → Prop) : Prop where
  found : ∀ {i reads v answer}, (publishers i).replay reads v = .ok answer →
    (publishers i).found v = .ok answer
  read : ∀ {i reads v answer}, ¬ (publishers i).Unread reads v →
    (publishers i).found v = .ok answer → (publishers i).replay reads v = .ok answer
  unread : ∀ {i reads v}, (publishers i).Unread reads v →
    ∃ message, (publishers i).replay reads v = .error (.sqlite message)
  valid : ∀ {i p v r}, Valid p → (publishers i).found p = .ok none →
    (publishers i).Builds p (.ok (v, r)) → Valid v
  tableId : ∀ {i p v r}, Valid p → (publishers i).Builds p (.ok (v, r)) →
    (head v).tableId = (head p).tableId
  revision : ∀ {i p v r}, Valid p → (publishers i).Builds p (.ok (v, r)) →
    (head v).rootRevision = (head p).rootRevision + 1
  records : ∀ {i p v r}, Valid p → (publishers i).found p = .ok none →
    (publishers i).Builds p (.ok (v, r)) → (publishers i).found v = .ok (some r)
  keeps : ∀ {i j p v r result}, Valid p → (publishers j).found p = .ok none →
    (publishers j).Builds p (.ok (v, r)) → (publishers i).found p = .ok (some result) →
    (publishers i).found v = .ok (some result)

/-- A chain of written tables: each is built by its author on the one before. -/
inductive Chain (publishers : ι → Publisher V R) (genesis : V) : List (Entry ι V) → Prop
  | genesis : Chain publishers genesis [⟨genesis, none⟩]
  | publish {e : Entry ι V} {rest : List (Entry ι V)} {i : ι} {v : V} {r : R} :
      Chain publishers genesis (e :: rest) → (publishers i).found e.table = .ok none →
      (publishers i).Builds e.table (.ok (v, r)) →
      Chain publishers genesis (⟨v, some i⟩ :: e :: rest)

/-- The bytes of the heads of tables, on which the token has to be injective. -/
def headBytes (head : V → Head) (values : List (Entry ι V)) : Set Bytes :=
  {bytes | ∃ e ∈ values, bytes = (head e.table).bytes}

variable {head : V → Head} {token : Bytes → T} {publishers : ι → Publisher V R}
  {Valid : V → Prop} {genesis : V} {values : List (Entry ι V)}

section Chains

variable (hlaws : Lawful head publishers Valid) (hgenesis : Valid genesis)

include hlaws hgenesis

/-- All tables of a chain are valid. -/
theorem Chain.valid (h : Chain publishers genesis values) : ∀ e ∈ values, Valid e.table := by
  induction h with
  | genesis => exact List.forall_mem_singleton.mpr hgenesis
  | publish _ hreplay hbuilds ih =>
    exact List.forall_mem_cons.mpr ⟨hlaws.valid (ih _ List.mem_cons_self) hreplay hbuilds, ih⟩

/-- All tables of a chain have one identity. -/
theorem Chain.tableId (h : Chain publishers genesis values) :
    ∀ e ∈ values, (head e.table).tableId = (head genesis).tableId := by
  induction h with
  | genesis => exact List.forall_mem_singleton.mpr rfl
  | publish hchain _ hbuilds ih =>
    have hvalid := hchain.valid hlaws hgenesis _ List.mem_cons_self
    refine List.forall_mem_cons.mpr ⟨?_, ih⟩
    exact (hlaws.tableId hvalid hbuilds).trans (ih _ List.mem_cons_self)

/-- The revisions decrease from the latest table. -/
theorem Chain.revisions (h : Chain publishers genesis values) :
    values.Pairwise fun e e' => (head e'.table).rootRevision < (head e.table).rootRevision := by
  induction h with
  | genesis => exact List.pairwise_singleton _ _
  | publish hchain _ hbuilds ih =>
    have hvalid := hchain.valid hlaws hgenesis _ List.mem_cons_self
    have hrevision := hlaws.revision hvalid hbuilds
    refine List.pairwise_cons.mpr ⟨List.forall_mem_cons.mpr ⟨?_, fun e he => ?_⟩, ih⟩
    · exact (Nat.lt_succ_self _).trans_eq hrevision.symm
    · have hlt := (List.pairwise_cons.mp ih).1 e he
      exact (Nat.lt_succ_of_lt hlt).trans_eq hrevision.symm

/-- What one table of a chain records, the latest one records. -/
theorem Chain.found (h : Chain publishers genesis values) {e current : Entry ι V} {i : ι}
    {result : R} (he : e ∈ values) (hfound : (publishers i).found e.table = .ok (some result))
    (hcurrent : values.head? = some current) :
    (publishers i).found current.table = .ok (some result) := by
  induction h generalizing current with
  | genesis =>
    rw [List.mem_singleton.mp he] at hfound
    obtain rfl := Option.some.inj hcurrent
    exact hfound
  | publish hchain hnone hbuilds ih =>
    obtain rfl := Option.some.inj hcurrent
    rcases List.mem_cons.mp he with rfl | he
    · exact hfound
    · have hvalid := hchain.valid hlaws hgenesis _ List.mem_cons_self
      exact hlaws.keeps hvalid hnone hbuilds (ih he rfl)

/-- The author of a table finds its key recorded in the latest one. -/
theorem Chain.found_author (h : Chain publishers genesis values) {e current : Entry ι V} {i : ι}
    (he : e ∈ values) (hauthor : e.author = some i) (hcurrent : values.head? = some current) :
    ∃ result, (publishers i).found current.table = .ok (some result) := by
  suffices hown : ∃ result, (publishers i).found e.table = .ok (some result) by
    obtain ⟨result, hresult⟩ := hown
    exact ⟨result, h.found hlaws hgenesis he hresult hcurrent⟩
  induction h generalizing current with
  | genesis =>
    rw [List.mem_singleton.mp he] at hauthor
    cases hauthor
  | publish hchain hnone hbuilds ih =>
    rcases List.mem_cons.mp he with rfl | he
    · cases hauthor
      have hvalid := hchain.valid hlaws hgenesis _ List.mem_cons_self
      exact ⟨_, hlaws.records hvalid hnone hbuilds⟩
    · exact ih he rfl

/-- The current table of a chain differs in its token from the tables below it. -/
theorem Chain.token_ne (h : Chain publishers genesis values)
    (hinj : Set.InjOn token (headBytes head values))
    {e current : Entry ι V} (hcurrent : values.head? = some current) (he : e ∈ values.tail) :
    entryToken head token current ≠ entryToken head token e := by
  intro htoken
  have hrevisions := h.revisions hlaws hgenesis
  cases values with
  | nil => cases hcurrent
  | cons first rest =>
    obtain rfl := Option.some.inj hcurrent
    have hlt := (List.pairwise_cons.mp hrevisions).1 e he
    have hbytes := hinj ⟨first, List.mem_cons_self, rfl⟩ ⟨e, List.mem_cons_of_mem _ he, rfl⟩ htoken
    rw [Head.bytes_injective hbytes] at hlt
    exact lt_irrefl _ hlt

end Chains

/-- A write that expects a table below the current one. -/
def Dead (head : V → Head) (token : Bytes → T) (values : List (Entry ι V))
    (v : ConditionalWrite T (Entry ι V)) : Prop :=
  ∃ e ∈ values.tail, v.expected = some (entryToken head token e)

/-- A write of a candidate that its author has built on a table of the chain. -/
def Admitted (head : V → Head) (token : Bytes → T) (publishers : ι → Publisher V R)
    (values : List (Entry ι V)) (v : ConditionalWrite T (Entry ι V)) : Prop :=
  ∃ e ∈ values, ∃ i r, v.expected = some (entryToken head token e) ∧
    v.value.author = some i ∧ (publishers i).found e.table = .ok none ∧
    (publishers i).Builds e.table (.ok (v.value.table, r))

/-- A candidate that a call has built on a table of the chain. -/
structure Grounded (head : V → Head) (publishers : ι → Publisher V R) (genesis : V)
    (values : List (Entry ι V)) (i : ι) (s : Writing V R) : Prop where
  tableId : s.tableId = (head genesis).tableId
  parent : ∃ e ∈ values, e.table = s.parent
  fresh : (publishers i).found s.parent = .ok none
  built : (publishers i).Builds s.parent (.ok (s.candidate, s.result))

/-- What is known of a call where it is in its loop: it builds on tables of the chain, and what it
returns is found in the current one. -/
def Placed (head : V → Head) (publishers : ι → Publisher V R) (genesis : V)
    (values : List (Entry ι V)) (i : ι) : Phase V R → Prop
  | .idle => True
  | .attempting a => a.tableId = (head genesis).tableId ∧ ∃ e ∈ values, e.table = a.parent
  | .writing s | .reconciling s | .repinning s => Grounded head publishers genesis values i s
  | .returned (.ok result) => ∃ e, values.head? = some e ∧
      (publishers i).found e.table = .ok (some result)
  | .returned (.error _) => True

/-- A call has written no table and has no write in flight that may be applied. -/
structure Quiet (head : V → Head) (token : Bytes → T) (r : Register T (Entry ι V)) (i : ι) :
    Prop where
  unwritten : ∀ e ∈ r.values, e.author ≠ some i
  dead : ∀ v ∈ r.inFlight, v.value.author = some i → Dead head token r.values v

/-- A call has written at most the candidate that it is publishing. -/
structure Pending (head : V → Head) (token : Bytes → T) (r : Register T (Entry ι V)) (i : ι)
    (s : Writing V R) : Prop where
  own : ∀ e ∈ r.values, e.author = some i → e.table = s.candidate
  inFlight : ∀ v ∈ r.inFlight, v.value.author = some i →
    Dead head token r.values v ∨ v = s.write head token i
  quiet : s.indeterminate = 0 → Quiet head token r i

/-- What is known besides of a call whose steps were clear. -/
def Settled (head : V → Head) (token : Bytes → T) (r : Register T (Entry ι V)) (i : ι) :
    Phase V R → Prop
  | .idle | .attempting _ => Quiet head token r i
  | .writing s | .reconciling s => Pending head token r i s
  | .repinning s => Pending head token r i s ∧
      ((∃ e ∈ r.values.tail, e.table = s.parent) ∨ Quiet head token r i)
  | .returned (.ok _) => True
  | .returned (.error e) => e ≠ .publicationIndeterminate → Quiet head token r i

/-- A change of the register that is not a call's own. -/
structure Others (head : V → Head) (token : Bytes → T) (i : ι) (r r' : Register T (Entry ι V)) :
    Prop where
  values : r'.values = r.values ∨ ∃ v : ConditionalWrite T (Entry ι V),
    r.Matches (entryToken head token) v ∧ r'.values = v.value :: r.values ∧
    (v.value.author = some i → v ∈ r.inFlight)
  inFlight : ∀ v ∈ r'.inFlight, v.value.author = some i → v ∈ r.inFlight

section Register

variable {r r' : Register T (Entry ι V)} {i : ι} {v : ConditionalWrite T (Entry ι V)}

/-- A dead write stays dead when a table is written. -/
theorem Dead.cons (h : Dead head token values v) (e : Entry ι V) :
    Dead head token (e :: values) v := by
  obtain ⟨e', he', hv⟩ := h
  exact ⟨e', List.mem_of_mem_tail he', hv⟩

/-- A step in which nothing changes leaves the others alone. -/
theorem Others.refl (r : Register T (Entry ι V)) (i : ι) : Others head token i r r :=
  ⟨.inl rfl, fun _ hv _ => hv⟩

/-- The tables are kept when others act. -/
theorem Others.subset (h : Others head token i r r') : r.values ⊆ r'.values := by
  rcases h.values with heq | ⟨v, -, heq, -⟩
  · exact heq ▸ List.Subset.refl _
  · exact heq ▸ List.subset_cons_self _ _

/-- The tables below the current one stay below it when others act. -/
theorem Others.tail_subset (h : Others head token i r r') : r.values.tail ⊆ r'.values.tail := by
  rcases h.values with heq | ⟨v, -, heq, -⟩
  · exact heq ▸ List.Subset.refl _
  · exact heq ▸ List.tail_subset _

/-- A dead write stays dead when others act. -/
theorem Others.dead (h : Others head token i r r') (hv : Dead head token r.values v) :
    Dead head token r'.values v := by
  obtain ⟨e, he, hexpected⟩ := hv
  exact ⟨e, h.tail_subset he, hexpected⟩

/-- The answer to a write is an act of others for those who have not made the write. -/
theorem Others.of_answers {outcome : ConditionalWriteOutcome} {exact : Prop}
    (h : r.Answers (entryToken head token) exact v outcome r')
    (hauthor : v.value.author ≠ some i) : Others head token i r r' := by
  obtain ⟨hvalues, hmem⟩ := h.effect
  constructor
  · rcases hvalues with heq | ⟨hmatch, heq⟩
    · exact .inl heq
    · exact .inr ⟨v, hmatch, heq, fun hi => absurd hi hauthor⟩
  · intro v' hv hi
    rcases hmem v' hv with rfl | hv
    · exact absurd hi hauthor
    · exact hv

/-- A write in flight that is applied is an act of others. -/
theorem Others.of_lands (h : r.Lands (entryToken head token) r') : Others head token i r r' := by
  cases h with
  | @intro v hv hmatch => exact ⟨.inr ⟨v, hmatch, rfl, fun _ => hv⟩, fun _ hv _ => hv⟩

end Register

section Invariant

variable {r r' : Register T (Entry ι V)} {i : ι} {v : ConditionalWrite T (Entry ι V)}

/-- A dead write is not applied, because the head that it expects is not current any more. -/
theorem Dead.not_matches (hlaws : Lawful head publishers Valid) (hgenesis : Valid genesis)
    (hchain : Chain publishers genesis r.values)
    (hinj : Set.InjOn token (headBytes head r.values)) (h : Dead head token r.values v) :
    ¬ r.Matches (entryToken head token) v := by
  obtain ⟨e, he, hexpected⟩ := h
  intro hmatch
  rw [Register.Matches, hexpected, Option.map_eq_some_iff] at hmatch
  obtain ⟨current, hcurrent, htoken⟩ := hmatch
  exact hchain.token_ne hlaws hgenesis hinj hcurrent he htoken

/-- An admitted write that is applied continues the chain. -/
theorem Admitted.write (hlaws : Lawful head publishers Valid) (hgenesis : Valid genesis)
    (hinj : Set.InjOn token (headBytes head r.values))
    (h : Admitted head token publishers r.values v)
    (hmatch : r.Matches (entryToken head token) v) (hchain : Chain publishers genesis r.values) :
    Chain publishers genesis (v.value :: r.values) := by
  obtain ⟨e, he, i, result, hexpected, hauthor, hreplay, hbuilds⟩ := h
  obtain ⟨expected, table, author⟩ := v
  rw [Register.Matches, hexpected, Option.map_eq_some_iff] at hmatch
  obtain ⟨current, hcurrent, htoken⟩ := hmatch
  obtain rfl : author = some i := hauthor
  cases hvalues : r.values with
  | nil =>
    rw [hvalues] at hcurrent
    cases hcurrent
  | cons first rest =>
    rw [hvalues] at hcurrent he hchain hinj
    obtain rfl := Option.some.inj hcurrent
    rcases List.mem_cons.mp he with rfl | hbelow
    · exact .publish hchain hreplay hbuilds
    · exact absurd htoken (hchain.token_ne hlaws hgenesis hinj hcurrent hbelow)

/-- A write stays admitted when a table is written. -/
theorem Admitted.cons (h : Admitted head token publishers values v) (e : Entry ι V) :
    Admitted head token publishers (e :: values) v := by
  obtain ⟨e', he', hrest⟩ := h
  exact ⟨e', List.mem_cons_of_mem _ he', hrest⟩

section Changes

variable (hlaws : Lawful head publishers Valid) (hgenesis : Valid genesis)
  (hchain : Chain publishers genesis r.values)
  (hinj : Set.InjOn token (headBytes head r.values)) (hothers : Others head token i r r')

include hlaws hgenesis hchain hinj hothers

/-- A quiet call stays quiet while others act. -/
theorem Quiet.others (h : Quiet head token r i) : Quiet head token r' i := by
  refine ⟨?_, fun v hv hauthor => hothers.dead (h.dead v (hothers.inFlight v hv hauthor) hauthor)⟩
  rcases hothers.values with heq | ⟨v, hmatch, heq, hown⟩
  · exact heq ▸ h.unwritten
  · rw [heq, List.forall_mem_cons]
    refine ⟨fun hauthor => ?_, h.unwritten⟩
    exact (h.dead v (hown hauthor) hauthor).not_matches hlaws hgenesis hchain hinj hmatch

/-- A call that is publishing a candidate keeps to it while others act. -/
theorem Pending.others {s : Writing V R} (h : Pending head token r i s) :
    Pending head token r' i s where
  own := by
    rcases hothers.values with heq | ⟨v, hmatch, heq, hown⟩
    · exact heq ▸ h.own
    · rw [heq, List.forall_mem_cons]
      refine ⟨fun hauthor => ?_, h.own⟩
      rcases h.inFlight v (hown hauthor) hauthor with hdead | rfl
      · exact absurd hmatch (hdead.not_matches hlaws hgenesis hchain hinj)
      · rfl
  inFlight v hv hauthor := (h.inFlight v (hothers.inFlight v hv hauthor) hauthor).imp_left
    hothers.dead
  quiet hzero := (h.quiet hzero).others hlaws hgenesis hchain hinj hothers

/-- What is known of a call stays known while others act. -/
theorem Settled.others {phase : Phase V R} (h : Settled head token r i phase) :
    Settled head token r' i phase := by
  cases phase with
  | idle => exact Quiet.others hlaws hgenesis hchain hinj hothers h
  | attempting a => exact Quiet.others hlaws hgenesis hchain hinj hothers h
  | writing s => exact Pending.others hlaws hgenesis hchain hinj hothers h
  | reconciling s => exact Pending.others hlaws hgenesis hchain hinj hothers h
  | repinning s =>
    obtain ⟨hpending, hparent⟩ := h
    refine ⟨hpending.others hlaws hgenesis hchain hinj hothers, ?_⟩
    rcases hparent with ⟨e, he, hparent⟩ | hquiet
    · exact .inl ⟨e, hothers.tail_subset he, hparent⟩
    · exact .inr (hquiet.others hlaws hgenesis hchain hinj hothers)
  | returned result =>
    cases result with
    | error e => exact fun hne => (h hne).others hlaws hgenesis hchain hinj hothers
    | ok result => exact trivial

end Changes

end Invariant

section Placing

variable {values' : List (Entry ι V)} {i : ι} {s : Writing V R}

/-- A candidate stays grounded when tables are written. -/
theorem Grounded.mono (h : Grounded head publishers genesis values i s)
    (hvalues : values <:+ values') : Grounded head publishers genesis values' i s := by
  obtain ⟨e, he, hparent⟩ := h.parent
  exact { h with parent := ⟨e, hvalues.subset he, hparent⟩ }

variable (hlaws : Lawful head publishers Valid) (hgenesis : Valid genesis)

include hlaws hgenesis

/-- What a table of a chain records is found in the current one. -/
theorem Chain.exists_current (h : Chain publishers genesis values) {e : Entry ι V} {result : R}
    (he : e ∈ values) (hfound : (publishers i).found e.table = .ok (some result)) :
    ∃ current, values.head? = some current ∧
      (publishers i).found current.table = .ok (some result) := by
  cases hcurrent : values.head? with
  | none =>
    rw [List.head?_eq_none_iff.mp hcurrent] at he
    cases he
  | some current => exact ⟨current, rfl, h.found hlaws hgenesis he hfound hcurrent⟩

/-- A call stays placed when tables are written. -/
theorem Placed.mono {phase : Phase V R} (hchain : Chain publishers genesis values')
    (hvalues : values <:+ values') (h : Placed head publishers genesis values i phase) :
    Placed head publishers genesis values' i phase := by
  cases phase with
  | idle => exact trivial
  | attempting a =>
    obtain ⟨htable, e, he, hparent⟩ := h
    exact ⟨htable, e, hvalues.subset he, hparent⟩
  | writing s => exact Grounded.mono h hvalues
  | reconciling s => exact Grounded.mono h hvalues
  | repinning s => exact Grounded.mono h hvalues
  | returned result =>
    cases result with
    | error e => exact trivial
    | ok result =>
      obtain ⟨e, he, hfound⟩ := h
      have hmem := hvalues.subset (List.mem_of_mem_head? he)
      exact hchain.exists_current hlaws hgenesis hmem hfound

/-- The start of the loop places the call. -/
theorem placed_attempt {a : Attempt V} {reads : KeyReads} {built : Except RuntimeError (V × R)}
    {stored : Except RuntimeError Unit} (hchain : Chain publishers genesis values)
    (h : Placed head publishers genesis values i (.attempting a))
    (hbuilt : (publishers i).replay reads a.parent = .ok none →
      (publishers i).Builds a.parent built) :
    Placed head publishers genesis values i
      ((publishers i).attempt head a reads built stored) := by
  obtain ⟨htable, e, he, hparent⟩ := h
  unfold Publisher.attempt
  split
  · exact trivial
  · cases hreplay : (publishers i).replay reads a.parent with
    | error e => exact trivial
    | ok found =>
      have hfound := hlaws.found hreplay
      cases found with
      | some result => exact hchain.exists_current hlaws hgenesis he (hparent ▸ hfound)
      | none =>
        match built, stored with
        | .error _, _ => exact trivial
        | .ok _, .error _ => exact trivial
        | .ok (candidate, result), .ok _ =>
          exact ⟨htable, ⟨e, he, hparent⟩, hfound, hbuilt hreplay⟩

/-- The answer to a write places the call. -/
theorem placed_replace {r r' : Register T (Entry ι V)} {outcome : ConditionalWriteOutcome}
    (hchain : Chain publishers genesis r.values)
    (h : Grounded head publishers genesis r.values i s)
    (hanswer : r.Answers (entryToken head token) False (s.write head token i) outcome r') :
    Placed head publishers genesis r'.values i (afterReplace s outcome) := by
  have hkept := h.mono hanswer.suffix
  cases hanswer with
  | applied hmatch =>
    obtain ⟨e, he, htable⟩ := h.parent
    have hvalid := htable ▸ hchain.valid hlaws hgenesis e he
    exact ⟨_, rfl, hlaws.records hvalid h.fresh h.built⟩
  | conflict _ => exact hkept
  | lostAfter hmatch => exact { hkept with }
  | lostBefore => exact { hkept with }
  | delayed => exact { hkept with }

omit hgenesis in
/-- The pin after a lost answer places the call. -/
theorem placed_reconcile {reads : KeyReads} {found : Except RuntimeError V}
    (h : Grounded head publishers genesis values i s)
    (hfound : ∀ table, found = .ok table → ∃ e, values.head? = some e ∧ e.table = table) :
    Placed head publishers genesis values i ((publishers i).reconcile head s reads found) := by
  match found with
  | .error e =>
    rw [Publisher.reconcile]
    split
    · exact h
    · exact trivial
  | .ok table =>
    obtain ⟨current, hcurrent, rfl⟩ := hfound table rfl
    rw [Publisher.reconcile]
    split
    · exact trivial
    · cases hreplay : (publishers i).replay reads current.table with
      | error e => exact trivial
      | ok found =>
        cases found with
        | some result => exact ⟨current, hcurrent, hlaws.found hreplay⟩
        | none =>
          dsimp only
          split
          · split
            · exact h
            · exact trivial
          · exact h

omit hgenesis in
/-- The pin of the winner places the call. -/
theorem placed_repin {reads : KeyReads} {found : Except RuntimeError V}
    (h : Grounded head publishers genesis values i s)
    (hfound : ∀ table, found = .ok table → ∃ e, values.head? = some e ∧ e.table = table) :
    Placed head publishers genesis values i ((publishers i).repin head s reads found) := by
  match found with
  | .error e => exact trivial
  | .ok table =>
    obtain ⟨current, hcurrent, rfl⟩ := hfound table rfl
    rw [Publisher.repin]
    split
    · exact trivial
    · cases hreplay : (publishers i).replay reads current.table with
      | error e => exact trivial
      | ok found =>
        cases found with
        | some result => exact ⟨current, hcurrent, hlaws.found hreplay⟩
        | none =>
          dsimp only
          split
          · exact trivial
          · exact ⟨h.tableId, current, List.mem_of_mem_head? hcurrent, rfl⟩

end Placing

section Own

variable {r r' : Register T (Entry ι V)} {i : ι} {s : Writing V R} {w w' : World ι T V R}
  {current : Entry ι V}

/-- The members of a list are its head and those below. -/
theorem mem_tail_of_head? {e : Entry ι V} (he : e ∈ values) (hcurrent : values.head? = some current)
    (hne : e ≠ current) : e ∈ values.tail := by
  cases values with
  | nil => cases he
  | cons first rest =>
    obtain rfl := Option.some.inj hcurrent
    exact (List.mem_cons.mp he).resolve_left hne

/-- A write in flight that matches is unresolved, and so is a table that was written. -/
theorem Quiet.of_resolved (h : Pending head token r i s) (hresolved : ¬ Unresolved head token r i)
    (hparent : r.Matches (entryToken head token) (s.write head token i) ∨
      ∃ e ∈ r.values.tail, e.table = s.parent) : Quiet head token r i where
  unwritten e he hauthor := hresolved (.inl ⟨e, he, hauthor⟩)
  dead v hv hauthor := by
    rcases h.inFlight v hv hauthor with hdead | rfl
    · exact hdead
    rcases hparent with hmatch | ⟨e, he, htable⟩
    · exact absurd (.inr ⟨_, hv, hauthor, hmatch⟩) hresolved
    · exact ⟨e, he, by rw [entryToken, htable]; rfl⟩

/-- A call whose parent is not the current table is overtaken. -/
theorem Grounded.overtaken (h : Grounded head publishers genesis r.values i s)
    (hcurrent : r.values.head? = some current) (hne : current.table ≠ s.parent) :
    ∃ e ∈ r.values.tail, e.table = s.parent := by
  obtain ⟨e, he, htable⟩ := h.parent
  refine ⟨e, mem_tail_of_head? he hcurrent fun heq => hne ?_, htable⟩
  rw [← heq, htable]

/-- The current table is the parent of a call, whose write matches, or the call is overtaken. -/
theorem Grounded.matches_or_overtaken (token : Bytes → T)
    (h : Grounded head publishers genesis r.values i s)
    (hcurrent : r.values.head? = some current) :
    r.Matches (entryToken head token) (s.write head token i) ∧ current.table = s.parent ∨
      ∃ e ∈ r.values.tail, e.table = s.parent := by
  by_cases heq : current.table = s.parent
  · refine .inl ⟨?_, heq⟩
    rw [Register.Matches, hcurrent, Option.map_some, entryToken, heq]
    rfl
  · exact .inr (h.overtaken hcurrent heq)

section Laws

variable (hlaws : Lawful head publishers Valid) (hgenesis : Valid genesis)
  (hchain : Chain publishers genesis r.values)

include hlaws hgenesis hchain

/-- A call whose parent is overtaken and whose key is not recorded has written nothing. -/
theorem Pending.quiet_of_found (h : Pending head token r i s)
    (hparent : ∃ e ∈ r.values.tail, e.table = s.parent)
    (hcurrent : r.values.head? = some current)
    (hfound : (publishers i).found current.table = .ok none) : Quiet head token r i where
  unwritten e he hauthor := by
    obtain ⟨result, hresult⟩ := hchain.found_author hlaws hgenesis he hauthor hcurrent
    rw [hfound] at hresult
    cases hresult
  dead v hv hauthor := by
    rcases h.inFlight v hv hauthor with hdead | rfl
    · exact hdead
    · obtain ⟨e, he, htable⟩ := hparent
      exact ⟨e, he, by rw [entryToken, htable]; rfl⟩

/-- A call that is not quiet finds its key or its parent, so that its look has an answer. -/
theorem Pending.exists_answer (hinj : Set.InjOn token (headBytes head r.values))
    (hg : Grounded head publishers genesis r.values i s) (h : Pending head token r i s)
    (hcurrent : r.values.head? = some current) (hunresolved : Unresolved head token r i) :
    ∃ answer, (publishers i).found current.table = .ok answer := by
  rcases hunresolved with ⟨e, he, hauthor⟩ | ⟨v, hv, hauthor, hmatch⟩
  · obtain ⟨result, hresult⟩ := hchain.found_author hlaws hgenesis he hauthor hcurrent
    exact ⟨_, hresult⟩
  · rcases h.inFlight v hv hauthor with hdead | rfl
    · exact absurd hmatch (hdead.not_matches hlaws hgenesis hchain hinj)
    rcases hg.matches_or_overtaken token hcurrent with ⟨-, heq⟩ | ⟨e, he, htable⟩
    · exact ⟨none, heq ▸ hg.fresh⟩
    · have hdead : Dead head token r.values (s.write head token i) :=
        ⟨e, he, by rw [entryToken, htable]; rfl⟩
      exact absurd hmatch (hdead.not_matches hlaws hgenesis hchain hinj)

/-- A call whose look fails in a clear step has written nothing. -/
theorem Pending.quiet_of_error (hinj : Set.InjOn token (headBytes head r.values))
    (hg : Grounded head publishers genesis r.values i s) (h : Pending head token r i s)
    (hcurrent : r.values.head? = some current) {reads : KeyReads}
    (hclear : Unresolved head token r i → ¬ (publishers i).Unread reads current.table)
    {error : RuntimeError} (hreplay : (publishers i).replay reads current.table = .error error) :
    Quiet head token r i := by
  have hresolved : ¬ Unresolved head token r i := by
    intro hunresolved
    obtain ⟨answer, hanswer⟩ :=
      h.exists_answer hlaws hgenesis hchain hinj hg hcurrent hunresolved
    rw [hlaws.read (hclear hunresolved) hanswer] at hreplay
    cases hreplay
  exact .of_resolved h hresolved ((hg.matches_or_overtaken token hcurrent).imp_left And.left)

omit hlaws hgenesis hchain in
/-- The start of the loop settles the call, or makes its first write from a pin on which nothing of
it is written yet. -/
theorem settled_attempt {p : Publisher V R} {a : Attempt V} {reads : KeyReads}
    {built : Except RuntimeError (V × R)} {stored : Except RuntimeError Unit}
    (h : Quiet head token r i) : Settled head token r i (p.attempt head a reads built stored) := by
  unfold Publisher.attempt
  split
  · exact fun _ => h
  · cases p.replay reads a.parent with
    | error e => exact fun _ => h
    | ok found =>
      cases found with
      | some result => exact trivial
      | none =>
        match built, stored with
        | .error _, _ => exact fun _ => h
        | .ok _, .error _ => exact fun _ => h
        | .ok (candidate, result), .ok _ =>
          exact ⟨fun e he hauthor => absurd hauthor (h.unwritten e he),
            fun v hv hauthor => .inl (h.dead v hv hauthor), fun _ => h⟩

/-- A call that is answered a conflict in a clear step is overtaken or has written nothing. -/
theorem Pending.conflict (hinj : Set.InjOn token (headBytes head r.values))
    (hg : Grounded head publishers genesis r.values i s) (h : Pending head token r i s)
    (hclear : r.Matches (entryToken head token) (s.write head token i) →
      s.write head token i ∉ r.inFlight) :
    (∃ e ∈ r.values.tail, e.table = s.parent) ∨ Quiet head token r i := by
  obtain ⟨e, he, htable⟩ := hg.parent
  cases hcurrent : r.values.head? with
  | none =>
    rw [List.head?_eq_none_iff.mp hcurrent] at he
    cases he
  | some current =>
    rcases hg.matches_or_overtaken token hcurrent with ⟨hmatch, heq⟩ | hovertaken
    · refine .inr (.of_resolved h ?_ (.inl hmatch))
      rintro (⟨e, he, hauthor⟩ | ⟨v, hv, hauthor, hv'⟩)
      · obtain ⟨result, hresult⟩ := hchain.found_author hlaws hgenesis he hauthor hcurrent
        rw [heq, hg.fresh] at hresult
        cases hresult
      · rcases h.inFlight v hv hauthor with hdead | rfl
        · exact hdead.not_matches hlaws hgenesis hchain hinj hv'
        · exact hclear hmatch hv
    · exact .inl hovertaken

/-- The answer to the write of the head. -/
theorem settled_replace {outcome : ConditionalWriteOutcome}
    (hinj : Set.InjOn token (headBytes head r.values))
    (hg : Grounded head publishers genesis r.values i s) (h : Pending head token r i s)
    (hclear : outcome = .conflict → r.Matches (entryToken head token) (s.write head token i) →
      s.write head token i ∉ r.inFlight)
    (hanswer : r.Answers (entryToken head token) False (s.write head token i) outcome r') :
    Settled head token r' i (afterReplace s outcome) := by
  have hown : ∀ e ∈ (s.write head token i).value :: r.values, e.author = some i →
      e.table = s.candidate :=
    List.forall_mem_cons.mpr ⟨fun _ => rfl, h.own⟩
  have hlost : s.indeterminate + 1 = 0 → Quiet head token r' i :=
    fun hzero => absurd hzero (Nat.succ_ne_zero _)
  cases hanswer with
  | applied hmatch => exact trivial
  | conflict _ => exact ⟨h, h.conflict hlaws hgenesis hchain hinj hg (hclear rfl)⟩
  | lostAfter hmatch =>
    refine ⟨hown, fun v hv hauthor => ?_, hlost⟩
    exact (h.inFlight v hv hauthor).imp_left fun hdead => hdead.cons _
  | lostBefore => exact ⟨h.own, h.inFlight, hlost⟩
  | delayed =>
    refine ⟨h.own, fun v hv hauthor => ?_, hlost⟩
    rcases List.mem_cons.mp hv with rfl | hv
    · exact .inr rfl
    · exact h.inFlight v hv hauthor

/-- The pin after a lost answer settles the call, or sends it on with what its writes have come to
so far. -/
theorem settled_reconcile {reads : KeyReads} {found : Except RuntimeError V}
    (hinj : Set.InjOn token (headBytes head r.values))
    (hg : Grounded head publishers genesis r.values i s) (h : Pending head token r i s)
    (hclear : Unresolved head token r i → ∀ v, found = .ok v → ¬ (publishers i).Unread reads v)
    (hfound : ∀ table, found = .ok table → ∃ e, r.values.head? = some e ∧ e.table = table) :
    Settled head token r i ((publishers i).reconcile head s reads found) := by
  match found with
  | .error e =>
    rw [Publisher.reconcile]
    split
    · exact h
    · exact fun hne => absurd rfl hne
  | .ok table =>
    obtain ⟨current, hcurrent, rfl⟩ := hfound table rfl
    have htable : (head current.table).tableId = s.tableId :=
      (hchain.tableId hlaws hgenesis current (List.mem_of_mem_head? hcurrent)).trans hg.tableId.symm
    rw [Publisher.reconcile, if_neg (not_not.mpr htable)]
    cases hreplay : (publishers i).replay reads current.table with
    | error e =>
      exact fun _ => h.quiet_of_error hlaws hgenesis hchain hinj hg hcurrent
        (fun hunresolved => hclear hunresolved _ rfl) hreplay
    | ok found =>
      cases found with
      | some result => exact trivial
      | none =>
        dsimp only
        split
        · split
          · exact h
          · exact fun hne => absurd rfl hne
        · next hbytes =>
          exact ⟨h, .inl (hg.overtaken hcurrent fun heq => hbytes (by rw [heq]))⟩

/-- The pin of the winner settles the call, or sends it on with what its writes have come to so far.
-/
theorem settled_repin {reads : KeyReads} {found : Except RuntimeError V}
    (hinj : Set.InjOn token (headBytes head r.values))
    (hg : Grounded head publishers genesis r.values i s)
    (h : Settled head token r i (.repinning s))
    (hclear : Unresolved head token r i → ∀ v, found = .ok v → ¬ (publishers i).Unread reads v)
    (hfound : ∀ table, found = .ok table → ∃ e, r.values.head? = some e ∧ e.table = table) :
    Settled head token r i ((publishers i).repin head s reads found) := by
  obtain ⟨hpending, hparent⟩ := h
  match found with
  | .error e =>
    intro hne
    refine hpending.quiet (Nat.eq_zero_of_not_pos fun hpos => hne ?_)
    exact if_pos hpos
  | .ok table =>
    obtain ⟨current, hcurrent, rfl⟩ := hfound table rfl
    have htable : (head current.table).tableId = s.tableId :=
      (hchain.tableId hlaws hgenesis current (List.mem_of_mem_head? hcurrent)).trans hg.tableId.symm
    rw [Publisher.repin, if_neg (not_not.mpr htable)]
    cases hreplay : (publishers i).replay reads current.table with
    | error e =>
      exact fun _ => hpending.quiet_of_error hlaws hgenesis hchain hinj hg hcurrent
        (fun hunresolved => hclear hunresolved _ rfl) hreplay
    | ok found =>
      cases found with
      | some result => exact trivial
      | none =>
        have hquiet : Quiet head token r i := by
          rcases hparent with hparent | hquiet
          · exact hpending.quiet_of_found hlaws hgenesis hchain hparent hcurrent
              (hlaws.found hreplay)
          · exact hquiet
        dsimp only
        split
        · exact fun _ => hquiet
        · exact hquiet

end Laws

end Own

/-- What holds in every world that is reached: the chain grows by candidates, each of them of one
call, and each phase agrees with the chain. -/
structure Sound (head : V → Head) (token : Bytes → T) (publishers : ι → Publisher V R)
    (genesis : V) (w : World ι T V R) : Prop where
  chain : Chain publishers genesis w.register.values
  inFlight : ∀ v ∈ w.register.inFlight, Admitted head token publishers w.register.values v
  calls : ∀ i, Placed head publishers genesis w.register.values i (w.phase i)

section Steps

/-- More tables have more heads, on which the token has to be injective. -/
theorem headBytes_mono {values' : List (Entry ι V)} (h : values <:+ values') :
    headBytes head values ⊆ headBytes head values' := by
  rintro bytes ⟨e, he, hbytes⟩
  exact ⟨e, h.subset he, hbytes⟩

/-- A pin that succeeds is of the current table. -/
theorem Pins.current {w : World ι T V R} {found : Except RuntimeError V} (h : Pins w found)
    {table : V} (hfound : found = .ok table) :
    ∃ e, w.register.values.head? = some e ∧ e.table = table := by
  cases h with
  | @found e he =>
    cases hfound
    exact ⟨e, he, rfl⟩
  | failed e => cases hfound

variable [DecidableEq ι] {w w' : World ι T V R} {event : Event ι T V}
  {meets meets' : World ι T V R → Event ι T V → Prop} {r : Register T (Entry ι V)} {i : ι}

/-- One step keeps the tables that are written. -/
theorem Step.suffix (h : Step head token publishers w event w') :
    w.register.values <:+ w'.register.values := by
  cases h with
  | replace _ hanswer => exact hanswer.suffix
  | land hland => exact hland.suffix
  | _ => exact List.suffix_refl _

/-- A run may be held to less. -/
theorem Run.weaken (h : Run head token publishers meets genesis w)
    (himp : ∀ w event, meets w event → meets' w event) :
    Run head token publishers meets' genesis w := by
  induction h with
  | start => exact .start
  | step _ hmeets hstep ih => exact ih.step (himp _ _ hmeets) hstep

variable (hlaws : Lawful head publishers Valid) (hgenesis : Valid genesis)

include hlaws hgenesis

/-- One call acts and the others look on. -/
theorem Sound.update {phase : Phase V R} (hw : Sound head token publishers genesis w)
    (hchain : Chain publishers genesis r.values)
    (hflight : ∀ v ∈ r.inFlight, Admitted head token publishers r.values v)
    (hvalues : w.register.values <:+ r.values)
    (hown : Placed head publishers genesis r.values i phase) :
    Sound head token publishers genesis ⟨r, Function.update w.phase i phase⟩ := by
  refine ⟨hchain, hflight, fun j => ?_⟩
  by_cases hij : j = i
  · subst hij
    change Placed head publishers genesis r.values j (Function.update w.phase j phase j)
    rw [Function.update_self]
    exact hown
  · change Placed head publishers genesis r.values j (Function.update w.phase i phase j)
    rw [Function.update_of_ne hij]
    exact (hw.calls j).mono hlaws hgenesis hchain hvalues

/-- The invariant is kept by every step of every call and of the store. -/
theorem Sound.step (hw : Sound head token publishers genesis w)
    (hinj : Set.InjOn token (headBytes head w.register.values))
    (h : Step head token publishers w event w') : Sound head token publishers genesis w' := by
  have hrefl := List.suffix_refl w.register.values
  have hwrite : ∀ v, Admitted head token publishers w.register.values v →
      w.register.Matches (entryToken head token) v → Chain publishers genesis w.register.values →
      Chain publishers genesis (v.value :: w.register.values) :=
    fun v hv => hv.write hlaws hgenesis hinj
  cases h with
  | @refuse i e hphase =>
    exact hw.update hlaws hgenesis hw.chain hw.inFlight hrefl trivial
  | @begin i parent hphase hpins =>
    obtain ⟨e, he, rfl⟩ := hpins.current rfl
    have hmem := List.mem_of_mem_head? he
    refine hw.update hlaws hgenesis hw.chain hw.inFlight hrefl ⟨?_, e, hmem, rfl⟩
    exact hw.chain.tableId hlaws hgenesis e hmem
  | @attempt i a reads built stored hphase hbuilt =>
    have hi := hw.calls i
    rw [hphase] at hi
    exact hw.update hlaws hgenesis hw.chain hw.inFlight hrefl
      (placed_attempt hlaws hgenesis hw.chain hi hbuilt)
  | @replace i s outcome r hphase hanswer =>
    have hi := hw.calls i
    rw [hphase] at hi
    have hadmitted : Admitted head token publishers w.register.values (s.write head token i) := by
      obtain ⟨e, he, htable⟩ := hi.parent
      refine ⟨e, he, i, s.result, ?_, rfl, htable ▸ hi.fresh, htable ▸ hi.built⟩
      rw [entryToken, htable]
      rfl
    obtain ⟨hchain, hflight⟩ := hanswer.invariant (P := Chain publishers genesis)
      (Q := Admitted head token publishers) (hwrite _) (fun _ e hv => hv.cons e) hadmitted
      hw.chain hw.inFlight
    exact hw.update hlaws hgenesis hchain hflight hanswer.suffix
      (placed_replace hlaws hgenesis hw.chain hi hanswer)
  | @reconcile i s reads found hphase hpins =>
    have hi := hw.calls i
    rw [hphase] at hi
    exact hw.update hlaws hgenesis hw.chain hw.inFlight hrefl
      (placed_reconcile hlaws hi fun _ => hpins.current)
  | @repin i s reads found hphase hpins =>
    have hi := hw.calls i
    rw [hphase] at hi
    exact hw.update hlaws hgenesis hw.chain hw.inFlight hrefl
      (placed_repin hlaws hi fun _ => hpins.current)
  | @land r hland =>
    obtain ⟨hchain, hflight⟩ := hland.invariant (P := Chain publishers genesis)
      (Q := Admitted head token publishers) hwrite (fun _ e hv => hv.cons e) hw.chain hw.inFlight
    exact ⟨hchain, hflight, fun j => (hw.calls j).mono hlaws hgenesis hchain hland.suffix⟩

/-- The invariant holds in every world whose heads have different tokens. -/
theorem Run.sound (h : Run head token publishers meets genesis w)
    (hinj : Set.InjOn token (headBytes head w.register.values)) :
    Sound head token publishers genesis w := by
  induction h with
  | start =>
    refine ⟨.genesis, ?_, fun i => trivial⟩
    rintro v ⟨⟩
  | step _ _ hstep ih =>
    replace hinj := Set.InjOn.mono (headBytes_mono hstep.suffix) hinj
    exact (ih hinj).step hlaws hgenesis hinj hstep

/-- A step that is clear for a call keeps what is known of it. -/
theorem Settled.step (hw : Sound head token publishers genesis w)
    (hinj : Set.InjOn token (headBytes head w.register.values))
    (hi : Settled head token w.register i (w.phase i))
    (hclear : Clear head token publishers i w event)
    (h : Step head token publishers w event w') :
    Settled head token w'.register i (w'.phase i) := by
  have hupdate : ∀ {j : ι} {phase : Phase V R} {r : Register T (Entry ι V)},
      (j = i → Settled head token r i phase) → (i ≠ j → Others head token i w.register r) →
      Settled head token r i (Function.update w.phase j phase i) := by
    intro j phase r hown hothers
    by_cases hij : i = j
    · subst hij
      rw [Function.update_self]
      exact hown rfl
    · rw [Function.update_of_ne hij]
      exact hi.others hlaws hgenesis hw.chain hinj (hothers hij)
  have hplaced := hw.calls i
  have hrefl : Others head token i w.register w.register := .refl w.register i
  cases h with
  | @refuse j e hphase =>
    refine hupdate (fun hij _ => ?_) fun _ => hrefl
    subst hij
    rw [hphase] at hi
    exact hi
  | @begin j parent hphase hpins =>
    refine hupdate (fun hij => ?_) fun _ => hrefl
    subst hij
    rw [hphase] at hi
    exact hi
  | @attempt j a reads built stored hphase hbuilt =>
    refine hupdate (fun hij => ?_) fun _ => hrefl
    subst hij
    rw [hphase] at hi
    exact settled_attempt hi
  | @replace j s outcome r hphase hanswer =>
    refine hupdate (fun hij => ?_) fun hij => .of_answers hanswer fun hauthor =>
      hij (Option.some.inj hauthor).symm
    subst hij
    rw [hphase] at hi hplaced
    exact settled_replace hlaws hgenesis hw.chain hinj hplaced hi (hclear rfl) hanswer
  | @reconcile j s reads found hphase hpins =>
    refine hupdate (fun hij => ?_) fun _ => hrefl
    subst hij
    rw [hphase] at hi hplaced
    exact settled_reconcile hlaws hgenesis hw.chain hinj hplaced hi (hclear rfl)
      fun _ => hpins.current
  | @repin j s reads found hphase hpins =>
    refine hupdate (fun hij => ?_) fun _ => hrefl
    subst hij
    rw [hphase] at hi hplaced
    exact settled_repin hlaws hgenesis hw.chain hinj hplaced hi (hclear rfl)
      fun _ => hpins.current
  | @land r hland => exact hi.others hlaws hgenesis hw.chain hinj (.of_lands hland)

/-- What is known of a call whose steps were clear. -/
theorem Run.settled (h : Run head token publishers (Clear head token publishers i) genesis w)
    (hinj : Set.InjOn token (headBytes head w.register.values)) :
    Settled head token w.register i (w.phase i) := by
  induction h with
  | start =>
    refine ⟨List.forall_mem_singleton.mpr ?_, ?_⟩
    · rintro ⟨⟩
    · rintro v ⟨⟩
  | step hrun hclear hstep ih =>
    replace hinj := Set.InjOn.mono (headBytes_mono hstep.suffix) hinj
    exact (ih hinj).step hlaws hgenesis (hrun.sound hlaws hgenesis hinj) hinj hclear hstep

end Steps

end Publication

end Otmp
