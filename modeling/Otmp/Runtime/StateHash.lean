import Otmp.Foundation.HashChain
import Otmp.Protocol.WrittenForms
import Otmp.Runtime.History
import Otmp.Runtime.Intents
import Otmp.Runtime.Retained

/-!
# The semantic state hash

Every use of the hash function begins with its own label. The input of a state hash holds
the previous state, whose length is fixed, and the commit without its own state. So a
state hash and its input determine the commit, and the newest state determines the whole
history behind it.
-/

namespace Otmp

open Foundation Foundation.Cbor CanonicalValue

/-- The bytes that a partition hash is computed over. -/
def partitionInput (partitionSpecId : UInt32) (tupleCbor : Bytes) : Bytes :=
  label "OTMP-PARTITION" ++ beBytes 4 partitionSpecId.toNat ++ tupleCbor

/-- The bytes that an image-root hash is computed over, with the page map's root left out when there
is none. -/
def imageRootInput (tableId : Id) (tableVersion pageSize pageCount : ℕ) (checkpoint : Sha256)
    (pageMapRoot : Option Sha256) : Bytes :=
  label "OTMP-SQLITE-IMAGE" ++ tableId.val ++ beBytes 8 tableVersion ++ beBytes 4 pageSize ++
    beBytes 8 pageCount ++ checkpoint.val ++
    (pageMapRoot.map Subtype.val).getD (List.replicate 32 0)

/-- The hash of an image's root, under a label of its own. -/
def imageRootHash (digest : Digest) (tableId : Id) (tableVersion pageSize pageCount : ℕ)
    (checkpoint : Sha256) (pageMapRoot : Option Sha256) : Sha256 :=
  digest (imageRootInput tableId tableVersion pageSize pageCount checkpoint pageMapRoot)

/-- The text before the body in the input of a state hash. -/
def statePrefix : Option Sha256 → Bytes
  | none => label "OTMP-GENESIS"
  | some previous => label "OTMP-STATE" ++ previous.val

/-- The previous state and the body are read off the input. -/
theorem statePrefix_append_inj {previous previous' : Option Sha256} {body body' : Bytes}
    (h : statePrefix previous ++ body = statePrefix previous' ++ body') :
    previous = previous' ∧ body = body' := by
  cases previous with
  | none =>
    cases previous' with
    | none => exact ⟨rfl, List.append_cancel_left h⟩
    | some p =>
      have hbyte := congrArg (·[5]?) h
      simp [statePrefix, label, String.utf8EncodeChar] at hbyte
  | some p =>
    cases previous' with
    | none =>
      have hbyte := congrArg (·[5]?) h
      simp [statePrefix, label, String.utf8EncodeChar] at hbyte
    | some p' =>
      simp only [statePrefix, List.append_assoc, List.append_cancel_left_eq] at h
      have hlength : p.val.length = p'.val.length := p.property.trans p'.property.symm
      obtain ⟨hp, hbody⟩ := List.append_inj h hlength
      exact ⟨congrArg some (Subtype.ext hp), hbody⟩

namespace SemanticCommit

/-- The input of a commit's state hash: the state before it, and its body. -/
def stateInput (c : SemanticCommit) : Except ProtocolError Bytes :=
  c.body.map (statePrefix c.previousSemanticStateSha256 ++ ·)

/-- The recomputed state of a commit is the hash of its state input, if there is one. -/
theorem recomputedState_eq (digest : Digest) (c : SemanticCommit) :
    c.recomputedState digest = c.stateInput.map digest := by
  unfold recomputedState stateInput
  cases c.previousSemanticStateSha256 <;> cases c.body <;> rfl

/-- The body leaves out one member only. -/
theorem eq_of_body {c d : SemanticCommit} {body : Bytes} (hc : c.body = .ok body)
    (hd : d.body = .ok body) (hstate : c.semanticStateSha256 = d.semanticStateSha256) : c = d := by
  obtain ⟨-, -, hcbody⟩ := map_eq_ok.mp hc
  obtain ⟨-, -, hdbody⟩ := map_eq_ok.mp hd
  have hmembers := CanonicalValue.object.inj (bytes_injective (hcbody.symm.trans hdbody))
  simp [toMembers] at hmembers
  apply toValue_injective
  simp [toValue, toMembers, hmembers, hstate]

/-- The parts of a commit that make a chain. -/
def hashing : Hashing SemanticCommit Sha256 Bytes where
  state := semanticStateSha256
  previous := previousSemanticStateSha256
  Input c input := c.stateInput = .ok input

/-- A commit with valid parents that carries the hash of its own input. -/
def Checked (digest : Digest) (c : SemanticCommit) : Prop :=
  c.validateParents = .ok () ∧ ∃ input, c.stateInput = .ok input ∧
    c.semanticStateSha256 = digest input

/-- A state and the input of its hash determine the commit. -/
theorem eq_of_stateInput {c d : SemanticCommit} {input : Bytes} (hc : c.stateInput = .ok input)
    (hd : d.stateInput = .ok input) (hstate : c.semanticStateSha256 = d.semanticStateSha256) :
    c = d := by
  obtain ⟨body, hcbody, hcinput⟩ := map_eq_ok.mp hc
  obtain ⟨body', hdbody, hdinput⟩ := map_eq_ok.mp hd
  obtain ⟨-, hbody⟩ := statePrefix_append_inj (hcinput.symm.trans hdinput)
  subst hbody
  exact eq_of_body hcbody hdbody hstate

/-- Genesis has no previous state, as it has no parent. -/
theorem previous_of_genesis {c : SemanticCommit} (h : c.validateParents = .ok ())
    (hversion : c.tableVersion = 0) : c.previousSemanticStateSha256 = none := by
  rw [validateParents, ite_error_eq_ok, ite_error_eq_ok] at h
  have hshape := h.2.1
  simp only [hversion, decide_true, ne_eq, Decidable.not_not] at hshape
  have hnone := (Bool.and_eq_true_iff.mp hshape.symm).2
  exact Option.isNone_iff_eq_none.mp hnone

end SemanticCommit

section Walk

variable {checks : RetainedChecks} {parse : Bytes → Except ProtocolError CanonicalValue}
  {digest : Digest} {store : String → Except RuntimeError Bytes}

/-- A retained commit is read from its reference and passes the check of its state. -/
theorem retainedCommit_checked {tableId : Id} {previousVersion : Option ℕ}
    {reference : ObjectReference} {c : SemanticCommit}
    (h : retainedCommit checks parse digest store tableId previousVersion reference = .ok c) :
    readCommit parse digest store reference = .ok c ∧ c.Checked digest := by
  obtain ⟨-, h⟩ := ite_error_eq_ok.mp h
  obtain ⟨commit, hcommit, h⟩ := bind_eq_ok.mp h
  obtain ⟨⟨⟩, hprofile, h⟩ := bind_eq_ok.mp h
  obtain ⟨-, h⟩ := ite_error_eq_ok.mp h
  obtain ⟨recomputed, hrecomputed, h⟩ := bind_eq_ok.mp h
  obtain ⟨hstate, h⟩ := ite_error_eq_ok.mp h
  obtain ⟨-, -, h⟩ := bind_eq_ok.mp h
  cases h
  rw [liftProtocol_eq_ok, SemanticCommit.recomputedState_eq, map_eq_ok] at hrecomputed
  obtain ⟨input, hinput, rfl⟩ := hrecomputed
  obtain ⟨⟨⟩, hparents, -⟩ := bind_eq_ok.mp (liftProtocol_eq_ok.mp hprofile)
  exact ⟨hcommit, hparents, input, hinput, (not_not.mp hstate).symm⟩

/-- Every parent of a retained commit passes the check of its state. -/
theorem retainedParents_checked {tableId : Id} {version : ℕ} {reference : Option ObjectReference}
    {commits : List SemanticCommit}
    (h : retainedParents checks parse digest store tableId version reference = .ok commits) :
    ∀ c ∈ commits, c.Checked digest := by
  induction version generalizing reference commits with
  | zero =>
    cases reference with
    | none =>
      cases h
      exact fun c hc => nomatch hc
    | some reference =>
      obtain ⟨-, -, h⟩ := bind_eq_ok.mp h
      cases h
      exact fun c hc => nomatch hc
  | succ version ih =>
    cases reference with
    | none =>
      cases h
      exact fun c hc => nomatch hc
    | some reference =>
      obtain ⟨commit, hcommit, h⟩ := bind_eq_ok.mp h
      obtain ⟨parents, hparents, h⟩ := bind_eq_ok.mp h
      cases h
      intro c hc
      rcases List.mem_cons.mp hc with rfl | hc
      · exact (retainedCommit_checked hcommit).2
      · exact ih hparents c hc

/-- What the walk and the replay establish about the commits, newest first. -/
structure RetainedChain (digest : Digest) (commits : List SemanticCommit) : Prop where
  checked : ∀ c ∈ commits, c.Checked digest
  linked : SemanticCommit.hashing.Linked digest commits

/-- The replay starts at genesis and finds every commit on top of its parent's state. -/
theorem reconstruct_chain {commits : List SemanticCommit} {image : RetainedImage}
    (hchecked : ∀ c ∈ commits, c.Checked digest) (h : reconstruct checks commits = .ok image) :
    RetainedChain digest commits ∧ commits.head?.map (·.semanticStateSha256) =
      some image.semanticState := by
  induction commits generalizing image with
  | nil => cases h
  | cons c cs ih =>
    obtain ⟨hparents, input, hinput, hstate⟩ := hchecked c List.mem_cons_self
    have hown : ∃ i, SemanticCommit.hashing.Input c i ∧
        SemanticCommit.hashing.state c = digest i := ⟨input, hinput, hstate⟩
    cases cs with
    | nil =>
      obtain ⟨genesis, hgenesis, h⟩ := bind_eq_ok.mp h
      obtain ⟨-, -, h⟩ := bind_eq_ok.mp h
      cases h
      obtain ⟨hversion, h⟩ := ite_error_eq_ok.mp hgenesis
      cases h
      have hprevious := SemanticCommit.previous_of_genesis hparents (not_not.mp hversion)
      exact ⟨⟨hchecked, hprevious, hown, trivial⟩, rfl⟩
    | cons parent older =>
      obtain ⟨built, hbuilt, h⟩ := bind_eq_ok.mp h
      obtain ⟨hprevious, h⟩ := ite_error_eq_ok.mp h
      obtain ⟨next, hnext, h⟩ := bind_eq_ok.mp h
      obtain ⟨-, -, h⟩ := bind_eq_ok.mp h
      cases h
      obtain ⟨-, hnext⟩ := ite_error_eq_ok.mp hnext
      cases hnext
      obtain ⟨hchain, hhead⟩ := ih (fun d hd => hchecked d (List.mem_cons_of_mem c hd)) hbuilt
      have hlink : c.previousSemanticStateSha256 = some parent.semanticStateSha256 :=
        (not_not.mp hprevious).symm.trans hhead.symm
      exact ⟨⟨hchecked, hlink, hown, hchain.linked⟩, rfl⟩

/-- A verified pin has a chain behind it that ends in the state of its head. -/
theorem pinRetained_chain {head : Head} {commits : List SemanticCommit}
    (h : pinRetained checks parse digest store head = .ok commits) :
    RetainedChain digest commits ∧
      commits.head?.map (·.semanticStateSha256) = some head.semanticStateSha256 := by
  obtain ⟨pinned, hpinned, h⟩ := bind_eq_ok.mp h
  obtain ⟨⟨⟩, hload, h⟩ := bind_eq_ok.mp h
  obtain ⟨newest, hnewest, h⟩ := bind_eq_ok.mp h
  obtain ⟨parents, hparents, h⟩ := bind_eq_ok.mp h
  obtain ⟨image, himage, h⟩ := bind_eq_ok.mp h
  obtain ⟨-, -, h⟩ := bind_eq_ok.mp h
  cases h
  obtain ⟨hread, hchecked⟩ := retainedCommit_checked hnewest
  have hsame : pinned = newest := Except.ok.inj (hpinned.symm.trans hread)
  subst hsame
  have hall : ∀ c ∈ pinned :: parents, c.Checked digest := by
    intro c hc
    rcases List.mem_cons.mp hc with rfl | hc
    · exact hchecked
    · exact retainedParents_checked hparents c hc
  have hstate : pinned.semanticStateSha256 = head.semanticStateSha256 := by
    obtain ⟨-, -, hload⟩ := bind_eq_ok.mp hload
    obtain ⟨-, -, hload⟩ := bind_eq_ok.mp hload
    have hmatch := (ite_error_eq_ok.mp hload).1
    simp only [not_or, ne_eq, Decidable.not_not] at hmatch
    exact hmatch.2.2.1
  exact ⟨(reconstruct_chain hall himage).1, congrArg some hstate⟩

end Walk

/-- The input of a state hash is the input of no other hash. -/
theorem SemanticCommit.stateInput_ne {c : SemanticCommit} {input : Bytes}
    (h : c.stateInput = .ok input) :
    (∀ canonicalIntent, input ≠ intentInput canonicalIntent) ∧
      (∀ partitionSpecId tupleCbor, input ≠ partitionInput partitionSpecId tupleCbor) ∧
      ∀ tableId tableVersion pageSize pageCount checkpoint pageMapRoot,
        input ≠ imageRootInput tableId tableVersion pageSize pageCount checkpoint pageMapRoot := by
  obtain ⟨body, -, rfl⟩ := map_eq_ok.mp h
  refine ⟨fun x hx => ?_, fun n x hx => ?_, fun a b d e f g hx => ?_⟩
  · have hbyte := congrArg (·[5]?) hx
    cases hprevious : c.previousSemanticStateSha256 <;>
      simp [hprevious, statePrefix, intentInput, label, String.utf8EncodeChar] at hbyte
  · have hbyte := congrArg (·[5]?) hx
    cases hprevious : c.previousSemanticStateSha256 <;>
      simp [hprevious, statePrefix, partitionInput, label, String.utf8EncodeChar] at hbyte
  · have hbyte := congrArg (·[6]?) hx
    cases hprevious : c.previousSemanticStateSha256 <;>
      simp [hprevious, statePrefix, imageRootInput, label, String.utf8EncodeChar] at hbyte

/-- The newest state determines the whole history: two verified pins with one state have
the same commits, a genesis state is no later state, and a state hash is no hash of
another kind. -/
theorem semantic_state_commits {checks : RetainedChecks}
    {parse : Bytes → Except ProtocolError CanonicalValue} {digest : Digest}
    {store store' : String → Except RuntimeError Bytes} {head head' : Head}
    {as bs : List SemanticCommit} {inputs : Set Bytes} (hinj : Set.InjOn digest inputs)
    (ha : pinRetained checks parse digest store head = .ok as)
    (hb : pinRetained checks parse digest store' head' = .ok bs)
    (hinputs : ∀ c ∈ as ++ bs, ∀ input, c.stateInput = .ok input → input ∈ inputs) :
    (head.semanticStateSha256 = head'.semanticStateSha256 → as = bs) ∧
      (∀ c ∈ as ++ bs, ∀ d ∈ as ++ bs, c.tableVersion = 0 → d.tableVersion ≠ 0 →
        c.semanticStateSha256 ≠ d.semanticStateSha256) ∧
      ∀ c ∈ as ++ bs,
        (∀ intent, intentInput intent ∈ inputs →
          c.semanticStateSha256 ≠ intentHash digest intent) ∧
        (∀ spec tuple, partitionInput spec tuple ∈ inputs →
          c.semanticStateSha256 ≠ partitionHash digest spec tuple) ∧
        ∀ tableId tableVersion pageSize pageCount checkpoint pageMapRoot,
          imageRootInput tableId tableVersion pageSize pageCount checkpoint pageMapRoot ∈ inputs →
          c.semanticStateSha256 ≠ imageRootHash digest tableId tableVersion pageSize pageCount
            checkpoint pageMapRoot := by
  obtain ⟨hachain, hahead⟩ := pinRetained_chain ha
  obtain ⟨hbchain, hbhead⟩ := pinRetained_chain hb
  have hchecked : ∀ c ∈ as ++ bs, c.Checked digest := fun c hc =>
    (List.mem_append.mp hc).elim (hachain.checked c) (hbchain.checked c)
  refine ⟨fun hstate => ?_, fun c hc d hd hgenesis hversion hstate => ?_, fun c hc => ?_⟩
  · refine hachain.linked.eq_of_state hbchain.linked
      (fun c d i hc hd => SemanticCommit.eq_of_stateInput hc hd)
      (fun c hc d hd i j hi hj => ?_) ?_
    · exact fun hij => hinj (hinputs c hc i hi) (hinputs d hd j hj) hij
    · exact (hahead.trans (congrArg some hstate)).trans hbhead.symm
  · obtain ⟨hcparents, i, hi, hcstate⟩ := hchecked c hc
    obtain ⟨-, j, hj, hdstate⟩ := hchecked d hd
    have hij : i = j := hinj (hinputs c hc i hi) (hinputs d hd j hj) (by
      rw [← hcstate, ← hdstate, hstate])
    subst hij
    have hsame := SemanticCommit.eq_of_stateInput hi hj hstate
    subst hsame
    exact hversion hgenesis
  · obtain ⟨-, i, hi, hcstate⟩ := hchecked c hc
    obtain ⟨hintent, hpartition, himage⟩ := SemanticCommit.stateInput_ne hi
    have hne : ∀ j ∈ inputs, i ≠ j → c.semanticStateSha256 ≠ digest j := fun j hj hij hstate =>
      hij (hinj (hinputs c hc i hi) hj (hcstate.symm.trans hstate))
    exact ⟨fun x hx => hne _ hx (hintent x), fun n x hx => hne _ hx (hpartition n x),
      fun a b d e f g hx => hne _ hx (himage a b d e f g)⟩

section Samples

/-- A commit with its own state hash, as the writer seals it. -/
def withState (digest : Digest) (c : SemanticCommit) : SemanticCommit :=
  match c.recomputedState digest with
  | .ok state => { c with semanticStateSha256 := state }
  | .error _ => c

/-- The genesis commit of a table with one integer column. -/
def sampleGenesisCommit : SemanticCommit :=
  withState sampleDigest {
    kind := "otmp.semantic-commit"
    formatVersion := 1
    tableId := sampleId 1
    tableVersion := 0
    parentTableVersion := none
    commitId := sampleId 2
    parentCommit := none
    createdAtMs := 0
    intents := [⟨"otmp.genesis", sampleDigest [3], ["initialize"],
      .object [("ref", .string "main"), ("table_version", .string "0")]⟩]
    requirements := []
    operations := [.object [("operation_id", .string "initialize"),
      ("partition_spec_id", .string "0"), ("schema", sampleGenesis.schema.toValue),
      ("sort_order_id", .string "0"), ("table_id", .string (sampleId 1).format),
      ("target_ref", .string "main"), ("type", .string "initialize_table")]]
    requiredReaderFeaturesAfterCommit := []
    requiredWriterFeaturesAfterCommit := []
    previousSemanticStateSha256 := none
    semanticStateSha256 := sampleDigest []
    metadata := .object [] }

/-- The location and the reference of a commit, as its successor records them. -/
def sampleReference (c : SemanticCommit) : ObjectReference :=
  ⟨commitUri c.tableVersion c.commitId, sampleDigest c.toValue.bytes, some c.toValue.bytes.length,
    some commitMediaType⟩

/-- A commit on top of genesis that drops a branch. -/
def sampleDropCommit : SemanticCommit :=
  withState sampleDigest { sampleGenesisCommit with
    tableVersion := 1
    parentTableVersion := some 0
    commitId := sampleId 4
    parentCommit := some (sampleReference sampleGenesisCommit)
    intents := [⟨"drop", sampleDigest [5], ["drop"], .null⟩]
    operations := [.object [("operation_id", .string "drop"), ("ref", .string "dev"),
      ("type", .string "drop_ref")]]
    previousSemanticStateSha256 := some sampleGenesisCommit.semanticStateSha256 }

/-- The head of a commit, as it is published with the commit. -/
def sampleHead (c : SemanticCommit) : Head where
  protocol := "otmp"
  protocolVersion := "0.0.2-alpha"
  tableId := c.tableId
  tableVersion := c.tableVersion
  rootRevision := c.tableVersion
  semanticStateSha256 := c.semanticStateSha256
  semanticCommit := sampleReference c
  metadataGeneration := ⟨"_otmp/generations/0.json", sampleDigest [], none,
    some generationMediaType⟩
  requiredReaderFeatures := []
  requiredWriterFeatures := []

/-- A store that holds the two commits, and nothing else. -/
def sampleStore (uri : String) : Except RuntimeError Bytes :=
  if uri = (sampleReference sampleGenesisCommit).uri then .ok sampleGenesisCommit.toValue.bytes
  else if uri = (sampleReference sampleDropCommit).uri then .ok sampleDropCommit.toValue.bytes
  else .error (.storage "object not found")

/-- A parser of the two commits, which refuses everything else. -/
def sampleParse (bytes : Bytes) : Except ProtocolError CanonicalValue :=
  if bytes = sampleGenesisCommit.toValue.bytes then .ok sampleGenesisCommit.toValue
  else if bytes = sampleDropCommit.toValue.bytes then .ok sampleDropCommit.toValue
  else deError "not canonical"

/-- Checks that accept everything else about the commits. -/
def sampleChecks : RetainedChecks := ⟨fun _ => .ok (), fun _ => .ok (), fun _ => .ok ()⟩

/-- The sample head is pinned with its two commits, newest first. -/
theorem pinRetained_sample : pinRetained sampleChecks sampleParse sampleDigest sampleStore
    (sampleHead sampleDropCommit) = .ok [sampleDropCommit, sampleGenesisCommit] := by
  decide +kernel

/-- The state of the sample's genesis is not its newest state. -/
theorem semantic_state_commits_drop :
    pinRetained sampleChecks sampleParse sampleDigest sampleStore (sampleHead sampleDropCommit) =
        .ok [sampleDropCommit, sampleGenesisCommit] ∧
      sampleGenesisCommit.semanticStateSha256 ≠ sampleDropCommit.semanticStateSha256 := by
  refine ⟨pinRetained_sample, ?_⟩
  obtain ⟨hchain, -⟩ := pinRetained_chain pinRetained_sample
  obtain ⟨-, i, hi, histate⟩ := hchain.checked sampleGenesisCommit (by simp)
  obtain ⟨-, j, hj, hjstate⟩ := hchain.checked sampleDropCommit (by simp)
  have hne : sampleDigest i ≠ sampleDigest j := by
    rw [← histate, ← hjstate]
    decide +kernel
  have hinj : Set.InjOn sampleDigest {i, j} := by
    rintro x (rfl | rfl) y (rfl | rfl) hxy
    · rfl
    · exact absurd hxy hne
    · exact absurd hxy.symm hne
    · rfl
  refine (semantic_state_commits hinj pinRetained_sample pinRetained_sample ?_).2.1 _ (by simp) _
    (by simp) (by decide +kernel) (by decide +kernel)
  intro c hc input hinput
  simp only [List.cons_append, List.nil_append, List.mem_cons, List.not_mem_nil, or_false] at hc
  rcases hc with rfl | rfl | rfl | rfl
  · exact Or.inr (Except.ok.inj (hinput.symm.trans hj))
  · exact Or.inl (Except.ok.inj (hinput.symm.trans hi))
  · exact Or.inr (Except.ok.inj (hinput.symm.trans hj))
  · exact Or.inl (Except.ok.inj (hinput.symm.trans hi))

end Samples

end Otmp
