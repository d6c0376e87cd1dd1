import Otmp.Protocol.Locations
import Otmp.Runtime.PageTree

/-!
# The rebuilding of a page tree ends

Halving ends at single entries, which are created or refused. The location of a created node is
short, so any number of created nodes up to the capacity fits one node: each level that is added
has fewer roots, whatever the locations of the parent's nodes.
-/

namespace Otmp.Physical

open Foundation Cbor

variable {digest : Digest} {node : PageMapNode} {children nodes : List Tree} {tree : Tree}
  {artifacts artifacts' : Artifacts} {passes level : ℕ}

/-- The location of the node is no longer than that of a created node. -/
def Tree.Short (tree : Tree) : Prop := (utf8 tree.reference.uri).length ≤ 85

/-- The location of a node is safe. -/
theorem relativeUri_pageMapUri (sha256 : Sha256) :
    relativeUri (pageMapUri sha256) = .ok (pageMapUri sha256) := by
  have hpart : IsPart (hexEncode sha256.val ++ ".cbor".toList) :=
    isPart_hexEncode (by rw [sha256.2]; omega) (by simp)
  have hroot : IsPart "_otmp".toList := ⟨by decide, by decide, by decide, by simp⟩
  have hdirectory : IsPart "page-maps".toList := ⟨by decide, by decide, by decide, by simp⟩
  have hsafe := safeRelativeUri_of_parts hroot hdirectory hpart
  have heq : pageMapUri sha256 = String.ofList ("_otmp".toList ++ '/' ::
      ("page-maps".toList ++ '/' :: (hexEncode sha256.val ++ ".cbor".toList))) := by
    rw [← String.toList_inj]
    simp [pageMapUri]
  rw [relativeUri, heq, if_pos hsafe]

/-- The locations of page-map nodes all have the same length. -/
theorem length_pageMapUri (sha256 : Sha256) : (utf8 (pageMapUri sha256)).length = 85 := by
  have hconst : "_otmp/page-maps/".utf8ByteSize = 16 ∧ ".cbor".utf8ByteSize = 5 := ⟨rfl, rfl⟩
  rw [length_utf8, pageMapUri, String.utf8ByteSize_append, String.utf8ByteSize_append,
    utf8ByteSize_hexEncode, sha256.2]
  omega

/-- What a created node is: valid, small enough to store, and stored under its hash. -/
theorem createTree_eq_ok : createTree digest node children artifacts = .ok (tree, artifacts') ↔
    node.validate = .ok () ∧ node.encode.length ≤ maxPageMapBytes ∧
      tree.reference = ⟨pageMapUri (digest node.encode), digest node.encode, node.encode.length⟩ ∧
      tree.node = node ∧ tree.children = children ∧
      tree.min = (match node with
        | .leaf entries => (entries.head?.map PageMapEntry.pageNumber).getD 0
        | .internal _ _ => (children.head?.map Tree.min).getD 0) ∧
      tree.max = node.maxPage.getD 0 ∧
      artifacts' = artifacts.insert tree.reference.uri ⟨tree.reference.uri, node.encode⟩ := by
  unfold createTree
  rw [bind_eq_ok]
  simp only [liftProtocol_eq_ok, encodePageMap_eq_ok, objectHash, relativeUri_pageMapUri]
  constructor
  · rintro ⟨bytes, ⟨hvalid, hlength, rfl⟩, h⟩
    cases h
    exact ⟨hvalid, hlength, rfl, rfl, rfl, rfl, rfl, rfl⟩
  · rintro ⟨hvalid, hlength, hreference, hnode, hchildren, hmin, hmax, rfl⟩
    obtain ⟨reference, node', children', min, max⟩ := tree
    dsimp only at *
    subst hreference hnode hchildren hmin hmax
    exact ⟨_, ⟨hvalid, hlength, rfl⟩, rfl⟩

/-- A valid node that is small enough is created. -/
theorem exists_createTree (hvalid : node.validate = .ok ())
    (hlength : node.encode.length ≤ maxPageMapBytes) :
    ∃ created, createTree digest node children artifacts = .ok created := by
  unfold createTree
  rw [ok_bind (liftProtocol_eq_ok.mpr (encodePageMap_eq_ok.mpr ⟨hvalid, hlength, rfl⟩))]
  simp only [objectHash, relativeUri_pageMapUri]
  exact ⟨_, rfl⟩

section Whole

variable {α : Type} {make : List α → PageMapNode} {below : List α → List Tree} {items : List α}

/-- A node over all items is created within the capacity. -/
theorem createWhole_eq_some :
    createWhole digest make below items artifacts = .ok (some (tree, artifacts')) ↔
      items.length ≤ capacity ∧
        createTree digest (make items) (below items) artifacts = .ok (tree, artifacts') := by
  rw [createWhole, bind_eq_ok]
  simp only [liftProtocol_eq_ok]
  constructor
  · rintro ⟨_, -, h⟩
    split at h
    · next hcapacity =>
      split at h
      · next hcreate =>
        cases h
        exact ⟨hcapacity, hcreate⟩
      · split at h <;> cases h
    · cases h
  · rintro ⟨hcapacity, hcreate⟩
    refine ⟨(), (createTree_eq_ok.mp hcreate).1, ?_⟩
    rw [if_pos hcapacity, hcreate]

/-- Items that are left to be split are valid, more than one, and too many or too long. -/
theorem createWhole_eq_none (h : createWhole digest make below items artifacts = .ok none) :
    (make items).validate = .ok () ∧ items.length ≠ 1 ∧
      (items.length ≤ capacity → maxPageMapBytes < (make items).encode.length) := by
  rw [createWhole, bind_eq_ok] at h
  obtain ⟨_, hvalid, h⟩ := h
  have hvalid := liftProtocol_eq_ok.mp hvalid
  split at h
  · split at h
    · cases h
    · next hcreate =>
      split at h
      · cases h
      · next hone =>
        refine ⟨hvalid, hone, fun _ => ?_⟩
        by_contra hfits
        obtain ⟨created, hcreated⟩ : ∃ created,
            createTree digest (make items) (below items) artifacts = .ok created :=
          exists_createTree hvalid (not_lt.mp hfits)
        rw [hcreated] at hcreate
        cases hcreate
  · next hmany =>
    refine ⟨hvalid, ?_, fun hcapacity => absurd hcapacity hmany⟩
    rintro hone
    exact hmany (by rw [hone]; decide)

/-- The split of one level ends, since a half that is a single item always fits or is refused. -/
theorem ends_nodes (items : List α) (artifacts : Artifacts) :
    Ends fun passes => halve (createWhole digest make below) passes items artifacts :=
  ends_halve (fun _ _ h => (createWhole_eq_none h).2.1 rfl) items artifacts

/-- Every created node has a short location. -/
theorem short_of_builds {trees : List Tree}
    (h : Builds (createWhole digest make below) items artifacts trees artifacts') :
    ∀ t ∈ trees, t.Short := by
  induction h with
  | nil => nofun
  | cons _ hwhole _ ih =>
    obtain ⟨-, hcreate⟩ := createWhole_eq_some.mp hwhole
    obtain ⟨-, -, hreference, -⟩ := createTree_eq_ok.mp hcreate
    refine List.forall_mem_cons.mpr ⟨?_, ih⟩
    rw [Tree.Short, hreference]
    exact (length_pageMapUri _).le

end Whole

/-- Leaves over any entries are built or refused. -/
theorem ends_leafNodes (entries : List PageMapEntry) (artifacts : Artifacts) :
    Ends fun passes => leafNodes digest passes entries artifacts := ends_nodes entries artifacts

/-- Internal nodes over any children are built or refused. -/
theorem ends_internalNodes (level : ℕ) (children : List Tree) (artifacts : Artifacts) :
    Ends fun passes => internalNodes digest passes level children artifacts :=
  ends_nodes children artifacts

/-- Created leaves have short locations. -/
theorem short_leafNodes {entries : List PageMapEntry}
    (h : leafNodes digest passes entries artifacts = given (.ok (nodes, artifacts'))) :
    ∀ t ∈ nodes, t.Short := short_of_builds (builds_of_halve h)

/-- Created internal nodes have short locations. -/
theorem short_internalNodes
    (h : internalNodes digest passes level children artifacts = given (.ok (nodes, artifacts'))) :
    ∀ t ∈ nodes, t.Short := short_of_builds (builds_of_halve h)

/-- Children with short locations fit one node up to the capacity, so a level has fewer nodes than
the level below. -/
theorem length_internalNodes_lt (hshort : ∀ t ∈ children, t.Short) (hmany : 1 < children.length)
    (h : internalNodes digest passes level children artifacts = given (.ok (nodes, artifacts'))) :
    nodes.length < children.length := by
  refine length_lt_of_halve capacity (by decide) (fun part artifacts hpart hsub hnone => ?_) hmany h
  obtain ⟨-, -, hlong⟩ := createWhole_eq_none hnone
  have hlong := hlong hpart
  have hfits := length_encode_internal_le level 85 (part.map Tree.branch) fun e he => by
    obtain ⟨t, ht, rfl⟩ := List.mem_map.mp he
    exact hshort t (hsub t ht)
  rw [List.length_map] at hfits
  unfold maxPageMapBytes at hlong
  unfold capacity at hpart
  omega

/-- Handing the children their changes ends when each visit ends. -/
theorem ends_updateChildren
    {visit : ℕ → Tree → List PageMapEntry → Artifacts →
      Bounded RuntimeError (List Tree × Artifacts)}
    (h : ∀ child ∈ children, ∀ here artifacts, Ends fun passes => visit passes child here artifacts)
    (remaining : List PageMapEntry) (artifacts : Artifacts) :
    Ends fun passes => updateChildren (visit passes) children remaining artifacts := by
  induction children generalizing remaining artifacts with
  | nil => exact ends_given _
  | cons child children ih =>
    refine (h child List.mem_cons_self _ _).bind fun updated _ => ?_
    refine (ih (fun other hother => h other (List.mem_cons_of_mem _ hother)) _ _).bind fun _ _ => ?_
    exact ends_given _

/-- An update ends: it visits the nodes below, which are finitely many. -/
theorem ends_update (tree : Tree) (changes : List PageMapEntry) (eof : ℕ) (artifacts : Artifacts) :
    Ends fun passes => update digest passes tree changes eof artifacts := by
  refine Ends.succ ?_
  simp only [update]
  split
  · exact ends_given _
  · split
    · exact ends_given _
    · split
      · exact ends_leafNodes _ _
      · have hbelow : ∀ child ∈ tree.children, ∀ here artifacts,
            Ends fun passes => update digest passes child here eof artifacts := by
          intro child hchild here artifacts
          have hsmaller : sizeOf child < sizeOf tree := by
            obtain ⟨reference, node, children, min, max⟩ := tree
            have hlt := List.sizeOf_lt_of_mem hchild
            dsimp only at hlt ⊢
            rw [Tree.mk.sizeOf_spec]
            omega
          exact ends_update child here eof artifacts
        exact (ends_updateChildren hbelow _ _).bind fun _ _ => ends_internalNodes _ _ _
termination_by sizeOf tree

/-- The roots after an update are at most one, or all of them have been created. -/
theorem short_updatedRoots {parent : Option Tree} {mappings : List PageMapEntry} {eof : ℕ}
    (h : updatedRoots digest passes parent mappings eof artifacts =
      given (.ok (nodes, artifacts'))) : nodes.length ≤ 1 ∨ ∀ t ∈ nodes, t.Short := by
  cases parent with
  | none => exact .inr (short_leafNodes h)
  | some parent =>
    dsimp only [updatedRoots] at h
    cases passes with
    | zero => cases h
    | succ passes =>
      rw [update] at h
      split at h
      · cases h
        exact .inl le_rfl
      · split at h
        · cases h
          exact .inl (Nat.zero_le _)
        · split at h
          · exact .inr (short_leafNodes h)
          · obtain ⟨⟨below, artifacts⟩, -, h⟩ := bind_eq_given_ok.mp h
            exact .inr (short_internalNodes h)

/-- The roots of an update are found, with or without a parent. -/
theorem ends_updatedRoots (parent : Option Tree) (mappings : List PageMapEntry) (eof : ℕ)
    (artifacts : Artifacts) :
    Ends fun passes => updatedRoots digest passes parent mappings eof artifacts := by
  cases parent with
  | none => exact ends_leafNodes _ _
  | some parent => exact ends_update _ _ _ _

/-- Levels are added until one root is left: each one has fewer roots. -/
theorem ends_joinRoots (roots : List Tree) (hshort : roots.length ≤ 1 ∨ ∀ t ∈ roots, t.Short)
    (artifacts : Artifacts) : Ends fun passes => joinRoots digest passes roots artifacts := by
  induction hn : roots.length using Nat.strongRecOn generalizing roots artifacts with
  | ind n ih =>
    refine Ends.succ ?_
    match roots, hshort, hn with
    | [], _, _ => exact ends_given _
    | [root], _, _ => exact ends_given _
    | first :: second :: rest, hshort, hn =>
      have hmany : 1 < (first :: second :: rest).length := by simp
      have hshort := hshort.resolve_left (not_le.mpr hmany)
      simp only [joinRoots]
      refine (ends_internalNodes _ _ _).bind fun ⟨roots, artifacts⟩ hroots => ?_
      obtain ⟨passes, hpasses⟩ := hroots
      have hroots := hpasses passes le_rfl
      have hfewer := length_internalNodes_lt hshort hmany hroots
      exact ih _ (hn ▸ hfewer) roots (.inr (short_internalNodes hroots)) artifacts rfl

/-- The loop over the levels leaves at most one root. -/
theorem length_joinRoots_le {roots : List Tree}
    (h : joinRoots digest passes roots artifacts = given (.ok (nodes, artifacts'))) :
    nodes.length ≤ 1 := by
  induction passes generalizing roots artifacts with
  | zero => cases h
  | succ passes ih =>
    match roots, h with
    | [], h =>
      cases h
      exact Nat.zero_le _
    | [root], h =>
      cases h
      exact le_rfl
    | first :: second :: rest, h =>
      rw [joinRoots] at h
      obtain ⟨⟨roots, artifacts⟩, -, h⟩ := bind_eq_given_ok.mp h
      exact ih h

/-- **The rebuilding of a page tree ends.** For every tree, every list of changes and every end of
the image, the leaves, the internal nodes and the update are built or refused in a bounded number
of passes, and so is the loop that adds levels; where it succeeds, at most one root is left. The
nodes of a created level have short locations, and a level over several nodes with short locations
has fewer nodes than these. -/
theorem rebuild_ends (digest : Digest) :
    ((∀ entries artifacts, Ends fun passes => leafNodes digest passes entries artifacts) ∧
      (∀ level children artifacts,
        Ends fun passes => internalNodes digest passes level children artifacts) ∧
      ∀ tree changes eof artifacts,
        Ends fun passes => update digest passes tree changes eof artifacts) ∧
    (∀ parent mappings eof artifacts, ∃ r,
      Gives (fun passes => rebuild digest passes parent mappings eof artifacts) r ∧
        ∀ roots artifacts', r = .ok (roots, artifacts') → roots.length ≤ 1) ∧
    ∀ passes level children artifacts nodes artifacts',
      internalNodes digest passes level children artifacts = given (.ok (nodes, artifacts')) →
        (∀ t ∈ nodes, t.Short) ∧
          (1 < children.length → (∀ t ∈ children, t.Short) → nodes.length < children.length) := by
  refine ⟨⟨ends_leafNodes, ends_internalNodes, ends_update⟩, ?_, ?_⟩
  · intro parent mappings eof artifacts
    have hends : Ends fun passes => rebuild digest passes parent mappings eof artifacts := by
      refine (ends_updatedRoots _ _ _ _).bind fun ⟨roots, artifacts⟩ hroots => ?_
      obtain ⟨passes, hpasses⟩ := hroots
      exact ends_joinRoots roots (short_updatedRoots (hpasses passes le_rfl)) artifacts
    obtain ⟨r, hr⟩ := hends
    refine ⟨r, hr, ?_⟩
    rintro roots artifacts' rfl
    obtain ⟨passes, hpasses⟩ := hr
    have hrebuild := hpasses passes le_rfl
    dsimp only [rebuild] at hrebuild
    obtain ⟨⟨before, middle⟩, -, hjoin⟩ := bind_eq_given_ok.mp hrebuild
    exact length_joinRoots_le hjoin
  · intro passes level children artifacts nodes artifacts' h
    exact ⟨short_internalNodes h, fun hmany hshort => length_internalNodes_lt hshort hmany h⟩

end Otmp.Physical
