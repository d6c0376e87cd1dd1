import Otmp.Runtime.PageTreeLaw

/-!
# Page trees over whole runs

The reader accepts exactly the stored trees whose nodes lie at different locations, and visits
each of them once. The hash of a root settles everything below it, whichever store it is read from.
Along a run of persisted images the page table is that of the replayed pages: each page is where the
latest image that changed it put it, unless the table was cut in between.
-/

namespace Otmp.Physical

open Foundation Cbor
open PagePack (Pages)

variable {digest : Digest}

section Visits

/-- The locations that are visited, each for the first time, and noted the latest first. -/
structure Visits (seen uris seen' : List String) : Prop where
  noted : seen' = uris.reverse ++ seen
  nodup : uris.Nodup
  unseen : ∀ uri ∈ uris, uri ∉ seen

variable {seen seen' seen'' uris others : List String}

namespace Visits

/-- A walk over nothing visits nothing. -/
theorem nil (seen : List String) : Visits seen [] seen := ⟨rfl, List.nodup_nil, nofun⟩

/-- One location and the ones behind it. -/
theorem cons {uri : String} (hfirst : uri ∉ seen) (h : Visits (uri :: seen) uris seen') :
    Visits seen (uri :: uris) seen' := by
  refine ⟨?_, List.nodup_cons.mpr ⟨fun hin => h.unseen uri hin List.mem_cons_self, h.nodup⟩,
    List.forall_mem_cons.mpr ⟨hfirst, fun u hu hin => h.unseen u hu (List.mem_cons_of_mem _ hin)⟩⟩
  rw [h.noted, List.reverse_cons, List.append_assoc]
  rfl

/-- Two visits in turn visit the locations of both, none of them twice. -/
theorem append (h : Visits seen uris seen') (h' : Visits seen' others seen'') :
    Visits seen (uris ++ others) seen'' := by
  have hboth : ∀ uri ∈ others, uri ∉ uris ∧ uri ∉ seen := by
    intro uri huri
    have hnew := h'.unseen uri huri
    rw [h.noted, List.mem_append, List.mem_reverse, not_or] at hnew
    exact hnew
  refine ⟨?_, ?_, ?_⟩
  · rw [h'.noted, h.noted, List.reverse_append, List.append_assoc]
  · refine List.nodup_append'.mpr ⟨h.nodup, h'.nodup, fun uri hleft hright => ?_⟩
    exact (hboth uri hright).1 hleft
  · intro uri huri
    obtain huri | huri := List.mem_append.mp huri
    · exact h.unseen uri huri
    · exact (hboth uri huri).2

end Visits

variable {store : String → Except RuntimeError Bytes} {level lower upper previous min max : ℕ}
  {load : LoadChild} {entries : List PageMapBranch} {children : List Tree}
  {reference : PageObjectReference} {node : PageMapNode} {t : Tree}

/-- The children of a node are visited in order. -/
theorem visits_of_loadChildren
    (hload : ∀ e previous seen c seen', load e previous seen = .ok (c, seen') →
      Visits seen c.uris seen')
    (h : loadChildren load upper previous entries seen = .ok (children, seen')) :
    Visits seen (children.flatMap Tree.uris) seen' := by
  induction entries generalizing previous seen children with
  | nil =>
    cases h
    exact .nil _
  | cons e entries ih =>
    rw [loadChildren] at h
    obtain ⟨_, -, h⟩ := bind_eq_ok.mp h
    obtain ⟨⟨c, middle⟩, hchild, h⟩ := bind_eq_ok.mp h
    obtain ⟨_, -, h⟩ := bind_eq_ok.mp h
    obtain ⟨⟨others, last⟩, hothers, h⟩ := bind_eq_ok.mp h
    cases h
    rw [List.flatMap_cons]
    exact (hload _ _ _ _ _ hchild).append (ih hothers)

/-- The contents of a node are those of its children. -/
theorem visits_of_loadContents
    (hload : ∀ e previous seen c seen', load e previous seen = .ok (c, seen') →
      Visits seen c.uris seen')
    (h : loadContents load lower upper seen node = .ok (children, min, max, seen')) :
    Visits seen (children.flatMap Tree.uris) seen' := by
  cases node with
  | leaf entries =>
    obtain ⟨first, -, h⟩ := bind_eq_ok.mp h
    obtain ⟨last, -, h⟩ := bind_eq_ok.mp h
    cases h
    exact .nil _
  | internal own branches =>
    obtain ⟨⟨below, after⟩, hchildren, h⟩ := bind_eq_ok.mp h
    obtain ⟨first, -, h⟩ := bind_eq_ok.mp h
    obtain ⟨last, -, h⟩ := bind_eq_ok.mp h
    cases h
    exact visits_of_loadChildren hload hchildren

/-- A node is visited before what is below it, within the limit of levels. -/
theorem visits_of_loadNodeWith
    (hload : ∀ e previous seen c seen', load e previous seen = .ok (c, seen') →
      Visits seen c.uris seen')
    (h : loadNodeWith digest store level load reference lower upper seen = .ok (t, seen')) :
    level ≤ 64 ∧ Visits seen t.uris seen' := by
  rw [loadNodeWith] at h
  obtain ⟨_, hfirst, h⟩ := bind_eq_ok.mp h
  obtain ⟨bytes, -, h⟩ := bind_eq_ok.mp h
  obtain ⟨node, -, h⟩ := bind_eq_ok.mp h
  obtain ⟨_, -, h⟩ := bind_eq_ok.mp h
  obtain ⟨⟨children, min, max, after⟩, hcontents, h⟩ := bind_eq_ok.mp h
  obtain ⟨_, -, h⟩ := bind_eq_ok.mp h
  cases h
  obtain ⟨hheight, hrest⟩ := not_or.mp (refuseIf_eq_ok.mp hfirst)
  obtain ⟨hunseen, -⟩ := not_or.mp hrest
  rw [Tree.uris_eq]
  exact ⟨not_lt.mp hheight, .cons hunseen (visits_of_loadContents hload hcontents)⟩

/-- A tree is visited within the limit of levels. -/
theorem visits_of_loadTree
    (h : loadTree digest store level reference lower upper seen = .ok (t, seen')) :
    level ≤ 64 ∧ Visits seen t.uris seen' := by
  induction level generalizing reference lower upper seen seen' t with
  | zero => exact visits_of_loadNodeWith (fun _ _ _ _ _ hc => by cases hc) h
  | succ level ih => exact visits_of_loadNodeWith (fun _ _ _ _ _ hc => (ih hc).2) h

/-- **The reader of page trees is exact.** With a reference in range it returns a tree precisely
when the reference names this tree, the tree is well formed and stored, has the level and lies
between the bounds with ascending pages, is not higher than the limit, and has each of its nodes at
a location of its own that was not read before. The locations read are those of the nodes. -/
theorem loadTree_exact (digest : Digest) (store : String → Except RuntimeError Bytes)
    (level : ℕ) (reference : PageObjectReference) (lower upper : ℕ) (seen seen' : List String)
    (t : Tree) :
    (reference.InRange ∧ loadTree digest store level reference lower upper seen = .ok (t, seen')) ↔
      t.reference = reference ∧ Loads digest store level lower upper t ∧ level ≤ 64 ∧
        Visits seen t.uris seen' := by
  constructor
  · rintro ⟨hreference, h⟩
    obtain ⟨hsame, hloads⟩ := loadTree_sound hreference h
    exact ⟨hsame, hloads, visits_of_loadTree h⟩
  · rintro ⟨rfl, hloads, hheight, hvisits⟩
    obtain ⟨last, hlast, -⟩ := loadTree_complete hloads hheight hvisits.nodup hvisits.unseen
    have hsame : last = seen' := by
      rw [(visits_of_loadTree hlast).2.noted, hvisits.noted]
    exact ⟨hloads.wellFormed.linked.reference, hsame ▸ hlast⟩

end Visits

section Authentic

variable {t s : Tree}

/-- Trees with one node and the same children are the same below their references. -/
theorem pages_eq_of_node (hnode : t.node = s.node) (hchildren : t.children = s.children) :
    t.pages = s.pages := by
  cases hown : t.node with
  | leaf entries => rw [Tree.pages_leaf hown, Tree.pages_leaf (hnode ▸ hown)]
  | internal level branches =>
    rw [Tree.pages_internal hown, Tree.pages_internal (hnode ▸ hown), hchildren]

/-- Well-formed trees whose roots have one hash are the same below their references, when the hash
tells their nodes apart. -/
theorem eq_below_of_sha256 (ht : t.WellFormed digest) (hs : s.WellFormed digest)
    (hinj : Set.InjOn digest
      {bytes | ∃ r, (r ∈ t.subtrees ∨ r ∈ s.subtrees) ∧ r.node.encode = bytes})
    (hroot : t.reference.sha256 = s.reference.sha256) :
    t.node = s.node ∧ t.children = s.children ∧ t.min = s.min ∧ t.max = s.max := by
  induction t using Tree.induction generalizing s with
  | step t ih =>
    have hencode : t.node.encode = s.node.encode := by
      refine hinj ⟨t, .inl t.self_mem_subtrees, rfl⟩ ⟨s, .inr s.self_mem_subtrees, rfl⟩ ?_
      rw [← ht.linked.sha256, ← hs.linked.sha256, hroot]
    have hnode := node_eq_of_encode ht.linked hs.linked hencode
    have hchildren : t.children = s.children := by
      cases hown : t.node with
      | leaf entries =>
        rw [ht.linked.leaf entries hown, hs.linked.leaf entries (hnode ▸ hown)]
      | internal level branches =>
        have hbranches := (ht.linked.internal level branches hown).1
        rw [(hs.linked.internal level branches (hnode ▸ hown)).1] at hbranches
        have hlength : t.children.length = s.children.length := by
          simpa using (congrArg List.length hbranches).symm
        refine List.ext_getElem hlength fun i hi hi' => ?_
        have hbranch : s.children[i].branch = t.children[i].branch := by
          have hat := congrArg (fun bs => bs[i]?) hbranches
          simpa [hi, hi'] using hat
        have hreference : t.children[i].reference = s.children[i].reference :=
          (congrArg PageMapBranch.child hbranch).symm
        have hmem := List.getElem_mem hi
        have hmem' := List.getElem_mem hi'
        have hbelow : Set.InjOn digest {bytes | ∃ r,
            (r ∈ t.children[i].subtrees ∨ r ∈ s.children[i].subtrees) ∧ r.node.encode = bytes} := by
          refine hinj.mono ?_
          rintro bytes ⟨r, hr, hbytes⟩
          exact ⟨r, hr.imp (Tree.mem_subtrees_of_child hmem) (Tree.mem_subtrees_of_child hmem'),
            hbytes⟩
        obtain ⟨hn, hc, hmin, hmax⟩ := ih _ hmem (ht.child hmem) (hs.child hmem') hbelow
          (congrArg PageObjectReference.sha256 hreference)
        rw [← Tree.eta t.children[i], ← Tree.eta s.children[i], hreference, hn, hc, hmin, hmax]
    have hpages := pages_eq_of_node hnode hchildren
    have hmin := ht.linked.first
    have hmax := ht.linked.last
    rw [hpages, hs.linked.first] at hmin
    rw [hpages, hs.linked.last] at hmax
    exact ⟨hnode, hchildren, (Option.some.inj hmin).symm, (Option.some.inj hmax).symm⟩

/-- **The hash of a root settles the page table.** Two trees that readers have accepted, from any
two stores and through any locations, map the same pages to the same places once their roots have
the same hash, as long as the hash tells their nodes apart. -/
theorem page_tree_authentic (digest : Digest) {store store' : String → Except RuntimeError Bytes}
    {t s : Tree} (ht : Loaded digest store t) (hs : Loaded digest store' s)
    (hroot : t.reference.sha256 = s.reference.sha256)
    (hinj : Set.InjOn digest
      {bytes | ∃ r, (r ∈ t.subtrees ∨ r ∈ s.subtrees) ∧ r.node.encode = bytes}) :
    t.node = s.node ∧ t.children = s.children ∧ flatten t ∅ = flatten s ∅ := by
  obtain ⟨htwell, -, -⟩ := ht.sound
  obtain ⟨hswell, -, -⟩ := hs.sound
  obtain ⟨hnode, hchildren, -, -⟩ := eq_below_of_sha256 htwell hswell hinj hroot
  refine ⟨hnode, hchildren, ?_⟩
  rw [flatten_eq, flatten_eq, pages_eq_of_node hnode hchildren]

section Sample

/-- The mapping of a page into a pack that is only named. -/
private def farEntry (page : ℕ) : PageMapEntry :=
  ⟨page, ⟨pagePackUri (lengthDigest [1]), lengthDigest [1], 16384⟩, (page - 1) * 4096, 4096, 4096,
    .none, lengthDigest [2]⟩

/-- A tree of one leaf over some pages, between its least and its greatest one. -/
private def farLeaf (pages : List ℕ) (min max : ℕ) : Tree :=
  let node : PageMapNode := .leaf (pages.map farEntry)
  ⟨⟨pageMapUri (lengthDigest node.encode), lengthDigest node.encode, node.encode.length⟩, node, [],
    min, max⟩

/-- The leaf over the first three pages. -/
private def firstLeaf : Tree := farLeaf [1, 2, 3] 1 3

/-- The leaf over the last page. -/
private def lastLeaf : Tree := farLeaf [4] 4 4

/-- The root over the two leaves, one level above them. -/
private def wideNode : PageMapNode := .internal 1 [firstLeaf.branch, lastLeaf.branch]

/-- The tree of two leaves whose root is stored at a location. -/
def wideTree (uri : String) : Tree :=
  ⟨⟨uri, lengthDigest wideNode.encode, wideNode.encode.length⟩, wideNode,
    [firstLeaf, lastLeaf], 1, 4⟩

/-- A store of the three nodes, where the root is at any location that no leaf has. -/
def wideStore (uri : String) : Except RuntimeError Bytes :=
  if uri = firstLeaf.reference.uri then .ok firstLeaf.node.encode
  else if uri = lastLeaf.reference.uri then .ok lastLeaf.node.encode
  else .ok wideNode.encode

/-- The mapping of a page fits its encoding. -/
private theorem farEntry_inRange {page : ℕ} (h : page < 1000) : (farEntry page).InRange where
  pageNumber := h.trans (by decide)
  pack := by
    have huri := relativeUri_pagePackUri (lengthDigest [1])
    refine ⟨?_, ?_, (by decide : 16384 < 18446744073709551616)⟩
    · rw [relativeUri] at huri
      split at huri
      · assumption
      · cases huri
    · exact (length_pagePackUri _).trans_lt (by decide)
  offset := by
    change (page - 1) * 4096 < _
    omega
  storedLength := (by decide : 4096 < 4294967296)
  rawLength := (by decide : 4096 < 4294967296)

/-- A leaf over a few pages is linked to its reference. -/
private theorem linked_farLeaf {pages : List ℕ} {min max : ℕ} (hpages : ∀ page ∈ pages, page < 1000)
    (hshort : pages.length < 1000)
    (hvalid : (PageMapNode.leaf (pages.map farEntry)).validate = .ok ())
    (hsmall : (PageMapNode.leaf (pages.map farEntry)).encode.length ≤ maxPageMapBytes)
    (hmin : pages.head? = some min) (hmax : pages.getLast? = some max) :
    (farLeaf pages min max).Linked lengthDigest where
  reference := inRange_created hsmall
  valid := hvalid
  inRange := by
    refine ⟨by rw [List.length_map]; omega, fun e he => ?_⟩
    obtain ⟨page, hpage, rfl⟩ := List.mem_map.mp he
    exact farEntry_inRange (hpages page hpage)
  small := hsmall
  sha256 := rfl
  length := rfl
  leaf := fun _ _ => rfl
  internal := fun _ _ h => by cases h
  first := by
    rw [Tree.pages_leaf rfl, List.head?_map, hmin]
    rfl
  last := by
    rw [Tree.pages_leaf rfl, List.getLast?_map, hmax]
    rfl

/-- The first leaf is linked to its reference. -/
private theorem linked_firstLeaf : firstLeaf.Linked lengthDigest :=
  linked_farLeaf (by decide) (by decide) (by decide +kernel) (by decide +kernel) rfl rfl

/-- The last leaf is linked to its reference. -/
private theorem linked_lastLeaf : lastLeaf.Linked lengthDigest :=
  linked_farLeaf (by decide) (by decide) (by decide +kernel) (by decide +kernel) rfl rfl

/-- Both leaves are well formed. -/
private theorem wellFormed_leaves : ∀ leaf ∈ [firstLeaf, lastLeaf], leaf.WellFormed lengthDigest :=
  List.forall_mem_cons.mpr ⟨Tree.wellFormed_iff.mpr ⟨linked_firstLeaf, fun c hc => by cases hc⟩,
    List.forall_mem_singleton.mpr
      (Tree.wellFormed_iff.mpr ⟨linked_lastLeaf, fun c hc => by cases hc⟩)⟩

/-- The root over the two leaves is small enough to be stored. -/
private theorem length_wideNode : wideNode.encode.length ≤ maxPageMapBytes := by decide +kernel

variable {uri : String}

/-- The tree of two leaves maps four pages. -/
private theorem pages_wideTree : (wideTree uri).pages = [1, 2, 3, 4].map farEntry := by
  rw [Tree.pages_internal rfl]
  rfl

/-- The tree of two leaves has three nodes, the root first. -/
private theorem subtrees_wideTree :
    (wideTree uri).subtrees = [wideTree uri, firstLeaf, lastLeaf] := by
  rw [Tree.subtrees_eq]
  rfl

/-- The tree of two leaves is well formed wherever its root is stored. -/
private theorem wellFormed_wideTree (hsafe : safeRelativeUri uri = true)
    (hshort : (utf8 uri).length < 18446744073709551616) :
    (wideTree uri).WellFormed lengthDigest := by
  refine Tree.wellFormed_iff.mpr ⟨?_, wellFormed_leaves⟩
  exact
    { reference := ⟨hsafe, hshort, length_wideNode.trans_lt (by decide)⟩
      valid := (by decide +kernel : wideNode.validate = .ok ())
      inRange := by
        refine ⟨by decide, by decide, fun e he => ?_⟩
        rw [← List.map_singleton, ← List.map_cons] at he
        obtain ⟨leaf, hleaf, rfl⟩ := List.mem_map.mp he
        exact (wellFormed_leaves leaf hleaf).inRange_branch
      small := length_wideNode
      sha256 := rfl
      length := rfl
      leaf := fun _ h => by cases h
      internal := by
        rintro level branches h
        cases h
        exact ⟨rfl, List.forall_mem_cons.mpr ⟨rfl, List.forall_mem_singleton.mpr rfl⟩⟩
      first := by
        rw [pages_wideTree]
        rfl
      last := by
        rw [pages_wideTree]
        rfl }

/-- The tree of two leaves is accepted wherever its root is stored, as long as no leaf is there. -/
theorem loaded_wideTree (hsafe : safeRelativeUri uri = true)
    (hshort : (utf8 uri).length < 18446744073709551616)
    (hfree : uri ≠ firstLeaf.reference.uri ∧ uri ≠ lastLeaf.reference.uri) :
    Loaded lengthDigest wideStore (wideTree uri) := by
  have hapart : firstLeaf.reference.uri ≠ lastLeaf.reference.uri := by decide +kernel
  have hstored : (wideTree uri).StoredIn wideStore := by
    intro s hs
    rw [subtrees_wideTree] at hs
    simp only [List.mem_cons, List.not_mem_nil, or_false] at hs
    obtain rfl | rfl | rfl := hs
    · exact (if_neg hfree.1).trans (if_neg hfree.2)
    · rw [wideStore, if_pos rfl]
    · rw [wideStore, if_neg hapart.symm, if_pos rfl]
  have hwell := wellFormed_wideTree hsafe hshort
  have hsorted : Ascending (wideTree uri).pages := by
    rw [pages_wideTree]
    exact List.Pairwise.map farEntry (fun _ _ h => h) (by decide : [1, 2, 3, 4].Pairwise (· < ·))
  have hloads : Loads lengthDigest wideStore 1 0 4 (wideTree uri) :=
    ⟨hwell, rfl, hsorted, hstored, Nat.zero_lt_one, Nat.le_refl 4⟩
  have hnodup : (wideTree uri).uris.Nodup := by
    rw [Tree.uris, subtrees_wideTree]
    simpa [List.nodup_cons] using ⟨hfree, hapart⟩
  obtain ⟨seen, hseen, -⟩ := loadTree_complete hloads (by decide) hnodup
    fun uri _ => List.not_mem_nil (a := uri)
  exact ⟨_, _, _, _, _, _, hwell.linked.reference, hseen⟩

/-- A tree of two leaves and the same tree with its root at another location have one page table. -/
theorem page_tree_authentic_moved :
    (wideTree "_otmp/root").reference ≠ (wideTree "_otmp/moved").reference ∧
      flatten (wideTree "_otmp/root") ∅ = flatten (wideTree "_otmp/moved") ∅ := by
  have hroot : Loaded lengthDigest wideStore (wideTree "_otmp/root") :=
    loaded_wideTree (by decide +kernel) (by decide +kernel) (by decide +kernel)
  have hmoved : Loaded lengthDigest wideStore (wideTree "_otmp/moved") :=
    loaded_wideTree (by decide +kernel) (by decide +kernel) (by decide +kernel)
  refine ⟨by decide +kernel, (page_tree_authentic lengthDigest hroot hmoved rfl ?_).2.2⟩
  have hnodes : ∀ r, r ∈ (wideTree "_otmp/root").subtrees ∨ r ∈ (wideTree "_otmp/moved").subtrees →
      r.node ∈ [wideNode, firstLeaf.node, lastLeaf.node] := by
    rw [subtrees_wideTree, subtrees_wideTree]
    rintro r (hr | hr) <;> exact List.mem_map_of_mem (f := Tree.node) hr
  have hnodup : ([wideNode, firstLeaf.node, lastLeaf.node].map fun node =>
      lengthDigest node.encode).Nodup := by decide +kernel
  rintro _ ⟨r, hr, rfl⟩ _ ⟨r', hr', rfl⟩ heq
  rw [List.inj_on_of_nodup_map hnodup (hnodes r hr) (hnodes r' hr') heq]

end Sample

end Authentic

section Runs

/-- The images that are written one after the other, the latest first: the pages that change and the
last page of each. -/
abbrev Images := List (Pages × ℕ)

/-- The bytes of a page after some images, when each image replaces the pages it changes and ends
behind its last page. -/
def replayPages : Images → ℕ → Option Bytes
  | [], _ => none
  | (changed, eof) :: earlier, page =>
    match changed.entries.find? fun p => p.1 == page with
    | some p => some p.2
    | none => if page ≤ eof then replayPages earlier page else none

/-- The roots of the trees that are written for images, each over the one before it. -/
inductive Persists (digest : Digest) : Images → Option Tree → Prop
  | nil : Persists digest [] none
  | image {history : Images} {parent root : Option Tree} {changed : Pages} {eof passes : ℕ}
      {artifacts : Artifacts} :
      Persists digest history parent →
      buildTree digest passes parent changed eof = given (.ok (root, artifacts)) →
      Persists digest ((changed, eof) :: history) root

variable {history : Images} {parent root : Option Tree} {changed : Pages} {eof page : ℕ}
  {artifacts : Artifacts}

/-- A page table shows a replayed page: it has an entry for the page when there is one, and the
entry leads into a pack of one of the images, to the bytes of the page. -/
def Shows (digest : Digest) (history : Images) (page : ℕ) (bytes : Option Bytes)
    (entry : Option PageMapEntry) : Prop :=
  match bytes with
  | none => entry = none
  | some bytes => ∃ e, entry = some e ∧ ∃ image ∈ history, Maps digest image.1 page bytes e

/-- An earlier page is shown in a longer history. -/
theorem Shows.mono {bytes : Option Bytes} {entry : Option PageMapEntry} (image : Pages × ℕ)
    (h : Shows digest history page bytes entry) :
    Shows digest (image :: history) page bytes entry := by
  cases bytes with
  | none => exact h
  | some bytes =>
    obtain ⟨e, hentry, earlier, hmem, hmaps⟩ := h
    exact ⟨e, hentry, earlier, List.mem_cons_of_mem _ hmem, hmaps⟩

/-- One more image shows its changed pages, and the other pages up to its end as before. -/
theorem Built.shows (h : Built digest parent changed eof root artifacts)
    (hparent : ∀ t ∈ parent, t.WellFormed digest ∧ Ascending t.pages)
    (hshows : Shows digest history page (replayPages history page) (flattenRoot parent)[page]?) :
    Shows digest ((changed, eof) :: history) page (replayPages ((changed, eof) :: history) page)
      (flattenRoot root)[page]? := by
  obtain ⟨hchanged, hunchanged⟩ := h.flattenRoot_eq hparent
  rw [replayPages]
  cases hfind : changed.entries.find? fun p => p.1 == page with
  | some p =>
    obtain rfl : p.1 = page := beq_iff_eq.mp (List.find?_some hfind :)
    obtain ⟨e, hentry, hmaps⟩ := hchanged p.1 p.2 (List.mem_of_find?_eq_some hfind)
    exact ⟨e, hentry, _, List.mem_cons_self, hmaps⟩
  | none =>
    have hother : page ∉ changed.entries.map Prod.fst := by
      intro hmem
      obtain ⟨p, hp, heq⟩ := List.mem_map.mp hmem
      exact List.find?_eq_none.mp hfind p hp (beq_iff_eq.mpr heq)
    rw [hunchanged page hother]
    by_cases hwithin : page ≤ eof
    · simp only [if_pos hwithin]
      exact hshows.mono _
    · simp only [if_neg hwithin]
      rfl

/-- A run keeps its trees well formed, with ascending pages. -/
theorem Persists.wellFormed (h : Persists digest history root) :
    ∀ t ∈ root, t.WellFormed digest ∧ Ascending t.pages := by
  induction h with
  | nil => exact nofun
  | image _ hbuild ih =>
    have hbuilt := built_of_buildTree ih hbuild
    intro t ht
    obtain rfl := Option.mem_def.mp ht
    exact ⟨hbuilt.wellFormed t rfl, hbuilt.update.ascending⟩

/-- **Runs of persisted images refine the replay of their pages.** However many images are written,
each over the tree of the one before, a page is in the page table exactly when it is in the replayed
image, and its entry then leads to a pack that one of the images wrote and to the replayed bytes
in it, under their hash. -/
theorem persists_refines_replay (digest : Digest) {history : Images} {root : Option Tree}
    (h : Persists digest history root) (page : ℕ) :
    Shows digest history page (replayPages history page) (flattenRoot root)[page]? := by
  induction h with
  | nil =>
    rw [flattenRoot, Std.ExtTreeMap.getElem?_empty]
    rfl
  | image hrun hbuild ih =>
    have hparent := hrun.wellFormed
    exact (built_of_buildTree hparent hbuild).shows hparent ih

/-- The run of two images: the second one keeps a page of the first, replaces the next page and ends
before the last. -/
theorem persists_refines_replay_two : ∃ (root : Option Tree),
    Persists lengthDigest [(secondPages, 3), (firstPages, 4)] root ∧
    (∃ e, (flattenRoot root)[2]? = some e ∧ ∃ image ∈ [(secondPages, 3), (firstPages, 4)],
      Maps lengthDigest image.1 2 (evenPage 7) e) ∧
    (∃ e, (flattenRoot root)[3]? = some e ∧ ∃ image ∈ [(secondPages, 3), (firstPages, 4)],
      Maps lengthDigest image.1 3 (evenPage 9) e) ∧
    (flattenRoot root)[4]? = none := by
  obtain ⟨first, second, _, _, _, hfirst, hsecond, -⟩ := exists_sampleRun
  have hrun : Persists lengthDigest [(secondPages, 3), (firstPages, 4)] (some second) :=
    .image (.image .nil hfirst) hsecond
  exact ⟨some second, hrun, persists_refines_replay lengthDigest hrun 2,
    persists_refines_replay lengthDigest hrun 3, persists_refines_replay lengthDigest hrun 4⟩

end Runs

end Otmp.Physical
