import Otmp.Foundation.Overriding
import Otmp.Runtime.PageTreeEnds
import Otmp.Runtime.PageTreeLoad

/-!
# Updates of page trees override their pages

The trees that take the place of an updated tree hold the old pages up to the end of the image,
overridden by the changes. Every node of them is a node of the old tree or has been created: then
it has at most 128 entries, fits 1 MiB and is among the objects to store.
-/

namespace Otmp.Physical

open Foundation Cbor

variable {digest : Digest} {artifacts artifacts' artifacts'' : Artifacts} {passes level eof : ℕ}
  {known : Tree → Prop} {t tree : Tree} {ts children : List Tree}
  {entries changes : List PageMapEntry}

/-- The number of entries of a node, which its capacity bounds. -/
def entryCount : PageMapNode → ℕ
  | .leaf entries => entries.length
  | .internal _ branches => branches.length

/-- An object to store that is the encoding of a node of a created tree. -/
def IsNode (digest : Digest) (a : Artifact) : Prop :=
  ∃ node : PageMapNode, a = ⟨pageMapUri (digest node.encode), node.encode⟩ ∧
    node.validate = .ok () ∧ entryCount node ≤ capacity ∧ node.encode.length ≤ maxPageMapBytes

/-- Objects are kept under their locations, and only nodes are added. -/
structure Grows (digest : Digest) (artifacts artifacts' : Artifacts) : Prop where
  kept : ∀ uri ∈ artifacts, uri ∈ artifacts'
  added : ∀ (uri : String) (a : Artifact), artifacts'[uri]? = some a →
    artifacts[uri]? = some a ∨ a.uri = uri ∧ IsNode digest a

/-- Nothing is added when nothing is done. -/
theorem Grows.refl (artifacts : Artifacts) : Grows digest artifacts artifacts :=
  ⟨fun _ h => h, fun _ _ h => .inl h⟩

/-- Growing twice is growing. -/
theorem Grows.trans (h : Grows digest artifacts artifacts')
    (h' : Grows digest artifacts' artifacts'') :
    Grows digest artifacts artifacts'' := by
  refine ⟨fun uri huri => h'.kept uri (h.kept uri huri), fun uri a ha => ?_⟩
  obtain ha | hnode := h'.added uri a ha
  · exact h.added uri a ha
  · exact .inr hnode

/-- A node is known, or it is among the objects to store under the hash of its encoding. -/
def Origin (known : Tree → Prop) (artifacts : Artifacts) (s : Tree) : Prop :=
  known s ∨ s.reference.uri ∈ artifacts ∧ s.reference.uri = pageMapUri s.reference.sha256

/-- Well-formed trees of a level, whose nodes are known or have been created. -/
structure Row (digest : Digest) (known : Tree → Prop) (artifacts : Artifacts) (level : ℕ)
    (ts : List Tree) : Prop where
  wellFormed : ∀ t ∈ ts, t.WellFormed digest
  level : ∀ t ∈ ts, t.node.level = level
  origin : ∀ t ∈ ts, ∀ s ∈ t.subtrees, Origin known artifacts s

namespace Row

/-- A row of no trees. -/
theorem nil : Row digest known artifacts level [] := ⟨nofun, nofun, nofun⟩

/-- A row stays one when more objects are created. -/
theorem mono (h : Row digest known artifacts level ts)
    (hgrows : Grows digest artifacts artifacts') :
    Row digest known artifacts' level ts :=
  ⟨h.wellFormed, h.level, fun t ht s hs =>
    (h.origin t ht s hs).imp_right (And.imp_left (hgrows.kept _))⟩

/-- Two rows of one level are a row together. -/
theorem append {ts' : List Tree} (h : Row digest known artifacts level ts)
    (h' : Row digest known artifacts level ts') : Row digest known artifacts level (ts ++ ts') := by
  refine ⟨fun t ht => ?_, fun t ht => ?_, fun t ht => ?_⟩
  · exact (List.mem_append.mp ht).elim (h.wellFormed t) (h'.wellFormed t)
  · exact (List.mem_append.mp ht).elim (h.level t) (h'.level t)
  · exact (List.mem_append.mp ht).elim (h.origin t) (h'.origin t)

/-- A part of a row is a row. -/
theorem sub {ts' : List Tree} (h : Row digest known artifacts level ts) (hsub : ts' ⊆ ts) :
    Row digest known artifacts level ts' :=
  ⟨fun t ht => h.wellFormed t (hsub ht), fun t ht => h.level t (hsub ht),
    fun t ht => h.origin t (hsub ht)⟩

end Row

section InRange

/-- The pages of a well-formed tree are of the source's types. -/
theorem Tree.WellFormed.inRange_pages (h : t.WellFormed digest) : ∀ e ∈ t.pages, e.InRange := by
  induction t using Tree.induction with
  | step t ih =>
    cases hnode : t.node with
    | leaf entries =>
      have hrange := h.linked.inRange
      rw [hnode] at hrange
      rw [Tree.pages_leaf hnode]
      exact hrange.2
    | internal level branches =>
      rw [Tree.pages_internal hnode]
      intro e he
      obtain ⟨c, hc, he⟩ := List.mem_flatMap.mp he
      exact ih c hc (h.child hc) e he

/-- The branch to a well-formed tree is of the source's types. -/
theorem Tree.WellFormed.inRange_branch (h : t.WellFormed digest) : t.branch.InRange := by
  obtain ⟨e, he, hmax⟩ := h.linked.exists_last
  have hpage := (h.inRange_pages e he).pageNumber
  rw [hmax] at hpage
  exact ⟨hpage, h.linked.reference⟩

/-- The reference to a created node is of the source's types. -/
theorem inRange_created {node : PageMapNode} (hsmall : node.encode.length ≤ maxPageMapBytes) :
    PageObjectReference.InRange
      ⟨pageMapUri (digest node.encode), digest node.encode, node.encode.length⟩ := by
  have huri := relativeUri_pageMapUri (digest node.encode)
  refine ⟨?_, ?_, ?_⟩
  · rw [relativeUri] at huri
    split at huri
    · assumption
    · cases huri
  · rw [length_pageMapUri]
    decide
  · unfold maxPageMapBytes at hsmall
    dsimp only
    omega

end InRange

section Created

variable {node : PageMapNode}

/-- Creating a node adds it to the objects to store. -/
theorem grows_createTree (h : createTree digest node children artifacts = .ok (t, artifacts'))
    (hcount : entryCount node ≤ capacity) :
    Grows digest artifacts artifacts' ∧ t.reference.uri ∈ artifacts' ∧
      t.reference.uri = pageMapUri t.reference.sha256 := by
  obtain ⟨hvalid, hsmall, hreference, -, -, -, -, rfl⟩ := createTree_eq_ok.mp h
  have huri : t.reference.uri = pageMapUri (digest node.encode) := by rw [hreference]
  refine ⟨⟨fun uri huri => ?_, fun uri a ha => ?_⟩, ?_, ?_⟩
  · rw [Std.ExtTreeMap.mem_insert]
    exact .inr huri
  · rw [Std.ExtTreeMap.getElem?_insert] at ha
    split at ha
    · next hsame =>
      cases ha
      have hsame := Std.LawfulEqCmp.compare_eq_iff_eq.mp hsame
      exact .inr ⟨hsame, node, by rw [huri], hvalid, hcount, hsmall⟩
    · exact .inl ha
  · exact Std.ExtTreeMap.mem_insert_self
  · rw [hreference]

/-- A created node is linked when its entries are of the source's types and name its children. -/
theorem linked_of_createTree (h : createTree digest node children artifacts = .ok (t, artifacts'))
    (hrange : node.InRange) (hleaf : ∀ entries, node = .leaf entries → children = [])
    (hinternal : ∀ level branches, node = .internal level branches →
      branches = children.map Tree.branch ∧ ∀ c ∈ children, c.node.level + 1 = level)
    (hfirst : t.pages.head?.map PageMapEntry.pageNumber = some t.min)
    (hlast : t.pages.getLast?.map PageMapEntry.pageNumber = some t.max) : t.Linked digest := by
  obtain ⟨hvalid, hsmall, hreference, hnode, hchildren, -⟩ := createTree_eq_ok.mp h
  refine ⟨?_, ?_, ?_, ?_, ?_, ?_, ?_, ?_, hfirst, hlast⟩
  · rw [hreference]
    exact inRange_created hsmall
  · rw [hnode, hvalid]
  · rwa [hnode]
  · rwa [hnode]
  · rw [hreference, hnode]
  · rw [hreference, hnode]
  · rwa [hnode, hchildren]
  · rwa [hnode, hchildren]

/-- A created node over a row is a row of its own. -/
theorem row_of_createTree (h : createTree digest node children artifacts = .ok (t, artifacts'))
    (hcount : entryCount node ≤ capacity) (hlinked : t.Linked digest)
    (hrow : Row digest known artifacts level children) :
    Row digest known artifacts' node.level [t] := by
  obtain ⟨hgrows, hin, hown⟩ := grows_createTree h hcount
  obtain ⟨-, -, -, hnode, hchildren, -⟩ := createTree_eq_ok.mp h
  refine ⟨fun s hs => ?_, fun s hs => ?_, fun s hs r hr => ?_⟩
  · obtain rfl := List.mem_singleton.mp hs
    refine Tree.wellFormed_iff.mpr ⟨hlinked, fun c hc => ?_⟩
    rw [hchildren] at hc
    exact hrow.wellFormed c hc
  · obtain rfl := List.mem_singleton.mp hs
    rw [hnode]
  · obtain rfl := List.mem_singleton.mp hs
    obtain rfl | ⟨c, hc, hr⟩ := Tree.mem_subtrees_cases hr
    · exact .inr ⟨hin, hown⟩
    · rw [hchildren] at hc
      exact (hrow.mono hgrows).origin c hc r hr

/-- A created leaf holds its entries, and is a row of its own. -/
theorem row_leaf (hrange : ∀ e ∈ entries, e.InRange) (hcapacity : entries.length ≤ capacity)
    (h : createTree digest (.leaf entries) [] artifacts = .ok (t, artifacts')) :
    t.pages = entries ∧ Row digest known artifacts' 0 [t] := by
  obtain ⟨hvalid, -, -, hnode, -, hmin, hmax, -⟩ := createTree_eq_ok.mp h
  obtain ⟨hne, -⟩ := validate_leaf hvalid
  have hpages := Tree.pages_leaf hnode
  have hfirst : t.pages.head?.map PageMapEntry.pageNumber = some t.min := by
    rw [hpages, hmin]
    dsimp only
    rw [List.head?_eq_some_head hne]
    rfl
  have hlast : t.pages.getLast?.map PageMapEntry.pageNumber = some t.max := by
    rw [hpages, hmax, PageMapNode.maxPage, List.getLast?_eq_some_getLast hne]
    rfl
  have hentries : PageMapNode.InRange (.leaf entries) := by
    unfold capacity at hcapacity
    exact ⟨by omega, hrange⟩
  have hlinked := linked_of_createTree h hentries (fun _ _ => rfl) nofun hfirst hlast
  have hnone : Row digest known artifacts 0 [] := Row.nil
  exact ⟨hpages, row_of_createTree h hcapacity hlinked hnone⟩

/-- A created internal node holds the pages of its children. -/
theorem row_internal (hrow : Row digest known artifacts level children)
    (hheight : level + 1 < 4294967296) (hcapacity : children.length ≤ capacity)
    (h : createTree digest (.internal (level + 1) (children.map Tree.branch)) children artifacts =
      .ok (t, artifacts')) :
    t.pages = children.flatMap Tree.pages ∧ Row digest known artifacts' (level + 1) [t] := by
  obtain ⟨hvalid, -, -, hnode, hchildren, hmin, hmax, -⟩ := createTree_eq_ok.mp h
  have hne : children ≠ [] := fun hnil => (validate_internal hvalid).2 (by rw [hnil]; rfl)
  have hpages : t.pages = children.flatMap Tree.pages := by
    rw [Tree.pages_internal hnode, hchildren]
  have hfirst : t.pages.head?.map PageMapEntry.pageNumber = some t.min := by
    have hhead := List.head?_eq_some_head hne
    rw [hpages, first_of_row (hrow.wellFormed _ (List.head_mem hne)).linked hhead, hmin]
    dsimp only
    rw [hhead]
    rfl
  have hlast : t.pages.getLast?.map PageMapEntry.pageNumber = some t.max := by
    have htail := List.getLast?_eq_some_getLast hne
    rw [hpages, last_of_row (hrow.wellFormed _ (List.getLast_mem hne)).linked htail, hmax,
      PageMapNode.maxPage, List.getLast?_map, htail]
    rfl
  have hbranches : PageMapNode.InRange (.internal (level + 1) (children.map Tree.branch)) := by
    refine ⟨hheight, ?_, fun e he => ?_⟩
    · rw [List.length_map]
      unfold capacity at hcapacity
      omega
    · obtain ⟨c, hc, rfl⟩ := List.mem_map.mp he
      exact (hrow.wellFormed c hc).inRange_branch
  have hlinked := linked_of_createTree h hbranches nofun
    (fun _ _ heq => by
      cases heq
      exact ⟨rfl, fun c hc => by rw [hrow.level c hc]⟩) hfirst hlast
  have hcount : entryCount (.internal (level + 1) (children.map Tree.branch)) ≤ capacity := by
    rw [entryCount, List.length_map]
    exact hcapacity
  exact ⟨hpages, row_of_createTree h hcount hlinked hrow⟩

end Created

section Nodes

/-- Leaves hold their entries part by part. -/
theorem leafNodes_row (hrange : ∀ e ∈ entries, e.InRange)
    (h : leafNodes digest passes entries artifacts = given (.ok (ts, artifacts'))) :
    ts.flatMap Tree.pages = entries ∧ Row digest known artifacts' 0 ts ∧
      Grows digest artifacts artifacts' := by
  have hbuilds := builds_of_halve h
  clear h
  induction hbuilds with
  | nil => exact ⟨rfl, Row.nil, Grows.refl _⟩
  | cons _ hwhole _ ih =>
    obtain ⟨hcapacity, hcreate⟩ := createWhole_eq_some.mp hwhole
    obtain ⟨hpages, hrow⟩ : _ ∧ Row digest known _ 0 [_] := row_leaf
      (fun e he => hrange e (List.mem_append_left _ he)) hcapacity hcreate
    obtain ⟨hrest, hothers, hgrows⟩ := ih fun e he => hrange e (List.mem_append_right _ he)
    obtain ⟨hfirst, -⟩ := grows_createTree hcreate hcapacity
    refine ⟨?_, (hrow.mono hgrows).append hothers, hfirst.trans hgrows⟩
    rw [List.flatMap_cons, hpages, hrest]

/-- The nodes of a level hold the pages of the level below part by part. -/
theorem internalNodes_row (hrow : Row digest known artifacts level children)
    (hheight : level + 1 < 4294967296)
    (h : internalNodes digest passes (level + 1) children artifacts =
      given (.ok (ts, artifacts'))) :
    ts.flatMap Tree.pages = children.flatMap Tree.pages ∧
      Row digest known artifacts' (level + 1) ts ∧ Grows digest artifacts artifacts' := by
  have hbuilds := builds_of_halve h
  clear h
  induction hbuilds with
  | nil => exact ⟨rfl, Row.nil, Grows.refl _⟩
  | cons _ hwhole _ ih =>
    obtain ⟨hcapacity, hcreate⟩ := createWhole_eq_some.mp hwhole
    obtain ⟨hpages, hown⟩ := row_internal (hrow.sub (List.subset_append_left _ _)) hheight
      hcapacity hcreate
    obtain ⟨hfirst, -⟩ := grows_createTree hcreate (by
      rw [entryCount, List.length_map]
      exact hcapacity)
    obtain ⟨hrest, hothers, hgrows⟩ := ih ((hrow.sub (List.subset_append_right _ _)).mono hfirst)
    refine ⟨?_, (hown.mono hgrows).append hothers, hfirst.trans hgrows⟩
    rw [List.flatMap_cons, hpages, hrest, List.flatMap_append]

/-- No nodes of level zero are built over children. -/
theorem ne_zero_of_internalNodes (hne : children ≠ [])
    (h : internalNodes digest passes level children artifacts = given (.ok (ts, artifacts'))) :
    level ≠ 0 := by
  have hbuilds := builds_of_halve h
  clear h
  cases hbuilds with
  | nil => exact absurd rfl hne
  | cons _ hwhole _ =>
    obtain ⟨-, hcreate⟩ := createWhole_eq_some.mp hwhole
    exact (validate_internal (createTree_eq_ok.mp hcreate).1).1

end Nodes

section Update

/-- The entry is not behind the end of the image. -/
def Within (eof : ℕ) (e : PageMapEntry) : Prop := e.pageNumber ≤ eof

/-- Some changes override the pages up to the end of the image. -/
def PageUpdate (eof : ℕ) (old changes new : List PageMapEntry) : Prop :=
  Overrides PageMapEntry.pageNumber (Within eof) old changes new

/-- The changed pages of a leaf are its entries, overridden by the changes up to the end of the
image. -/
theorem update_changedPages (hold : Ascending entries) (hchanges : Ascending changes) :
    PageUpdate eof entries changes (changedPages entries changes eof) := by
  have h := @overrides_insertMany _ _ (fun e => decide (e.pageNumber ≤ eof)) _ _ hold hchanges
  simp only [decide_eq_true_eq] at h
  exact h

/-- What the visit of a tree gives: the updated pages, as a row of the same level. -/
structure Updates (digest : Digest) (known : Tree → Prop) (eof level : ℕ)
    (old changes : List PageMapEntry) (artifacts : Artifacts) (ts : List Tree)
    (artifacts' : Artifacts) : Prop where
  pages : PageUpdate eof old changes (ts.flatMap Tree.pages)
  row : Row digest known artifacts' level ts
  grows : Grows digest artifacts artifacts'

/-- Handing the children their changes updates their pages. -/
theorem updateChildren_updates
    {visit : Tree → List PageMapEntry → Artifacts → Bounded RuntimeError (List Tree × Artifacts)}
    (hvisit : ∀ c ∈ children, ∀ here artifacts ts artifacts', Ascending here →
      (∀ e ∈ here, e.InRange) → visit c here artifacts = given (.ok (ts, artifacts')) →
      Updates digest known eof level c.pages here artifacts ts artifacts')
    (hlinked : ∀ c ∈ children, c.Linked digest) (hsorted : Ascending (children.flatMap Tree.pages))
    (hchanges : Ascending changes) (hrange : ∀ e ∈ changes, e.InRange)
    (hempty : children = [] → changes = [])
    (h : updateChildren visit children changes artifacts = given (.ok (ts, artifacts'))) :
    Updates digest known eof level (children.flatMap Tree.pages) changes artifacts ts
      artifacts' := by
  induction children generalizing changes artifacts ts with
  | nil =>
    cases h
    rw [hempty rfl]
    exact ⟨Overrides.kept List.Pairwise.nil nofun, Row.nil, Grows.refl _⟩
  | cons c children ih =>
    rw [updateChildren] at h
    obtain ⟨⟨updated, middle⟩, hfirst, h⟩ := bind_eq_given_ok.mp h
    obtain ⟨⟨others, last⟩, hrest, h⟩ := bind_eq_given_ok.mp h
    cases h
    rw [List.flatMap_cons] at hsorted ⊢
    obtain ⟨hown, hbelow, hbehind⟩ := List.pairwise_append.mp hsorted
    obtain ⟨hc, hlinked⟩ := List.forall_mem_cons.mp hlinked
    obtain ⟨hvisited, hvisit⟩ := List.forall_mem_cons.mp hvisit
    generalize hcount : (if children.isEmpty = true then changes.length
      else (changes.takeWhile fun e => decide (e.pageNumber ≤ c.max)).length) = count
      at hfirst hrest
    have hhere := hvisited _ _ _ _ (hchanges.sublist (List.take_sublist _ _))
      (fun e he => hrange e (List.mem_of_mem_take he)) hfirst
    have hthere := ih hvisit hlinked hbelow (hchanges.sublist (List.drop_sublist _ _))
      (fun e he => hrange e (List.mem_of_mem_drop he))
      (fun hnil => by
        subst hnil
        rw [← hcount]
        exact List.drop_length) hrest
    have hcut : ∀ a ∈ c.pages ++ changes.take count, ∀ b ∈ children.flatMap Tree.pages ++
        changes.drop count, a.pageNumber < b.pageNumber := by
      cases children with
      | nil =>
        rw [← hcount]
        simp
      | cons next children =>
        obtain ⟨hleft, hright⟩ := cut_at_key hchanges hcount.symm
        obtain ⟨final, hfinal, hmax⟩ := hc.exists_last
        intro a ha b hb
        have hle : a.pageNumber ≤ c.max := by
          obtain ha | ha := List.mem_append.mp ha
          · exact (hc.mem_range hown ha).2
          · exact hleft a ha
        have hlt : c.max < b.pageNumber := by
          obtain hb | hb := List.mem_append.mp hb
          · exact hmax ▸ hbehind final hfinal b hb
          · exact hright b hb
        omega
    refine ⟨?_, (hhere.row.mono hthere.grows).append hthere.row, hhere.grows.trans hthere.grows⟩
    have happend := hhere.pages.append hthere.pages hcut
    rwa [List.take_append_drop, ← List.flatMap_append] at happend

/-- **Updating a tree overrides its pages.** The changed pages take the place of the old ones up to
the end of the image, and every other page is kept. -/
theorem update_updates (hwell : tree.WellFormed digest) (hsorted : Ascending tree.pages)
    (hknown : ∀ s ∈ tree.subtrees, known s) (hchanges : Ascending changes)
    (hrange : ∀ e ∈ changes, e.InRange)
    (h : update digest passes tree changes eof artifacts = given (.ok (ts, artifacts'))) :
    Updates digest known eof tree.node.level tree.pages changes artifacts ts artifacts' := by
  induction passes generalizing tree changes artifacts ts artifacts' with
  | zero => cases h
  | succ passes ih =>
    rw [update] at h
    split at h
    · next hsame =>
      obtain ⟨hempty, hmax⟩ := hsame
      obtain rfl := List.isEmpty_iff.mp hempty
      cases h
      refine ⟨?_, ⟨?_, ?_, ?_⟩, Grows.refl _⟩
      · rw [List.flatMap_singleton]
        exact Overrides.kept hsorted fun e he =>
          (hwell.linked.mem_range hsorted he).2.trans hmax
      · exact List.forall_mem_singleton.mpr hwell
      · exact List.forall_mem_singleton.mpr rfl
      · exact List.forall_mem_singleton.mpr fun s hs => .inl (hknown s hs)
    · split at h
      · next hdropped =>
        obtain ⟨hmin, hempty⟩ := hdropped
        obtain rfl := List.isEmpty_iff.mp hempty
        cases h
        refine ⟨Overrides.dropped fun e he hkept => ?_, Row.nil, Grows.refl _⟩
        have hle := (hwell.linked.mem_range hsorted he).1
        have hkept : e.pageNumber ≤ eof := hkept
        omega
      · cases hnode : tree.node with
        | leaf entries =>
          rw [hnode] at h
          rw [Tree.pages_leaf hnode] at hsorted ⊢
          have hupdate : PageUpdate eof entries changes _ := update_changedPages hsorted hchanges
          have hentries := hwell.linked.inRange
          rw [hnode] at hentries
          obtain ⟨hpages, hrow, hgrows⟩ := leafNodes_row (fun e he => by
            obtain he | ⟨he, -⟩ := (hupdate.mem_iff e).mp he
            · exact hrange e he
            · exact hentries.2 e he) h
          refine ⟨?_, hrow, hgrows⟩
          rwa [hpages]
        | internal level branches =>
          rw [hnode] at h
          rw [Tree.pages_internal hnode] at hsorted ⊢
          have hvalid := hwell.linked.valid
          have hentries := hwell.linked.inRange
          obtain ⟨hbranches, hlevels⟩ := hwell.linked.internal level branches hnode
          rw [hnode] at hvalid hentries
          obtain ⟨hlevel, hne⟩ := validate_internal hvalid
          obtain ⟨below, rfl⟩ := Nat.exists_eq_succ_of_ne_zero hlevel
          obtain ⟨⟨children, middle⟩, hchildren, h⟩ := bind_eq_given_ok.mp h
          have hbelow : Updates digest known eof below (tree.children.flatMap Tree.pages) changes
              artifacts children middle := by
            refine updateChildren_updates
              (fun c hc here artifacts ts artifacts' hhere hin hvisit => ?_)
              (fun c hc => (hwell.child hc).linked) hsorted hchanges hrange (fun hnil => ?_)
              hchildren
            · have hown := ih (hwell.child hc) ((List.pairwise_flatMap.mp hsorted).1 c hc)
                (fun s hs => hknown s (Tree.mem_subtrees_of_child hc hs)) hhere hin hvisit
              rwa [Nat.succ.inj (hlevels c hc)] at hown
            · rw [hnil] at hbranches
              exact absurd hbranches hne
          obtain ⟨hpages, hrow, hgrows⟩ := internalNodes_row hbelow.row hentries.1 h
          refine ⟨?_, hrow, hbelow.grows.trans hgrows⟩
          rw [hpages]
          exact hbelow.pages

/-- Adding levels keeps the pages, and the nodes of every level are created. -/
theorem joinRoots_row {roots : List Tree} (hrow : Row digest known artifacts level roots)
    (h : joinRoots digest passes roots artifacts = given (.ok (ts, artifacts'))) :
    ts.flatMap Tree.pages = roots.flatMap Tree.pages ∧
      (∃ height, Row digest known artifacts' height ts) ∧ Grows digest artifacts artifacts' := by
  induction passes generalizing roots artifacts level with
  | zero => cases h
  | succ passes ih =>
    match roots, hrow, h with
    | [], hrow, h =>
      cases h
      exact ⟨rfl, ⟨level, hrow⟩, Grows.refl _⟩
    | [root], hrow, h =>
      cases h
      exact ⟨rfl, ⟨level, hrow⟩, Grows.refl _⟩
    | first :: second :: rest, hrow, h =>
      rw [joinRoots] at h
      obtain ⟨⟨above, middle⟩, hnodes, h⟩ := bind_eq_given_ok.mp h
      have hlevel := hrow.level first List.mem_cons_self
      have hfits : first.node.level < 4294967296 := by
        have hin := (hrow.wellFormed first List.mem_cons_self).linked.inRange
        cases hnode : first.node with
        | leaf entries => exact (by decide : 0 < 4294967296)
        | internal own branches =>
          rw [hnode] at hin
          exact hin.1
      have hne := ne_zero_of_internalNodes (List.cons_ne_nil _ _) hnodes
      have hnext : (first.node.level + 1) % 4294967296 = level + 1 := by omega
      rw [hnext] at hnodes
      obtain ⟨hpages, habove, hgrows⟩ := internalNodes_row hrow (by omega) hnodes
      obtain ⟨hrest, hlast, hmore⟩ := ih habove h
      exact ⟨hrest.trans hpages, hlast, hgrows.trans hmore⟩

/-- A root that gives way to its only child keeps its pages. -/
theorem collapse_spec (h : t.WellFormed digest) :
    collapse t ∈ t.subtrees ∧ (collapse t).pages = t.pages := by
  induction t using Tree.induction with
  | step t ih =>
    obtain ⟨reference, node, children, min, max⟩ := t
    match children with
    | [] => exact ⟨Tree.self_mem_subtrees _, rfl⟩
    | [child] =>
      have hc : child ∈ (⟨reference, node, [child], min, max⟩ : Tree).children :=
        List.mem_cons_self
      obtain ⟨hmem, hpages⟩ := ih child hc (h.child hc)
      refine ⟨Tree.mem_subtrees_of_child hc hmem, ?_⟩
      rw [(h.linked.of_child hc).1, List.flatMap_singleton]
      exact hpages
    | first :: second :: rest => exact ⟨Tree.self_mem_subtrees _, rfl⟩

end Update

end Otmp.Physical
