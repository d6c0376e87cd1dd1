import Otmp.Runtime.PageTreePersist

/-!
# The update law of page trees

A persisted image maps a changed page to the pack that holds it, and any other page to where the
parent's tree maps it, up to the end of the image. The objects that can be reached from its root
are returned or could be reached from the parent's, every returned object can be reached, and the
root is accepted by the reader, which finds the same mappings.
-/

namespace Otmp.Physical

open Foundation Cbor
open PagePack (Packable Pages encodePagePack entriesOf payloadOf totalOf)

variable {digest : Digest} {artifacts : Artifacts} {changed : Pages} {eof passes : ℕ}
  {parent root : Option Tree} {t s : Tree} {image : IncrementalImage} {references : References}

/-- The mappings below a root; without a root there are none. -/
def flattenRoot (root : Option Tree) : PageTable :=
  match root with
  | some t => flatten t ∅
  | none => ∅

/-- The objects below a root: its nodes and the packs they map to. -/
def rootObjects (root : Option Tree) : List PageObjectReference := (root.map Tree.objects).getD []

/-- The objects of a new image: what is to be stored, the nodes of the tree and the packs. -/
def objectBytes (digest : Digest) (root : Option Tree) (changed : Pages) (artifacts : Artifacts) :
    Set Bytes := {bytes |
  (∃ (uri : String) (a : Artifact), artifacts[uri]? = some a ∧ a.bytes = bytes) ∨
    (∃ t ∈ root, ∃ s ∈ t.subtrees, s.node.encode = bytes) ∨
    ∃ pages ∈ packChunks changed, encodePagePack digest imagePageSize pages = .ok bytes}

/-- A created object is one of the objects of the image. -/
theorem mem_objectBytes_of_stored {uri own : String} {bytes : Bytes}
    (h : artifacts[uri]? = some ⟨own, bytes⟩) :
    bytes ∈ objectBytes digest root changed artifacts := .inl ⟨uri, _, h, rfl⟩

/-- The node of a subtree is one of the objects of the image. -/
theorem mem_objectBytes_of_node (ht : t ∈ root) (hs : s ∈ t.subtrees) :
    s.node.encode ∈ objectBytes digest root changed artifacts := .inr (.inl ⟨t, ht, s, hs, rfl⟩)

/-- The pack of a part of the changed pages is one of the objects of the image. -/
theorem mem_objectBytes_of_pack {pages : Pages} {bytes : Bytes}
    (hpages : pages ∈ packChunks changed)
    (h : encodePagePack digest imagePageSize pages = .ok bytes) :
    bytes ∈ objectBytes digest root changed artifacts := .inr (.inr ⟨pages, hpages, h⟩)

section Finish

/-- What an image is made of: the root, and the created objects that it reaches. -/
theorem finishImage_eq_ok (h : finishImage root artifacts = .ok image) :
    ∃ references, reachableFrom root = .ok references ∧ image.root = root.map Tree.mapRoot ∧
      ∀ a, a ∈ image.artifacts ↔ ∃ uri : String, artifacts[uri]? = some a ∧ uri ∈ references := by
  rw [finishImage] at h
  obtain ⟨references, hreferences, h⟩ := bind_eq_ok.mp h
  obtain ⟨total, -, h⟩ := bind_eq_ok.mp h
  cases h
  refine ⟨references, hreferences, rfl, fun a => ?_⟩
  simp only [List.mem_map, List.mem_filter, Prod.exists, Std.ExtTreeMap.contains_iff_mem,
    Std.ExtTreeMap.mem_toList_iff_getElem?_eq_some]
  constructor
  · rintro ⟨uri, a, ⟨ha, huri⟩, rfl⟩
    exact ⟨uri, ha, huri⟩
  · rintro ⟨uri, ha, huri⟩
    exact ⟨uri, a, ⟨ha, huri⟩, rfl⟩

/-- The objects that can be reached from a root are found under their own locations. -/
theorem reachableFrom_eq_ok (hwell : ∀ t ∈ root, t.WellFormed digest)
    (h : reachableFrom root = .ok references) {uri : String} {r : PageObjectReference} :
    references[uri]? = some r ↔ r ∈ rootObjects root ∧ r.uri = uri := by
  cases root with
  | some t => exact reachable_eq_ok (hwell t rfl) h
  | none =>
    cases h
    rw [Std.ExtTreeMap.getElem?_empty]
    exact ⟨nofun, fun hr => nomatch hr.1⟩

/-- The reference to a node of a tree is among its objects. -/
theorem reference_mem_objects (hs : s ∈ t.subtrees) : s.reference ∈ t.objects :=
  List.mem_flatMap.mpr ⟨s, hs, List.mem_cons_self⟩

/-- An object of a tree is a node, or the pack of a page. -/
theorem mem_objects_cases {r : PageObjectReference} (hwell : t.WellFormed digest)
    (hr : r ∈ t.objects) : (∃ s ∈ t.subtrees, r = s.reference) ∨ ∃ e ∈ t.pages, r = e.pack := by
  obtain ⟨s, hs, hr⟩ := List.mem_flatMap.mp hr
  obtain rfl | hr := List.mem_cons.mp hr
  · exact .inl ⟨s, hs, rfl⟩
  · right
    cases hnode : s.node with
    | leaf entries =>
      rw [Tree.packs, hnode] at hr
      obtain ⟨e, he, rfl⟩ := List.mem_map.mp hr
      rw [← Tree.pages_leaf hnode] at he
      exact ⟨e, (Tree.pages_sublist hwell hs).subset he, rfl⟩
    | internal level branches =>
      rw [Tree.packs, hnode] at hr
      cases hr

/-- The pack of a page of a tree is among its objects. -/
theorem pack_mem_objects (hwell : t.WellFormed digest) {e : PageMapEntry} (he : e ∈ t.pages) :
    e.pack ∈ t.objects := by
  induction t using Tree.induction with
  | step t ih =>
    rw [Tree.objects_eq]
    cases hnode : t.node with
    | leaf entries =>
      rw [Tree.pages_leaf hnode] at he
      refine List.mem_cons_of_mem _ (List.mem_append_left _ ?_)
      rw [Tree.packs, hnode]
      exact List.mem_map_of_mem he
    | internal level branches =>
      rw [Tree.pages_internal hnode] at he
      obtain ⟨c, hc, he⟩ := List.mem_flatMap.mp he
      exact List.mem_cons_of_mem _ (List.mem_append_right _
        (List.mem_flatMap.mpr ⟨c, hc, ih c hc (hwell.child hc) he⟩))

end Finish

section Apart

/-- The greatest page of a node is that of its tree. -/
theorem Tree.WellFormed.maxPage_eq (h : t.WellFormed digest) : t.node.maxPage = some t.max := by
  have hlast := h.linked.last
  cases hnode : t.node with
  | leaf entries =>
    rw [Tree.pages_leaf hnode] at hlast
    exact hlast
  | internal level branches =>
    obtain ⟨rfl, -⟩ := h.linked.internal level branches hnode
    have hvalid := h.linked.valid
    rw [hnode] at hvalid
    have hne : t.children ≠ [] := fun hnil => (validate_internal hvalid).2 (by rw [hnil]; rfl)
    have htail := List.getLast?_eq_some_getLast hne
    have hmax := last_of_row (h.child (List.getLast_mem hne)).linked htail
    rw [Tree.pages_internal hnode, hmax] at hlast
    rw [PageMapNode.maxPage, List.getLast?_map, htail]
    exact hlast

/-- Nodes with one encoding are one node. -/
theorem node_eq_of_encode (h : t.Linked digest) (h' : s.Linked digest)
    (heq : t.node.encode = s.node.encode) : t.node = s.node := by
  have hdecode : decodePageMap t.node.encode = .ok t.node :=
    decodePageMap_eq_ok.mpr ⟨h.inRange, h.valid, h.small, rfl⟩
  have hdecode' : decodePageMap s.node.encode = .ok s.node :=
    decodePageMap_eq_ok.mpr ⟨h'.inRange, h'.valid, h'.small, rfl⟩
  rw [heq, hdecode'] at hdecode
  exact (Except.ok.inj hdecode).symm

/-- No two nodes of a tree have one location when its references do not conflict. -/
theorem nodup_uris (hwell : t.WellFormed digest) (hsorted : Ascending t.pages)
    (hreach : reachable t ∅ = .ok references)
    (hinj : Set.InjOn digest {bytes | ∃ s ∈ t.subtrees, s.node.encode = bytes}) :
    t.uris.Nodup := by
  have hkeys := Tree.nodup_keys hwell hsorted
  refine (List.Nodup.of_map Tree.key hkeys).map_on fun s hs s' hs' huri => ?_
  have hfound := (reachable_eq_ok hwell hreach).mpr ⟨reference_mem_objects hs, huri⟩
  have hfound' := (reachable_eq_ok hwell hreach).mpr ⟨reference_mem_objects hs', rfl⟩
  have hreference : s.reference = s'.reference := by
    rw [hfound'] at hfound
    exact (Option.some.inj hfound).symm
  have hhash : digest s.node.encode = digest s'.node.encode := by
    rw [← (hwell s hs).sha256, ← (hwell s' hs').sha256, hreference]
  have hnode :=
    node_eq_of_encode (hwell s hs) (hwell s' hs') (hinj ⟨s, hs, rfl⟩ ⟨s', hs', rfl⟩ hhash)
  have hmax := (hwell.subtree hs).maxPage_eq
  rw [hnode, (hwell.subtree hs').maxPage_eq] at hmax
  have hkey : s.key = s'.key := by
    rw [Tree.key, Tree.key, hnode, Option.some.inj hmax]
  exact List.inj_on_of_nodup_map hkeys hs hs' hkey

end Apart

section Stored

/-- A created node is stored under its location. -/
theorem Built.stored_node (h : Built digest parent changed eof root artifacts)
    (hinj : Set.InjOn digest (objectBytes digest root changed artifacts)) (ht : t ∈ root)
    (hs : s ∈ t.subtrees) (hin : s.reference.uri ∈ artifacts)
    (huri : s.reference.uri = pageMapUri s.reference.sha256) :
    artifacts[s.reference.uri]? = some ⟨s.reference.uri, s.node.encode⟩ := by
  obtain ⟨a, ha⟩ : ∃ a, artifacts[s.reference.uri]? = some a :=
    ⟨_, Std.ExtTreeMap.getElem?_eq_some_getElem hin⟩
  obtain ⟨hown, hobject⟩ := h.objects _ a ha
  have hsha := (h.wellFormed t ht s hs).sha256
  rw [huri] at hown
  obtain ⟨node, rfl, -⟩ | ⟨pages, -, rfl⟩ := hobject
  · have hown : pageMapUri (digest node.encode) = pageMapUri s.reference.sha256 := hown
    have hhash : digest node.encode = digest s.node.encode :=
      (pageMapUri_injective hown).trans hsha
    have hsame : node.encode = s.node.encode :=
      hinj (mem_objectBytes_of_stored ha) (mem_objectBytes_of_node ht hs) hhash
    rw [ha, hsame, huri, hsha]
  · have hown : pagePackUri (digest (packBytes digest pages)) = pageMapUri s.reference.sha256 :=
      hown
    exact absurd hown.symm (pageMapUri_ne_pagePackUri _ _)

/-- A pack of changed pages is stored under its location. -/
theorem Built.stored_pack (h : Built digest parent changed eof root artifacts)
    (hinj : Set.InjOn digest (objectBytes digest root changed artifacts)) {pages : Pages}
    (hpages : pages ∈ packChunks changed) : artifacts[(packReference digest pages).uri]? =
      some ⟨(packReference digest pages).uri, packBytes digest pages⟩ := by
  obtain ⟨a, ha⟩ : ∃ a, artifacts[(packReference digest pages).uri]? = some a :=
    ⟨_, Std.ExtTreeMap.getElem?_eq_some_getElem (h.packs pages hpages)⟩
  obtain ⟨hown, hobject⟩ := h.objects _ a ha
  obtain ⟨node, rfl, -⟩ | ⟨other, hother, rfl⟩ := hobject
  · have hown : pageMapUri (digest node.encode) = pagePackUri (digest (packBytes digest pages)) :=
      hown
    exact absurd hown (pageMapUri_ne_pagePackUri _ _)
  · have huri : pagePackUri (digest (packBytes digest other)) =
        pagePackUri (digest (packBytes digest pages)) := hown
    have hsame : packBytes digest other = packBytes digest pages :=
      hinj (mem_objectBytes_of_stored ha) (mem_objectBytes_of_pack hpages (h.encoded pages hpages))
        (pagePackUri_injective huri)
    rw [ha, packReference, packReference, hsame]

/-- The pages of a well-formed tree are positive. -/
theorem Tree.WellFormed.pages_pos (h : t.WellFormed digest) : ∀ e ∈ t.pages, 0 < e.pageNumber := by
  induction t using Tree.induction with
  | step t ih =>
    cases hnode : t.node with
    | leaf entries =>
      have hvalid := h.linked.valid
      rw [hnode] at hvalid
      rw [Tree.pages_leaf hnode]
      exact (validate_leaf hvalid).2.2
    | internal level branches =>
      rw [Tree.pages_internal hnode]
      intro e he
      obtain ⟨c, hc, he⟩ := List.mem_flatMap.mp he
      exact ih c hc (h.child hc) e he

/-- The pages of a new tree end with the image. -/
theorem Built.pages_le (h : Built digest parent changed eof root artifacts) :
    ∀ e ∈ rootPages root, e.pageNumber ≤ eof := by
  intro e he
  obtain he | ⟨-, hkept, -⟩ := (h.update.mem_iff e).mp he
  · have hnumber : e.pageNumber ∈ changed.entries.map Prod.fst := by
      rw [← map_pageNumber_changedMappings digest changed]
      exact List.mem_map_of_mem he
    obtain ⟨page, hpage, heq⟩ := List.mem_map.mp hnumber
    exact heq ▸ h.within page hpage
  · exact hkept

/-- The mappings of a new tree: changed pages are in the new packs, other pages are where they were
up to the end of the image. -/
theorem Built.flattenRoot_eq (h : Built digest parent changed eof root artifacts)
    (hparent : ∀ t ∈ parent, t.WellFormed digest ∧ Ascending t.pages) :
    (∀ page bytes, (page, bytes) ∈ changed.entries →
      ∃ e, (flattenRoot root)[page]? = some e ∧ Maps digest changed page bytes e) ∧
    ∀ page ∉ changed.entries.map Prod.fst,
      (flattenRoot root)[page]? = if page ≤ eof then (flattenRoot parent)[page]? else none := by
  have hpackable := fun pages hpages => (PagePack.encodePagePack_eq_ok (h.encoded pages hpages)).1
  have hfound : ∀ {root : Option Tree}, Ascending (rootPages root) →
      ∀ (page : ℕ) (e : PageMapEntry),
      (flattenRoot root)[page]? = some e ↔ e ∈ rootPages root ∧ e.pageNumber = page := by
    intro root hsorted page e
    cases root with
    | some t => exact getElem?_flatten hsorted
    | none =>
      rw [flattenRoot, Std.ExtTreeMap.getElem?_empty]
      exact ⟨nofun, fun he => nomatch he.1⟩
  have hold : Ascending (rootPages parent) := by
    cases parent with
    | some t => exact (hparent t rfl).2
    | none => exact List.Pairwise.nil
  refine ⟨fun page bytes hpage => ?_, fun page hpage => ?_⟩
  · obtain ⟨e, he, hmaps⟩ :
        ∃ e ∈ changedMappings digest changed, Maps digest changed page bytes e :=
      exists_mapping hpackable hpage
    refine ⟨e, (hfound h.update.ascending page e).mpr ⟨?_, hmaps.pageNumber⟩, hmaps⟩
    exact (h.update.mem_iff e).mpr (.inl he)
  · have hunchanged : ∀ c ∈ changedMappings digest changed, c.pageNumber ≠ page := by
      rintro c hc rfl
      refine hpage ?_
      rw [← map_pageNumber_changedMappings digest changed]
      exact List.mem_map_of_mem hc
    refine Option.ext fun e => ?_
    rw [hfound h.update.ascending, h.update.mem_iff]
    by_cases hwithin : page ≤ eof
    · rw [if_pos hwithin, hfound hold]
      constructor
      · rintro ⟨he | ⟨he, -⟩, rfl⟩
        · exact absurd rfl (hunchanged e he)
        · exact ⟨he, rfl⟩
      · rintro ⟨he, rfl⟩
        exact ⟨.inr ⟨he, hwithin, hunchanged⟩, rfl⟩
    · rw [if_neg hwithin]
      refine ⟨?_, nofun⟩
      rintro ⟨he | ⟨-, hkept, -⟩, rfl⟩
      · exact absurd rfl (hunchanged e he)
      · exact absurd hkept hwithin

end Stored

section Law

variable {store store' : String → Except RuntimeError Bytes}

/-- A tree that a reader has accepted, from some reference and within some bounds. -/
def Loaded (digest : Digest) (store : String → Except RuntimeError Bytes) (t : Tree) : Prop :=
  ∃ level reference lower upper seen seen', reference.InRange ∧
    loadTree digest store level reference lower upper seen = .ok (t, seen')

/-- The reference to an object as it is stored, with the hash and the length of its bytes. -/
def Artifact.reference (digest : Digest) (a : Artifact) : PageObjectReference :=
  ⟨a.uri, digest a.bytes, a.bytes.length⟩

/-- An entry says that an object holds a page, uncompressed and under its hash. -/
structure HoldsPage (digest : Digest) (a : Artifact) (page : ℕ) (bytes : Bytes) (e : PageMapEntry) :
    Prop where
  pageNumber : e.pageNumber = page
  pack : e.pack = a.reference digest
  payload : slice a.bytes e.offset e.storedLength = bytes
  storedLength : e.storedLength = imagePageSize
  rawLength : e.rawLength = imagePageSize
  codec : e.codec = .none
  pageSha256 : e.pageSha256 = digest bytes

/-- A loaded tree is well formed, maps ascending pages and is stored. -/
theorem Loaded.sound (h : Loaded digest store t) :
    t.WellFormed digest ∧ Ascending t.pages ∧ t.StoredIn store := by
  obtain ⟨level, reference, lower, upper, seen, seen', hreference, h⟩ := h
  obtain ⟨-, hloads⟩ := loadTree_sound hreference h
  exact ⟨hloads.wellFormed, hloads.ascending, hloads.stored⟩

/-- The reference to the artifact of a pack is the reference to the pack. -/
theorem reference_pack (digest : Digest) (pages : Pages) :
    Artifact.reference digest ⟨(packReference digest pages).uri, packBytes digest pages⟩ =
      packReference digest pages := by
  rw [Artifact.reference, packReference]

/-- An object of a new tree is stored or an object of the parent's tree. -/
theorem Built.object_cases (h : Built digest parent changed eof root artifacts)
    (hinj : Set.InjOn digest (objectBytes digest root changed artifacts))
    (hparent : ∀ t ∈ parent, t.WellFormed digest) {r : PageObjectReference}
    (hr : r ∈ rootObjects root) :
    (∃ a, artifacts[r.uri]? = some a ∧ r = a.reference digest) ∨ r ∈ rootObjects parent := by
  cases root with
  | none => cases hr
  | some t =>
    have hwell := h.wellFormed t rfl
    obtain ⟨s, hs, rfl⟩ | ⟨e, he, rfl⟩ := mem_objects_cases hwell hr
    · obtain ⟨p, rfl, hp⟩ | ⟨hin, huri⟩ := h.origin t rfl s hs
      · exact .inr (reference_mem_objects hp)
      · refine .inl ⟨_, h.stored_node hinj rfl hs hin huri, ?_⟩
        rw [Artifact.reference, ← (hwell s hs).sha256, ← (hwell s hs).length]
    · obtain he | ⟨he, -⟩ := (h.update.mem_iff e).mp he
      · obtain ⟨pages, hpages, he⟩ := List.mem_flatMap.mp he
        obtain ⟨entry, -, rfl⟩ := List.mem_map.mp he
        exact .inl ⟨_, h.stored_pack hinj hpages, (reference_pack digest pages).symm⟩
      · cases parent with
        | none => cases he
        | some p => exact .inr (pack_mem_objects (hparent p rfl) he)

/-- The root of a new tree is read back from a store of its nodes. -/
theorem Built.loads (h : Built digest parent changed eof root artifacts) (ht : t ∈ root)
    (hstored : t.StoredIn store') : Loads digest store' t.node.level 0 eof t := by
  have hwell := h.wellFormed t ht
  obtain rfl := Option.mem_def.mp ht
  obtain ⟨first, hfirst, hmin⟩ := hwell.linked.exists_first
  obtain ⟨last, hlast, hmax⟩ := hwell.linked.exists_last
  refine ⟨hwell, rfl, h.update.ascending, hstored, ?_, ?_⟩
  · rw [← hmin]
    exact hwell.pages_pos first hfirst
  · rw [← hmax]
    exact h.pages_le last hlast

/-- **Persisted images obey the update law of page trees.** Let the parent's tree be one that the
reader has accepted, and let the hash tell the objects of the new image apart. Then the new tree
maps each changed page to a returned pack that holds it, and every other page up to the end of the
image to where the parent maps it. Every created object is a pack of changed pages or a valid node
of at most 128 entries and 1 MiB. What can be reached from the new root is returned or could be
reached from the parent's root, and everything returned can be reached. A store that keeps the
parent's nodes and holds the returned objects lets the reader accept the new root, with the end of
the image as its bound, as long as its level is not above the reader's limit. -/
theorem page_tree_update_law (digest : Digest) {store : String → Except RuntimeError Bytes}
    {parent root : Option Tree} {changed : Pages} {eof passes : ℕ} {artifacts : Artifacts}
    {image : IncrementalImage} (hparent : ∀ t ∈ parent, Loaded digest store t)
    (hbuild : buildTree digest passes parent changed eof = given (.ok (root, artifacts)))
    (himage : persist digest passes parent changed eof = given (.ok image))
    (hinj : Set.InjOn digest (objectBytes digest root changed artifacts)) :
    image.root = root.map Tree.mapRoot ∧
    ((∀ page bytes, (page, bytes) ∈ changed.entries → ∃ e, ∃ a ∈ image.artifacts,
        (flattenRoot root)[page]? = some e ∧ HoldsPage digest a page bytes e) ∧
      ∀ page ∉ changed.entries.map Prod.fst,
        (flattenRoot root)[page]? = if page ≤ eof then (flattenRoot parent)[page]? else none) ∧
    (∀ (uri : String) (a : Artifact), artifacts[uri]? = some a →
      a.uri = uri ∧ (IsNode digest a ∨ IsPack digest (packChunks changed) a)) ∧
    (∃ references, reachableFrom root = .ok references ∧
      (∀ (uri : String) (r : PageObjectReference), references[uri]? = some r →
        (∃ a ∈ image.artifacts, a.uri = uri ∧ r = a.reference digest) ∨ r ∈ rootObjects parent) ∧
      ∀ a ∈ image.artifacts, a.uri ∈ references) ∧
    ∀ t ∈ root, t.node.level ≤ 64 → ∀ store' : String → Except RuntimeError Bytes,
      (∀ a ∈ image.artifacts, store' a.uri = .ok a.bytes) →
      (∀ p ∈ parent, ∀ uri ∈ p.uris, store' uri = store uri) →
      ∃ seen, loadTree digest store' t.node.level t.reference 0 eof [] = .ok (t, seen) := by
  have hold := fun t ht => (hparent t ht).sound
  have hbuilt := built_of_buildTree (fun t ht => ⟨(hold t ht).1, (hold t ht).2.1⟩) hbuild
  rw [persist] at himage
  obtain ⟨⟨root', artifacts'⟩, hbuild', hfinish⟩ := bind_eq_given_ok.mp himage
  rw [hbuild] at hbuild'
  cases given_injective hbuild'
  obtain ⟨references, hreach, hroot, hartifacts⟩ :=
    finishImage_eq_ok (mapError_ok_iff.mp (given_injective hfinish))
  have hreferences : ∀ (uri : String) (r : PageObjectReference),
      references[uri]? = some r ↔ r ∈ rootObjects root ∧ r.uri = uri :=
    fun uri r => reachableFrom_eq_ok hbuilt.wellFormed hreach
  have hreturned : ∀ r ∈ rootObjects root, ∀ a,
      artifacts[r.uri]? = some a → a ∈ image.artifacts := by
    intro r hr a ha
    refine (hartifacts a).mpr ⟨r.uri, ha, ?_⟩
    have hfound := (hreferences r.uri r).mpr ⟨hr, rfl⟩
    rw [Std.ExtTreeMap.mem_iff_isSome_getElem?, hfound]
    rfl
  obtain ⟨hchanged, hunchanged⟩ :=
    hbuilt.flattenRoot_eq fun t ht => ⟨(hold t ht).1, (hold t ht).2.1⟩
  refine ⟨hroot, ⟨fun page bytes hpage => ?_, hunchanged⟩, hbuilt.objects,
    ⟨references, hreach, fun uri r hr => ?_, fun a ha => ?_⟩,
    fun t ht hheight store' hnew hkept => ?_⟩
  · obtain ⟨e, hfound, hmaps⟩ := hchanged page bytes hpage
    obtain ⟨pages, hpages, hpack, hslice⟩ := hmaps.pack
    have hmem : e.pack ∈ rootObjects root := by
      cases root with
      | none =>
        rw [flattenRoot, Std.ExtTreeMap.getElem?_empty] at hfound
        cases hfound
      | some t =>
        exact pack_mem_objects (hbuilt.wellFormed t rfl)
          ((getElem?_flatten hbuilt.update.ascending).mp hfound).1
    have hstored := hbuilt.stored_pack hinj hpages
    rw [← hpack] at hstored
    refine ⟨e, _, hreturned e.pack hmem _ hstored, hfound, hmaps.pageNumber, ?_, hslice,
      hmaps.storedLength, hmaps.rawLength, hmaps.codec, hmaps.pageSha256⟩
    rw [hpack, reference_pack]
  · obtain ⟨hmem, rfl⟩ := (hreferences uri r).mp hr
    obtain ⟨a, ha, hreference⟩ | hparent :=
      hbuilt.object_cases hinj (fun t ht => (hold t ht).1) hmem
    · exact .inl ⟨a, hreturned r hmem a ha, (hbuilt.objects _ a ha).1, hreference⟩
    · exact .inr hparent
  · obtain ⟨uri, ha, huri⟩ := (hartifacts a).mp ha
    rwa [(hbuilt.objects uri a ha).1]
  · obtain rfl := Option.mem_def.mp ht
    have hstored : t.StoredIn store' := by
      intro s hs
      obtain ⟨p, hp, hbelow⟩ | ⟨hin, huri⟩ := hbuilt.origin t rfl s hs
      · rw [hkept p hp _ (List.mem_map_of_mem hbelow)]
        exact (hold p hp).2.2 s hbelow
      · have ha := hbuilt.stored_node hinj rfl hs hin huri
        exact hnew _ (hreturned s.reference (reference_mem_objects hs) _ ha)
    have hnodup : t.uris.Nodup :=
      nodup_uris (hbuilt.wellFormed t rfl) hbuilt.update.ascending hreach
        (hinj.mono fun bytes hbytes => .inr (.inl ⟨t, rfl, hbytes⟩))
    have hunseen : ∀ uri ∈ t.uris, uri ∉ ([] : List String) := fun uri _ => List.not_mem_nil
    obtain ⟨seen, hseen, -⟩ := loadTree_complete (hbuilt.loads rfl hstored) hheight hnodup hunseen
    exact ⟨seen, hseen⟩

end Law

section Sample

/-- A hash that shows the length of its input and nothing else. -/
def lengthDigest : Digest := fun bytes => ⟨beBytes 32 bytes.length, length_beBytes _ _⟩

/-- A page that repeats one byte, of the size of the pages of images. -/
def evenPage (byte : UInt8) : Bytes := List.replicate 4096 byte

/-- The pages of a first image, which leave the first page to the checkpoint. -/
def firstPages : Pages where
  entries := [(2, evenPage 7), (3, evenPage 7), (4, evenPage 7)]
  sorted := by simp
  fits := by decide

/-- The page that a second image replaces; the page behind it is cut. -/
def secondPages : Pages where
  entries := [(3, evenPage 9)]
  sorted := List.pairwise_singleton _ _
  fits := by decide

/-- A hash for a length, as the stand-in for the hash function gives it. -/
private def hashOf (length : ℕ) : Sha256 := ⟨beBytes 32 length, length_beBytes _ _⟩

/-- The reference to a pack of some full pages. -/
private def fullReference (changed : Pages) : PageObjectReference :=
  let hash := hashOf (totalOf imagePageSize changed.entries.length)
  ⟨pagePackUri hash, hash, totalOf imagePageSize changed.entries.length⟩

/-- The mappings of some full pages, and their pack. -/
private def packed (changed : Pages) : List PageMapEntry × Artifacts :=
  ((entriesOf lengthDigest imagePageSize (payloadOf changed.entries.length) changed.entries 0).map
      (mappingOf (fullReference changed)),
    (∅ : Artifacts).insert (fullReference changed).uri
      ⟨(fullReference changed).uri, packBytes lengthDigest changed⟩)

/-- Full pages that fit one pack are packed into it, and into nothing else. -/
private theorem packAll_full {eof : ℕ} (hpackable : Packable imagePageSize changed)
    (hcapacity : changed.entries.length ≤ packCapacity)
    (hwithin : ∀ page ∈ changed.entries, page.1 ≤ eof) :
    packAll lengthDigest eof (packChunks changed) ∅ = .ok (packed changed) := by
  have hreference : packReference lengthDigest changed = fullReference changed := by
    have hlength : (packBytes lengthDigest changed).length =
        totalOf imagePageSize changed.entries.length := by
      rw [packBytes]
      exact PagePack.length_packOf lengthDigest hpackable
    have hhash : lengthDigest (packBytes lengthDigest changed) =
        hashOf (totalOf imagePageSize changed.entries.length) := congrArg hashOf hlength
    rw [packReference, hhash, hlength, fullReference]
  have hpages := packPages_of_packable lengthDigest hpackable hwithin
  rw [packMappings, hreference] at hpages
  rw [packChunks_of_length_le (List.length_pos_iff.mp hpackable.nonempty) hcapacity, packAll]
  refine bind_eq_ok.mpr ⟨_, hpages, ?_⟩
  refine bind_eq_ok.mpr ⟨_, rfl, ?_⟩
  change Except.ok (_ ++ [], _) = _
  rw [packed, List.append_nil]

/-- The tree that is built on packed pages, with the objects that are created for it. -/
private def treeOver (passes : ℕ) (parent : Option Tree) (changed : Pages) (eof : ℕ) :
    Bounded (Fault RuntimeError) (Option Tree × Artifacts) := do
  let (roots, artifacts) ←
    (rebuild lengthDigest passes parent (packed changed).1 eof (packed changed).2).adapt .refused
  pure (roots.getLast?.map collapse, artifacts)

/-- Building on full pages that fit one pack is building on that pack. -/
private theorem buildTree_full (hpackable : Packable imagePageSize changed)
    (hcapacity : changed.entries.length ≤ packCapacity)
    (hwithin : ∀ page ∈ changed.entries, page.1 ≤ eof) :
    buildTree lengthDigest passes parent changed eof = treeOver passes parent changed eof := by
  rw [buildTree, packAll_full hpackable hcapacity hwithin]
  rfl

/-- The tree that is built, with the objects that are created for it. -/
private def built {ε : Type} : Bounded ε (Option Tree × Artifacts) → Option (Tree × Artifacts)
  | some (.ok (some root, artifacts)) => some (root, artifacts)
  | _ => none

/-- A result that is found is the result of the computation. -/
private theorem built_eq_some {ε : Type} {x : Bounded ε (Option Tree × Artifacts)} {root : Tree}
    (h : built x = some (root, artifacts)) : x = given (.ok (some root, artifacts)) := by
  unfold built at h
  split at h
  · cases h
    rfl
  · cases h

/-- Two trees, each with the objects that are created for it, and the image of the second. -/
private abbrev SampleRun := (Tree × Artifacts) × (Tree × Artifacts) × IncrementalImage

/-- The two images. The second one ends at the page it replaces. -/
private def sampleRun : Option SampleRun := do
  let (first, artifacts) ← built (treeOver 1 none firstPages 4)
  let (second, artifacts') ← built (treeOver 3 (some first) secondPages 3)
  let image ← (finishImage (some second) artifacts').toOption
  return ((first, artifacts), (second, artifacts'), image)

/-- The created objects, by their bytes. -/
private def created (artifacts : Artifacts) : List Bytes := artifacts.toList.map fun p => p.2.bytes

/-- What the samples need of the two images: the first tree is a leaf that maps the pages, and the
nodes of the second are among the created objects, no two of one hash. -/
private def SampleRun.facts : SampleRun → Bool
  | ((first, _), (second, artifacts), _) =>
    first.children.isEmpty && (flattenRoot (some first)).contains 2 &&
      (flattenRoot (some first)).contains 4 && !(flattenRoot (some second)).contains 1 &&
      (second.subtrees.all fun s => (created artifacts).contains s.node.encode) &&
      decide ((created artifacts).map lengthDigest).Nodup

/-- The two sample images can be built, and have the parts that the samples need. -/
private theorem any_sampleRun : sampleRun.any SampleRun.facts = true := by decide +kernel

/-- The pack of a built image that has only one is among its objects. -/
theorem Built.mem_pack {pages : Pages} {bytes : Bytes}
    (h : Built digest parent changed eof root artifacts)
    (hone : packChunks changed = [pages])
    (hencode : encodePagePack digest imagePageSize pages = .ok bytes) :
    ∃ (uri : String) (a : Artifact), artifacts[uri]? = some a ∧ a.bytes = bytes := by
  have hmem : pages ∈ packChunks changed := hone ▸ List.mem_singleton.mpr rfl
  obtain ⟨a, ha⟩ : ∃ a, artifacts[(packReference digest pages).uri]? = some a :=
    ⟨_, Std.ExtTreeMap.getElem?_eq_some_getElem (h.packs pages hmem)⟩
  refine ⟨_, a, ha, ?_⟩
  obtain ⟨hown, hobject⟩ := h.objects _ a ha
  obtain ⟨node, rfl, -⟩ | ⟨other, hother, rfl⟩ := hobject
  · have hown : pageMapUri (digest node.encode) = pagePackUri (digest (packBytes digest pages)) :=
      hown
    exact absurd hown (pageMapUri_ne_pagePackUri _ _)
  · rw [hone, List.mem_singleton] at hother
    rw [hother]
    exact Except.ok.inj ((h.encoded pages hmem).symm.trans hencode)

/-- The stand-in for the hash is injective on the objects of an image of one pack, if it is on the
created ones. -/
private theorem injOn_created {root : Tree}
    (hbuilt : Built lengthDigest parent changed eof (some root) artifacts)
    (hone : packChunks changed = [changed])
    (hnodes : ∀ s ∈ root.subtrees, s.node.encode ∈ created artifacts)
    (hnodup : ((created artifacts).map lengthDigest).Nodup) :
    Set.InjOn lengthDigest (objectBytes lengthDigest (some root) changed artifacts) := by
  have hstored : ∀ {bytes : Bytes}, (∃ (uri : String) (a : Artifact), artifacts[uri]? = some a ∧
      a.bytes = bytes) → bytes ∈ created artifacts := by
    rintro _ ⟨uri, a, ha, rfl⟩
    exact List.mem_map_of_mem (f := fun p => p.2.bytes)
      (Std.ExtTreeMap.mem_toList_iff_getElem?_eq_some.mpr ha)
  have hcreated : ∀ bytes ∈ objectBytes lengthDigest (some root) changed artifacts,
      bytes ∈ created artifacts := by
    rintro bytes (hbytes | ⟨t, ht, s, hs, rfl⟩ | ⟨pages, hpages, hencode⟩)
    · exact hstored hbytes
    · cases ht
      exact hnodes s hs
    · rw [hone, List.mem_singleton] at hpages
      exact hstored (hbuilt.mem_pack hone (hpages ▸ hencode))
  intro xs hxs ys hys heq
  exact List.inj_on_of_nodup_map hnodup (hcreated xs hxs) (hcreated ys hys) heq

/-- A sample page has the length of a page. -/
private theorem length_fullPage {byte : UInt8} : (evenPage byte).length = imagePageSize :=
  List.length_replicate

/-- The pages of the first image can be packed. -/
private theorem packable_firstPages : Packable imagePageSize firstPages where
  nonempty := by decide
  isPageSize := by decide
  positive := by simp [firstPages]
  lengths := List.forall_mem_cons.mpr ⟨length_fullPage, List.forall_mem_cons.mpr
    ⟨length_fullPage, List.forall_mem_singleton.mpr length_fullPage⟩⟩
  count := by decide
  total := by decide

/-- The pages of the second image can be packed. -/
private theorem packable_secondPages : Packable imagePageSize secondPages where
  nonempty := by decide
  isPageSize := by decide
  positive := by simp [secondPages]
  lengths := List.forall_mem_singleton.mpr length_fullPage
  count := by decide
  total := by decide

/-- An image of three pages, and a second image over it that keeps the first page, replaces the next
and ends before the last. -/
theorem exists_sampleRun : ∃ (first second : Tree) (artifacts artifacts' : Artifacts)
    (image : IncrementalImage),
    buildTree lengthDigest 1 none firstPages 4 = given (.ok (some first, artifacts)) ∧
    buildTree lengthDigest 3 (some first) secondPages 3 = given (.ok (some second, artifacts')) ∧
    finishImage (some second) artifacts' = .ok image ∧ first.children = [] ∧
    2 ∈ flattenRoot (some first) ∧ 4 ∈ flattenRoot (some first) ∧ 1 ∉ flattenRoot (some second) ∧
    Set.InjOn lengthDigest (objectBytes lengthDigest (some second) secondPages artifacts') := by
  obtain ⟨⟨⟨first, artifacts⟩, ⟨second, artifacts'⟩, image⟩, hrun, hfacts⟩ :=
    (Option.any_eq_true _ _).mp any_sampleRun
  simp only [SampleRun.facts, Bool.and_eq_true, Bool.not_eq_true', List.all_eq_true,
    List.isEmpty_iff, decide_eq_true_eq, List.contains_iff_mem] at hfacts
  obtain ⟨⟨⟨⟨⟨hleaf, htwo⟩, hfour⟩, hone⟩, hnodes⟩, hnodup⟩ := hfacts
  rw [sampleRun] at hrun
  obtain ⟨⟨_, _⟩, hfirst, hrun⟩ := Option.bind_eq_some_iff.mp hrun
  obtain ⟨⟨_, _⟩, hsecond, hrun⟩ := Option.bind_eq_some_iff.mp hrun
  obtain ⟨_, himage, hrun⟩ := Option.bind_eq_some_iff.mp hrun
  cases hrun
  have hinside : ∀ page ∈ firstPages.entries, page.1 ≤ 4 := List.forall_mem_cons.mpr
    ⟨Nat.le_of_ble_eq_true rfl, List.forall_mem_cons.mpr
      ⟨Nat.le_of_ble_eq_true rfl, List.forall_mem_singleton.mpr (Nat.le_refl 4)⟩⟩
  have hfirst := (buildTree_full packable_firstPages (by decide) hinside).trans
    (built_eq_some hfirst)
  have hsecond := (buildTree_full packable_secondPages (by decide)
    (List.forall_mem_singleton.mpr (Nat.le_refl 3))).trans (built_eq_some hsecond)
  have hbuilt := built_of_buildTree (fun t ht => by cases ht) hfirst
  have hparent : ∀ t ∈ some first, t.WellFormed lengthDigest ∧ Ascending t.pages := by
    rintro t ⟨⟩
    exact ⟨hbuilt.wellFormed first rfl, hbuilt.update.ascending⟩
  exact ⟨first, second, artifacts, artifacts', image, hfirst, hsecond, toOption_eq_some.mp himage,
    hleaf, htwo, hfour, Bool.eq_false_iff.mp hone, injOn_created
      (built_of_buildTree hparent hsecond) (packChunks_of_length_le (List.cons_ne_nil _ _)
        (by decide)) hnodes hnodup⟩

/-- A linked tree without children is on the lowest level. -/
theorem Tree.Linked.level_of_leaf (h : t.Linked digest) (hleaf : t.children = []) :
    t.node.level = 0 := by
  cases hown : t.node with
  | leaf entries => rfl
  | internal level branches =>
    obtain ⟨-, hbranches⟩ := validate_internal (hown ▸ h.valid)
    rw [(h.internal level branches hown).1, hleaf] at hbranches
    exact absurd rfl hbranches

/-- A tree of one leaf that is built over no parent is accepted where the leaf is stored. -/
theorem loaded_of_leaf {passes : ℕ} (hleaf : t.children = [])
    (hbuild : buildTree digest passes none changed eof = given (.ok (some t, artifacts))) :
    Loaded digest (fun _ => .ok t.node.encode) t := by
  have hself : t.subtrees = [t] := by rw [Tree.subtrees_eq, hleaf, List.flatMap_nil]
  have hstored : t.StoredIn fun _ => .ok t.node.encode := by
    intro s hs
    rw [hself, List.mem_singleton] at hs
    rw [hs]
  have hloads := (built_of_buildTree (fun t ht => by cases ht) hbuild).loads rfl hstored
  have hheight : t.node.level ≤ 64 := by
    rw [hloads.wellFormed.linked.level_of_leaf hleaf]
    exact Nat.zero_le 64
  have hnodup : t.uris.Nodup := by
    rw [Tree.uris, hself]
    exact List.nodup_singleton _
  obtain ⟨seen, hseen, -⟩ := loadTree_complete hloads hheight hnodup
    fun uri _ => List.not_mem_nil (a := uri)
  exact ⟨_, _, _, _, _, _, hloads.wellFormed.linked.reference, hseen⟩

/-- A second image over a tree that a reader has accepted: the table keeps one page of the parent,
leads to the replaced page in a returned pack, and drops the page behind the end. -/
theorem page_tree_update_law_second : ∃ (first second : Tree) (image : IncrementalImage),
    Loaded lengthDigest (fun _ => .ok first.node.encode) first ∧
    persist lengthDigest 3 (some first) secondPages 3 = given (.ok image) ∧
    (2 ∈ flattenRoot (some first) ∧
      (flattenRoot (some second))[2]? = (flattenRoot (some first))[2]?) ∧
    (∃ e, ∃ a ∈ image.artifacts, (flattenRoot (some second))[3]? = some e ∧
      HoldsPage lengthDigest a 3 (evenPage 9) e) ∧
    4 ∈ flattenRoot (some first) ∧ (flattenRoot (some second))[4]? = none := by
  obtain ⟨first, second, _, artifacts, image, hfirst, hsecond, himage, hleaf, htwo, hfour, -,
    hinj⟩ := exists_sampleRun
  have hloaded := loaded_of_leaf hleaf hfirst
  have hpersist : persist lengthDigest 3 (some first) secondPages 3 = given (.ok image) := by
    refine bind_eq_given_ok.mpr ⟨(some second, artifacts), hsecond, ?_⟩
    exact congrArg given (mapError_ok_iff.mpr himage)
  have hparent : ∀ t ∈ some first, Loaded lengthDigest (fun _ => .ok first.node.encode) t := by
    rintro t ⟨⟩
    exact hloaded
  obtain ⟨-, ⟨hchanged, hunchanged⟩, -⟩ :=
    page_tree_update_law lengthDigest hparent hsecond hpersist
    hinj
  refine ⟨first, second, image, hloaded, hpersist, ⟨htwo, ?_⟩, hchanged 3 _ List.mem_cons_self,
    hfour, ?_⟩
  · exact hunchanged 2 (by decide)
  · exact hunchanged 4 (by decide)

end Sample

end Otmp.Physical
