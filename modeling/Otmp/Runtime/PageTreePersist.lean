import Otmp.Runtime.PageTreeUpdate

/-!
# Persisted images hold the changed pages

The changed pages are cut into packs, whose entries become the new mappings. The tree of a
persisted image maps exactly the pages of the parent up to the end of the image, overridden by the
new mappings; it is read back from any store that still holds the parent's nodes and holds the
returned objects, when the hash tells the objects apart.
-/

namespace Otmp.Physical

open Foundation Cbor
open CheckpointTree (liftFault)
open PagePack (Pages Packable packOf entriesOf payloadOf encodePagePack)

variable {digest : Digest} {artifacts artifacts' : Artifacts} {pages changed : Pages}
  {eof passes : ℕ}
  {mappings : List PageMapEntry} {known : Tree → Prop} {parent root : Option Tree} {t s : Tree}

section Locations

/-- The directory of the page packs, character by character. -/
theorem toList_packDirectory : packDirectory.toList =
    "_otmp".toList ++ '/' :: ("page-packs".toList ++ ['/']) := rfl

/-- The extension of a page pack, character by character. -/
theorem toList_packExtension : packExtension.toList = ['.', 'o', 't', 'm', 'p', 'p', 'g'] := rfl

/-- The length of the name of the packs' directory. -/
theorem utf8ByteSize_packDirectory : packDirectory.utf8ByteSize = 17 := rfl

/-- The length of the packs' extension. -/
theorem utf8ByteSize_packExtension : packExtension.utf8ByteSize = 7 := rfl

/-- The location of a pack is safe. -/
theorem safe_pagePackUri (sha256 : Sha256) : safeRelativeUri (pagePackUri sha256) = true := by
  have hpart : IsPart (hexEncode sha256.val ++ packExtension.toList) :=
    isPart_hexEncode (by rw [sha256.2]; omega) (by simp [toList_packExtension])
  have hroot : IsPart "_otmp".toList := ⟨by decide, by decide, by decide, by simp⟩
  have hdirectory : IsPart "page-packs".toList := ⟨by decide, by decide, by decide, by simp⟩
  have hsafe := safeRelativeUri_of_parts hroot hdirectory hpart
  have heq : pagePackUri sha256 = String.ofList ("_otmp".toList ++ '/' ::
      ("page-packs".toList ++ '/' :: (hexEncode sha256.val ++ packExtension.toList))) := by
    rw [← String.toList_inj, pagePackUri, String.toList_append, String.toList_append,
      String.toList_ofList, String.toList_ofList, toList_packDirectory]
    simp only [List.append_assoc, List.cons_append, List.nil_append]
  rw [heq]
  exact hsafe

/-- The location of a page pack is a valid relative one. -/
theorem relativeUri_pagePackUri (sha256 : Sha256) :
    relativeUri (pagePackUri sha256) = .ok (pagePackUri sha256) := by
  rw [relativeUri, if_pos (safe_pagePackUri sha256)]

/-- The locations of page packs all have the same length. -/
theorem length_pagePackUri (sha256 : Sha256) : (utf8 (pagePackUri sha256)).length = 88 := by
  rw [length_utf8, pagePackUri, String.utf8ByteSize_append, String.utf8ByteSize_append,
    utf8ByteSize_hexEncode, sha256.2, utf8ByteSize_packDirectory, utf8ByteSize_packExtension]

/-- The hash is read off a location. -/
theorem eq_of_location {before after : String} {a b : Sha256}
    (h : before ++ String.ofList (hexEncode a.val) ++ after =
      before ++ String.ofList (hexEncode b.val) ++ after) : a = b := by
  have hlist := congrArg String.toList h
  simp only [String.toList_append, String.toList_ofList] at hlist
  have hhex := List.append_cancel_left (List.append_cancel_right hlist)
  have hbytes := congrArg hexDecode? hhex
  rw [hexDecode?_hexEncode, hexDecode?_hexEncode] at hbytes
  exact Subtype.ext (Option.some.inj hbytes)

/-- Nodes at the same location have the same hash. -/
theorem pageMapUri_injective : Function.Injective pageMapUri := by
  intro a b h
  unfold pageMapUri at h
  exact eq_of_location h

/-- Packs at the same location have the same hash. -/
theorem pagePackUri_injective : Function.Injective pagePackUri := by
  intro a b h
  unfold pagePackUri at h
  exact eq_of_location h

/-- Nodes and packs have different locations, so that neither overwrites the other. -/
theorem pageMapUri_ne_pagePackUri (a b : Sha256) : pageMapUri a ≠ pagePackUri b := by
  intro h
  have hmap := length_pageMapUri a
  rw [h, length_pagePackUri] at hmap
  cases hmap

end Locations

section Packs

/-- The bytes of a pack of some pages, as the encoder writes them. -/
@[irreducible] def packBytes (digest : Digest) (pages : Pages) : Bytes :=
  packOf digest imagePageSize pages.entries

/-- The reference to a pack of some pages, which is stored under its hash. -/
def packReference (digest : Digest) (pages : Pages) : PageObjectReference :=
  ⟨pagePackUri (digest (packBytes digest pages)), digest (packBytes digest pages),
    (packBytes digest pages).length⟩

/-- The mappings to a pack of some pages, one for each of them. -/
def packMappings (digest : Digest) (pages : Pages) : List PageMapEntry :=
  (entriesOf digest imagePageSize (payloadOf pages.entries.length) pages.entries 0).map
    (mappingOf (packReference digest pages))

/-- What is packed, and where: the pages of one pack, and a mapping for each of them. -/
theorem packPages_eq_ok {artifact : Artifact}
    (h : packPages digest eof pages = .ok (mappings, artifact)) :
    encodePagePack digest imagePageSize pages = .ok (packBytes digest pages) ∧
      (∀ page ∈ pages.entries, page.1 ≤ eof) ∧
      mappings = packMappings digest pages ∧
      artifact = ⟨(packReference digest pages).uri, packBytes digest pages⟩ := by
  rw [packPages] at h
  obtain ⟨_, hwithin, h⟩ := bind_eq_ok.mp h
  obtain ⟨bytes, hbytes, h⟩ := bind_eq_ok.mp h
  obtain ⟨uri, huri, h⟩ := bind_eq_ok.mp h
  obtain ⟨index, hindex, h⟩ := bind_eq_ok.mp h
  cases h
  have hencode := liftFault_eq_ok.mp hbytes
  obtain ⟨hpackable, hbytes⟩ := PagePack.encodePagePack_eq_ok hencode
  rw [← packBytes] at hbytes
  subst hbytes
  have hindex := liftFault_eq_ok.mp hindex
  rw [packBytes, PagePack.decodePackIndex_packOf digest hpackable] at hindex
  cases hindex
  have huri := liftProtocol_eq_ok.mp (mapError_ok_iff.mp huri)
  rw [objectHash, relativeUri_pagePackUri] at huri
  cases huri
  refine ⟨hencode, fun page hpage => ?_, rfl, rfl⟩
  by_contra hbeyond
  exact refuseIf_eq_ok.mp hwithin ⟨page, hpage, not_le.mp hbeyond⟩

/-- Pages that can be packed and are not beyond the end are packed. -/
theorem packPages_of_packable (digest : Digest) (hpackable : Packable imagePageSize pages)
    (hwithin : ∀ page ∈ pages.entries, page.1 ≤ eof) :
    packPages digest eof pages = .ok (packMappings digest pages,
      ⟨(packReference digest pages).uri, packBytes digest pages⟩) := by
  have hinside : ¬ ∃ page ∈ pages.entries, page.1 > eof := by
    rintro ⟨page, hpage, hbeyond⟩
    exact absurd (hwithin page hpage) (not_le.mpr hbeyond)
  have hencode : encodePagePack digest imagePageSize pages = .ok (packBytes digest pages) := by
    rw [packBytes]
    exact hpackable.encode digest
  have huri : (liftProtocol (relativeUri (pagePackUri (digest (packBytes digest pages))))).mapError
      Fault.refused = .ok (pagePackUri (digest (packBytes digest pages))) := by
    rw [relativeUri_pagePackUri]
    rfl
  have hindex : PagePack.decodePackIndex (packBytes digest pages) = .ok ⟨imagePageSize,
      entriesOf digest imagePageSize (payloadOf pages.entries.length) pages.entries 0⟩ := by
    rw [packBytes]
    exact PagePack.decodePackIndex_packOf digest hpackable
  rw [packPages]
  refine bind_eq_ok.mpr ⟨(), refuseIf_eq_ok.mpr hinside, ?_⟩
  refine bind_eq_ok.mpr ⟨_, liftFault_eq_ok.mpr hencode, ?_⟩
  refine bind_eq_ok.mpr ⟨_, huri, ?_⟩
  exact bind_eq_ok.mpr ⟨_, liftFault_eq_ok.mpr hindex, rfl⟩

/-- An object to store that is a pack of some of the changed pages. -/
def IsPack (digest : Digest) (parts : List Pages) (a : Artifact) : Prop :=
  ∃ pages ∈ parts, a = ⟨(packReference digest pages).uri, packBytes digest pages⟩

/-- All parts are packed, each into its own pack, and their mappings are in order. -/
theorem packAll_eq_ok {parts : List Pages}
    (h : packAll digest eof parts artifacts = .ok (mappings, artifacts')) :
    mappings = parts.flatMap (packMappings digest) ∧
      (∀ pages ∈ parts, encodePagePack digest imagePageSize pages = .ok (packBytes digest pages) ∧
        ∀ page ∈ pages.entries, page.1 ≤ eof) ∧
      (∀ uri ∈ artifacts, uri ∈ artifacts') ∧
      (∀ pages ∈ parts, (packReference digest pages).uri ∈ artifacts') ∧
      ∀ (uri : String) (a : Artifact), artifacts'[uri]? = some a →
        artifacts[uri]? = some a ∨ a.uri = uri ∧ IsPack digest parts a := by
  induction parts generalizing artifacts mappings with
  | nil =>
    cases h
    exact ⟨rfl, nofun, fun _ h => h, nofun, fun _ _ h => .inl h⟩
  | cons pages parts ih =>
    rw [packAll] at h
    obtain ⟨⟨own, artifact⟩, hown, h⟩ := bind_eq_ok.mp h
    obtain ⟨⟨rest, last⟩, hrest, h⟩ := bind_eq_ok.mp h
    cases h
    obtain ⟨hencode, hwithin, rfl, rfl⟩ := packPages_eq_ok hown
    obtain ⟨rfl, hall, hkept, hstored, hadded⟩ := ih hrest
    refine ⟨rfl, List.forall_mem_cons.mpr ⟨⟨hencode, hwithin⟩, hall⟩, fun uri huri => ?_,
      List.forall_mem_cons.mpr ⟨?_, hstored⟩, fun uri a ha => ?_⟩
    · exact hkept uri (Std.ExtTreeMap.mem_insert.mpr (.inr huri))
    · exact hkept _ Std.ExtTreeMap.mem_insert_self
    · obtain ha | ⟨huri, part, hpart, rfl⟩ := hadded uri a ha
      · rw [Std.ExtTreeMap.getElem?_insert] at ha
        split at ha
        · next hsame =>
          cases ha
          exact .inr ⟨Std.LawfulEqCmp.compare_eq_iff_eq.mp hsame, pages, List.mem_cons_self, rfl⟩
        · exact .inl ha
      · exact .inr ⟨huri, part, List.mem_cons_of_mem _ hpart, rfl⟩

/-- The changed pages are cut to the capacity of a pack. -/
theorem map_entries_packChunks (changed : Pages) :
    (packChunks changed).map Pages.entries = chunks packCapacity changed.entries := by
  rw [packChunks, List.map_map]
  exact List.attach_map_subtype_val _

/-- The pages that are packed together are the changed pages. -/
theorem flatMap_packChunks (changed : Pages) :
    (packChunks changed).flatMap Pages.entries = changed.entries := by
  rw [List.flatMap_def, map_entries_packChunks, flatten_chunks (by decide)]

/-- Few pages are packed together into a single pack. -/
theorem packChunks_of_length_le (hne : changed.entries ≠ [])
    (hlength : changed.entries.length ≤ packCapacity) : packChunks changed = [changed] := by
  have hentries : (packChunks changed).map Pages.entries = [changed.entries] := by
    rw [map_entries_packChunks, chunks_of_length_le (by decide) hne hlength]
  obtain ⟨pages, hpages, hsame⟩ := List.map_eq_singleton_iff.mp hentries
  rw [hpages]
  cases pages
  cases changed
  cases hsame
  rfl

/-- What a mapping of a changed page says: the pack that has the page, the place in it, and the hash
of the page. -/
structure Maps (digest : Digest) (changed : Pages) (page : ℕ) (bytes : Bytes) (e : PageMapEntry) :
    Prop where
  pageNumber : e.pageNumber = page
  pack : ∃ pages ∈ packChunks changed, e.pack = packReference digest pages ∧
    slice (packBytes digest pages) e.offset e.storedLength = bytes
  storedLength : e.storedLength = imagePageSize
  rawLength : e.rawLength = imagePageSize
  codec : e.codec = .none
  pageSha256 : e.pageSha256 = digest bytes

/-- The mappings of the changed pages, pack after pack. -/
def changedMappings (digest : Digest) (changed : Pages) : List PageMapEntry :=
  (packChunks changed).flatMap (packMappings digest)

/-- The mappings are of the changed pages, in order. -/
theorem map_pageNumber_changedMappings (digest : Digest) (changed : Pages) :
    (changedMappings digest changed).map PageMapEntry.pageNumber =
      changed.entries.map Prod.fst := by
  rw [← flatMap_packChunks changed, changedMappings, List.map_flatMap, List.map_flatMap]
  refine List.flatMap_congr fun pages _ => ?_
  rw [packMappings, List.map_map]
  exact PagePack.map_pageNumber_entriesOf digest imagePageSize _ pages.entries 0

/-- The mappings of the changed pages ascend, one pack after the other. -/
theorem ascending_changedMappings (digest : Digest) (changed : Pages) :
    Ascending (changedMappings digest changed) := by
  have hsorted := changed.sorted
  have hnumbers := map_pageNumber_changedMappings digest changed
  rw [← List.pairwise_map (f := Prod.fst) (R := (· < ·)), ← hnumbers, List.pairwise_map] at hsorted
  exact hsorted

/-- Every mapping says where a changed page is. -/
theorem maps_of_mem (hpackable : ∀ pages ∈ packChunks changed, Packable imagePageSize pages)
    {e : PageMapEntry} (he : e ∈ changedMappings digest changed) :
    ∃ bytes, (e.pageNumber, bytes) ∈ changed.entries ∧
      Maps digest changed e.pageNumber bytes e := by
  obtain ⟨pages, hpages, he⟩ := List.mem_flatMap.mp he
  obtain ⟨entry, hentry, rfl⟩ := List.mem_map.mp he
  obtain ⟨bytes, hbytes, -, hslice, hhash⟩ :=
    PagePack.payload_packOf digest (hpackable pages hpages) hentry
  rw [← packBytes] at hslice
  refine ⟨bytes, ?_, rfl, ⟨pages, hpages, rfl, hslice⟩, ?_, ?_, ?_, hhash⟩
  · rw [← flatMap_packChunks changed]
    exact List.mem_flatMap.mpr ⟨pages, hpages, hbytes⟩
  all_goals
    obtain ⟨j, hj, rfl⟩ := PagePack.mem_entriesOf hentry
    rfl

/-- Every changed page is mapped to the pack that has it. -/
theorem exists_mapping (hpackable : ∀ pages ∈ packChunks changed, Packable imagePageSize pages)
    {page : ℕ} {bytes : Bytes} (h : (page, bytes) ∈ changed.entries) :
    ∃ e ∈ changedMappings digest changed, Maps digest changed page bytes e := by
  have hnumber : page ∈ (changedMappings digest changed).map PageMapEntry.pageNumber := by
    rw [map_pageNumber_changedMappings]
    exact List.mem_map_of_mem (f := Prod.fst) h
  obtain ⟨e, he, rfl⟩ := List.mem_map.mp hnumber
  obtain ⟨bytes', hbytes', hmaps⟩ := maps_of_mem hpackable he
  have hnodup : (changed.entries.map Prod.fst).Nodup :=
    List.pairwise_map.mpr (changed.sorted.imp Nat.ne_of_lt)
  have hsame := List.inj_on_of_nodup_map hnodup h hbytes' rfl
  cases hsame
  exact ⟨e, he, hmaps⟩

/-- The mappings are of the source's types. -/
theorem inRange_changedMappings
    (hpackable : ∀ pages ∈ packChunks changed, Packable imagePageSize pages) :
    ∀ e ∈ changedMappings digest changed, e.InRange := by
  intro e he
  obtain ⟨pages, hpages, he⟩ := List.mem_flatMap.mp he
  obtain ⟨entry, hentry, rfl⟩ := List.mem_map.mp he
  have hpack := hpackable pages hpages
  have hlength : (packBytes digest pages).length < 18446744073709551616 := by
    rw [packBytes, PagePack.length_packOf digest hpack]
    exact hpack.total
  obtain ⟨bytes, hbytes, hinside, -⟩ := PagePack.payload_packOf digest hpack hentry
  have hsize : entry.storedLength = 4096 ∧ entry.rawLength = 4096 := by
    obtain ⟨j, hj, rfl⟩ := PagePack.mem_entriesOf hentry
    exact ⟨rfl, rfl⟩
  have hreference : (packReference digest pages).InRange := by
    refine ⟨safe_pagePackUri _, ?_, hlength⟩
    rw [packReference, length_pagePackUri]
    decide
  refine ⟨pages.fits _ hbytes, hreference, ?_, ?_, ?_⟩
  · change entry.offset < _
    rw [← packBytes] at hinside
    omega
  · change entry.storedLength < _
    omega
  · change entry.rawLength < _
    omega

end Packs

section Build

/-- The pages below a root; without a root there are none. -/
def rootPages (root : Option Tree) : List PageMapEntry := (root.map Tree.pages).getD []

/-- A node of the parent's tree, if there is a parent. -/
def BelowRoot (root : Option Tree) (s : Tree) : Prop := ∃ t ∈ root, s ∈ t.subtrees

/-- What a new tree is: it holds the parent's pages overridden by the mappings of the changed pages,
and its nodes and packs are the parent's or are stored. -/
structure Built (digest : Digest) (parent : Option Tree) (changed : Pages) (eof : ℕ)
    (root : Option Tree) (artifacts : Artifacts) : Prop where
  encoded : ∀ pages ∈ packChunks changed,
    encodePagePack digest imagePageSize pages = .ok (packBytes digest pages)
  within : ∀ page ∈ changed.entries, page.1 ≤ eof
  update : PageUpdate eof (rootPages parent) (changedMappings digest changed) (rootPages root)
  wellFormed : ∀ t ∈ root, t.WellFormed digest
  origin : ∀ t ∈ root, ∀ s ∈ t.subtrees, Origin (BelowRoot parent) artifacts s
  packs : ∀ pages ∈ packChunks changed, (packReference digest pages).uri ∈ artifacts
  objects : ∀ (uri : String) (a : Artifact), artifacts[uri]? = some a →
    a.uri = uri ∧ (IsNode digest a ∨ IsPack digest (packChunks changed) a)

/-- Adapting the errors of a bounded computation does not change what it gives. -/
theorem adapt_eq_given_ok {ε ε' α : Type} {f : ε → ε'} {x : Bounded ε α} {a : α} :
    x.adapt f = given (.ok a) ↔ x = given (.ok a) := by
  match x with
  | none => exact ⟨nofun, nofun⟩
  | some (.error e) => exact ⟨nofun, nofun⟩
  | some (.ok b) =>
    constructor
    · intro h
      cases given_injective h
      rfl
    · intro h
      cases given_injective h
      rfl

/-- The roots after an update hold the overridden pages. -/
theorem updatedRoots_updates {ts : List Tree}
    (hparent : ∀ t ∈ parent, t.WellFormed digest ∧ Ascending t.pages)
    (hmappings : Ascending mappings) (hrange : ∀ e ∈ mappings, e.InRange)
    (h : updatedRoots digest passes parent mappings eof artifacts = given (.ok (ts, artifacts'))) :
    ∃ level, Updates digest (BelowRoot parent) eof level (rootPages parent) mappings artifacts ts
      artifacts' := by
  cases parent with
  | some tree =>
    obtain ⟨hwell, hsorted⟩ := hparent tree rfl
    exact ⟨_, update_updates hwell hsorted (fun s hs => ⟨tree, rfl, hs⟩) hmappings hrange h⟩
  | none =>
    obtain ⟨hpages, hrow, hgrows⟩ : _ ∧ Row digest (BelowRoot none) _ 0 _ ∧ _ :=
      leafNodes_row hrange h
    refine ⟨0, ⟨hpages ▸ hmappings, fun e => ?_⟩, hrow, hgrows⟩
    rw [hpages]
    exact ⟨fun he => .inl he, fun he => he.elim id fun hold => nomatch hold.1⟩

/-- A new tree is built from the parent's pages and the changed pages. -/
theorem built_of_buildTree (hparent : ∀ t ∈ parent, t.WellFormed digest ∧ Ascending t.pages)
    (h : buildTree digest passes parent changed eof = given (.ok (root, artifacts))) :
    Built digest parent changed eof root artifacts := by
  rw [buildTree] at h
  obtain ⟨⟨mappings, packed⟩, hpacked, h⟩ := bind_eq_given_ok.mp h
  obtain ⟨⟨roots, last⟩, hroots, h⟩ := bind_eq_given_ok.mp h
  cases h
  obtain ⟨rfl, hall, -, hstored, hobjects⟩ := packAll_eq_ok (given_injective hpacked)
  have hpackable := fun pages hpages => (PagePack.encodePagePack_eq_ok (hall pages hpages).1).1
  obtain ⟨⟨updated, middle⟩, hupdated, hjoined⟩ := bind_eq_given_ok.mp (adapt_eq_given_ok.mp hroots)
  obtain ⟨level, hupdates⟩ := updatedRoots_updates hparent
    (ascending_changedMappings digest changed) (inRange_changedMappings hpackable) hupdated
  obtain ⟨hpages, ⟨height, hrow⟩, hgrows⟩ := joinRoots_row hupdates.row hjoined
  have hgrown := hupdates.grows.trans hgrows
  have hfinal : ∀ t ∈ roots.getLast?.map collapse, ∃ r ∈ roots, t = collapse r := by
    intro t ht
    obtain ⟨r, hr, rfl⟩ := Option.mem_map.mp ht
    exact ⟨r, List.mem_of_getLast? hr, rfl⟩
  refine ⟨fun pages hpages => (hall pages hpages).1, fun page hpage => ?_, ?_, fun t ht => ?_,
    fun t ht s hs => ?_,
    fun pages hpages => hgrown.kept _ (hstored pages hpages), fun uri a ha => ?_⟩
  · rw [← flatMap_packChunks changed] at hpage
    obtain ⟨pages, hpages, hpage⟩ := List.mem_flatMap.mp hpage
    exact (hall pages hpages).2 page hpage
  · have hsame : rootPages (roots.getLast?.map collapse) = roots.flatMap Tree.pages := by
      have hfew := length_joinRoots_le hjoined
      match roots, hfew, hrow with
      | [], _, _ => rfl
      | [r], _, hrow =>
        rw [List.flatMap_singleton]
        exact (collapse_spec (hrow.wellFormed r List.mem_cons_self)).2
    rw [hsame, hpages]
    exact hupdates.pages
  · obtain ⟨r, hr, rfl⟩ := hfinal t ht
    have hwell := hrow.wellFormed r hr
    exact hwell.subtree (collapse_spec hwell).1
  · obtain ⟨r, hr, rfl⟩ := hfinal t ht
    exact hrow.origin r hr s
      (Tree.mem_subtrees_trans (collapse_spec (hrow.wellFormed r hr)).1 hs)
  · obtain ha | ⟨huri, hnode⟩ := hgrown.added uri a ha
    · obtain ha | ⟨huri, hpack⟩ := hobjects uri a ha
      · rw [Std.ExtTreeMap.getElem?_empty] at ha
        cases ha
      · exact ⟨huri, .inr hpack⟩
    · exact ⟨huri, .inl hnode⟩

end Build

end Otmp.Physical
