import Otmp.CowWriter.Refinement
import Otmp.Runtime.PageTreeRuns

/-!
# Incremental images and the flat file

A published image is a base checkpoint under a page tree. Each publication runs the calls of a
database over the image before it, freezes the overlay and persists its changed pages. However long
the run, the page table over the checkpoint shows exactly the flat file to which all calls were
made.
-/

namespace Otmp.Physical

open Foundation
open CowWriter (Call Overlay FrozenImage Flat.step Represents)
open PagePack (Pages)

variable {digest : Digest}

/-- The changed pages of a frozen image, in order. -/
def frozenPages (frozen : FrozenImage) : List (ℕ × Bytes) :=
  frozen.changed.toList.map fun p => (p.1, p.2.val)

/-- The page of an image, as bytes, counted from one. -/
def pageBytes (image : Bytes) (page : ℕ) : Bytes := slice image (4096 * (page - 1)) 4096

/-- The images that are published, as a base checkpoint, the root of a page tree and the flat file
they stand for. A whole checkpoint stands for itself. A changed image keeps the checkpoint and
gets the tree that is built over the one before. -/
inductive Published (digest : Digest) : Bytes → Option Tree → Bytes → Prop
  | whole {checkpoint : Bytes} (aligned : checkpoint.length % 4096 = 0) :
      Published digest checkpoint none checkpoint
  | changed {checkpoint image : Bytes} {parent : Option Tree} {root : Tree} {calls : List Call}
      {overlay : Overlay} {frozen : FrozenImage} {changed : Pages} {passes : ℕ}
      {artifacts : Artifacts} :
      Published digest checkpoint parent image →
      runAll Overlay.step (Overlay.new image) calls = .ok overlay →
      overlay.closeAndFreeze = .ok frozen →
      changed.entries = frozenPages frozen →
      buildTree digest passes parent changed (frozen.length / 4096) =
        given (.ok (some root, artifacts)) →
      Published digest checkpoint (some root) (calls.foldl Flat.step image)

/-- A page is where a reader of the image looks for it: in the pack that its entry names, or else
in the checkpoint. -/
def Located (digest : Digest) (checkpoint : Bytes) (page : ℕ) (bytes : Bytes) :
    Option PageMapEntry → Prop
  | some e => ∃ changed, Maps digest changed page bytes e
  | none => getRange? checkpoint (4096 * (page - 1)) (4096 * page) = some bytes

/-- What holds of a published image: its tree is well formed, and every page of the flat file is
where the tree or the checkpoint says. -/
structure ShowsFlat (digest : Digest) (checkpoint : Bytes) (root : Option Tree) (image : Bytes) :
    Prop where
  wellFormed : ∀ t ∈ root, t.WellFormed digest ∧ Ascending t.pages
  located : ∀ page, 1 ≤ page → 4096 * page ≤ image.length →
    Located digest checkpoint page (pageBytes image page) (flattenRoot root)[page]?
  inside : ∀ (page : ℕ) (e : PageMapEntry), (flattenRoot root)[page]? = some e →
    1 ≤ page ∧ 4096 * page ≤ image.length

section Steps

variable {checkpoint image flat : Bytes} {parent : Option Tree} {root : Tree} {overlay : Overlay}
  {frozen : FrozenImage} {changed : Pages} {artifacts : Artifacts} {page : ℕ}

/-- A frozen image has the length of the overlay and its changed pages. -/
theorem freeze_eq_ok (h : overlay.closeAndFreeze = .ok frozen) :
    frozen.length = overlay.length ∧ frozen.changed = overlay.changedPages := by
  unfold Overlay.closeAndFreeze at h
  by_cases hfailed : overlay.failed = true
  · rw [if_pos hfailed] at h
    cases h
  · rw [if_neg hfailed] at h
    by_cases haligned : overlay.length % 4096 ≠ 0
    · rw [dif_pos haligned] at h
      cases h
    · rw [dif_neg haligned] at h
      cases h
      exact ⟨rfl, rfl⟩

/-- The changed pages of a frozen overlay are pages of the flat file. -/
theorem mem_frozenPages (hrep : Represents image overlay flat)
    (hfreeze : overlay.closeAndFreeze = .ok frozen) {bytes : Bytes} :
    (page, bytes) ∈ frozenPages frozen ↔ 1 ≤ page ∧ 4096 * page ≤ flat.length ∧
      bytes = pageBytes flat page ∧
      getRange? image (4096 * (page - 1)) (4096 * page) ≠ some bytes := by
  obtain ⟨hlength, hchanged⟩ := freeze_eq_ok hfreeze
  have haligned : flat.length % 4096 = 0 := by
    rw [hrep.length_eq, ← hlength]
    exact frozen.aligned
  rw [frozenPages, hchanged, List.mem_map]
  constructor
  · rintro ⟨⟨n, content⟩, hmem, heq⟩
    cases heq
    exact (hrep.changedPages_iff haligned).mp
      (Std.ExtTreeMap.mem_toList_iff_getElem?_eq_some.mp hmem)
  · rintro ⟨hlow, hhigh, rfl, hdiff⟩
    have hpage : (pageBytes flat page).length = 4096 := length_slice (by omega)
    refine ⟨(page, ⟨pageBytes flat page, hpage⟩), ?_, rfl⟩
    exact Std.ExtTreeMap.mem_toList_iff_getElem?_eq_some.mpr
      ((hrep.changedPages_iff haligned).mpr ⟨hlow, hhigh, rfl, hdiff⟩)

/-- A page that is not changed is a page of the image before. -/
theorem getRange?_of_unchanged (hrep : Represents image overlay flat)
    (hfreeze : overlay.closeAndFreeze = .ok frozen) (hlow : 1 ≤ page)
    (hhigh : 4096 * page ≤ flat.length) (hother : page ∉ (frozenPages frozen).map Prod.fst) :
    4096 * page ≤ image.length ∧ pageBytes image page = pageBytes flat page := by
  have hsame : getRange? image (4096 * (page - 1)) (4096 * page) = some (pageBytes flat page) := by
    by_contra hdiff
    have hmem := (mem_frozenPages hrep hfreeze).mpr ⟨hlow, hhigh, rfl, hdiff⟩
    exact hother (List.mem_map_of_mem (f := Prod.fst) hmem)
  obtain ⟨-, hinside, hslice⟩ := getRange?_eq_some.mp hsame
  have hwidth : 4096 * page - 4096 * (page - 1) = 4096 := by omega
  rw [hwidth] at hslice
  exact ⟨hinside, hslice⟩

/-- A whole checkpoint shows itself: each page is in the checkpoint, and no table is needed. -/
theorem ShowsFlat.start (checkpoint : Bytes) : ShowsFlat digest checkpoint none checkpoint := by
  refine ⟨nofun, fun page hlow hhigh => ?_, fun page e hentry => ?_⟩
  · rw [flattenRoot, Std.ExtTreeMap.getElem?_empty]
    have hwidth : 4096 * page - 4096 * (page - 1) = 4096 := by omega
    refine getRange?_eq_some.mpr ⟨by omega, hhigh, ?_⟩
    rw [hwidth, pageBytes]
  · rw [flattenRoot, Std.ExtTreeMap.getElem?_empty] at hentry
    cases hentry

/-- A changed image shows the flat file after the calls. -/
theorem ShowsFlat.publish (h : ShowsFlat digest checkpoint parent image)
    (hrep : Represents image overlay flat) (hfreeze : overlay.closeAndFreeze = .ok frozen)
    (hentries : changed.entries = frozenPages frozen)
    (hbuilt : Built digest parent changed (frozen.length / 4096) (some root) artifacts) :
    ShowsFlat digest checkpoint (some root) flat := by
  obtain ⟨hchanged, hunchanged⟩ := hbuilt.flattenRoot_eq h.wellFormed
  obtain ⟨hlength, -⟩ := freeze_eq_ok hfreeze
  have heof : frozen.length = flat.length := hlength.trans hrep.length_eq.symm
  refine ⟨fun t ht => ?_, fun page hlow hhigh => ?_, fun page e hentry => ?_⟩
  · cases Option.mem_def.mp ht
    exact ⟨hbuilt.wellFormed root rfl, hbuilt.update.ascending⟩
  · by_cases hmem : page ∈ changed.entries.map Prod.fst
    · obtain ⟨⟨n, bytes⟩, hp, rfl⟩ := List.mem_map.mp hmem
      obtain ⟨e, hentry, hmaps⟩ := hchanged n bytes hp
      obtain ⟨-, -, rfl, -⟩ := (mem_frozenPages hrep hfreeze).mp (hentries ▸ hp)
      rw [hentry]
      exact ⟨changed, hmaps⟩
    · have hother := hmem
      rw [hentries] at hother
      obtain ⟨hinside, hsame⟩ := getRange?_of_unchanged hrep hfreeze hlow hhigh hother
      have hwithin : page ≤ frozen.length / 4096 := by omega
      rw [hunchanged page hmem, if_pos hwithin, ← hsame]
      exact h.located page hlow hinside
  · by_cases hmem : page ∈ changed.entries.map Prod.fst
    · obtain ⟨⟨n, bytes⟩, hp, rfl⟩ := List.mem_map.mp hmem
      obtain ⟨hlow, hhigh, -, -⟩ := (mem_frozenPages hrep hfreeze).mp (hentries ▸ hp)
      exact ⟨hlow, hhigh⟩
    · rw [hunchanged page hmem] at hentry
      by_cases hwithin : page ≤ frozen.length / 4096
      · rw [if_pos hwithin] at hentry
        exact ⟨(h.inside page e hentry).1, by omega⟩
      · rw [if_neg hwithin] at hentry
        cases hentry

end Steps

/-- **Incremental images show the flat file.** Whatever images are published over a checkpoint, each
from the calls of a database over the one before, every page of the flat file is either in the pack
that the page table names for it, under its hash, or is the same page of the checkpoint when the
table has no entry for it; and the table has no entry behind the end of the file. -/
theorem incremental_images_exact (digest : Digest) {checkpoint image : Bytes} {root : Option Tree}
    (h : Published digest checkpoint root image) :
    (∀ page, 1 ≤ page → 4096 * page ≤ image.length →
      Located digest checkpoint page (pageBytes image page) (flattenRoot root)[page]?) ∧
    ∀ (page : ℕ) (e : PageMapEntry), (flattenRoot root)[page]? = some e →
      1 ≤ page ∧ 4096 * page ≤ image.length := by
  have hshows : ShowsFlat digest checkpoint root image := by
    induction h with
    | whole => exact .start _
    | changed _ hrun hfreeze hentries hbuild ih =>
      exact ih.publish (.run hrun) hfreeze hentries (built_of_buildTree ih.wellFormed hbuild)
  exact ⟨hshows.located, hshows.inside⟩

section Sample

/-- The calls that append three pages. -/
private def firstCalls : List Call :=
  [.writePage 2 (evenPage 7), .writePage 3 (evenPage 7), .writePage 4 (evenPage 7)]

/-- The calls that replace a page and cut the last one. -/
private def secondCalls : List Call := [.writePage 3 (evenPage 9), .truncate 12288]

/-- The image that some calls freeze to. -/
private def frozenOver (image : Bytes) (calls : List Call) : Option FrozenImage := do
  let overlay ← (runAll Overlay.step (Overlay.new image) calls).toOption
  overlay.closeAndFreeze.toOption

/-- The flat file after the first calls. -/
private def firstImage : Bytes := evenPage 0 ++ evenPage 7 ++ evenPage 7 ++ evenPage 7

/-- The flat file after all calls. -/
private def secondImage : Bytes := evenPage 0 ++ evenPage 7 ++ evenPage 9

/-- A sample page has the length of a page. -/
private theorem length_evenPage (byte : UInt8) : (evenPage byte).length = 4096 :=
  List.length_replicate

/-- Writing the page behind the last one appends it. -/
private theorem writePage_behind {a buffer : Bytes} {n : ℕ} (ha : a.length = 4096 * n)
    (hbuffer : buffer.length = 4096) :
    Flat.step a (.writePage (n + 1) buffer) = a ++ buffer := by
  have hmax : max a.length (4096 * (n + 1)) = a.length + 4096 := by omega
  have htake : a.take (a.length + 4096) = a := List.take_of_length_le (by omega)
  rw [Flat.step, CowWriter.Flat.writePage, hmax, resize, htake, Nat.add_sub_cancel_left,
    Nat.add_sub_cancel, ← ha, overwrite, List.take_left, List.drop_of_length_le, List.append_nil]
  rw [List.length_append, List.length_replicate, hbuffer]

/-- Writing a page that the file has replaces its bytes. -/
private theorem writePage_over {a page rest buffer : Bytes} {n : ℕ} (ha : a.length = 4096 * n)
    (hpage : page.length = 4096) (hbuffer : buffer.length = 4096) :
    Flat.step (a ++ page ++ rest) (.writePage (n + 1) buffer) = a ++ buffer ++ rest := by
  have hmax : max (a ++ page ++ rest).length (4096 * (n + 1)) = (a ++ page ++ rest).length := by
    simp only [List.length_append]
    omega
  have hcut : a.length + buffer.length = (a ++ page).length := by
    rw [List.length_append, hpage, hbuffer]
  rw [Flat.step, CowWriter.Flat.writePage, hmax, resize, List.take_length, Nat.sub_self,
    List.replicate_zero, List.append_nil, Nat.add_sub_cancel, ← ha, overwrite, hcut, List.drop_left,
    List.append_assoc a page, List.take_left]

/-- Cutting at the end of some pages leaves those pages. -/
private theorem truncate_behind {a rest : Bytes} {len : ℕ} (ha : a.length = len) :
    Flat.step (a ++ rest) (.truncate len) = a := by
  subst ha
  rw [Flat.step, CowWriter.Flat.truncate, resize, List.take_left, List.length_append,
    Nat.sub_self_add, List.replicate_zero, List.append_nil]

/-- The bytes of a page in the middle of a file. -/
private theorem pageBytes_middle {a page rest : Bytes} {n : ℕ} (ha : a.length = 4096 * n)
    (hpage : page.length = 4096) : pageBytes (a ++ page ++ rest) (n + 1) = page := by
  rw [pageBytes, Nat.add_sub_cancel, ← ha, ← hpage, slice, List.append_assoc, List.drop_left,
    List.take_left]

/-- The first calls append three pages to the checkpoint. -/
private theorem foldl_firstCalls : firstCalls.foldl Flat.step (evenPage 0) = firstImage := by
  have hlength := length_evenPage
  have hpages : (evenPage 0 ++ evenPage 7).length = 4096 * 2 := by simp [hlength]
  have hmore : (evenPage 0 ++ evenPage 7 ++ evenPage 7).length = 4096 * 3 := by simp [hlength]
  simp only [firstCalls, List.foldl_cons, List.foldl_nil]
  rw [@writePage_behind (evenPage 0) _ 1 (hlength 0) (hlength 7),
    writePage_behind hpages (hlength 7), writePage_behind hmore (hlength 7), firstImage]

/-- The second calls replace the third page and cut the fourth. -/
private theorem foldl_secondCalls : secondCalls.foldl Flat.step firstImage = secondImage := by
  have hlength := length_evenPage
  have hpages : (evenPage 0 ++ evenPage 7).length = 4096 * 2 := by simp [hlength]
  have hall : (evenPage 0 ++ evenPage 7 ++ evenPage 9).length = 12288 := by simp [hlength]
  simp only [secondCalls, List.foldl_cons, List.foldl_nil]
  rw [firstImage, writePage_over hpages (hlength 7) (hlength 9), truncate_behind hall, secondImage]

/-- The three pages of the last flat file. -/
private theorem pageBytes_secondImage : pageBytes secondImage 1 = evenPage 0 ∧
    pageBytes secondImage 2 = evenPage 7 ∧ pageBytes secondImage 3 = evenPage 9 := by
  have hlength := length_evenPage
  have hpages : (evenPage 0 ++ evenPage 7).length = 4096 * 2 := by simp [hlength]
  refine ⟨?_, ?_, ?_⟩
  · have h := @pageBytes_middle [] (evenPage 0) (evenPage 7 ++ evenPage 9) 0 rfl (hlength 0)
    rwa [List.nil_append, ← List.append_assoc] at h
  · exact @pageBytes_middle (evenPage 0) (evenPage 7) (evenPage 9) 1 (hlength 0) (hlength 7)
  · have h := @pageBytes_middle (evenPage 0 ++ evenPage 7) (evenPage 9) [] 2 hpages (hlength 9)
    rwa [List.append_nil] at h

/-- A frozen image has a length and the changed pages of a persisted image. -/
private def freezesTo (changed : Pages) (length : ℕ) (frozen : FrozenImage) : Bool :=
  frozenPages frozen == changed.entries && frozen.length == length

/-- The first calls freeze to the three appended pages. -/
private theorem any_firstCalls :
    (frozenOver (evenPage 0) firstCalls).any (freezesTo firstPages 16384) = true := by
  decide +kernel

/-- The second calls freeze to the replaced page, without the one that was cut. -/
private theorem any_secondCalls :
    (frozenOver firstImage secondCalls).any (freezesTo secondPages 12288) = true := by
  decide +kernel

/-- Calls that freeze to some pages give the overlay and the frozen image that a publication needs.
-/
private theorem exists_frozen {image : Bytes} {calls : List Call} {changed : Pages} {length : ℕ}
    (h : (frozenOver image calls).any (freezesTo changed length) = true) : ∃ overlay frozen,
    runAll Overlay.step (Overlay.new image) calls = .ok overlay ∧
      overlay.closeAndFreeze = .ok frozen ∧ changed.entries = frozenPages frozen ∧
      frozen.length = length := by
  obtain ⟨frozen, hfrozen, hshape⟩ := (Option.any_eq_true _ _).mp h
  obtain ⟨overlay, hrun, hfreeze⟩ := Option.bind_eq_some_iff.mp hfrozen
  rw [freezesTo, Bool.and_eq_true, beq_iff_eq, beq_iff_eq] at hshape
  exact ⟨overlay, frozen, toOption_eq_some.mp hrun, toOption_eq_some.mp hfreeze, hshape.1.symm,
    hshape.2⟩

/-- Two publications over a checkpoint of one page: the page is left in the checkpoint, the next
one is in a pack of the first publication, the one after it is replaced by the second, and the last
one is cut. -/
theorem incremental_images_exact_second : ∃ root : Tree,
    Published lengthDigest (evenPage 0) (some root) secondImage ∧
    ((flattenRoot (some root))[1]? = none ∧
      getRange? (evenPage 0) 0 4096 = some (evenPage 0)) ∧
    (∃ changed, ∃ e ∈ (flattenRoot (some root))[2]?, Maps lengthDigest changed 2 (evenPage 7) e) ∧
    (∃ changed, ∃ e ∈ (flattenRoot (some root))[3]?, Maps lengthDigest changed 3 (evenPage 9) e) ∧
    (flattenRoot (some root))[4]? = none := by
  obtain ⟨first, root, made, made', _, hfirst, hsecond, -, -, -, -, hone, -⟩ := exists_sampleRun
  obtain ⟨_, frozen, hrun, hfreeze, hchanged, hlength⟩ := exists_frozen any_firstCalls
  obtain ⟨_, frozen', hrun', hfreeze', hchanged', hlength'⟩ := exists_frozen any_secondCalls
  have hwhole : Published lengthDigest (evenPage 0) none (evenPage 0) := .whole (by decide +kernel)
  have hmiddle : Published lengthDigest (evenPage 0) (some first) firstImage := by
    have hbuild : buildTree lengthDigest 1 none firstPages (frozen.length / 4096) =
        given (.ok (some first, made)) := by
      rw [hlength]
      exact hfirst
    rw [← foldl_firstCalls]
    exact .changed hwhole hrun hfreeze hchanged hbuild
  have hlast : Published lengthDigest (evenPage 0) (some root) secondImage := by
    have hbuild : buildTree lengthDigest 3 (some first) secondPages (frozen'.length / 4096) =
        given (.ok (some root, made')) := by
      rw [hlength']
      exact hsecond
    rw [← foldl_secondCalls]
    exact .changed hmiddle hrun' hfreeze' hchanged' hbuild
  obtain ⟨hlocated, hinside⟩ := incremental_images_exact lengthDigest hlast
  have hsize : secondImage.length = 12288 := by simp [secondImage, length_evenPage]
  obtain ⟨hpage, hpage', hpage''⟩ := pageBytes_secondImage
  have hbeyond : ∀ start stop, 4096 < stop → getRange? (evenPage 0) start stop = none := by
    intro start stop hstop
    cases hrange : getRange? (evenPage 0) start stop with
    | none => rfl
    | some bytes =>
      have hle := (getRange?_eq_some.mp hrange).2.1
      rw [evenPage, List.length_replicate] at hle
      omega
  have hpacked : ∀ page bytes, 1 < page → page ≤ 3 → pageBytes secondImage page = bytes →
      ∃ changed, ∃ e ∈ (flattenRoot (some root))[page]?,
        Maps lengthDigest changed page bytes e := by
    rintro page _ hlow hhigh rfl
    have hfound := hlocated page hlow.le (by omega)
    cases hentry : (flattenRoot (some root))[page]? with
    | none =>
      rw [hentry, Located, hbeyond _ _ (by omega)] at hfound
      cases hfound
    | some e =>
      rw [hentry] at hfound
      obtain ⟨changed, hmaps⟩ := hfound
      exact ⟨changed, e, rfl, hmaps⟩
  have hleft : (flattenRoot (some root))[1]? = none := Std.ExtTreeMap.getElem?_eq_none hone
  refine ⟨root, hlast, ⟨hleft, ?_⟩, hpacked 2 _ (by decide) (by decide) hpage',
    hpacked 3 _ (by decide) (by decide) hpage'', ?_⟩
  · have hfound := hlocated 1 (Nat.le_refl 1) (by omega)
    rwa [hleft, hpage] at hfound
  · cases hentry : (flattenRoot (some root))[4]? with
    | none => rfl
    | some e =>
      have hle := (hinside 4 e hentry).2
      omega

end Sample

end Otmp.Physical
